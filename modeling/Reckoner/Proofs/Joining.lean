import Reckoner.Proofs.Rewriting

/-!
# Tokens that are left stay apart

Simplifying brings tokens next to each other that were not neighbours in the source. Inside an
expression this does no harm: where an operand ends, only an operator, a closing bracket or a hidden
token comes next, and an operator is followed by the beginning of an operand or by what followed it
before. Between the arguments of a printing statement and between statements there is nothing that
keeps the tokens apart, so that this has to be asked for: `Stmt.KeptApart`.
-/
namespace Reckoner

open Lexeme

/-! ## Kinds that go together -/

namespace TokenKind

/-- Whether a token of this kind may end an expression or a statement, or the blanks behind it. -/
def endsPiece : TokenKind → Bool
  | blank | number | string | yes | no | identifier | vars | closeParen | closeBrace => true
  | _ => false

/-- Whether a token of this kind may come right after the end of an expression or a statement. -/
def follows : TokenKind → Bool
  | blank | comment | plus | minus | star | slash | caret
  | equal | unequal | less | greater | lessEqual | greaterEqual | and | or
  | assign | question | colon | closeParen | closeBrace => true
  | _ => false

/-- Whether a token of this kind is followed by an operand. -/
def opens : TokenKind → Bool
  | plus | minus | star | slash | caret
  | equal | unequal | less | greater | lessEqual | greaterEqual | and | or | not
  | assign | question | colon | openParen => true
  | _ => false

theorem follows_of_hidden {k : TokenKind} (h : k.hidden = true) : k.follows = true := by
  cases k <;> simp_all [hidden, follows]

theorem IsLiteral.endsPiece {k : TokenKind} (h : k.IsLiteral) : k.endsPiece = true := by
  rcases h with rfl | rfl | rfl | rfl <;> rfl

end TokenKind

theorem BinaryOp.follows_token (op : BinaryOp) : op.token.follows = true := by
  rcases op with (_ | _ | _ | _ | _) | (_ | _ | _ | _ | _ | _) | (_ | _) <;> rfl

theorem BinaryOp.opens_token (op : BinaryOp) : op.token.opens = true := by
  rcases op with (_ | _ | _ | _ | _) | (_ | _ | _ | _ | _ | _) | (_ | _) <;> rfl

theorem UnaryOp.opens_token (op : UnaryOp) : op.token.opens = true := by
  cases op <;> rfl

namespace Token

/-- What may follow the end of an expression begins with a byte that continues no word and no
number. -/
theorem Written.exists_text_of_follows {t : Token} (h : t.Written) (hk : t.kind.follows = true) :
    ∃ b bs, t.text = b :: bs ∧ isWordByte b = false ∧ isNumeral b = false ∧ b ≠ Text.byte '.' := by
  obtain ⟨kind, text, literal, pos, index⟩ := t
  cases kind with
  | blank =>
    obtain ⟨hne, hall⟩ : text ≠ [] ∧ ∀ b ∈ text, Text.isBlank b = true := h
    obtain ⟨b, bs, rfl⟩ := List.exists_cons_of_ne_nil hne
    have hb := hall b List.mem_cons_self
    refine ⟨b, bs, rfl, ?_⟩
    grind [Text.isBlank, isWordByte, isNumeral, Text.isLetter, Text.isDigit]
  | comment =>
    obtain ⟨body, rfl, -⟩ := h
    exact ⟨_, _, rfl, by decide, by decide, by decide⟩
  | eof | number | string | yes | no | identifier | print | vars | inspect | not | openParen
  | openBrace => simp [TokenKind.follows] at hk
  | _ =>
    cases h.1
    exact ⟨_, _, rfl, by decide, by decide, by decide⟩

theorem apart_of_follows {t u : Token} (ht : t.kind.endsPiece = true) (hu : u.Written)
    (hk : u.kind.follows = true) : t.Apart u := by
  obtain ⟨b, bs, htext, hword, hnumeral, hpoint⟩ := hu.exists_text_of_follows hk
  obtain ⟨kind, text, literal, pos, index⟩ := t
  cases kind <;> simp_all [TokenKind.endsPiece, Apart, EndsBefore]

/-- An operand does not begin with a byte that makes an operator longer. -/
theorem Spelled.exists_text_of_startsExpr {t : Token} (h : t.Spelled)
    (hk : t.kind.startsExpr = true) :
    ∃ b bs, t.text = b :: bs ∧ b ≠ Text.byte '=' ∧ b ≠ Text.byte '/' := by
  obtain ⟨kind, text, literal, pos, index⟩ := t
  cases kind with
  | number =>
    obtain ⟨hnumber, -⟩ : IsNumber text ∧ literal = [] := h
    rcases hnumber with hdigits | ⟨whole, fraction, rfl, rfl | hwhole, -⟩
    · obtain ⟨b, bs, rfl, hb, -⟩ := hdigits.exists_cons
      exact ⟨b, bs, rfl, by grind [Text.isDigit]⟩
    · exact ⟨_, _, rfl, by decide, by decide⟩
    · obtain ⟨b, bs, rfl, hb, -⟩ := hwhole.exists_cons
      exact ⟨b, _, rfl, by grind [Text.isDigit]⟩
  | string =>
    obtain ⟨quote, body, hquote, rfl, -⟩ : ∃ quote body, isQuote quote = true ∧
      text = quote :: (body ++ [quote]) ∧ Quotes quote body literal := h
    exact ⟨quote, _, rfl, by grind [isQuote]⟩
  | identifier =>
    obtain ⟨hword, -⟩ := h
    cases text with
    | nil => exact absurd hword id
    | cons b bs => exact ⟨b, bs, rfl, by grind [IsWord, Text.isLetter]⟩
  | yes | no | not | minus | openParen =>
    cases h.1
    exact ⟨_, _, rfl, by decide, by decide⟩
  | _ => simp [TokenKind.startsExpr] at hk

theorem apart_of_opens {t u : Token} (ht : t.kind.opens = true) (hu : u.Spelled)
    (hk : u.kind.startsExpr = true) : t.Apart u := by
  obtain ⟨b, bs, htext, heq, hslash⟩ := hu.exists_text_of_startsExpr hk
  obtain ⟨kind, text, literal, pos, index⟩ := t
  cases kind <;> simp_all [TokenKind.opens, Apart, EndsBefore]

theorem apart_of_blank {t : Token} (ht : t.kind = .blank) (u : Token) : t.Apart u := by
  simp [Apart, EndsBefore, ht]

theorem apart_of_openBrace {t : Token} (ht : t.kind = .openBrace) (u : Token) : t.Apart u := by
  simp [Apart, EndsBefore, ht]

/-- A hidden token right in front of one that is not hidden is a blank: a comment goes on up to the
end of its line. -/
theorem kind_eq_blank_of_apart {t u : Token} (ht : t.hidden = true) (h : t.Apart u)
    (hu : u.Spelled) : t.kind = .blank := by
  obtain ⟨b, bs, htext, hb⟩ := hu.exists_text_eq_cons
  obtain ⟨kind, text, literal, pos, index⟩ := t
  cases kind with
  | blank => rfl
  | comment =>
    have hnewline : b = Text.newline := h b (by simp [htext])
    subst hnewline
    cases hb
  | _ => simp [hidden, TokenKind.hidden] at ht

/-! ## Tokens with what stands in front of them -/

variable {lead : Token → List Token} {ts us : List Token} {s t : Token}

/-- Some tokens are written, with hidden ones in front of them, and each is apart from the next. -/
structure Legible (lead : Token → List Token) (ts : List Token) : Prop where
  spelled : ∀ t ∈ ts, t.Spelled
  hidden : ∀ t ∈ ts, ∀ u ∈ lead t, u.hidden = true ∧ u.Written
  chain : (laid lead ts).IsChain Apart

theorem Legible.part (h : Legible lead ts) (hs : us <:+: ts) : Legible lead us := by
  obtain ⟨before, after, rfl⟩ := hs
  refine ⟨fun t ht => h.spelled t (by simp [ht]), fun t ht => h.hidden t (by simp [ht]), ?_⟩
  have hchain := h.chain
  rw [laid_append, laid_append] at hchain
  exact hchain.left_of_append.right_of_append

theorem Legible.chain_lead (h : Legible lead [t]) : (lead t ++ [t]).IsChain Apart := by
  simpa [laid_cons] using h.chain

theorem Legible.chain_pair (h : Legible lead [s, t]) : (s :: lead t ++ [t]).IsChain Apart := by
  have hchain := h.chain
  rw [laid_cons, laid_cons, laid_nil] at hchain
  exact hchain.right_of_append

theorem Legible.written_pair (h : Legible lead [s, t]) : ∀ u ∈ s :: lead t, u.Written :=
  List.forall_mem_cons.mpr ⟨(h.spelled s (by simp)).written, fun u hu =>
    (h.hidden t (by simp) u hu).2⟩

theorem Legible.kind_last_lead (h : Legible lead [t]) {u : Token} (hu : u ∈ (lead t).getLast?) :
    u.kind = .blank := by
  have hhidden := (h.hidden t (by simp) u (List.mem_of_getLast? hu)).1
  have happart := (List.isChain_append.mp h.chain_lead).2.2 u hu t rfl
  exact kind_eq_blank_of_apart hhidden happart (h.spelled t (by simp))

/-- The last of some tokens is apart from the first of others. -/
def Detached (ts us : List Token) : Prop := ∀ t ∈ ts.getLast?, ∀ u ∈ us.head?, t.Apart u

instance (ts us : List Token) : Decidable (Detached ts us) :=
  inferInstanceAs (Decidable (∀ t ∈ ts.getLast?, ∀ u ∈ us.head?, t.Apart u))

/-- Written tokens in a row, at whose end one may stop. -/
structure IsPiece (ts : List Token) : Prop where
  written : ∀ t ∈ ts, t.Written
  chain : ts.IsChain Apart
  last : ∀ t ∈ ts.getLast?, t.kind.endsPiece = true

namespace IsPiece

theorem nil : IsPiece [] := ⟨by simp, .nil, by simp⟩

theorem single (h : t.Written) (hk : t.kind.endsPiece = true) : IsPiece [t] :=
  ⟨by simpa using h, .singleton t, by simpa using hk⟩

theorem append (h : IsPiece ts) (h' : IsPiece us) (hd : Detached ts us) : IsPiece (ts ++ us) := by
  refine ⟨List.forall_mem_append.mpr ⟨h.written, h'.written⟩, h.chain.append h'.chain hd, ?_⟩
  intro t ht
  rw [List.getLast?_append] at ht
  cases hus : us.getLast? with
  | none => exact h.last t (by simpa [hus] using ht)
  | some u => exact h'.last t (by simpa [hus] using ht)

/-- What stands in front of a token is a piece of its own. -/
theorem of_lead (h : Legible lead [t]) : IsPiece (lead t) where
  written := fun u hu => (h.hidden t (by simp) u hu).2
  chain := h.chain_lead.left_of_append
  last := fun u hu => by rw [h.kind_last_lead hu]; rfl

theorem lead_append (h : Legible lead [t]) (hts : IsPiece ts) : IsPiece (lead t ++ ts) :=
  (of_lead h).append hts fun _ hu v _ => apart_of_blank (h.kind_last_lead hu) v

theorem append_lead (hts : IsPiece ts) (h : Legible lead [t]) : IsPiece (ts ++ lead t) := by
  refine hts.append (of_lead h) fun u hu v hv => ?_
  have hmem := List.mem_of_mem_head? hv
  obtain ⟨hhidden, hwritten⟩ := h.hidden t (by simp) v hmem
  exact apart_of_follows (hts.last u hu) hwritten (TokenKind.follows_of_hidden hhidden)

theorem chain_concat (hts : IsPiece ts) (hs : s.Written) (hf : s.kind.follows = true) :
    (ts ++ [s]).IsChain Apart := by
  refine hts.chain.append (.singleton s) fun t ht u hu => ?_
  obtain rfl : s = u := by simpa using hu
  exact apart_of_follows (hts.last t ht) hs hf

/-- A closing bracket behind a piece. -/
theorem closed (hts : IsPiece ts) (h : Legible lead [s]) (hf : s.kind.follows = true)
    (he : s.kind.endsPiece = true) : IsPiece (ts ++ (lead s ++ [s])) := by
  have hs : s.Written := (h.spelled s (by simp)).written
  have hpiece := hts.append_lead h
  rw [← List.append_assoc]
  refine hpiece.append (single hs he) fun t ht u hu => ?_
  obtain rfl : s = u := by simpa using hu
  exact apart_of_follows (hpiece.last t ht) hs hf

/-- Tokens in front of a piece, at the end of which one may not stop. -/
theorem prepend (hts : IsPiece ts) (hne : ts ≠ []) (hw : ∀ u ∈ us, u.Written)
    (hc : (us ++ ts).IsChain Apart) : IsPiece (us ++ ts) := by
  refine ⟨List.forall_mem_append.mpr ⟨hw, hts.written⟩, hc, fun t ht => hts.last t ?_⟩
  rwa [List.getLast?_append_of_ne_nil _ hne] at ht

/-- Some tokens begin with an operand. -/
def StartsOperand (ts : List Token) : Prop := ∃ t ∈ ts.head?, t.kind.startsExpr = true

theorem StartsOperand.ne_nil (h : StartsOperand ts) : ts ≠ [] := by
  obtain ⟨t, ht, -⟩ := h
  exact List.ne_nil_of_mem (List.mem_of_mem_head? ht)

theorem StartsOperand.append (h : StartsOperand ts) (us : List Token) :
    StartsOperand (ts ++ us) := by
  rwa [StartsOperand, List.head?_append_of_ne_nil _ h.ne_nil]

theorem StartsOperand.apart (hts : IsPiece ts) (hfirst : StartsOperand ts)
    (ho : s.kind.opens = true) : ∀ u ∈ ts.head?, s.Apart u := by
  intro u hu
  obtain ⟨v, hv, hk⟩ := hfirst
  obtain rfl : u = v := Option.mem_unique hu hv
  refine apart_of_opens ho ((hts.written u (List.mem_of_mem_head? hu)).spelled ?_) hk
  cases hkind : u.kind <;> simp_all [TokenKind.startsExpr, Token.hidden, TokenKind.hidden]

theorem cons (hs : s.Spelled) (ho : s.kind.opens = true) (hts : IsPiece ts)
    (hfirst : StartsOperand ts) : IsPiece (s :: ts) :=
  (hts.prepend hfirst.ne_nil (by simpa using hs.written)
    (List.isChain_cons.mpr ⟨hfirst.apart hts ho, hts.chain⟩) : IsPiece ([s] ++ ts))

/-- An operand behind a token that one may follow. -/
theorem opened (h : Legible lead [s, t]) (ho : s.kind.opens = true) (hts : IsPiece ts)
    (hfirst : StartsOperand ts) : IsPiece ((s :: lead t) ++ ts) := by
  have hlead : Legible lead [t] := h.part ⟨[s], [], rfl⟩
  have hs : s.Spelled := h.spelled s (by simp)
  cases hgap : lead t with
  | nil => exact cons hs ho hts hfirst
  | cons u us =>
    have hpiece := lead_append hlead hts
    have hnext : s.Apart u := by
      have hchain := h.chain_pair
      rw [hgap] at hchain
      exact (List.isChain_cons_cons.mp hchain).1
    rw [hgap] at hpiece
    refine (hpiece.prepend (by simp) (by simpa using hs.written) ?_ : IsPiece ([s] ++ _))
    exact List.isChain_cons_cons.mpr ⟨hnext, hpiece.chain⟩

/-- Two operands with an operator between them. -/
theorem joined (hts : IsPiece ts) (h : Legible lead [s, t]) (hf : s.kind.follows = true)
    (ho : s.kind.opens = true) (hus : IsPiece us) (hfirst : StartsOperand us) :
    IsPiece (ts ++ (lead s ++ s :: lead t) ++ us) := by
  have hlead : Legible lead [s] := h.part ⟨[], [t], rfl⟩
  have hs : s.Written := (h.spelled s (by simp)).written
  have hright := opened h ho hus hfirst
  have hleft := hts.append_lead hlead
  have heq : ts ++ (lead s ++ s :: lead t) ++ us = ts ++ lead s ++ ((s :: lead t) ++ us) := by
    simp
  rw [heq]
  refine hright.prepend (by simp) hleft.written ?_
  exact List.isChain_split.mpr ⟨hleft.chain_concat hs hf, hright.chain⟩

end IsPiece
end Token

/-! ## Expressions -/

namespace Expr
variable {lead : Token → List Token}

open Token IsPiece

theorem startsOperand_output {e : Expr} (h : e.Formed) : StartsOperand (e.output lead) := by
  induction e with
  | literal t => exact ⟨t, rfl, Formed.startsExpr_first h⟩
  | identifier t => exact ⟨t, rfl, Formed.startsExpr_first h⟩
  | paren opening inner closing => exact ⟨opening, rfl, Formed.startsExpr_first h⟩
  | unary op sign operand => exact ⟨sign, rfl, Formed.startsExpr_first h⟩
  | binary op left sign right ihl ihr =>
    obtain ⟨-, hleft, hright, -⟩ := h
    rw [output]
    split
    · rw [List.append_assoc]
      exact (ihl hleft).append _
    · exact (ihl hleft).append _
    · exact ⟨_, rfl, rfl⟩
    · exact ihr hright
    · exact ⟨_, rfl, rfl⟩
  | ternary condition question thenExpr colon elseExpr ihc =>
    obtain ⟨-, -, hc, -⟩ := h
    simp only [output, List.append_assoc]
    exact (ihc hc).append _

/-- A negation that simplifying puts in is a piece. -/
theorem piece_negated {ts : List Token} (atomic : Bool) (hts : IsPiece ts)
    (hfirst : StartsOperand ts) :
    IsPiece (.made .not "!" ::
      (if atomic then ts else Token.made .openParen "(" :: ts ++ [Token.made .closeParen ")"])) := by
  have hnot : (Token.made .not "!").Spelled := ⟨rfl, rfl⟩
  have hopening : (Token.made .openParen "(").Spelled := ⟨rfl, rfl⟩
  have hclosing : (Token.made .closeParen ")").Spelled := ⟨rfl, rfl⟩
  cases atomic with
  | true => exact cons hnot rfl hts hfirst
  | false =>
    have hbody : IsPiece (ts ++ [Token.made .closeParen ")"]) := by
      refine hts.append (single hclosing.written rfl) fun t ht u hu => ?_
      obtain rfl : Token.made .closeParen ")" = u := by simpa using hu
      exact apart_of_follows (hts.last t ht) hclosing.written rfl
    exact cons hnot rfl (cons hopening rfl hbody (hfirst.append _)) ⟨_, rfl, rfl⟩

/-- The tokens that simplifying leaves of an expression stay apart. -/
theorem piece_output {e : Expr} (h : e.Formed) (hl : Legible lead e.tokens) :
    IsPiece (e.output lead) := by
  induction e with
  | literal t =>
    exact single (hl.spelled t (by simp [tokens])).written (TokenKind.IsLiteral.endsPiece h)
  | identifier t =>
    refine single (hl.spelled t (by simp [tokens])).written ?_
    rw [show t.kind = .identifier from h]
    rfl
  | paren opening inner closing ih =>
    obtain ⟨ts, hts⟩ := inner.exists_tokens_eq_cons
    have hinner := ih h.2.1 (hl.part ⟨[opening], [closing], rfl⟩)
    have hclosed : IsPiece (inner.output lead ++ (lead closing ++ [closing])) := by
      refine hinner.closed (hl.part ⟨opening :: inner.tokens, [], by simp [tokens]⟩) ?_ ?_ <;>
        rw [h.2.2] <;> rfl
    rw [output, List.append_assoc]
    refine opened (hl.part ⟨[], ts ++ [closing], by simp [tokens, hts]⟩) (by rw [h.1]; rfl) hclosed ?_
    exact (startsOperand_output h.2.1).append _
  | unary op sign operand ih =>
    obtain ⟨ts, hts⟩ := operand.exists_tokens_eq_cons
    have hoperand := ih h.2.1 (hl.part ⟨[sign], [], by simp [tokens]⟩)
    exact opened (hl.part ⟨[], ts, by simp [tokens, hts]⟩) (h.1 ▸ op.opens_token) hoperand
      (startsOperand_output h.2.1)
  | binary op left sign right ihl ihr =>
    obtain ⟨hsign, hleft, hright, -⟩ := h
    obtain ⟨ts, hts⟩ := right.exists_tokens_eq_cons
    have hl₁ := ihl hleft (hl.part ⟨[], sign :: right.tokens, by simp [tokens]⟩)
    have hr₁ := ihr hright (hl.part ⟨left.tokens ++ [sign], [], by simp [tokens]⟩)
    have hgap : Legible lead [sign] := hl.part ⟨left.tokens, right.tokens, by simp [tokens]⟩
    rw [output]
    split
    · exact hl₁.joined (hl.part ⟨left.tokens, ts, by simp [tokens, hts]⟩)
        (hsign ▸ op.follows_token) (hsign ▸ op.opens_token) hr₁ (startsOperand_output hright)
    · exact hl₁.append_lead hgap
    · exact (piece_negated _ hl₁ (startsOperand_output hleft)).append_lead hgap
    · exact hr₁
    · have hzero : (Token.made .number "0").Spelled :=
        ⟨.inl ⟨rfl, List.forall_mem_singleton.mpr (by decide)⟩, rfl⟩
      exact single hzero.written rfl
  | ternary condition question thenExpr colon elseExpr ihc iht ihe =>
    obtain ⟨hquestion, hcolon, hc, ht, he, -⟩ := h
    obtain ⟨ts, hts⟩ := thenExpr.exists_tokens_eq_cons
    obtain ⟨us, hus⟩ := elseExpr.exists_tokens_eq_cons
    have hc₁ := ihc hc (hl.part ⟨[], question :: thenExpr.tokens ++ colon :: elseExpr.tokens,
      by simp [tokens]⟩)
    have ht₁ := iht ht (hl.part ⟨condition.tokens ++ [question], colon :: elseExpr.tokens,
      by simp [tokens]⟩)
    have he₁ := ihe he (hl.part ⟨condition.tokens ++ question :: thenExpr.tokens ++ [colon], [],
      by simp [tokens]⟩)
    have hq : Legible lead [question, thenExpr.first] :=
      hl.part ⟨condition.tokens, ts ++ colon :: elseExpr.tokens, by simp [tokens, hts]⟩
    have hk : Legible lead [colon, elseExpr.first] :=
      hl.part ⟨condition.tokens ++ question :: thenExpr.tokens, us, by simp [tokens, hus]⟩
    have hleft := hc₁.joined hq (by rw [hquestion]; rfl) (by rw [hquestion]; rfl) ht₁
      (startsOperand_output ht)
    exact hleft.joined hk (by rw [hcolon]; rfl) (by rw [hcolon]; rfl) he₁ (startsOperand_output he)

end Expr

/-! ## Statements -/

namespace Stmt
variable (lead : Token → List Token)

open Token IsPiece

mutual

/-- What simplifying leaves of the arguments that a statement prints, and of the statements that it
holds, stays apart. -/
def KeptApart : Stmt → Prop
  | print keyword arg more =>
    ([keyword] :: (arg :: more).map fun e => lead e.first ++ e.output lead).IsChain Detached
  | block _ _ _ body _ => KeptApartAll body
  | wrap _ _ inner => inner.KeptApart
  | assign _ _ _ | expr _ | vars _ => True

/-- What simplifying leaves of some statements, each with what stands in front of it, stays
apart. -/
def KeptApartAll : List Stmt → Prop
  | [] => True
  | s :: ss =>
    s.KeptApart ∧
      (∀ next ∈ ss.head?, Detached (s.laid lead (Expr.output lead))
        (lead next.first ++ next.laid lead (Expr.output lead))) ∧
      KeptApartAll ss

end

mutual

instance decidableKeptApart : (s : Stmt) → Decidable (s.KeptApart lead)
  | print _ _ _ => inferInstanceAs (Decidable (List.IsChain _ _))
  | block _ _ _ body _ => decidableKeptApartAll body
  | wrap _ _ inner => decidableKeptApart inner
  | assign _ _ _ | expr _ | vars _ => .isTrue trivial

instance decidableKeptApartAll : (ss : List Stmt) → Decidable (KeptApartAll lead ss)
  | [] => .isTrue trivial
  | s :: ss =>
    have := decidableKeptApart s
    have := decidableKeptApartAll ss
    inferInstanceAs (Decidable (_ ∧ _ ∧ _))

end

variable {lead}

theorem laid_ne_nil {s : Stmt} (h : s.Formed) : s.laid lead (Expr.output lead) ≠ [] := by
  cases s with
  | expr e => exact (Expr.startsOperand_output h).ne_nil
  | _ => simp [laid]

theorem exists_laid_eq_cons {s : Stmt} (h : s.isInspection = true) (f : Expr → List Token) :
    ∃ ts, s.laid lead f = s.first :: ts := by
  cases s with
  | block | wrap => simp [laid, first]
  | _ => simp [isInspection] at h

/-- What is left of some arguments, each with what stands in front of it. -/
theorem piece_args {es : List Expr} (h : ∀ e ∈ es, e.Formed)
    (hl : ∀ e ∈ es, Legible lead e.tokens) :
    ∀ ts ∈ es.map fun e => lead e.first ++ e.output lead, ts ≠ [] ∧ IsPiece ts := by
  intro ts hts
  obtain ⟨e, he, rfl⟩ := List.mem_map.mp hts
  have hfirst : Legible lead [e.first] := by
    obtain ⟨us, hus⟩ := e.exists_tokens_eq_cons
    exact (hl e he).part ⟨[], us, by simp [hus]⟩
  refine ⟨?_, lead_append hfirst (Expr.piece_output (h e he) (hl e he))⟩
  have hstarts : StartsOperand (e.output lead) := Expr.startsOperand_output (h e he)
  simp [hstarts.ne_nil]

theorem piece_print {keyword : Token} {arg : Expr} {more : List Expr}
    (h : (print keyword arg more).Formed) (hl : Legible lead (print keyword arg more).tokens)
    (hk : (print keyword arg more).KeptApart lead) :
    IsPiece ((print keyword arg more).laid lead (Expr.output lead)) := by
  have hkeyword : keyword.Written := (hl.spelled keyword (by simp [tokens])).written
  have hargs : ∀ e ∈ arg :: more, Legible lead e.tokens := by
    intro e he
    obtain ⟨before, after, heq⟩ := List.append_of_mem he
    refine hl.part ⟨keyword :: before.flatMap Expr.tokens, after.flatMap Expr.tokens, ?_⟩
    have htokens : (print keyword arg more).tokens =
        keyword :: (arg :: more).flatMap Expr.tokens := by simp [tokens]
    rw [htokens, heq]
    simp
  have hpieces := piece_args h.2 hargs
  have hlist : (print keyword arg more).laid lead (Expr.output lead) =
      ([keyword] :: (arg :: more).map fun e => lead e.first ++ e.output lead).flatten := by
    rw [laid, List.flatten_cons, ← List.flatMap_def]
  refine ⟨?_, ?_, ?_⟩
  · rw [hlist]
    intro t ht
    obtain ⟨ts, hts, ht⟩ := List.mem_flatten.mp ht
    rcases List.mem_cons.mp hts with rfl | hts
    · rwa [List.mem_singleton.mp ht]
    · exact (hpieces ts hts).2.written t ht
  · rw [hlist, List.isChain_flatten]
    · exact ⟨List.forall_mem_cons.mpr ⟨.singleton _, fun ts hts => (hpieces ts hts).2.chain⟩, hk⟩
    · intro hnil
      rcases List.mem_cons.mp hnil with hnil | hnil
      · cases hnil
      · exact (hpieces [] hnil).1 rfl
  · -- The last argument ends the statement.
    obtain ⟨es, e, hes⟩ := List.eq_nil_or_concat (arg :: more) |>.resolve_left (by simp)
    have hlast : lead e.first ++ e.output lead ∈
        (arg :: more).map fun e => lead e.first ++ e.output lead :=
      List.mem_map_of_mem (hes ▸ by simp)
    intro t ht
    refine (hpieces _ hlast).2.last t ?_
    rw [laid, hes, List.concat_eq_append, List.flatMap_append, ← List.append_assoc,
      List.flatMap_singleton, List.getLast?_append_of_ne_nil _ (hpieces _ hlast).1] at ht
    exact ht

theorem legible_first {s : Stmt} (hl : Legible lead s.tokens) : Legible lead [s.first] := by
  obtain ⟨ts, hts⟩ := s.exists_tokens_eq_cons
  exact hl.part ⟨[], ts, by simp [hts]⟩

theorem piece_block {kind : Inspection} {keyword opening closing : Token} {body : List Stmt}
    (h : (block kind keyword opening body closing).Formed)
    (hl : Legible lead (block kind keyword opening body closing).tokens)
    (hbody : IsPiece (laidAll lead (Expr.output lead) body)) :
    IsPiece ((block kind keyword opening body closing).laid lead (Expr.output lead)) := by
  obtain ⟨-, hopening, -, hclosing⟩ := h
  have hopen : Legible lead [keyword, opening] :=
    hl.part ⟨[], tokensOf body ++ [closing], by simp [tokens]⟩
  have hbrace : opening.Written := (hopen.spelled opening (by simp)).written
  have hclosed : IsPiece (laidAll lead (Expr.output lead) body ++ (lead closing ++ [closing])) := by
    refine hbody.closed
      (hl.part ⟨keyword :: opening :: tokensOf body, [], by simp [tokens]⟩) ?_ ?_ <;>
      rw [hclosing] <;> rfl
  rw [laid, List.append_assoc]
  refine hclosed.prepend (by simp) ?_ (hopen.chain_pair.append hclosed.chain fun t ht u _ => ?_)
  · exact List.forall_mem_append.mpr
      ⟨hopen.written_pair, List.forall_mem_singleton.mpr hbrace⟩
  · rw [List.getLast?_append_of_ne_nil _ (by simp)] at ht
    obtain rfl : opening = t := by simpa using ht
    exact apart_of_openBrace hopening u

theorem piece_wrap {kind : Inspection} {keyword : Token} {inner : Stmt}
    (h : (wrap kind keyword inner).Formed) (hl : Legible lead (wrap kind keyword inner).tokens)
    (hinner : IsPiece (inner.laid lead (Expr.output lead))) :
    IsPiece ((wrap kind keyword inner).laid lead (Expr.output lead)) := by
  obtain ⟨-, -, hins, hformed⟩ := h
  obtain ⟨ts, hts⟩ := inner.exists_tokens_eq_cons
  have hopen : Legible lead [keyword, inner.first] := hl.part ⟨[], ts, by simp [tokens, hts]⟩
  refine hinner.prepend (laid_ne_nil hformed) hopen.written_pair ?_
  obtain ⟨us, hus⟩ : ∃ us, inner.laid lead (Expr.output lead) = inner.first :: us :=
    exists_laid_eq_cons hins _
  have hchain := hinner.chain
  rw [hus] at hchain ⊢
  exact List.isChain_split.mpr ⟨hopen.chain_pair, hchain⟩

mutual

/-- The tokens that simplifying leaves of a statement stay apart, if those of its arguments and of
the statements in it do. -/
theorem piece_laid {s : Stmt} (h : s.Formed) (hl : Legible lead s.tokens)
    (hk : s.KeptApart lead) : IsPiece (s.laid lead (Expr.output lead)) := by
  match s with
  | assign name equals value =>
    obtain ⟨hname, hequals, hvalue⟩ := h
    obtain ⟨ts, hts⟩ := value.exists_tokens_eq_cons
    have hleft : IsPiece [name] :=
      single (hl.spelled name (by simp [tokens])).written (by rw [hname]; rfl)
    have hright := Expr.piece_output hvalue (hl.part ⟨[name, equals], [], by simp [tokens]⟩)
    have hsign : Legible lead [equals, value.first] :=
      hl.part ⟨[name], ts, by simp [tokens, hts]⟩
    exact hleft.joined hsign (by rw [hequals]; rfl) (by rw [hequals]; rfl) hright
      (Expr.startsOperand_output hvalue)
  | print keyword arg more => exact piece_print h hl hk
  | expr e => exact Expr.piece_output h hl
  | vars keyword =>
    refine single (hl.spelled keyword (by simp [tokens])).written ?_
    rw [show keyword.kind = .vars from h]
    rfl
  | block _ keyword opening body closing =>
    exact piece_block h hl
      (piece_laidAll h.2.2.1 (hl.part ⟨[keyword, opening], [closing], by simp [tokens]⟩) hk)
  | wrap _ keyword inner =>
    exact piece_wrap h hl
      (piece_laid h.2.2.2 (hl.part ⟨[keyword], [], by simp [tokens]⟩) hk)

theorem piece_laidAll {ss : List Stmt} (h : FormedAll ss) (hl : Legible lead (tokensOf ss))
    (hk : KeptApartAll lead ss) : IsPiece (laidAll lead (Expr.output lead) ss) := by
  match ss with
  | [] => exact .nil
  | s :: ss =>
    obtain ⟨hs, hnext, hss⟩ := hk
    have hlegible : Legible lead s.tokens := hl.part ⟨[], tokensOf ss, by simp [tokensOf]⟩
    have hpiece := piece_laid h.1 hlegible hs
    have hrest := piece_laidAll h.2 (hl.part ⟨s.tokens, [], by simp [tokensOf]⟩) hss
    refine (lead_append (legible_first hlegible) hpiece).append hrest fun t ht u hu => ?_
    rw [List.getLast?_append_of_ne_nil _ (laid_ne_nil h.1)] at ht
    cases ss with
    | nil => simp [laidAll] at hu
    | cons next ss =>
      refine hnext next rfl t ht u ?_
      rwa [laidAll, List.head?_append_of_ne_nil] at hu
      simp [laid_ne_nil h.2.1]

end

end Stmt
end Reckoner
