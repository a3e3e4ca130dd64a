import Reckoner.Proofs.Neighbours

/-!
# Everything that is formed is read

The converse of soundness. The tokens of a list of statements that obeys the grammar are read as
exactly that list, if nothing in it runs into what follows: a statement or an argument after an
expression does not begin with a minus sign, and a statement after printing does not begin with an
expression.

Reading goes from left to right, so that it meets the leftmost operand of an expression first and
extends it. `Leads` says that this arrives at the whole expression; it is proved for every level
that the expression is tight enough for, whatever comes after it.
-/
namespace Reckoner

/-! ## Trees without places -/

/-- An expression without the places of its tokens. -/
def Expr.unplaced : Expr → Expr
  | literal t => literal t.unplaced
  | identifier t => identifier t.unplaced
  | paren opening inner closing => paren opening.unplaced inner.unplaced closing.unplaced
  | unary op sign operand => unary op sign.unplaced operand.unplaced
  | binary op left sign right => binary op left.unplaced sign.unplaced right.unplaced
  | ternary condition question thenExpr colon elseExpr =>
    ternary condition.unplaced question.unplaced thenExpr.unplaced colon.unplaced elseExpr.unplaced

namespace Stmt

mutual

/-- A statement without the places of its tokens. -/
def unplaced : Stmt → Stmt
  | assign name equals value => assign name.unplaced equals.unplaced value.unplaced
  | print keyword arg more => print keyword.unplaced arg.unplaced (more.map Expr.unplaced)
  | expr e => expr e.unplaced
  | vars keyword => vars keyword.unplaced
  | block kind keyword opening body closing =>
    block kind keyword.unplaced opening.unplaced (unplacedAll body) closing.unplaced
  | wrap kind keyword inner => wrap kind keyword.unplaced inner.unplaced

/-- Some statements without the places of their tokens. -/
def unplacedAll : List Stmt → List Stmt
  | [] => []
  | s :: ss => s.unplaced :: unplacedAll ss

end

end Stmt

/-! ## What is ahead -/

/-- The kind of the first of some tokens, which the end of input follows. -/
def Token.headKind (ts : List Token) : TokenKind := (ts.head?.map Token.kind).getD .eof

@[simp] theorem Token.headKind_nil : headKind [] = .eof := rfl

@[simp] theorem Token.headKind_cons (t : Token) (ts : List Token) : headKind (t :: ts) = t.kind :=
  rfl

namespace ParseState

/-- Exactly some tokens are ahead, wherever they stand, and no fault has been found or will be. -/
structure Sees (st : ParseState) (ts : List Token) : Prop where
  ends : st.Ends
  tokens : (st.rest.map Word.token).map Token.unplaced = ts.map Token.unplaced
  quiet : ∀ w ∈ st.last :: st.rest, ∀ i ∈ w.items, i.faults = []
  log : Step.faults st.log = []

namespace Sees
variable {st : ParseState} {t : Token} {ts : List Token}

theorem rest_eq_nil (h : st.Sees []) : st.rest = [] := by
  simpa using h.tokens

theorem exists_rest_eq_cons (h : st.Sees (t :: ts)) :
    ∃ w ws, st.rest = w :: ws ∧ w.token.unplaced = t.unplaced ∧
      (ws.map Word.token).map Token.unplaced = ts.map Token.unplaced := by
  have htokens := h.tokens
  cases hr : st.rest with
  | nil => simp [hr] at htokens
  | cons w ws =>
    rw [hr, List.map_cons, List.map_cons, List.map_cons, List.cons.injEq] at htokens
    exact ⟨w, ws, rfl, htokens⟩

theorem unplaced_token (h : st.Sees (t :: ts)) : st.token.unplaced = t.unplaced := by
  obtain ⟨w, ws, hr, hw, -⟩ := h.exists_rest_eq_cons
  rw [token_of_rest_eq_cons hr, hw]

theorem kind_token (h : st.Sees ts) : st.token.kind = Token.headKind ts := by
  cases ts with
  | nil => rw [token_of_rest_eq_nil h.rest_eq_nil, h.ends, Token.headKind_nil]
  | cons t ts => exact Token.kind_of_unplaced_eq h.unplaced_token

theorem kind_ahead (h : st.Sees ts) : st.ahead.kind = Token.headKind ts.tail := by
  have hlast : st.last.token.kind = .eof := h.ends
  cases ts with
  | nil => simp [ahead, h.rest_eq_nil, hlast]
  | cons t ts =>
    obtain ⟨w, ws, hr, -, hws⟩ := h.exists_rest_eq_cons
    cases ts with
    | nil =>
      have hws : ws = [] := by simpa using hws
      simp [ahead, hr, hws, hlast]
    | cons u us =>
      cases ws with
      | nil => simp at hws
      | cons w' ws' =>
        rw [List.map_cons, List.map_cons, List.map_cons, List.cons.injEq] at hws
        simpa [ahead, hr] using Token.kind_of_unplaced_eq hws.1

theorem beginExpr_eq (h : st.Sees ts) :
    Token.beginExpr ts =
      (st.token.kind.startsExpr &&
        !(st.token.kind == .identifier && st.ahead.kind == .assign)) := by
  rw [h.kind_token, h.kind_ahead]
  rcases ts with _ | ⟨t, _ | ⟨u, us⟩⟩
  · rfl
  · simp [Token.beginExpr]
  · simp [Token.beginExpr]

/-! ### Steps that find no fault -/

theorem creating {w : Word} (h : st.Sees ts) (hw : w ∈ st.last :: st.rest) :
    (st.creating w).Sees ts := by
  refine ⟨h.ends, h.tokens, h.quiet, ?_⟩
  have hsteps : ∀ i ∈ w.items.filter (st.created ≤ ·.token.index),
      i.steps.filterMap Step.fault? = [] := by
    intro i hi
    have hquiet := h.quiet w hw i (List.mem_filter.mp hi).1
    simp [Item.steps, hquiet, Step.fault?]
  have hlog := h.log
  simp only [Step.faults] at hlog ⊢
  simp only [ParseState.creating, List.filterMap_append, List.filterMap_reverse,
    List.filterMap_flatMap, hlog, List.append_nil, List.reverse_eq_nil_iff, List.flatMap_eq_nil_iff]
  exact hsteps

theorem looked (h : st.Sees ts) : st.looked.Sees ts := h.creating (word_mem st)

theorem peeked (h : st.Sees ts) : st.peeked.Sees ts := by
  exact h.looked.creating (peeked_mem st)

theorem probed (h : st.Sees ts) : st.probed.Sees ts := by
  unfold ParseState.probed
  split
  · exact h.looked.peeked
  · exact h.looked

theorem noted {s : Step} (h : st.Sees ts) (hs : s.fault? = none) : (st.noted s).Sees ts := by
  refine ⟨h.ends, h.tokens, h.quiet, ?_⟩
  have hlog := h.log
  simp only [Step.faults] at hlog ⊢
  simp [ParseState.noted, hs, hlog]

theorem entered (h : st.Sees ts) (rule : Rule) : (st.entered rule).Sees ts := h.looked.noted rfl

theorem exited (h : st.Sees ts) (rule : Rule) : (st.exited rule).Sees ts := h.looked.noted rfl

theorem passed (h : st.Sees (t :: ts)) (rule : Rule) : (st.passed rule).Sees ts := by
  obtain ⟨w, ws, hr, -, hws⟩ := h.exists_rest_eq_cons
  have hnoted := h.looked.noted (s := .consume st.token rule) rfl
  refine Sees.looked ⟨h.ends, by simpa [hr] using hws, fun v hv => ?_, hnoted.log⟩
  refine h.quiet v ?_
  rcases List.mem_cons.mp hv with rfl | hv
  · exact List.mem_cons_self
  · exact List.mem_cons_of_mem _ (List.mem_of_mem_tail hv)

/-- At the end of input nothing is passed. -/
theorem passed_end (h : st.Sees []) (rule : Rule) : (st.passed rule).Sees [] := by
  have hnoted := h.looked.noted (s := .consume st.token rule) rfl
  refine Sees.looked ⟨h.ends, by simp [h.rest_eq_nil], fun v hv => ?_, hnoted.log⟩
  refine h.quiet v ?_
  simpa [h.rest_eq_nil] using hv

end Sees
end ParseState

/-! ## Expressions -/

theorem TokenKind.Extends.mono {k : TokenKind} {m n : Nat} (h : k.Extends m) (hle : n ≤ m) :
    k.Extends n := by
  rcases h with ⟨hq, hm⟩ | ⟨op, hop, hm⟩
  · exact .inl ⟨hq, Nat.le_trans hle hm⟩
  · exact .inr ⟨op, hop, Nat.le_trans hle hm⟩

theorem BinaryOp.extends_token_iff (op : BinaryOp) (n : Nat) :
    op.token.Extends n ↔ n ≤ op.precedence := by
  have hq : op.token ≠ .question := ne_question_of_ofToken? op.ofToken?_token
  simp [TokenKind.Extends, hq, op.ofToken?_token]

theorem TokenKind.question_extends_iff (n : Nat) :
    question.Extends n ↔ n ≤ Grammar.ternaryLevel := by
  simp [Extends, BinaryOp.ofToken?]

namespace Expr

/-- The level at which the last operand of an expression was read, which what comes after it must
not extend. -/
def rightLevel : Expr → Nat
  | ternary _ _ _ _ _ => Grammar.ternaryLevel
  | binary op _ _ _ => op.precedence + 1
  | _ => topLevel

theorem level_le_rightLevel (e : Expr) : e.level ≤ e.rightLevel := by
  cases e <;> simp [level, rightLevel]

theorem ternaryLevel_le_level (e : Expr) : Grammar.ternaryLevel ≤ e.level := by
  cases e with
  | binary op _ _ _ => exact Nat.le_of_lt op.ternaryLevel_lt_precedence
  | _ => simp [level, Grammar.ternaryLevel, topLevel]

/-- The last operand of an expression does not take an operator that may follow it. -/
theorem lt_rightLevel {e : Expr} {n : Nat} (h : n ≤ e.level) (hn : Grammar.ternaryLevel < n)
    (htop : n < topLevel) : n < e.rightLevel := by
  cases e <;> simp only [level, rightLevel] at h ⊢ <;> omega

/-- Reading the leftmost operand and extending it arrives at the expression. -/
def Leads (level : Nat) (st : ParseState) (e : Expr) (st' : ParseState) : Prop :=
  ∀ o st₂, Reads (.climb level e) st' o st₂ →
    ∃ head st₁, Reads .unary st (.ok head) st₁ ∧ Reads (.climb level head) st₁ o st₂

theorem Leads.extend {level : Nat} {left e : Expr} {st st₁ st' : ParseState}
    (h : Leads level st left st₁)
    (hstep : ∀ o st₂, Reads (.climb level e) st' o st₂ → Reads (.climb level left) st₁ o st₂) :
    Leads level st e st' :=
  fun o st₂ hc => h o st₂ (hstep o st₂ hc)

/-- The tokens of an expression are read as it, without what follows. -/
def IsReadAlone (e : Expr) : Prop :=
  ∀ ⦃after : List Token⦄ ⦃st : ParseState⦄, st.Sees (e.tokens ++ after) →
    ∃ e' st', Reads .unary st (.ok e') st' ∧ e'.unplaced = e.unplaced ∧ st'.Sees after

/-- The tokens of an expression are read as it on the way to anything longer. -/
def IsRead (e : Expr) : Prop :=
  ∀ ⦃level : Nat⦄ ⦃after : List Token⦄ ⦃st : ParseState⦄, st.Sees (e.tokens ++ after) →
    level ≤ e.level → ¬(Token.headKind after).Extends e.rightLevel →
    ∃ e' st', Leads level st e' st' ∧ e'.unplaced = e.unplaced ∧ st'.Sees after

theorem IsReadAlone.isRead {e : Expr} (h : e.IsReadAlone) : e.IsRead := by
  intro level after st hs _ _
  obtain ⟨e', st', hread, he, hs'⟩ := h hs
  exact ⟨e', st', fun o st₂ hc => ⟨e', st', hread, hc⟩, he, hs'⟩

/-- An expression is read if what follows does not extend it. -/
theorem IsRead.reads {e : Expr} (h : e.IsRead) {level : Nat} {after : List Token}
    {st : ParseState} (hs : st.Sees (e.tokens ++ after)) (hle : level ≤ e.level)
    (hnext : ¬(Token.headKind after).Extends level) :
    ∃ e' st', Reads (.expr level) st (.ok e') st' ∧ e'.unplaced = e.unplaced ∧ st'.Sees after := by
  have hright : ¬(Token.headKind after).Extends e.rightLevel :=
    fun hext => hnext (hext.mono (Nat.le_trans hle e.level_le_rightLevel))
  obtain ⟨e', st₁, hleads, he, hs₁⟩ := h (hs.entered .expr) hle hright
  obtain ⟨head, st₂, hhead, hclimb⟩ := hleads _ _ (.climbStop (hs₁.kind_token ▸ hnext))
  exact ⟨e', _, .expr hhead hclimb, he, hs₁.looked.exited .expr⟩

theorem isReadAlone_literal {t : Token} (hk : t.kind.IsLiteral) : (literal t).IsReadAlone := by
  intro after st hs
  have hs : st.Sees (t :: after) := hs
  have hkind : st.token.kind.IsLiteral := hs.kind_token ▸ hk
  have hop : UnaryOp.ofToken? st.token.kind = none := by
    rcases hkind with h | h | h | h <;> rw [h] <;> rfl
  refine ⟨_, _, .unaryPrimary hop (.literal hkind), ?_,
    ((hs.looked.entered .primary).looked.passed .primary).exited .primary⟩
  simp only [unplaced, ParseState.token_looked, hs.unplaced_token]

theorem isReadAlone_identifier {t : Token} (hk : t.kind = .identifier) :
    (identifier t).IsReadAlone := by
  intro after st hs
  have hs : st.Sees (t :: after) := hs
  have hkind : st.token.kind = .identifier := hs.kind_token.trans hk
  refine ⟨_, _, .unaryPrimary (by rw [hkind]; rfl) (.identifier hkind), ?_,
    ((hs.looked.entered .primary).looked.passed .primary).exited .primary⟩
  simp only [unplaced, ParseState.token_looked, hs.unplaced_token]

theorem isReadAlone_paren {opening closing : Token} {inner : Expr} (h : inner.IsRead)
    (hopening : opening.kind = .openParen) (hclosing : closing.kind = .closeParen) :
    (paren opening inner closing).IsReadAlone := by
  intro after st hs
  have hs : st.Sees (opening :: (inner.tokens ++ closing :: after)) := by
    simpa [tokens] using hs
  have hkind : st.token.kind = .openParen := hs.kind_token.trans hopening
  have hinner := (hs.looked.entered .primary).looked.passed .primary
  obtain ⟨inner', st₁, hread, he, hs₁⟩ := h.reads hinner (Nat.zero_le _)
    (by simp [hclosing, TokenKind.Extends, BinaryOp.ofToken?])
  refine ⟨_, _, .unaryPrimary (by rw [hkind]; rfl)
    (.paren hkind hread (hs₁.kind_token.trans hclosing)), ?_,
    (hs₁.looked.passed .primary).exited .primary⟩
  simp only [unplaced, ParseState.token_looked, hs.unplaced_token, he, hs₁.unplaced_token]

theorem isReadAlone_unary {op : UnaryOp} {sign : Token} {operand : Expr}
    (h : operand.IsReadAlone) (hsign : sign.kind = op.token) :
    (unary op sign operand).IsReadAlone := by
  intro after st hs
  have hs : st.Sees (sign :: (operand.tokens ++ after)) := hs
  have hop : UnaryOp.ofToken? st.token.kind = some op := by
    rw [hs.kind_token, Token.headKind_cons, hsign, UnaryOp.ofToken?_token]
  obtain ⟨operand', st₁, hread, he, hs₁⟩ := h (hs.looked.passed .expr)
  refine ⟨_, st₁, .unary hop hread, ?_, hs₁⟩
  simp only [unplaced, hs.unplaced_token, he]

theorem isRead_binary {op : BinaryOp} {left right : Expr} {sign : Token} (hl : left.IsRead)
    (hr : right.IsRead) (hsign : sign.kind = op.token) (hle : op.precedence ≤ left.level)
    (hlt : op.precedence < right.level) : (binary op left sign right).IsRead := by
  intro level after st hs hlevel hnext
  have hs : st.Sees (left.tokens ++ sign :: (right.tokens ++ after)) := by
    simpa [tokens] using hs
  -- The left operand leaves the operator alone, since it binds at least as tightly.
  have hfree : ¬(Token.headKind (sign :: (right.tokens ++ after))).Extends left.rightLevel := by
    rw [Token.headKind_cons, hsign, BinaryOp.extends_token_iff, Nat.not_le]
    exact lt_rightLevel hle op.ternaryLevel_lt_precedence op.precedence_lt_topLevel
  obtain ⟨left', st₁, hleads, hleft, hs₁⟩ := hl hs (Nat.le_trans hlevel hle) hfree
  have hop : BinaryOp.ofToken? st₁.token.kind = some op := by
    rw [hs₁.kind_token, Token.headKind_cons, hsign, BinaryOp.ofToken?_token]
  obtain ⟨right', st₂, hread, hright, hs₂⟩ := hr.reads (hs₁.looked.passed .expr) hlt hnext
  refine ⟨_, st₂, hleads.extend fun o st₃ hc => .binary hop hlevel hread hc, ?_, hs₂⟩
  simp only [unplaced, hleft, hs₁.unplaced_token, hright]

theorem isRead_ternary {condition thenExpr elseExpr : Expr} {question colon : Token}
    (hc : condition.IsRead) (ht : thenExpr.IsRead) (he : elseExpr.IsRead)
    (hquestion : question.kind = .question) (hcolon : colon.kind = .colon)
    (hlt : Grammar.ternaryLevel < condition.level) :
    (ternary condition question thenExpr colon elseExpr).IsRead := by
  intro level after st hs hlevel hnext
  have hs : st.Sees (condition.tokens ++
      question :: (thenExpr.tokens ++ colon :: (elseExpr.tokens ++ after))) := by
    simpa [tokens] using hs
  have hfree : ¬(Token.headKind (question :: (thenExpr.tokens ++
      colon :: (elseExpr.tokens ++ after)))).Extends condition.rightLevel := by
    rw [Token.headKind_cons, hquestion, TokenKind.question_extends_iff, Nat.not_le]
    exact Nat.lt_of_lt_of_le hlt condition.level_le_rightLevel
  obtain ⟨condition', st₁, hleads, hcond, hs₁⟩ :=
    hc hs (Nat.le_trans hlevel (Nat.le_of_lt hlt)) hfree
  obtain ⟨thenExpr', st₂, hthen, ht', hs₂⟩ := ht.reads (hs₁.looked.passed .expr) (Nat.zero_le _)
    (by simp [hcolon, TokenKind.Extends, BinaryOp.ofToken?])
  obtain ⟨elseExpr', st₃, helse, he', hs₃⟩ :=
    he.reads (hs₂.looked.passed .expr) elseExpr.ternaryLevel_le_level hnext
  refine ⟨_, st₃, hleads.extend fun o st₄ hclimb => .ternary (hs₁.kind_token.trans hquestion)
    hlevel hthen (hs₂.kind_token.trans hcolon) helse hclimb, ?_, hs₃⟩
  simp only [unplaced, hcond, hs₁.unplaced_token, ht', hs₂.unplaced_token, he']

/-- Every formed expression is read, and on its own if it is bound as tightly as can be. -/
theorem isRead_of_formed (e : Expr) (h : e.Formed) :
    (e.level = topLevel → e.IsReadAlone) ∧ e.IsRead := by
  induction e with
  | literal t =>
    have halone := isReadAlone_literal h
    exact ⟨fun _ => halone, halone.isRead⟩
  | identifier t =>
    have halone := isReadAlone_identifier h
    exact ⟨fun _ => halone, halone.isRead⟩
  | paren opening inner closing ih =>
    have halone := isReadAlone_paren (ih h.2.1).2 h.1 h.2.2
    exact ⟨fun _ => halone, halone.isRead⟩
  | unary op sign operand ih =>
    obtain ⟨hsign, hoperand, htop⟩ := formed_unary_iff.mp h
    have halone := isReadAlone_unary ((ih hoperand).1 htop) hsign
    exact ⟨fun _ => halone, halone.isRead⟩
  | binary op left sign right ihl ihr =>
    obtain ⟨hsign, hleft, hright, hle, hlt⟩ := formed_binary_iff.mp h
    refine ⟨fun htop => ?_, isRead_binary (ihl hleft).2 (ihr hright).2 hsign hle hlt⟩
    exact absurd htop (Nat.ne_of_lt op.precedence_lt_topLevel)
  | ternary condition question thenExpr colon elseExpr ihc iht ihe =>
    obtain ⟨hquestion, hcolon, hc, ht, he, hlt⟩ := formed_ternary_iff.mp h
    refine ⟨fun htop => ?_,
      isRead_ternary (ihc hc).2 (iht ht).2 (ihe he).2 hquestion hcolon hlt⟩
    exact absurd htop (by simp [level, Grammar.ternaryLevel, topLevel])

/-- A formed expression is read if what follows does not continue it. -/
theorem Formed.reads {e : Expr} (h : e.Formed) {after : List Token} {st : ParseState}
    (hs : st.Sees (e.tokens ++ after)) (hnext : ¬(Token.headKind after).Extends 0) :
    ∃ e' st', Reads (.expr 0) st (.ok e') st' ∧ e'.unplaced = e.unplaced ∧ st'.Sees after :=
  (isRead_of_formed e h).2.reads hs (Nat.zero_le _) hnext

/-- The first token of a formed expression can begin one. -/
theorem Formed.startsExpr_first {e : Expr} (h : e.Formed) : e.first.kind.startsExpr = true := by
  induction e with
  | literal t => rcases h with h | h | h | h <;> simp [first, h, TokenKind.startsExpr]
  | identifier t => simp [first, show t.kind = _ from h, TokenKind.startsExpr]
  | paren opening _ _ _ => simp [first, h.1, TokenKind.startsExpr]
  | unary op sign _ _ => cases op <;> simp [first, h.1, UnaryOp.token, TokenKind.startsExpr]
  | binary _ _ _ _ ih _ => exact ih h.2.1
  | ternary _ _ _ _ _ ih _ _ => exact ih h.2.2.1

/-- No token of a formed expression is an equals sign. -/
theorem Formed.kind_ne_assign {e : Expr} (h : e.Formed) {t : Token} (ht : t ∈ e.tokens) :
    t.kind ≠ .assign := by
  induction e with
  | literal u =>
    rw [List.mem_singleton.mp ht]
    rcases h with h | h | h | h <;> simp [h]
  | identifier u =>
    rw [List.mem_singleton.mp ht, show u.kind = _ from h]
    simp
  | paren opening inner closing ih =>
    simp only [tokens, List.cons_append, List.mem_cons, List.mem_append, List.not_mem_nil,
      or_false] at ht
    rcases ht with rfl | ht | rfl
    · simp [h.1]
    · exact ih h.2.1 ht
    · simp [h.2.2]
  | unary op sign operand ih =>
    rcases List.mem_cons.mp ht with rfl | ht
    · cases op <;> simp [h.1, UnaryOp.token]
    · exact ih h.2.1 ht
  | binary op left sign right ihl ihr =>
    simp only [tokens, List.mem_append, List.mem_cons] at ht
    rcases ht with ht | rfl | ht
    · exact ihl h.2.1 ht
    · rw [h.1]
      rcases op with (_ | _ | _ | _ | _) | (_ | _ | _ | _ | _ | _) | (_ | _) <;>
        simp [BinaryOp.token]
    · exact ihr h.2.2.1 ht
  | ternary condition question thenExpr colon elseExpr ihc iht ihe =>
    obtain ⟨hquestion, hcolon, hc, ht', he, -⟩ := h
    simp only [tokens, List.mem_append, List.mem_cons] at ht
    rcases ht with (ht | rfl | ht) | rfl | ht
    · exact ihc hc ht
    · simp [hquestion]
    · exact iht ht' ht
    · simp [hcolon]
    · exact ihe he ht

theorem headKind_tokens (e : Expr) (after : List Token) :
    Token.headKind (e.tokens ++ after) = e.first.kind := by
  obtain ⟨ts, hts⟩ := e.exists_tokens_eq_cons
  rw [hts, List.cons_append, Token.headKind_cons]

/-- An expression is not taken for an assignment. -/
theorem Formed.headKind_tail_ne_assign {e : Expr} (h : e.Formed) {after : List Token}
    (hafter : Token.headKind after ≠ .assign) :
    Token.headKind (e.tokens ++ after).tail ≠ .assign := by
  obtain ⟨ts, hts⟩ := e.exists_tokens_eq_cons
  rw [hts, List.cons_append, List.tail_cons]
  cases ts with
  | nil => exact hafter
  | cons u us => exact h.kind_ne_assign (by simp [hts])

end Expr

/-- A token that begins a statement continues no expression, unless it is a minus sign. -/
theorem TokenKind.not_extends_of_startsStmt {k : TokenKind} (h : k.startsStmt = true)
    (hm : k ≠ .minus) (n : Nat) : ¬k.Extends n := by
  cases k <;> simp_all [startsStmt, startsExpr, Extends, BinaryOp.ofToken?]

theorem TokenKind.startsStmt_of_startsExpr {k : TokenKind} (h : k.startsExpr = true) :
    k.startsStmt = true := by
  cases k <;> simp_all [startsStmt, startsExpr]

/-! ## Statements -/

namespace Stmt

/-- Whether a statement ends in an expression. -/
def endsInExpr : Stmt → Bool
  | assign _ _ _ | print _ _ _ | expr _ => true
  | vars _ | block _ _ _ _ _ | wrap _ _ _ => false

def isAssign : Stmt → Bool
  | assign _ _ _ => true
  | _ => false

def isPrint : Stmt → Bool
  | print _ _ _ => true
  | _ => false

/-- Whether a statement may stand right before another one: no minus sign after an expression, and
no expression after printing. -/
def MayPrecede (s next : Stmt) : Prop :=
  (s.endsInExpr = true → next.first.kind ≠ .minus) ∧
    (s.isPrint = true → next.first.kind.startsExpr = true → next.isAssign = true)

mutual

/-- Nothing in a statement runs into what follows it there. -/
def Separated : Stmt → Prop
  | print _ _ more => ∀ e ∈ more, e.first.kind ≠ .minus
  | block _ _ _ body _ => SeparatedAll body
  | wrap _ _ inner => inner.Separated
  | assign _ _ _ | expr _ | vars _ => True

/-- No statement of a list runs into the next one, and nothing in them into what follows. -/
def SeparatedAll : List Stmt → Prop
  | [] => True
  | s :: ss => s.Separated ∧ (∀ next ∈ ss.head?, s.MayPrecede next) ∧ SeparatedAll ss

end

instance (s next : Stmt) : Decidable (s.MayPrecede next) := inferInstanceAs (Decidable (_ ∧ _))

mutual

instance decidableSeparated : (s : Stmt) → Decidable s.Separated
  | print _ _ more => inferInstanceAs (Decidable (∀ e ∈ more, e.first.kind ≠ .minus))
  | block _ _ _ body _ => decidableSeparatedAll body
  | wrap _ _ inner => decidableSeparated inner
  | assign _ _ _ | expr _ | vars _ => .isTrue trivial

instance decidableSeparatedAll : (ss : List Stmt) → Decidable (SeparatedAll ss)
  | [] => .isTrue trivial
  | s :: ss =>
    have := decidableSeparated s
    have := decidableSeparatedAll ss
    inferInstanceAs (Decidable (_ ∧ _ ∧ _))

end

/-- A statement does not run into some tokens after it. -/
structure Free (s : Stmt) (after : List Token) : Prop where
  next : s.endsInExpr = true → ¬(Token.headKind after).Extends 0 ∧ Token.headKind after ≠ .assign
  args : s.isPrint = true → Token.beginExpr after = false

theorem Formed.startsStmt_first {s : Stmt} (h : s.Formed) : s.first.kind.startsStmt = true := by
  cases s with
  | assign name _ _ => simp [first, h.1, TokenKind.startsStmt, TokenKind.startsExpr]
  | print keyword _ _ => simp [first, h.1, TokenKind.startsStmt]
  | expr e => exact TokenKind.startsStmt_of_startsExpr (Expr.Formed.startsExpr_first h)
  | vars keyword => simp [first, show keyword.kind = _ from h, TokenKind.startsStmt]
  | block _ keyword _ _ _ => simp [first, h.1, TokenKind.startsStmt]
  | wrap _ keyword _ => simp [first, h.1, TokenKind.startsStmt]

theorem exists_tokens_eq_cons (s : Stmt) : ∃ ts, s.tokens = s.first :: ts := by
  cases s with
  | expr e => exact e.exists_tokens_eq_cons
  | assign _ equals value => exact ⟨_, rfl⟩
  | print _ arg more => exact ⟨_, rfl⟩
  | vars keyword => exact ⟨_, rfl⟩
  | block _ _ opening body closing => exact ⟨_, rfl⟩
  | wrap _ _ inner => exact ⟨_, rfl⟩

theorem headKind_tokens (s : Stmt) (after : List Token) :
    Token.headKind (s.tokens ++ after) = s.first.kind := by
  obtain ⟨ts, hts⟩ := s.exists_tokens_eq_cons
  rw [hts, List.cons_append, Token.headKind_cons]

/-- A statement does not run into the end of the list that it stands in. -/
theorem free_of_closing (s : Stmt) {after : List Token}
    (h : Token.headKind after = .eof ∨ Token.headKind after = .closeBrace) : s.Free after := by
  refine ⟨fun _ => ?_, fun _ => ?_⟩
  · rcases h with h | h <;> simp [h, TokenKind.Extends, BinaryOp.ofToken?]
  · rcases after with _ | ⟨t, _ | ⟨u, us⟩⟩
    · rfl
    · rcases h with h | h <;> rw [Token.headKind_cons] at h <;>
        simp [Token.beginExpr, h, TokenKind.startsExpr]
    · rcases h with h | h <;> rw [Token.headKind_cons] at h <;>
        simp [Token.beginExpr, h, TokenKind.startsExpr]

/-- A statement does not run into another one that may follow it. -/
theorem MayPrecede.free {s next : Stmt} (h : s.MayPrecede next) (hn : next.Formed)
    (after : List Token) : s.Free (next.tokens ++ after) := by
  have hstarts := hn.startsStmt_first
  refine ⟨fun hend => ?_, fun hprint => ?_⟩
  · rw [headKind_tokens]
    refine ⟨TokenKind.not_extends_of_startsStmt hstarts (h.1 hend) 0, fun ha => ?_⟩
    simp [ha, TokenKind.startsStmt, TokenKind.startsExpr] at hstarts
  · obtain ⟨ts, hts⟩ := next.exists_tokens_eq_cons
    cases hs : next.first.kind.startsExpr with
    | false =>
      rw [hts, List.cons_append]
      cases ts ++ after <;> simp [Token.beginExpr, hs]
    | true =>
      have hassign := h.2 hprint hs
      cases next with
      | assign name equals value => simp [tokens, Token.beginExpr, hn.1, hn.2.1]
      | _ => simp [isAssign] at hassign

/-- An argument is not continued by the ones after it. -/
theorem next_of_args {es : List Expr} (hes : ∀ e ∈ es, e.Formed)
    (hminus : ∀ e ∈ es, e.first.kind ≠ .minus) {after : List Token}
    (hnext : ¬(Token.headKind after).Extends 0) (hassign : Token.headKind after ≠ .assign) :
    ¬(Token.headKind (es.flatMap Expr.tokens ++ after)).Extends 0 ∧
      Token.headKind (es.flatMap Expr.tokens ++ after) ≠ .assign := by
  cases es with
  | nil => exact ⟨hnext, hassign⟩
  | cons e es =>
    have hstarts := (hes e List.mem_cons_self).startsExpr_first
    rw [List.flatMap_cons, List.append_assoc, Expr.headKind_tokens]
    refine ⟨TokenKind.not_extends_of_startsStmt (TokenKind.startsStmt_of_startsExpr hstarts)
      (hminus e List.mem_cons_self) 0, fun ha => ?_⟩
    simp [ha, TokenKind.startsExpr] at hstarts

/-- The tokens of further arguments are read as them. -/
theorem reads_moreArgs {es : List Expr} (hes : ∀ e ∈ es, e.Formed)
    (hminus : ∀ e ∈ es, e.first.kind ≠ .minus) {after : List Token} {st : ParseState}
    (hs : st.Sees (es.flatMap Expr.tokens ++ after)) (hnext : ¬(Token.headKind after).Extends 0)
    (hassign : Token.headKind after ≠ .assign) (hbegin : Token.beginExpr after = false) :
    ∃ es' st', Reads .moreArgs st (.ok es') st' ∧ es'.map Expr.unplaced = es.map Expr.unplaced ∧
      st'.Sees after := by
  induction es generalizing st with
  | nil =>
    have hs : st.Sees after := hs
    rw [hs.beginExpr_eq] at hbegin
    by_cases ha : st.token.kind = .identifier ∧ st.ahead.kind = .assign
    · exact ⟨[], _, .argsAssign ha.1 ha.2, rfl, hs.probed⟩
    · have hstop : st.token.kind.startsExpr = false := by
        cases hst : st.token.kind.startsExpr with
        | false => rfl
        | true => simp [hst] at hbegin; exact absurd hbegin ha
      exact ⟨[], _, .argsStop hstop, rfl, hs.looked⟩
  | cons e es ih =>
    rw [List.forall_mem_cons] at hes hminus
    obtain ⟨he, hes⟩ := hes
    have hs : st.Sees (e.tokens ++ (es.flatMap Expr.tokens ++ after)) := by
      simpa [List.append_assoc] using hs
    have hrest := next_of_args hes hminus.2 hnext hassign
    have hkind : st.token.kind = e.first.kind := hs.kind_token.trans (e.headKind_tokens _)
    have hahead : st.ahead.kind ≠ .assign :=
      hs.kind_ahead ▸ he.headKind_tail_ne_assign hrest.2
    obtain ⟨e', st₁, hread, heq, hs₁⟩ := he.reads hs.probed hrest.1
    obtain ⟨es', st₂, hreads, heqs, hs₂⟩ := ih hes hminus.2 hs₁
    refine ⟨e' :: es', st₂, .arg (hkind ▸ he.startsExpr_first) (fun h => hahead h.2) hread hreads,
      ?_, hs₂⟩
    rw [List.map_cons, List.map_cons, heq, heqs]

/-- The tokens of a statement are read as it, if it does not run into what follows. -/
def IsRead (s : Stmt) : Prop :=
  ∀ ⦃after : List Token⦄ ⦃st : ParseState⦄, st.Sees (s.tokens ++ after) → s.Free after →
    ∃ s' st', Reads .stmt st (.ok s') st' ∧ s'.unplaced = s.unplaced ∧ st'.Sees after

/-- The tokens of an inspection are read as it. -/
def IsInspected (s : Stmt) : Prop :=
  ∀ ⦃after : List Token⦄ ⦃st : ParseState⦄, st.Sees (s.tokens ++ after) →
    ∃ kind s' st', st.token.kind = .inspect kind ∧ Reads (.inspection kind) st (.ok s') st' ∧
      s'.unplaced = s.unplaced ∧ st'.Sees after

/-- The tokens of some statements are read as them, up to the token that closes their list. -/
def AreRead (ss : List Stmt) : Prop :=
  ∀ (rule : Rule) ⦃after : List Token⦄ ⦃st : ParseState⦄, st.Sees (tokensOf ss ++ after) →
    Token.headKind after = .eof ∨ Token.headKind after = .closeBrace →
    ∃ ss' st', Reads (.stmts (Token.headKind after) rule) st (.ok ss') st' ∧
      unplacedAll ss' = unplacedAll ss ∧ st'.Sees after

theorem isRead_assign {name equals : Token} {value : Expr} (h : (assign name equals value).Formed) :
    (assign name equals value).IsRead := by
  intro after st hs hfree
  obtain ⟨hname, hequals, hvalue⟩ := h
  have hs : st.Sees (name :: equals :: (value.tokens ++ after)) := hs
  have hname' : st.token.kind = .identifier := hs.kind_token.trans hname
  have hequals' : st.ahead.kind = .assign := hs.kind_ahead.trans hequals
  have hs₁ := ((hs.entered .stmt).probed.passed .stmt).looked
  obtain ⟨value', st₁, hread, heq, hs₂⟩ := hvalue.reads (hs₁.passed .stmt) (hfree.next rfl).1
  refine ⟨_, _, .assign hname' hequals' hread, ?_, hs₂.exited .stmt⟩
  have hahead : st.ahead.unplaced = equals.unplaced := by simpa using hs₁.unplaced_token
  simp only [unplaced, hs.unplaced_token, hahead, heq]

theorem isRead_print {keyword : Token} {arg : Expr} {more : List Expr}
    (h : (print keyword arg more).Formed) (hsep : (print keyword arg more).Separated) :
    (print keyword arg more).IsRead := by
  intro after st hs hfree
  obtain ⟨hkeyword, hargs⟩ := h
  rw [List.forall_mem_cons] at hargs
  have hs : st.Sees (keyword :: (arg.tokens ++ (more.flatMap Expr.tokens ++ after))) := by
    simpa [tokens] using hs
  obtain ⟨hnext, hassign⟩ := hfree.next rfl
  obtain ⟨arg', st₁, hread, heq, hs₁⟩ := hargs.1.reads ((hs.entered .stmt).looked.passed .stmt)
    (next_of_args hargs.2 hsep hnext hassign).1
  obtain ⟨more', st₂, hreads, heqs, hs₂⟩ :=
    reads_moreArgs hargs.2 hsep hs₁ hnext hassign (hfree.args rfl)
  refine ⟨_, _, .print (hs.kind_token.trans hkeyword) hread hreads, ?_, hs₂.exited .stmt⟩
  simp only [unplaced, hs.unplaced_token, heq, heqs]

theorem isRead_expr {e : Expr} (h : e.Formed) : (expr e).IsRead := by
  intro after st hs hfree
  have hs : st.Sees (e.tokens ++ after) := hs
  obtain ⟨hnext, hassign⟩ := hfree.next rfl
  have hkind : st.token.kind = e.first.kind := hs.kind_token.trans (e.headKind_tokens _)
  have hstarts : st.token.kind.startsExpr = true := hkind ▸ h.startsExpr_first
  have hahead : st.ahead.kind ≠ .assign := hs.kind_ahead ▸ h.headKind_tail_ne_assign hassign
  have hne : ∀ k : TokenKind, k.startsExpr = false → st.token.kind ≠ k := by
    intro k hk heq
    simp [heq, hk] at hstarts
  obtain ⟨e', st₁, hread, heq, hs₁⟩ := h.reads (hs.entered .stmt).probed hnext
  refine ⟨_, _, .exprStmt (fun ha => hahead ha.2) (hne .print rfl) (hne .vars rfl)
    (fun kind => hne (.inspect kind) rfl) hread, ?_, hs₁.exited .stmt⟩
  simp only [unplaced, heq]

theorem isRead_vars {keyword : Token} (h : keyword.kind = .vars) : (vars keyword).IsRead := by
  intro after st hs _
  have hs : st.Sees (keyword :: after) := hs
  refine ⟨_, _, .vars (hs.kind_token.trans h), ?_,
    ((hs.entered .stmt).looked.passed .stmt).exited .stmt⟩
  simp only [unplaced, hs.unplaced_token]

theorem IsInspected.isRead {s : Stmt} (h : s.IsInspected) : s.IsRead := by
  intro after st hs _
  obtain ⟨kind, s', st', hkind, hread, heq, hs'⟩ := h (hs.entered .stmt).looked
  exact ⟨s', _, .inspect hkind hread, heq, hs'.exited .stmt⟩

theorem isInspected_block {kind : Inspection} {keyword opening closing : Token}
    {body : List Stmt} (hbody : AreRead body) (hkeyword : keyword.kind = .inspect kind)
    (hopening : opening.kind = .openBrace) (hclosing : closing.kind = .closeBrace) :
    (block kind keyword opening body closing).IsInspected := by
  intro after st hs
  have hs : st.Sees (keyword :: opening :: (tokensOf body ++ closing :: after)) := by
    simpa [tokens] using hs
  have hs₁ := ((hs.entered .inspect).passed .inspect).looked
  obtain ⟨body', st₁, hread, heq, hs₂⟩ :=
    hbody .inspect (hs₁.passed .inspect) (.inr hclosing)
  rw [Token.headKind_cons, hclosing] at hread
  refine ⟨kind, _, _, hs.kind_token.trans hkeyword, .block (hs.kind_ahead.trans hopening) hread
    (hs₂.kind_token.trans hclosing), ?_, (hs₂.looked.passed .inspect).exited .inspect⟩
  have hahead : st.ahead.unplaced = opening.unplaced := by simpa using hs₁.unplaced_token
  simp only [unplaced, hs.unplaced_token, hahead, heq, hs₂.unplaced_token]

theorem isInspected_wrap {kind : Inspection} {keyword : Token} {inner : Stmt}
    (hinner : inner.IsInspected) (hkeyword : keyword.kind = .inspect kind)
    (hkind : kind ≠ .refactor) : (wrap kind keyword inner).IsInspected := by
  intro after st hs
  have hs : st.Sees (keyword :: (inner.tokens ++ after)) := hs
  obtain ⟨kind', inner', st', hk, hread, heq, hs'⟩ :=
    hinner ((hs.entered .inspect).passed .inspect).looked
  refine ⟨kind, _, _, hs.kind_token.trans hkeyword, .wrap (by simpa using hk) hkind hread, ?_,
    hs'.exited .inspect⟩
  simp only [unplaced, hs.unplaced_token, heq]

theorem areRead_nil : AreRead [] := by
  intro rule after st hs _
  have hs : st.Sees after := hs
  exact ⟨[], _, .stmtsDone (.inl hs.kind_token), rfl, hs.looked⟩

theorem areRead_cons {s : Stmt} {ss : List Stmt} (hs : s.IsRead) (hss : AreRead ss)
    (hf : s.Formed) (hfs : FormedAll ss) (hsep : ∀ next ∈ ss.head?, s.MayPrecede next) :
    AreRead (s :: ss) := by
  intro rule after st hsees hclosing
  have hsees : st.Sees (s.tokens ++ (tokensOf ss ++ after)) := by
    simpa [tokensOf] using hsees
  have hstarts : st.token.kind.startsStmt = true :=
    (hsees.kind_token.trans (s.headKind_tokens _)) ▸ hf.startsStmt_first
  have hfree : s.Free (tokensOf ss ++ after) := by
    cases ss with
    | nil => exact s.free_of_closing hclosing
    | cons next ss =>
      have := (hsep next rfl).free hfs.1 (tokensOf ss ++ after)
      simpa [tokensOf] using this
  obtain ⟨s', st₁, hread, heq, hs₁⟩ := hs hsees.looked hfree
  obtain ⟨ss', st₂, hreads, heqs, hs₂⟩ := hss rule hs₁ hclosing
  refine ⟨s' :: ss', st₂, .stmts (fun hend => ?_) hstarts hread hreads, ?_, hs₂⟩
  · have hkind : st.token.kind = .eof ∨ st.token.kind = .closeBrace := by
      rcases hend with h | h
      · exact h ▸ hclosing
      · exact .inl h
    rcases hkind with h | h <;> simp [h, TokenKind.startsStmt, TokenKind.startsExpr] at hstarts
  · rw [unplacedAll, unplacedAll, heq, heqs]

mutual

/-- Every formed and separated statement is read. -/
theorem isRead_of_formed (s : Stmt) (h : s.Formed) (hsep : s.Separated) :
    s.IsRead ∧ (s.isInspection = true → s.IsInspected) := by
  match s with
  | assign _ _ _ => exact ⟨isRead_assign h, fun hi => by simp [isInspection] at hi⟩
  | print _ _ _ => exact ⟨isRead_print h hsep, fun hi => by simp [isInspection] at hi⟩
  | expr _ => exact ⟨isRead_expr h, fun hi => by simp [isInspection] at hi⟩
  | vars _ => exact ⟨isRead_vars h, fun hi => by simp [isInspection] at hi⟩
  | block kind keyword opening body closing =>
    obtain ⟨hkeyword, hopening, hbody, hclosing⟩ := h
    have hins := isInspected_block (areRead_of_formed body hbody hsep) hkeyword hopening hclosing
    exact ⟨hins.isRead, fun _ => hins⟩
  | wrap kind keyword inner =>
    obtain ⟨hkeyword, hkind, hi, hinner⟩ := h
    have hins := isInspected_wrap ((isRead_of_formed inner hinner hsep).2 hi) hkeyword hkind
    exact ⟨hins.isRead, fun _ => hins⟩

/-- All formed and separated statements are read. -/
theorem areRead_of_formed (ss : List Stmt) (h : FormedAll ss) (hsep : SeparatedAll ss) :
    AreRead ss := by
  match ss with
  | [] => exact areRead_nil
  | s :: ss =>
    obtain ⟨hs, hss⟩ := h
    obtain ⟨hsep₁, hnext, hsep₂⟩ := hsep
    exact areRead_cons (isRead_of_formed s hs hsep₁).1 (areRead_of_formed ss hss hsep₂) hs hss hnext

end

end Stmt

/-! ## Sources -/

/-- The rules leave only one outcome. -/
theorem Reads.unique {p : Phrase} {g : Goal p} {st st₁ st₂ : ParseState}
    {o₁ o₂ : Except SyntaxError p.Tree} (h₁ : Reads g st o₁ st₁) (h₂ : Reads g st o₂ st₂)
    (hend : st.Ends) : o₁ = o₂ ∧ st₁ = st₂ := by
  have h := (h₁.run_eq hend _ (Nat.le_refl _)).symm.trans (h₂.run_eq hend _ (Nat.le_refl _))
  exact Prod.mk.inj h

namespace Parser

/-- A source whose tokens are those of formed and separated statements is read as them. -/
theorem readSource_complete {rule : Rule} {p : Parser} {ss : List Stmt}
    (hformed : Stmt.FormedAll ss) (hsep : Stmt.SeparatedAll ss)
    (hs : (p.start rule).Sees (Stmt.tokensOf ss)) :
    (p.readSource rule).1.errors = [] ∧
      Stmt.unplacedAll (p.readSource rule).1.program.stmts = Stmt.unplacedAll ss := by
  obtain ⟨ss₁, st₁, hread₁, hprogram, hlog⟩ := exists_reads hs.ends
  have hall : (p.start rule).Sees (Stmt.tokensOf ss ++ []) := by simpa using hs
  obtain ⟨ss₂, st₂, hread₂, heq, hs₂⟩ :=
    Stmt.areRead_of_formed ss hformed hsep rule hall (.inl rfl)
  obtain ⟨hok, rfl⟩ := hread₁.unique hread₂ hs.ends
  cases hok
  have hclosed : (st₁.closed rule).Sees [] := (hs₂.passed_end rule).exited rule
  rw [hlog, hprogram, hclosed.log]
  exact ⟨rfl, heq⟩

/-- What a text is split into is what is ahead at the start; an entry must not be empty. -/
theorem sees_start {rule : Rule} {t : Text} {us ts : List Token} (h : t.Splits us)
    (hts : us.filter (!·.hidden) = ts) (hentry : rule = .entry → ts ≠ []) :
    ((ofText t).start rule).Sees ts := by
  obtain ⟨hfaults, htokens⟩ := h.lexed
  rw [hts] at htokens
  rw [← lexed_ofText] at hfaults htokens
  have hend := ends_start_ofText rule t
  have hquiet : ∀ w ∈ ((ofText t).start rule).last :: ((ofText t).start rule).rest,
      ∀ i ∈ w.items, i.faults = [] :=
    fun w hw i hi => hfaults i (mem_all_of_mem_items hw hi)
  have hvisible : ((Word.group [] (ofText t).lexed.items).1.map Word.token).map Token.unplaced =
      ts.map Token.unplaced := by
    rw [Word.map_token_group]
    exact htokens
  rw [ParseState.Ends, last_start] at hend
  simp only [start, ParseState.rest_opened, ParseState.last_opened] at hquiet
  have hsees : ParseState.Sees ⟨_, ⟨_, _⟩, (ofText t).created, []⟩ ts :=
    ⟨hend, hvisible, hquiet, rfl⟩
  rw [start, ParseState.opened]
  split
  · next hrule =>
    rw [if_neg]
    · exact (hsees.entered rule).looked
    · rw [hsees.kind_token]
      cases ts with
      | nil => exact absurd rfl (hentry hrule)
      | cons u us =>
        have hmem : u.unplaced ∈ (ofText t).lexed.visible.map Token.unplaced := by
          rw [htokens]
          exact List.mem_cons_self
        obtain ⟨v, hv, hvu⟩ := List.mem_map.mp hmem
        rw [lexed_ofText] at hv
        rw [Token.headKind_cons, ← Token.kind_of_unplaced_eq hvu]
        exact Lexed.kind_ne_eof_of_mem_visible hv
  · exact hsees.entered rule

/-- A text that is split into the tokens of formed and separated statements is read as them. -/
theorem readSource_of_splits {rule : Rule} {t : Text} {us : List Token} {ss : List Stmt}
    (hformed : Stmt.FormedAll ss) (hsep : Stmt.SeparatedAll ss) (h : t.Splits us)
    (hus : us.filter (!·.hidden) = Stmt.tokensOf ss) (hentry : rule = .entry → ss ≠ []) :
    ((ofText t).readSource rule).1.errors = [] ∧
      Stmt.unplacedAll ((ofText t).readSource rule).1.program.stmts = Stmt.unplacedAll ss := by
  refine readSource_complete hformed hsep (sees_start h hus fun hrule hnil => ?_)
  cases ss with
  | nil => exact hentry hrule rfl
  | cons s ss =>
    obtain ⟨ts, hts⟩ := s.exists_tokens_eq_cons
    simp [Stmt.tokensOf, hts] at hnil

end Parser

/-- Parsing undoes writing. Statements that obey the grammar and do not run into each other are read
back from their tokens with single spaces between them: without a fault, and up to the places of the
tokens as the same statements. -/
theorem parse_render {ss : List Stmt} (hformed : Stmt.FormedAll ss) (hsep : Stmt.SeparatedAll ss)
    (hspelled : ∀ t ∈ Stmt.tokensOf ss, t.Spelled) :
    (parseProgram (Token.render (Stmt.tokensOf ss))).errors = [] ∧
      Stmt.unplacedAll (parseProgram (Token.render (Stmt.tokensOf ss))).program.stmts =
        Stmt.unplacedAll ss := by
  obtain ⟨us, hsplits, hus⟩ := Token.splits_render hspelled
  exact Parser.readSource_of_splits hformed hsep hsplits hus nofun

theorem parse_render_nested :
    let token (k : TokenKind) (t : Text) : Token := ⟨k, t, [], {}, 0⟩
    let x : Token := token .identifier "x"
    let power : Expr := .binary (.arith .pow) (.literal (token .number "1_0.5")) (token .caret "^")
      (.unary .negate (token .minus "-") (.identifier x))
    let text : Expr := .literal ⟨.string, "'it\\'s'", "it's", {}, 0⟩
    let ss : List Stmt :=
      [.assign x (token .assign "=")
        (.ternary power (token .question "?") text (token .colon ":") (.identifier x)),
      .wrap .tree (token (.inspect .tree) "tree")
        (.block .refactor (token (.inspect .refactor) "refactor") (token .openBrace "\x7b")
          [.print (token .print "Print") text [power], .vars (token .vars "vars")]
          (token .closeBrace "\x7d"))]
    (parseProgram (Token.render (Stmt.tokensOf ss))).errors = [] ∧
      Stmt.unplacedAll (parseProgram (Token.render (Stmt.tokensOf ss))).program.stmts =
        Stmt.unplacedAll ss := by
  intro token x power text ss
  have hx : x.Spelled := ⟨⟨by decide +kernel, by decide +kernel⟩, by decide +kernel, rfl⟩
  have hprint : (token .print "Print").Spelled :=
    ⟨⟨by decide +kernel, by decide +kernel⟩, by decide +kernel, rfl⟩
  have hpower : ∀ t ∈ power.tokens, t.Spelled := by
    have hnumber : Lexeme.IsNumber "1_0.5" :=
      .inr ⟨"1_0", "5", rfl, .inr ⟨rfl, by decide +kernel⟩, ⟨rfl, by decide +kernel⟩⟩
    simp only [power, Expr.tokens, List.cons_append, List.nil_append, List.forall_mem_cons]
    exact ⟨⟨hnumber, rfl⟩, ⟨rfl, rfl⟩, ⟨rfl, rfl⟩, hx, by simp⟩
  have htext : ∀ t ∈ text.tokens, t.Spelled := by
    have hbody : Lexeme.Quotes 39 "it\\'s" "it's" :=
      .plain (by decide) (by decide) (.plain (by decide) (by decide) (.escaped
        (.plain (by decide) (by decide) .nil)))
    simp only [text, Expr.tokens, List.forall_mem_cons]
    exact ⟨⟨_, _, rfl, rfl, hbody⟩, by simp⟩
  refine parse_render ?_ ?_ ?_
  · simp [ss, token, x, power, text, Stmt.FormedAll, Stmt.Formed, Expr.Formed, TokenKind.IsLiteral,
      BinaryOp.token, UnaryOp.token, Expr.isTernary, Expr.operator?, Stmt.isInspection]
  · simp [ss, token, x, power, text, Stmt.SeparatedAll, Stmt.Separated, Stmt.MayPrecede, Stmt.first,
      Expr.first, Stmt.isPrint, Stmt.endsInExpr, TokenKind.startsExpr]
  · simp only [ss, Stmt.tokensOf, Stmt.tokens, Expr.tokens, List.flatMap_cons, List.flatMap_nil,
      List.append_assoc, List.cons_append, List.nil_append, List.forall_mem_cons,
      List.forall_mem_append]
    exact ⟨hx, ⟨rfl, rfl⟩, hpower, ⟨rfl, rfl⟩, htext, ⟨rfl, rfl⟩, hx, ⟨rfl, rfl⟩, ⟨rfl, rfl⟩,
      ⟨rfl, rfl⟩, hprint, htext, hpower, ⟨rfl, rfl⟩, ⟨rfl, rfl⟩, by simp⟩

end Reckoner
