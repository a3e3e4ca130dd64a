import Reckoner.Proofs.Completeness
import Reckoner.Proofs.Simplifying

/-!
# Simplified trees

Simplifying is done by edits of the tokens, and no tree is built for the result. Here is the tree
that the result is meant to have, and the tokens that are left for it: those of the simplified tree,
each with what stands in front of it in the source.
-/
namespace Reckoner

/-- A token that stands in no source. -/
def Token.made (kind : TokenKind) (text : Text) : Token := { kind, text, pos := {}, index := 0 }

@[simp] theorem Token.hidden_made (kind : TokenKind) (text : Text) :
    (made kind text).hidden = kind.hidden := rfl

/-! ## The simplified tree -/

namespace Expr

/-- What may become of an operator and its operands. -/
inductive Reduction where
  | keep | left | negatedLeft | right | zero
deriving DecidableEq, Repr

/-- What becomes of an operator and its operands, which are looked at as they stand in the source. -/
def reduction (op : BinaryOp) (left right : Expr) : Reduction :=
  match op with
  | .relation .eq =>
    if right.isBoolean true then .left
    else if right.isBoolean false then .negatedLeft
    else .keep
  | .relation .ne =>
    if right.isBoolean true then .negatedLeft
    else if right.isBoolean false then .left
    else .keep
  | .arith .add =>
    if right.isNumber .zero then .left
    else if left.isNumber .zero then .right
    else .keep
  | .arith .mul =>
    if right.isNumber .zero || left.isNumber .zero then .zero
    else if right.isNumber .one then .left
    else if left.isNumber .one then .right
    else .keep
  | _ => .keep

/-- The negation of an expression, which stands in parentheses unless it is known not to need
them. -/
def negated (atomic : Bool) (e : Expr) : Expr :=
  unary .not (.made .not "!")
    (if atomic then e else paren (.made .openParen "(") e (.made .closeParen ")"))

/-- An expression simplified from the inside out. -/
def simplify : Expr → Expr
  | literal t => literal t
  | identifier t => identifier t
  | paren opening inner closing => paren opening inner.simplify closing
  | unary op sign operand => unary op sign operand.simplify
  | binary op left sign right =>
    match reduction op left right with
    | .keep => binary op left.simplify sign right.simplify
    | .left => left.simplify
    | .negatedLeft => left.simplify.negated left.isAtomic
    | .right => right.simplify
    | .zero => literal (.made .number "0")
  | ternary condition question thenExpr colon elseExpr =>
    ternary condition.simplify question thenExpr.simplify colon elseExpr.simplify

/-- The edits that bring a reduction about. -/
def Reduction.edits (left : Expr) (sign : Token) (right : Expr) : Reduction → List Edit
  | keep => []
  | .left => [dropRight sign right]
  | negatedLeft => left.negation ++ [dropRight sign right]
  | .right => [dropLeft left right]
  | zero => [.replace { first := left.first.index, last := right.last.index, text := "0" }]

theorem simplifyBinary_eq (op : BinaryOp) (left : Expr) (sign : Token) (right : Expr) :
    simplifyBinary op left sign right = (reduction op left right).edits left sign right := by
  rcases op with (_ | _ | _ | _ | _) | (_ | _ | _ | _ | _ | _) | (_ | _) <;>
    simp only [simplifyBinary, reduction] <;> (try split_ifs) <;> rfl

/-- Only a number is dropped on the left, only a comparison for equality is negated, and only a
product is replaced as a whole. -/
theorem reduction_spec (op : BinaryOp) (left right : Expr) :
    match reduction op left right with
    | .keep | .left => True
    | .negatedLeft => op.precedence = 4
    | .right => ∃ x, left.isNumber x = true
    | .zero => op.precedence = 7 := by
  generalize hred : reduction op left right = r
  unfold reduction at hred
  split at hred <;> (repeat' split at hred)
  all_goals
    subst hred
    first
      | trivial
      | rfl
      | exact ⟨_, by assumption⟩

section
variable {op : BinaryOp} {left right : Expr}

theorem exists_literal_of_right (h : reduction op left right = .right) :
    ∃ t, left = literal t := by
  have hspec := reduction_spec op left right
  rw [h] at hspec
  obtain ⟨x, hx⟩ := hspec
  cases left with
  | literal t => exact ⟨t, rfl⟩
  | _ => simp [isNumber] at hx

theorem precedence_of_negatedLeft (h : reduction op left right = .negatedLeft) :
    op.precedence = 4 := by
  have hspec := reduction_spec op left right
  rwa [h] at hspec

theorem precedence_of_zero (h : reduction op left right = .zero) : op.precedence = 7 := by
  have hspec := reduction_spec op left right
  rwa [h] at hspec

end

/-- Simplifying never loosens an expression. -/
theorem level_le_simplify {e : Expr} (h : e.Formed) : e.level ≤ e.simplify.level := by
  induction e with
  | binary op left sign right ihl ihr =>
    obtain ⟨-, hleft, hright, hl, hr⟩ := formed_binary_iff.mp h
    have hle : (binary op left sign right).level = op.precedence := rfl
    have htop := op.precedence_lt_topLevel
    rw [simplify, hle]
    split
    · exact Nat.le_refl _
    · exact Nat.le_trans hl (ihl hleft)
    · exact Nat.le_of_lt htop
    · exact Nat.le_trans (Nat.le_of_lt hr) (ihr hright)
    · exact Nat.le_of_lt htop
  | _ => exact Nat.le_refl _

/-- What binds more tightly than every operator keeps its shape. -/
theorem level_simplify_of_isAtomic {e : Expr} (h : e.isAtomic = true) :
    e.simplify.level = topLevel := by
  cases e with
  | binary | ternary => simp [isAtomic] at h
  | _ => rfl

theorem level_of_isAtomic_eq_false {e : Expr} (h : e.isAtomic = false) : e.level < topLevel := by
  cases e with
  | binary op => exact op.precedence_lt_topLevel
  | ternary => exact (by decide : Grammar.ternaryLevel < topLevel)
  | _ => simp [isAtomic] at h

/-- The simplified tree obeys the grammar. -/
theorem formed_simplify {e : Expr} (h : e.Formed) : e.simplify.Formed := by
  induction e with
  | literal t | identifier t => exact h
  | paren opening inner closing ih => exact ⟨h.1, ih h.2.1, h.2.2⟩
  | unary op sign operand ih =>
    obtain ⟨hsign, hoperand, hlevel⟩ := formed_unary_iff.mp h
    have hatomic : operand.isAtomic = true := by
      cases ha : operand.isAtomic with
      | true => rfl
      | false => exact absurd hlevel (Nat.ne_of_lt (level_of_isAtomic_eq_false ha))
    exact formed_unary_iff.mpr ⟨hsign, ih hoperand, level_simplify_of_isAtomic hatomic⟩
  | binary op left sign right ihl ihr =>
    obtain ⟨hsign, hleft, hright, hl, hr⟩ := formed_binary_iff.mp h
    rw [simplify]
    split
    · exact formed_binary_iff.mpr ⟨hsign, ihl hleft, ihr hright,
        Nat.le_trans hl (level_le_simplify hleft), Nat.lt_of_lt_of_le hr (level_le_simplify hright)⟩
    · exact ihl hleft
    · refine formed_unary_iff.mpr ⟨rfl, ?_⟩
      cases ha : left.isAtomic with
      | true => exact ⟨ihl hleft, level_simplify_of_isAtomic ha⟩
      | false => exact ⟨⟨rfl, ihl hleft, rfl⟩, rfl⟩
    · exact ihr hright
    · exact .inl rfl
  | ternary condition question thenExpr colon elseExpr ihc iht ihe =>
    obtain ⟨hquestion, hcolon, hc, ht, he, hlevel⟩ := formed_ternary_iff.mp h
    exact formed_ternary_iff.mpr ⟨hquestion, hcolon, ihc hc, iht ht, ihe he,
      Nat.lt_of_lt_of_le hlevel (level_le_simplify hc)⟩

end Expr

namespace Stmt

mutual

/-- A statement with all its expressions simplified. -/
def simplify : Stmt → Stmt
  | assign name equals value => assign name equals value.simplify
  | print keyword arg more => print keyword arg.simplify (more.map Expr.simplify)
  | expr e => expr e.simplify
  | vars keyword => vars keyword
  | block kind keyword opening body closing =>
    block kind keyword opening (simplifyAll body) closing
  | wrap kind keyword inner => wrap kind keyword inner.simplify

/-- Some statements with all their expressions simplified. -/
def simplifyAll : List Stmt → List Stmt
  | [] => []
  | s :: ss => s.simplify :: simplifyAll ss

end

theorem isInspection_simplify (s : Stmt) : s.simplify.isInspection = s.isInspection := by
  cases s <;> rfl

mutual

theorem formed_simplify {s : Stmt} (h : s.Formed) : s.simplify.Formed := by
  match s with
  | assign name equals value => exact ⟨h.1, h.2.1, Expr.formed_simplify h.2.2⟩
  | print keyword arg more =>
    obtain ⟨hk, hargs⟩ := h
    rw [List.forall_mem_cons] at hargs
    refine ⟨hk, List.forall_mem_cons.mpr ⟨Expr.formed_simplify hargs.1, ?_⟩⟩
    intro e he
    obtain ⟨e', he', rfl⟩ := List.mem_map.mp he
    exact Expr.formed_simplify (hargs.2 e' he')
  | expr e => exact Expr.formed_simplify h
  | vars keyword => exact h
  | block kind keyword opening body closing =>
    exact ⟨h.1, h.2.1, formedAll_simplifyAll h.2.2.1, h.2.2.2⟩
  | wrap kind keyword inner =>
    exact ⟨h.1, h.2.1, (isInspection_simplify inner).trans h.2.2.1, formed_simplify h.2.2.2⟩

theorem formedAll_simplifyAll {ss : List Stmt} (h : FormedAll ss) : FormedAll (simplifyAll ss) := by
  match ss with
  | [] => trivial
  | s :: ss => exact ⟨formed_simplify h.1, formedAll_simplifyAll h.2⟩

end

end Stmt

/-! ## The tokens that are left -/

/-- Some tokens, each with what stands in front of it. -/
def Token.laid (lead : Token → List Token) (ts : List Token) : List Token :=
  ts.flatMap fun t => lead t ++ [t]

@[simp] theorem Token.laid_nil (lead : Token → List Token) : laid lead [] = [] := rfl

theorem Token.laid_append (lead : Token → List Token) (ts us : List Token) :
    laid lead (ts ++ us) = laid lead ts ++ laid lead us := List.flatMap_append

theorem Token.laid_cons (lead : Token → List Token) (t : Token) (ts : List Token) :
    laid lead (t :: ts) = lead t ++ t :: laid lead ts := by
  simp [laid]

namespace Expr
variable (lead : Token → List Token)

/-- The tokens of an expression from its first to its last one, with what stands between them. -/
def span : Expr → List Token
  | literal t | identifier t => [t]
  | paren opening inner closing =>
    (opening :: lead inner.first) ++ inner.span ++ (lead closing ++ [closing])
  | unary _ sign operand => (sign :: lead operand.first) ++ operand.span
  | binary _ left sign right =>
    left.span ++ (lead sign ++ sign :: lead right.first) ++ right.span
  | ternary condition question thenExpr colon elseExpr =>
    condition.span ++ (lead question ++ question :: lead thenExpr.first) ++ thenExpr.span ++
      (lead colon ++ colon :: lead elseExpr.first) ++ elseExpr.span

/-- The tokens of an expression that simplifying leaves, with what stands between them. -/
def output : Expr → List Token
  | literal t | identifier t => [t]
  | paren opening inner closing =>
    (opening :: lead inner.first) ++ inner.output ++ (lead closing ++ [closing])
  | unary _ sign operand => (sign :: lead operand.first) ++ operand.output
  | binary op left sign right =>
    match reduction op left right with
    | .keep => left.output ++ (lead sign ++ sign :: lead right.first) ++ right.output
    | .left => left.output ++ lead sign
    | .negatedLeft =>
      .made .not "!" ::
        (if left.isAtomic then left.output
          else .made .openParen "(" :: left.output ++ [.made .closeParen ")"]) ++ lead sign
    | .right => right.output
    | .zero => [.made .number "0"]
  | ternary condition question thenExpr colon elseExpr =>
    condition.output ++ (lead question ++ question :: lead thenExpr.first) ++ thenExpr.output ++
      (lead colon ++ colon :: lead elseExpr.first) ++ elseExpr.output

/-- The span of an expression is made up of its tokens. -/
theorem laid_tokens (e : Expr) : Token.laid lead e.tokens = lead e.first ++ e.span lead := by
  induction e with
  | literal t | identifier t => simp [tokens, Token.laid_cons, first, span]
  | paren opening inner closing ih =>
    simp [tokens, Token.laid_cons, Token.laid_append, ih, first, span]
  | unary op sign operand ih => simp [tokens, Token.laid_cons, ih, first, span]
  | binary op left sign right ihl ihr =>
    simp [tokens, Token.laid_append, Token.laid_cons, ihl, ihr, first, span]
  | ternary condition question thenExpr colon elseExpr ihc iht ihe =>
    simp [tokens, Token.laid_append, Token.laid_cons, ihc, iht, ihe, first, span]

theorem exists_span_eq_cons (e : Expr) : ∃ ts, e.span lead = e.first :: ts := by
  induction e with
  | literal t | identifier t => exact ⟨[], rfl⟩
  | paren opening inner closing => exact ⟨_, rfl⟩
  | unary op sign operand => exact ⟨_, rfl⟩
  | binary op left sign right ihl =>
    obtain ⟨ts, hts⟩ := ihl
    simp [span, first, hts]
  | ternary condition question thenExpr colon elseExpr ihc =>
    obtain ⟨ts, hts⟩ := ihc
    simp [span, first, hts]

theorem exists_span_eq_concat (e : Expr) : ∃ ts, e.span lead = ts ++ [e.last] := by
  induction e with
  | literal t | identifier t => exact ⟨[], rfl⟩
  | paren opening inner closing => exact ⟨_, (List.append_assoc _ _ _).symm⟩
  | unary op sign operand ih =>
    obtain ⟨ts, hts⟩ := ih
    exact ⟨_, by rw [span, hts, last, ← List.append_assoc]⟩
  | binary op left sign right _ ihr =>
    obtain ⟨ts, hts⟩ := ihr
    exact ⟨_, by rw [span, hts, last, ← List.append_assoc]⟩
  | ternary condition question thenExpr colon elseExpr _ _ ihe =>
    obtain ⟨ts, hts⟩ := ihe
    exact ⟨_, by rw [span, hts, last, ← List.append_assoc]⟩

variable {lead}

theorem index_first {e : Expr} {n : Nat} (h : Token.Numbered n (e.span lead)) :
    e.first.index = n := by
  obtain ⟨ts, hts⟩ := e.exists_span_eq_cons lead
  rw [hts] at h
  exact h.1

theorem index_last {e : Expr} {n : Nat} (h : Token.Numbered n (e.span lead)) :
    e.last.index + 1 = n + (e.span lead).length := by
  obtain ⟨ts, hts⟩ := e.exists_span_eq_concat lead
  rw [hts, Token.numbered_append] at h
  have hlast : e.last.index = n + ts.length := h.2.1
  rw [hts, List.length_append, List.length_singleton]
  omega

theorem length_span_pos (e : Expr) : 0 < (e.span lead).length := by
  obtain ⟨ts, hts⟩ := e.exists_span_eq_cons lead
  simp [hts]

/-- What the parser sees of the tokens that are left are those of the simplified tree. -/
theorem filter_output {e : Expr} (hlead : ∀ t, ∀ u ∈ lead t, u.hidden = true)
    (h : ∀ t ∈ e.tokens, t.hidden = false) :
    (e.output lead).filter (!·.hidden) = e.simplify.tokens := by
  have hgap (t : Token) : (lead t).filter (!·.hidden) = [] := by
    simpa using hlead t
  induction e with
  | literal t | identifier t => simpa [output, simplify, tokens] using h
  | paren opening inner closing ih =>
    simp only [tokens, List.cons_append, List.forall_mem_cons, List.forall_mem_append] at h
    simp [output, simplify, tokens, hgap, ih h.2.1, h.1, h.2.2.1]
  | unary op sign operand ih =>
    simp only [tokens, List.forall_mem_cons] at h
    simp [output, simplify, tokens, hgap, ih h.2, h.1]
  | binary op left sign right ihl ihr =>
    simp only [tokens, List.forall_mem_cons, List.forall_mem_append] at h
    have hl := ihl h.1
    have hr := ihr h.2.2
    rw [output, simplify]
    cases reduction op left right with
    | keep => simp [tokens, hgap, hl, hr, h.2.1]
    | left => simp [hgap, hl]
    | negatedLeft =>
      cases left.isAtomic <;>
        simp [negated, tokens, hgap, hl, TokenKind.hidden]
    | right => exact hr
    | zero => rfl
  | ternary condition question thenExpr colon elseExpr ihc iht ihe =>
    simp only [tokens, List.forall_mem_cons, List.forall_mem_append] at h
    obtain ⟨⟨hc, hq, ht⟩, hk, he⟩ := h
    simp [output, simplify, tokens, hgap, ihc hc, iht ht, ihe he, hq, hk]

end Expr

namespace Stmt
variable (lead : Token → List Token)

section
variable (written : Expr → List Token)

mutual

/-- The tokens of a statement with what stands between them, given what becomes of its
expressions. -/
def laid : Stmt → List Token
  | assign name equals value =>
    (name :: lead equals ++ equals :: lead value.first) ++ written value
  | print keyword arg more =>
    [keyword] ++ (arg :: more).flatMap fun e => lead e.first ++ written e
  | expr e => written e
  | vars keyword => [keyword]
  | block _ keyword opening body closing =>
    (keyword :: lead opening ++ [opening]) ++ laidAll body ++ (lead closing ++ [closing])
  | wrap _ keyword inner => (keyword :: lead inner.first) ++ inner.laid

/-- The tokens of some statements, with what stands in front of them. -/
def laidAll : List Stmt → List Token
  | [] => []
  | s :: ss => lead s.first ++ s.laid ++ laidAll ss

end

end

theorem laid_args (es : List Expr) :
    Token.laid lead (es.flatMap Expr.tokens) =
      es.flatMap fun e => lead e.first ++ e.span lead := by
  induction es with
  | nil => rfl
  | cons e es ih => rw [List.flatMap_cons, List.flatMap_cons, Token.laid_append, e.laid_tokens, ih]

mutual

/-- A statement is made up of its tokens. -/
theorem laid_tokens (s : Stmt) :
    Token.laid lead s.tokens = lead s.first ++ s.laid lead (Expr.span lead) := by
  match s with
  | assign name equals value =>
    simp [tokens, Token.laid_cons, value.laid_tokens, first, laid]
  | print keyword arg more =>
    have := laid_args lead (arg :: more)
    rw [List.flatMap_cons] at this
    simp [tokens, Token.laid_cons, this, first, laid]
  | expr e => exact e.laid_tokens lead
  | vars keyword => simp [tokens, Token.laid_cons, first, laid]
  | block kind keyword opening body closing =>
    simp [tokens, Token.laid_cons, Token.laid_append, laid_tokensOf body, first, laid]
  | wrap kind keyword inner => simp [tokens, Token.laid_cons, laid_tokens inner, first, laid]

theorem laid_tokensOf (ss : List Stmt) :
    Token.laid lead (tokensOf ss) = laidAll lead (Expr.span lead) ss := by
  match ss with
  | [] => rfl
  | s :: ss =>
    rw [tokensOf, laidAll, Token.laid_append, laid_tokens s, laid_tokensOf ss]

end

variable {lead}

mutual

theorem filter_laid {s : Stmt} (hlead : ∀ t, ∀ u ∈ lead t, u.hidden = true)
    (h : ∀ t ∈ s.tokens, t.hidden = false) :
    (s.laid lead (Expr.output lead)).filter (!·.hidden) = s.simplify.tokens := by
  have hgap (t : Token) : (lead t).filter (!·.hidden) = [] := by
    simpa using hlead t
  have hexpr {e : Expr} (he : ∀ t ∈ e.tokens, t.hidden = false) :
      (e.output lead).filter (!·.hidden) = e.simplify.tokens := Expr.filter_output hlead he
  match s with
  | assign name equals value =>
    simp only [tokens, List.forall_mem_cons] at h
    simp [laid, simplify, tokens, hgap, hexpr h.2.2, h.1, h.2.1]
  | print keyword arg more =>
    simp only [tokens, List.cons_append, List.forall_mem_cons, List.forall_mem_append] at h
    have hmore : more.flatMap (fun e => (e.output lead).filter (!·.hidden)) =
        more.flatMap fun e => e.simplify.tokens := by
      refine List.flatMap_congr fun e he => hexpr fun t ht => ?_
      exact h.2.2 t (List.mem_flatMap.mpr ⟨e, he, ht⟩)
    simp [laid, simplify, tokens, hgap, hexpr h.2.1, h.1, List.filter_flatMap, hmore,
      List.flatMap_map]
  | expr e => exact hexpr h
  | vars keyword => simpa [laid, simplify, tokens] using h
  | block kind keyword opening body closing =>
    simp only [tokens, List.cons_append, List.forall_mem_cons, List.forall_mem_append] at h
    simp [laid, simplify, tokens, hgap, filter_laidAll hlead h.2.2.1, h.1, h.2.1, h.2.2.2.1]
  | wrap kind keyword inner =>
    simp only [tokens, List.forall_mem_cons] at h
    simp [laid, simplify, tokens, hgap, filter_laid hlead h.2, h.1]

/-- What the parser sees of the tokens that are left are those of the simplified statements. -/
theorem filter_laidAll {ss : List Stmt} (hlead : ∀ t, ∀ u ∈ lead t, u.hidden = true)
    (h : ∀ t ∈ tokensOf ss, t.hidden = false) :
    (laidAll lead (Expr.output lead) ss).filter (!·.hidden) = tokensOf (simplifyAll ss) := by
  match ss with
  | [] => rfl
  | s :: ss =>
    simp only [tokensOf, List.forall_mem_append] at h
    have hgap : (lead s.first).filter (!·.hidden) = [] := by simpa using hlead s.first
    simp [laidAll, simplifyAll, tokensOf, hgap, filter_laid hlead h.1, filter_laidAll hlead h.2]

end

end Stmt
end Reckoner
