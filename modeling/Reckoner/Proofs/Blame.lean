import Reckoner.Proofs.Atomicity
import Reckoner.Proofs.Lookahead
import Reckoner.Proofs.Positions

/-!
# Where runtime errors point

A runtime error has a place. Most errors take it from the expression that they are about, which is
part of the statement that fails. Two complaints take it from a value instead: that two values have
no order, and that a setting is assigned something other than a truth value. Values know where they
were made, and a variable hands its value on as it was stored. So these two may point at the
statement that stored the value.

`Expr.HandsOn` and `Expr.StopsOn` tell such cases apart: an expression stops on a stored value if
it comes to an ordering operator whose left operand hands on that value. `runtime_error_place` says
that an error points into the failing statement unless that happens, and into an assignment that
was executed earlier if it does.
-/
namespace Reckoner

/-- One of the tokens stands at the place. -/
def Token.At (ts : List Token) (place : Place) : Prop := ∃ t ∈ ts, place = t.pos.place

theorem Token.At.mono {ts us : List Token} {place : Place} (h : At ts place) (hs : ts ⊆ us) :
    At us place := by
  obtain ⟨t, ht, hplace⟩ := h
  exact ⟨t, hs ht, hplace⟩

/-! ## Complaints -/

section
variable {tokens : List Token} {operand : Expr} {v : Value} {e : RuntimeError}

theorem Run.place_of_numberOf (h : numberOf tokens operand v = .error (.runtime e)) :
    e.place = operand.place := by
  unfold numberOf at h
  split at h <;> cases h
  rfl

theorem Run.place_of_booleanOf (h : booleanOf tokens operand v = .error (.runtime e)) :
    e.place = operand.place := by
  unfold booleanOf at h
  split at h <;> cases h
  rfl

theorem Run.datum_of_booleanOf {b : Bool} (h : booleanOf tokens operand v = .ok b) :
    v = ⟨.boolean b, v.place⟩ := by
  obtain ⟨d, place⟩ := v
  unfold booleanOf at h
  cases d <;> cases h
  rfl

end

/-- Values that cannot be compared are complained about where the left one comes from. -/
theorem Relation.apply_eq_error {r : Relation} {u v : Value} {f : Fault}
    (h : r.apply u v = .error f) : ∃ cause, f = .runtime ⟨u.place, cause⟩ := by
  obtain ⟨d, p⟩ := u
  obtain ⟨d', q⟩ := v
  cases r <;> cases d <;> cases d' <;>
    simp [Relation.apply, Relation.isEquality, Value.equals, Value.compare] at h <;>
    exact ⟨_, h.symm⟩

/-! ## Expressions -/

/-- Whether the right operand of an operator is looked at after a value of the left one. -/
def BinaryOp.Continues (op : BinaryOp) (u : Value) : Prop :=
  ∀ l, op = .logic l → ∃ b, u.datum = .boolean b ∧ l.decidedBy b = false

namespace Expr
open Run

section
variable (tokens : List Token) (vars : Scope Value) (tracing : Tracing)

/-- The value of an expression is one that a variable holds, as it was stored. -/
inductive HandsOn : Expr → Value → Prop where
  | identifier {t : Token} {v : Value} (h : isReserved t.text = false)
    (hv : vars.get? t.text = some v) : HandsOn (.identifier t) v
  | paren {opening closing : Token} {inner : Expr} {v : Value} (h : HandsOn inner v) :
    HandsOn (.paren opening inner closing) v
  | ternary {condition thenExpr elseExpr : Expr} {question colon : Token} {b : Bool} {v : Value}
    {place : Place} (hc : condition.meaning tokens vars tracing = .ok ⟨.boolean b, place⟩)
    (h : HandsOn (bif b then thenExpr else elseExpr) v) :
    HandsOn (.ternary condition question thenExpr colon elseExpr) v

/-- Evaluation comes to an ordering operator that does not take its operands, the left one of which
hands on a stored value. -/
inductive StopsOn : Expr → Value → Prop where
  | ordering {r : Relation} {left right : Expr} {sign : Token} {v w : Value} {f : Fault}
    (hl : HandsOn tokens vars tracing left v) (hr : right.meaning tokens vars tracing = .ok w)
    (hf : r.apply v w = .error f) : StopsOn (.binary (.relation r) left sign right) v
  | paren {opening closing : Token} {inner : Expr} {v : Value} (h : StopsOn inner v) :
    StopsOn (.paren opening inner closing) v
  | unary {op : UnaryOp} {sign : Token} {operand : Expr} {v : Value} (h : StopsOn operand v) :
    StopsOn (.unary op sign operand) v
  | left {op : BinaryOp} {left right : Expr} {sign : Token} {v : Value} (h : StopsOn left v) :
    StopsOn (.binary op left sign right) v
  | right {op : BinaryOp} {left right : Expr} {sign : Token} {u v : Value}
    (hl : left.meaning tokens vars tracing = .ok u) (hop : op.Continues u)
    (h : StopsOn right v) : StopsOn (.binary op left sign right) v
  | condition {condition thenExpr elseExpr : Expr} {question colon : Token} {v : Value}
    (h : StopsOn condition v) : StopsOn (.ternary condition question thenExpr colon elseExpr) v
  | branch {condition thenExpr elseExpr : Expr} {question colon : Token} {b : Bool} {v : Value}
    {place : Place} (hc : condition.meaning tokens vars tracing = .ok ⟨.boolean b, place⟩)
    (h : StopsOn (bif b then thenExpr else elseExpr) v) :
    StopsOn (.ternary condition question thenExpr colon elseExpr) v

end

variable {tokens : List Token} {vars : Scope Value} {tracing : Tracing} {e : Expr} {v : Value}

theorem meaning_ternary {condition thenExpr elseExpr : Expr} {b : Bool} {place : Place}
    (hc : condition.meaning tokens vars tracing = .ok ⟨.boolean b, place⟩)
    (question colon : Token) :
    (ternary condition question thenExpr colon elseExpr).meaning tokens vars tracing =
      (bif b then thenExpr else elseExpr).meaning tokens vars tracing := by
  rw [meaning, hc]
  cases b <;> rfl

theorem HandsOn.meaning_eq (h : HandsOn tokens vars tracing e v) :
    e.meaning tokens vars tracing = .ok v := by
  induction h with
  | identifier h hv => simp [meaning, h, hv]
  | paren _ ih => exact ih
  | ternary hc _ ih => exact (meaning_ternary hc _ _).trans ih

theorem HandsOn.stored (h : HandsOn tokens vars tracing e v) {P : Value → Prop}
    (hvars : ∀ name v, vars.get? name = some v → P v) : P v := by
  induction h with
  | identifier _ hv => exact hvars _ _ hv
  | paren _ ih => exact ih
  | ternary _ _ ih => exact ih

/-- Evaluation stops with a complaint that has the place of the stored value. -/
theorem StopsOn.meaning_eq (h : StopsOn tokens vars tracing e v) :
    ∃ cause, e.meaning tokens vars tracing = .error (.runtime ⟨v.place, cause⟩) := by
  induction h with
  | ordering hl hr hf =>
    obtain ⟨cause, rfl⟩ := Relation.apply_eq_error hf
    exact ⟨cause, by simp [meaning, hl.meaning_eq, hr, hf]⟩
  | paren _ ih => exact ih
  | @unary op _ _ _ _ ih =>
    obtain ⟨cause, ih⟩ := ih
    cases op <;> exact ⟨cause, by simp [meaning, ih]⟩
  | @left op _ _ _ _ _ ih =>
    obtain ⟨cause, ih⟩ := ih
    rcases op with op | r | op <;> exact ⟨cause, by simp [meaning, ih]⟩
  | @right op left _ _ u _ hl hop _ ih =>
    obtain ⟨cause, ih⟩ := ih
    rcases op with op | r | op
    · exact ⟨cause, by simp [meaning, hl, ih]⟩
    · exact ⟨cause, by simp [meaning, hl, ih]⟩
    · obtain ⟨b, hb, hd⟩ := hop op rfl
      exact ⟨cause, by simp [meaning, hl, ih, booleanOf, hb, hd]⟩
  | condition _ ih =>
    obtain ⟨cause, ih⟩ := ih
    exact ⟨cause, by simp [meaning, ih]⟩
  | branch hc _ ih =>
    obtain ⟨cause, ih⟩ := ih
    exact ⟨cause, (meaning_ternary hc _ _).trans ih⟩

theorem StopsOn.stored (h : StopsOn tokens vars tracing e v) {P : Value → Prop}
    (hvars : ∀ name v, vars.get? name = some v → P v) : P v := by
  induction h with
  | ordering hl _ _ => exact hl.stored hvars
  | paren _ ih | unary _ ih | left _ ih | right _ _ _ ih | condition _ ih | branch _ _ ih => exact ih

theorem at_tokens_place (e : Expr) : Token.At e.tokens e.place := ⟨e.first, e.first_mem_tokens, rfl⟩

theorem exists_condition {condition thenExpr elseExpr : Expr} {question colon : Token}
    (h : (ternary condition question thenExpr colon elseExpr).meaning tokens vars tracing = .ok v) :
    ∃ b place, condition.meaning tokens vars tracing = .ok ⟨.boolean b, place⟩ := by
  rw [meaning, Effect.bind_eq_ok_iff] at h
  obtain ⟨u, hu, h⟩ := h
  obtain ⟨b, hb, -⟩ := Effect.bind_eq_ok_iff.mp h
  rw [datum_of_booleanOf hb] at hu
  exact ⟨b, u.place, hu⟩

theorem place_unary {op : UnaryOp} {sign : Token} {operand : Expr}
    (h : (unary op sign operand).meaning tokens vars tracing = .ok v) :
    v.place = sign.pos.place := by
  cases op <;> simp only [meaning, Effect.bind_eq_ok_iff] at h <;>
    obtain ⟨_, _, _, _, h⟩ := h <;> cases h <;> rfl

/-- The value of an operator comes from where its left operand begins. -/
theorem place_binary {op : BinaryOp} {left right : Expr} {sign : Token}
    (h : (binary op left sign right).meaning tokens vars tracing = .ok v) :
    v.place = left.place := by
  rcases op with op | r | op <;> rw [meaning, Effect.bind_eq_ok_iff] at h <;>
    obtain ⟨u, hu, h⟩ := h
  · simp only [Effect.bind_eq_ok_iff] at h
    obtain ⟨_, _, _, _, _, _, h⟩ := h
    cases h
    rfl
  · simp only [Effect.bind_eq_ok_iff] at h
    obtain ⟨_, _, _, _, h⟩ := h
    cases h
    rfl
  · rw [Effect.bind_eq_ok_iff] at h
    obtain ⟨b, hb, h⟩ := h
    split at h
    · cases h
      rfl
    · simp only [Effect.bind_eq_ok_iff] at h
      obtain ⟨_, _, _, _, h⟩ := h
      cases h
      rfl

/-- A value that an expression does not hand on was made at one of its tokens. -/
theorem at_or_handsOn (h : e.meaning tokens vars tracing = .ok v) :
    Token.At e.tokens v.place ∨ HandsOn tokens vars tracing e v := by
  induction e generalizing v with
  | literal t =>
    cases h
    exact .inl ⟨t, List.mem_singleton_self t, rfl⟩
  | identifier t =>
    rw [meaning] at h
    split at h
    · unfold Setting.read at h
      split at h <;> cases h
      exact .inl ⟨t, List.mem_singleton_self t, rfl⟩
    · next hr =>
      split at h <;> cases h
      next hv => exact .inr (.identifier (by simpa using hr) hv)
  | paren opening inner closing ih =>
    exact (ih h).imp (fun hat => hat.mono (by simp [Expr.tokens])) .paren
  | unary op sign operand _ => exact .inl ⟨sign, by simp [Expr.tokens], place_unary h⟩
  | binary op left sign right _ _ =>
    rw [place_binary h]
    exact .inl (left.at_tokens_place.mono (by simp [Expr.tokens]))
  | ternary condition question thenExpr colon elseExpr _ iht ihe =>
    obtain ⟨b, place, hc⟩ := exists_condition h
    rw [meaning_ternary hc] at h
    cases b with
    | true =>
      refine (iht h).imp (fun hat => hat.mono ?_) fun hand => .ternary hc hand
      exact fun t ht => by simp [Expr.tokens, ht]
    | false =>
      refine (ihe h).imp (fun hat => hat.mono ?_) fun hand => .ternary hc hand
      exact fun t ht => by simp [Expr.tokens, ht]

section
variable {err : RuntimeError}

/-- An operator in front of an operand fails with it, or complains about it. -/
theorem unary_eq_error {op : UnaryOp} {sign : Token} {operand : Expr}
    (h : (unary op sign operand).meaning tokens vars tracing = .error (.runtime err)) :
    operand.meaning tokens vars tracing = .error (.runtime err) ∨ err.place = operand.place := by
  cases op with
  | not =>
    simp only [meaning, Effect.bind_eq_error_iff] at h
    rcases h with h | ⟨u, -, hb | ⟨_, _, h⟩⟩
    · exact .inl h
    · exact .inr (place_of_booleanOf hb)
    · cases h
  | negate =>
    simp only [meaning, Effect.bind_eq_error_iff] at h
    rcases h with h | ⟨u, -, hx | ⟨_, _, h⟩⟩
    · exact .inl h
    · exact .inr (place_of_numberOf hx)
    · cases h

/-- An operator between operands fails with one of them, or complains about one, or it is an ordering
that does not take their values. -/
theorem binary_eq_error {op : BinaryOp} {left right : Expr} {sign : Token}
    (h : (binary op left sign right).meaning tokens vars tracing = .error (.runtime err)) :
    left.meaning tokens vars tracing = .error (.runtime err) ∨
    (∃ u, left.meaning tokens vars tracing = .ok u ∧ op.Continues u ∧
      right.meaning tokens vars tracing = .error (.runtime err)) ∨
    (err.place = left.place ∨ err.place = right.place) ∨
    ∃ r u w, op = .relation r ∧ left.meaning tokens vars tracing = .ok u ∧
      right.meaning tokens vars tracing = .ok w ∧ r.apply u w = .error (.runtime err) := by
  rcases op with op | r | op
  · simp only [meaning, Effect.bind_eq_error_iff] at h
    rcases h with h | ⟨u, hu, h | ⟨w, hw, hx | ⟨_, _, hy | ⟨_, _, h⟩⟩⟩⟩
    · exact .inl h
    · exact .inr (.inl ⟨u, hu, by simp [BinaryOp.Continues], h⟩)
    · exact .inr (.inr (.inl (.inl (place_of_numberOf hx))))
    · exact .inr (.inr (.inl (.inr (place_of_numberOf hy))))
    · cases h
  · simp only [meaning, Effect.bind_eq_error_iff] at h
    rcases h with h | ⟨u, hu, h | ⟨w, hw, hr | ⟨_, _, h⟩⟩⟩
    · exact .inl h
    · exact .inr (.inl ⟨u, hu, by simp [BinaryOp.Continues], h⟩)
    · exact .inr (.inr (.inr ⟨r, u, w, rfl, hu, hw, hr⟩))
    · cases h
  · rw [meaning, Effect.bind_eq_error_iff] at h
    rcases h with h | ⟨u, hu, h⟩
    · exact .inl h
    rw [Effect.bind_eq_error_iff] at h
    rcases h with hb | ⟨b, hb, h⟩
    · exact .inr (.inr (.inl (.inl (place_of_booleanOf hb))))
    split at h
    · cases h
    next hd =>
    simp only [Effect.bind_eq_error_iff] at h
    rcases h with h | ⟨w, hw, hc | ⟨_, _, h⟩⟩
    · refine .inr (.inl ⟨u, hu, fun l hl => ?_, h⟩)
      cases hl
      exact ⟨b, congrArg Value.datum (datum_of_booleanOf hb), by simpa using hd⟩
    · exact .inr (.inr (.inl (.inr (place_of_booleanOf hc))))
    · cases h

/-- A conditional expression fails with its condition, or complains about it, or fails with the
branch that it chooses. -/
theorem ternary_eq_error {condition thenExpr elseExpr : Expr} {question colon : Token}
    (h : (ternary condition question thenExpr colon elseExpr).meaning tokens vars tracing =
      .error (.runtime err)) :
    condition.meaning tokens vars tracing = .error (.runtime err) ∨
    err.place = condition.place ∨
    ∃ b place, condition.meaning tokens vars tracing = .ok ⟨.boolean b, place⟩ ∧
      (bif b then thenExpr else elseExpr).meaning tokens vars tracing =
        .error (.runtime err) := by
  have hbranch := h
  rw [meaning, Effect.bind_eq_error_iff] at h
  rcases h with h | ⟨u, hu, h⟩
  · exact .inl h
  rw [Effect.bind_eq_error_iff] at h
  rcases h with hb | ⟨b, hb, -⟩
  · exact .inr (.inl (place_of_booleanOf hb))
  rw [datum_of_booleanOf hb] at hu
  rw [meaning_ternary hu] at hbranch
  exact .inr (.inr ⟨b, u.place, hu, hbranch⟩)

/-- An error in an operand is about the operand, or about a stored value. -/
theorem at_or_stopsOn (h : e.meaning tokens vars tracing = .error (.runtime err)) :
    Token.At e.tokens err.place ∨ ∃ v, StopsOn tokens vars tracing e v := by
  induction e with
  | literal t => cases h
  | identifier t =>
    rw [meaning] at h
    split at h
    · unfold Setting.read at h
      split at h <;> cases h
    · split at h <;> cases h
      exact .inl ⟨t, List.mem_singleton_self t, rfl⟩
  | paren opening inner closing ih =>
    exact (ih h).imp (·.mono (by simp [Expr.tokens])) (Exists.imp fun _ => .paren)
  | unary op sign operand ih =>
    have hsub : operand.tokens ⊆ (unary op sign operand).tokens := by simp [Expr.tokens]
    rcases unary_eq_error h with h | hplace
    · exact (ih h).imp (·.mono hsub) (Exists.imp fun _ => .unary)
    · exact .inl (hplace ▸ operand.at_tokens_place.mono hsub)
  | binary op left sign right ihl ihr =>
    have hleft : left.tokens ⊆ (binary op left sign right).tokens := by simp [Expr.tokens]
    have hright : right.tokens ⊆ (binary op left sign right).tokens :=
      fun t ht => by simp [Expr.tokens, ht]
    rcases binary_eq_error h with h | ⟨u, hu, hop, h⟩ | (hplace | hplace) |
      ⟨r, u, w, rfl, hu, hw, hr⟩
    · exact (ihl h).imp (·.mono hleft) (Exists.imp fun _ => .left)
    · exact (ihr h).imp (·.mono hright) (Exists.imp fun _ => .right hu hop)
    · exact .inl (hplace ▸ left.at_tokens_place.mono hleft)
    · exact .inl (hplace ▸ right.at_tokens_place.mono hright)
    · obtain ⟨cause, hf⟩ := Relation.apply_eq_error hr
      cases hf
      exact (at_or_handsOn hu).imp (·.mono hleft) fun hand => ⟨u, .ordering hand hw hr⟩
  | ternary condition question thenExpr colon elseExpr ihc iht ihe =>
    have hsub : condition.tokens ⊆ (ternary condition question thenExpr colon elseExpr).tokens := by
      simp [Expr.tokens]
    rcases ternary_eq_error h with h | hplace | ⟨b, place, hc, h⟩
    · exact (ihc h).imp (·.mono hsub) (Exists.imp fun _ => .condition)
    · exact .inl (hplace ▸ condition.at_tokens_place.mono hsub)
    · cases b with
      | true =>
        refine (iht h).imp (·.mono ?_) (Exists.imp fun _ => .branch hc)
        exact fun t ht => by simp [Expr.tokens, ht]
      | false =>
        refine (ihe h).imp (·.mono ?_) (Exists.imp fun _ => .branch hc)
        exact fun t ht => by simp [Expr.tokens, ht]

end

end Expr

/-! ## Statements -/

namespace Expr
variable {tokens : List Token} {vars : Scope Value} {tracing : Tracing} {es : List Expr}

/-- Expressions are evaluated up to the first that stops. -/
theorem texts_eq_error_iff {f : Fault} :
    texts tokens vars tracing es = .error f ↔ ∃ before e after, es = before ++ e :: after ∧
      (∀ x ∈ before, ∃ w, x.meaning tokens vars tracing = .ok w) ∧
      e.meaning tokens vars tracing = .error f := by
  induction es with
  | nil => simp [texts]
  | cons x xs ih =>
    simp only [texts, Effect.bind_eq_error_iff, Effect.pure_eq_ok, ih, reduceCtorEq, and_false,
      exists_false, or_false]
    constructor
    · rintro (h | ⟨w, hw, before, e, after, rfl, hbefore, h⟩)
      · exact ⟨[], x, xs, rfl, by simp, h⟩
      · exact ⟨x :: before, e, after, rfl, List.forall_mem_cons.mpr ⟨⟨w, hw⟩, hbefore⟩, h⟩
    · rintro ⟨before, e, after, hsplit, hbefore, h⟩
      cases before with
      | nil =>
        cases hsplit
        exact .inl h
      | cons y before =>
        cases hsplit
        obtain ⟨⟨w, hw⟩, hbefore⟩ := List.forall_mem_cons.mp hbefore
        exact .inr ⟨w, hw, before, e, after, rfl, hbefore, h⟩

end Expr

namespace Stmt

/-- The expressions that a statement evaluates, in order. -/
def evaluated : Stmt → List Expr
  | assign _ _ value => [value]
  | print _ arg more => arg :: more
  | expr e => [e]
  | vars _ | block .. | wrap .. => []

/-- A statement comes to an expression that stops on a stored value, or it assigns a stored value to
a setting that does not take it. -/
inductive StopsOn (tokens : List Token) (vars : Scope Value) (tracing : Tracing) :
    Stmt → Value → Prop where
  | evaluating {s : Stmt} {before after : List Expr} {e : Expr} {v : Value}
    (hs : s.evaluated = before ++ e :: after)
    (hbefore : ∀ x ∈ before, ∃ w, x.meaning tokens vars tracing = .ok w)
    (h : e.StopsOn tokens vars tracing v) : StopsOn tokens vars tracing s v
  | setting {name equals : Token} {value : Expr} {v : Value} (hr : isReserved name.text = true)
    (h : value.HandsOn tokens vars tracing v) (hv : v.ty ≠ .boolean) :
    StopsOn tokens vars tracing (.assign name equals value) v

variable {tokens : List Token} {vars : Scope Value} {tracing : Tracing} {s : Stmt} {v : Value}
  {err : RuntimeError}

theorem tokens_subset_of_evaluated {e : Expr} (h : e ∈ s.evaluated) : e.tokens ⊆ s.tokens := by
  cases s with
  | assign name equals value =>
    rw [List.mem_singleton.mp h]
    simp [Stmt.tokens]
  | print keyword arg more =>
    have hflat : e.tokens ⊆ (arg :: more).flatMap Expr.tokens :=
      fun t ht => List.mem_flatMap.mpr ⟨e, h, ht⟩
    exact fun t ht => List.mem_cons_of_mem _ (by simpa using hflat ht)
  | expr e' =>
    rw [List.mem_singleton.mp h]
    simp [Stmt.tokens]
  | vars keyword | block kind keyword opening body closing | wrap kind keyword inner => cases h

theorem StopsOn.stored (h : StopsOn tokens vars tracing s v) {P : Value → Prop}
    (hvars : ∀ name v, vars.get? name = some v → P v) : P v := by
  cases h with
  | evaluating _ _ h => exact h.stored hvars
  | setting _ h _ => exact h.stored hvars

/-- Only an assignment to a setting stops, unless the value is a truth value. -/
theorem binding_eq_error_iff {name : Text} :
    binding name v vars tracing = .error (.runtime err) ↔
      isReserved name = true ∧ v.ty ≠ .boolean ∧ err = ⟨v.place, .setting name⟩ := by
  obtain ⟨d, place⟩ := v
  rw [binding, isReserved]
  cases hname : Setting.ofName? name with
  | none => simp
  | some k =>
    cases d <;> simp [Setting.assign, hname, Value.ty, Datum.ty, eq_comm]

/-- Inspecting is no reason for a runtime error. -/
theorem shown_ne_error (debug : Bool) (kind : Inspection) (s : Stmt) :
    shown tokens debug kind s ≠ .error (.runtime err) := by
  cases kind with
  | refactor =>
    rw [shown]
    split <;> simp
  | _ => simp [shown]

/-- What a statement stops with is what one of its expressions stops with, unless it is the setting
that does not take a value. -/
theorem change_eq_error (h : s.change tokens vars tracing = .error (.runtime err)) :
    (∃ before e after, s.evaluated = before ++ e :: after ∧
      (∀ x ∈ before, ∃ w, x.meaning tokens vars tracing = .ok w) ∧
      e.meaning tokens vars tracing = .error (.runtime err)) ∨
    ∃ name equals value v, s = .assign name equals value ∧ isReserved name.text = true ∧
      value.meaning tokens vars tracing = .ok v ∧ v.ty ≠ .boolean ∧ err.place = v.place := by
  cases s with
  | assign name equals value =>
    rw [change, Effect.bind_eq_error_iff] at h
    rcases h with h | ⟨v, hv, h⟩
    · exact .inl ⟨[], value, [], rfl, by simp, h⟩
    · obtain ⟨hr, hty, rfl⟩ := binding_eq_error_iff.mp h
      exact .inr ⟨name, equals, value, v, rfl, hr, hv, hty, rfl⟩
  | print keyword arg more =>
    simp only [change, Effect.bind_eq_error_iff, Effect.pure_eq_ok, reduceCtorEq, and_false,
      exists_false, or_false, Expr.texts_eq_error_iff] at h
    exact .inl h
  | expr e =>
    simp only [change, Effect.bind_eq_error_iff, Effect.pure_eq_ok, reduceCtorEq, and_false,
      exists_false, or_false] at h
    exact .inl ⟨[], e, [], rfl, by simp, h⟩
  | vars keyword => cases h
  | block kind keyword opening body closing | wrap kind keyword inner =>
    simp only [change, Effect.bind_eq_error_iff, Effect.pure_eq_ok, reduceCtorEq, and_false,
      exists_false, or_false] at h
    exact absurd h (shown_ne_error _ _ _)

/-- The error of a statement is about the statement, or about a stored value. -/
theorem at_or_stopsOn (h : s.change tokens vars tracing = .error (.runtime err)) :
    Token.At s.tokens err.place ∨ ∃ v, StopsOn tokens vars tracing s v := by
  rcases change_eq_error h with ⟨before, e, after, hs, hbefore, he⟩ |
    ⟨name, equals, value, v, rfl, hr, hv, hty, hplace⟩
  · have hsub := tokens_subset_of_evaluated (s := s) (e := e) (by simp [hs])
    exact (Expr.at_or_stopsOn he).imp (·.mono hsub) (Exists.imp fun _ => .evaluating hs hbefore)
  · rw [hplace]
    have hsub := tokens_subset_of_evaluated (s := .assign name equals value)
      (List.mem_singleton_self value)
    exact (Expr.at_or_handsOn hv).imp (·.mono hsub) fun hand => ⟨v, .setting hr hand hty⟩

/-- The error of a statement that stops on a stored value has the place of the value. -/
theorem StopsOn.change_eq (h : StopsOn tokens vars tracing s v) :
    ∃ cause, s.change tokens vars tracing = .error (.runtime ⟨v.place, cause⟩) := by
  cases h with
  | @evaluating _ before after e _ hs hbefore h =>
    obtain ⟨cause, he⟩ := h.meaning_eq
    refine ⟨cause, ?_⟩
    have hmem : e ∈ s.evaluated := by simp [hs]
    cases s with
    | assign name equals value =>
      rw [List.mem_singleton.mp hmem] at he
      simp [change, he]
    | print keyword arg more =>
      have htexts : Expr.texts tokens vars tracing (arg :: more) = _ :=
        Expr.texts_eq_error_iff.mpr ⟨before, e, after, hs, hbefore, he⟩
      simp [change, htexts]
    | expr e' =>
      rw [List.mem_singleton.mp hmem] at he
      simp [change, he]
    | vars _ | block _ _ _ _ _ | wrap _ _ _ => cases hmem
  | @setting name equals value _ hr h hv =>
    refine ⟨.setting name.text, ?_⟩
    rw [change, h.meaning_eq, Effect.ok_bind]
    exact binding_eq_error_iff.mpr ⟨hr, hv, rfl⟩

/-- A variable holds what it held before, or what was made at a token of an assignment. -/
theorem stored_change {P : Value → Prop} (hvars : ∀ name v, vars.get? name = some v → P v)
    (hs : ∀ name equals value, s = .assign name equals value →
      ∀ v : Value, Token.At value.tokens v.place → P v) {c : Change}
    (h : s.change tokens vars tracing = .ok c) : ∀ name v, c.vars.get? name = some v → P v := by
  cases s with
  | assign name equals value =>
    rw [change, Effect.bind_eq_ok_iff] at h
    obtain ⟨v, hv, h⟩ := h
    have hP : P v := by
      rcases Expr.at_or_handsOn hv with hat | hand
      · exact hs name equals value rfl v hat
      · exact hand.stored hvars
    rw [binding] at h
    split at h
    · obtain ⟨_, _, h⟩ := Effect.bind_eq_ok_iff.mp h
      cases h
      exact hvars
    · cases h
      intro other w hw
      by_cases ho : other = name.text
      · rw [ho, Scope.get?_set_self] at hw
        cases hw
        exact hP
      · rw [Scope.get?_set_of_ne vars v ho] at hw
        exact hvars other w hw
  | vars keyword =>
    cases h
    exact hvars
  | print keyword arg more | expr e | block kind keyword opening body closing
  | wrap kind keyword inner =>
    obtain ⟨_, _, h⟩ := Effect.bind_eq_ok_iff.mp h
    cases h
    exact hvars

/-! ### The extent of a statement -/

theorem exists_tokens_eq_concat (s : Stmt) : ∃ ts, s.tokens = ts ++ [s.last] := by
  cases s with
  | assign name equals value =>
    obtain ⟨ts, hts⟩ := value.exists_tokens_eq_concat
    exact ⟨name :: equals :: ts, by simp [Stmt.tokens, last, hts]⟩
  | print keyword arg more =>
    rcases List.eq_nil_or_concat more with rfl | ⟨es, e, rfl⟩
    · obtain ⟨ts, hts⟩ := arg.exists_tokens_eq_concat
      exact ⟨keyword :: ts, by simp [Stmt.tokens, last, hts]⟩
    · obtain ⟨ts, hts⟩ := e.exists_tokens_eq_concat
      exact ⟨keyword :: arg.tokens ++ es.flatMap Expr.tokens ++ ts, by
        simp [Stmt.tokens, last, hts]⟩
  | expr e => exact e.exists_tokens_eq_concat
  | vars keyword => exact ⟨[], rfl⟩
  | block kind keyword opening body closing => exact ⟨keyword :: opening :: tokensOf body, rfl⟩
  | wrap kind keyword inner =>
    obtain ⟨ts, hts⟩ := exists_tokens_eq_concat inner
    exact ⟨keyword :: ts, by simp [Stmt.tokens, last, hts]⟩

theorem first_index_le (h : Token.Ordered s.tokens) {t : Token} (ht : t ∈ s.tokens) :
    s.first.index ≤ t.index := by
  obtain ⟨ts, hts⟩ := s.exists_tokens_eq_cons
  rw [hts] at h ht
  exact h.head_le ht

theorem last_mem_tokens (s : Stmt) : s.last ∈ s.tokens := by
  obtain ⟨ts, hts⟩ := s.exists_tokens_eq_concat
  simp [hts]

theorem index_le_last (h : Token.Ordered s.tokens) {t : Token} (ht : t ∈ s.tokens) :
    t.index ≤ s.last.index := by
  obtain ⟨ts, hts⟩ := s.exists_tokens_eq_concat
  rw [hts] at h ht
  exact h.le_concat ht

theorem sublist_tokensOf {ss : List Stmt} (h : s ∈ ss) : s.tokens.Sublist (tokensOf ss) := by
  obtain ⟨before, after, rfl⟩ := List.append_of_mem h
  rw [tokensOf_append]
  exact (List.sublist_append_left _ _).trans (List.sublist_append_right _ _)

/-- A statement that assigns something. -/
def Assigns (s : Stmt) : Prop := ∃ name equals value, s = .assign name equals value

end Stmt

/-! ## Programs -/

/-- A variable holds what it held before, or what was made at a token of an assignment. -/
theorem Program.stored_exec {P : Value → Prop} {ss : List Stmt} {tokens : List Token} {m : Machine}
    (hvars : ∀ name v, m.vars.get? name = some v → P v)
    (hss : ∀ s ∈ ss, s.Assigns → ∀ v : Value, Token.At s.tokens v.place → P v) :
    ∀ name v, (Program.exec ⟨ss, tokens⟩ m).2.vars.get? name = some v → P v := by
  induction ss generalizing m with
  | nil => exact hvars
  | cons s ss ih =>
    have hspec := Program.exec_cons_spec s ss tokens m
    obtain ⟨hs, hss⟩ := List.forall_mem_cons.mp hss
    cases hc : s.change tokens m.vars m.tracing with
    | error f =>
      rw [hc] at hspec
      obtain ⟨vs, hspec⟩ := hspec
      rw [hspec]
      exact hvars
    | ok c =>
      rw [hc] at hspec
      rw [hspec]
      refine ih (s.stored_change hvars (fun name equals value heq v hat => ?_) hc) hss
      refine hs ⟨name, equals, value, heq⟩ v (hat.mono ?_)
      rw [heq]
      exact Stmt.tokens_subset_of_evaluated (List.mem_singleton_self value)

/-- A token between the first and the last of a statement stands at the place. -/
def Program.Covers (p : Program) (s : Stmt) (place : Place) : Prop :=
  ∃ t ∈ p.tokens, s.first.index ≤ t.index ∧ t.index ≤ s.last.index ∧ place = t.pos.place

instance (p : Program) (s : Stmt) (place : Place) : Decidable (p.Covers s place) :=
  inferInstanceAs (Decidable (∃ t ∈ p.tokens, _))

/-- A program that was read from a text, with or without syntax errors. -/
def Program.Read (p : Program) : Prop :=
  ∃ rule t, p = ((Parser.ofText t).readSource rule).1.program

theorem Program.read_parseProgram (t : Text) : (parseProgram t).program.Read := ⟨.program, t, rfl⟩

theorem Program.read_parseEntry (t : Text) : (parseEntry t).program.Read := ⟨.entry, t, rfl⟩

/-- The machine after some programs were executed, whatever became of them. -/
def Machine.after (ps : List Program) (m : Machine) : Machine :=
  ps.foldl (fun m p => (p.exec m).2) m

namespace Program.Read
variable {p : Program}

theorem ordered (h : p.Read) : Token.Ordered (Stmt.tokensOf p.stmts) := by
  obtain ⟨rule, t, rfl⟩ := h
  exact Parser.ordered_readSource rule t

theorem covers (h : p.Read) {s : Stmt} (hs : s ∈ p.stmts) {place : Place}
    (hat : Token.At s.tokens place) : p.Covers s place := by
  obtain ⟨t, ht, rfl⟩ := hat
  have ho : Token.Ordered s.tokens := h.ordered.sublist (Stmt.sublist_tokensOf hs)
  refine ⟨t, ?_, Stmt.first_index_le ho ht, Stmt.index_le_last ho ht, rfl⟩
  obtain ⟨rule, t', rfl⟩ := h
  exact List.mem_of_getElem? (Parser.getElem?_tokens_readSource rule t' (Stmt.subset_tokensOf hs ht))

/-- No two tokens of a program stand at one place. -/
theorem index_eq_of_place_eq (h : p.Read) {t u : Token} (ht : t ∈ p.tokens) (hu : u ∈ p.tokens)
    (hplace : t.pos.place = u.pos.place) : t.index = u.index := by
  obtain ⟨rule, src, rfl⟩ := h
  rw [Parser.tokens_readSource] at ht hu
  have hexact := (positions_exact src).1
  have hoffset := (hexact t ht).offset_eq (hexact u hu) hplace
  have hlt {t u : Token} (ht : t ∈ (Lexed.ofText src).tokens) (hu : u ∈ (Lexed.ofText src).tokens)
      (h : t.index < u.index) : t.pos.offset < u.pos.offset := by
    obtain ⟨i, hi, rfl⟩ := List.mem_map.mp ht
    obtain ⟨j, hj, rfl⟩ := List.mem_map.mp hu
    exact Lexed.precedes_of_index_lt hi hj h _ List.mem_cons_self
  have := hlt ht hu
  have := hlt hu ht
  omega

/-- Statements one after the other cover no place in common. -/
theorem not_covers (h : p.Read) {before after : List Stmt} {s s' : Stmt}
    (hsplit : p.stmts = before ++ s :: after) (hs' : s' ∈ before) {place : Place}
    (hcovers : p.Covers s' place) : ¬p.Covers s place := by
  rintro ⟨u, hu, hfirst, -, hplace⟩
  obtain ⟨t, ht, -, hlast, rfl⟩ := hcovers
  have hindex := h.index_eq_of_place_eq ht hu hplace
  have ho := h.ordered
  rw [hsplit, Stmt.tokensOf_append] at ho
  have hlt := (List.pairwise_append.mp ho).2.2 s'.last (Stmt.subset_tokensOf hs' s'.last_mem_tokens)
    s.first (Stmt.subset_tokensOf List.mem_cons_self s.first_mem_tokens)
  omega

end Program.Read

/-- What a program leaves in the variables was there before, or was made at a token of one of its
assignments. -/
theorem Program.Read.stored_exec {p : Program} (h : p.Read) {ss : List Stmt} (hss : ss ⊆ p.stmts)
    {P : Value → Prop} {m : Machine} (hvars : ∀ name v, m.vars.get? name = some v → P v)
    (hP : ∀ s ∈ ss, s.Assigns → ∀ v : Value, p.Covers s v.place → P v) :
    ∀ name v, (Program.exec ⟨ss, p.tokens⟩ m).2.vars.get? name = some v → P v :=
  Program.stored_exec hvars fun s hs ha v hat => hP s hs ha v (h.covers (hss hs) hat)

/-- Every stored value was made at a token of an assignment of some program before. -/
theorem Machine.stored_after {ps : List Program} (hps : ∀ q ∈ ps, q.Read) {P : Value → Prop}
    {m : Machine} (hvars : ∀ name v, m.vars.get? name = some v → P v)
    (hP : ∀ q ∈ ps, ∀ s ∈ q.stmts, s.Assigns → ∀ v : Value, q.Covers s v.place → P v) :
    ∀ name v, (m.after ps).vars.get? name = some v → P v := by
  induction ps generalizing m with
  | nil => exact hvars
  | cons q ps ih =>
    obtain ⟨hq, hps⟩ := List.forall_mem_cons.mp hps
    obtain ⟨hPq, hP⟩ := List.forall_mem_cons.mp hP
    exact ih hps (hq.stored_exec (List.Subset.refl _) hvars hPq) hP

/-- A runtime error points into the statement that fails, unless that stops on a stored value. Then
it points at the assignment that the value comes from: an earlier statement of the same program, so
that the error does not point into the failing one, or a statement of an earlier program. -/
theorem runtime_error_place {p : Program} {earlier : List Program} {m m' : Machine}
    {e : RuntimeError} (hp : p.Read) (hearlier : ∀ q ∈ earlier, q.Read) (hm : m.vars = .empty)
    (h : p.exec (m.after earlier) = (.error (.runtime e), m')) :
    ∃ before s after m₀, p.stmts = before ++ s :: after ∧
      Program.exec ⟨before, p.tokens⟩ (m.after earlier) = (.ok (), m₀) ∧
      Program.exec ⟨[s], p.tokens⟩ m₀ = (.error (.runtime e), m') ∧
      ((∀ v, ¬s.StopsOn p.tokens m₀.vars m₀.tracing v) → p.Covers s e.place) ∧
      ∀ v, s.StopsOn p.tokens m₀.vars m₀.tracing v → e.place = v.place ∧
        ((∃ s' ∈ before, s'.Assigns ∧ p.Covers s' e.place ∧ ¬p.Covers s e.place) ∨
          ∃ q ∈ earlier, ∃ s' ∈ q.stmts, s'.Assigns ∧ q.Covers s' e.place) := by
  obtain ⟨before, s, after, m₀, hsplit, hbefore, hfailing, -⟩ := Program.exists_failing h
  refine ⟨before, s, after, m₀, hsplit, hbefore, hfailing, ?_⟩
  have hs : s ∈ p.stmts := by simp [hsplit]
  have hchange : s.change p.tokens m₀.vars m₀.tracing = .error (.runtime e) := by
    have hspec := Program.exec_cons_spec s [] p.tokens m₀
    rw [hfailing] at hspec
    cases hc : s.change p.tokens m₀.vars m₀.tracing with
    | ok c =>
      rw [hc] at hspec
      cases hspec
    | error f =>
      rw [hc] at hspec
      obtain ⟨vs, hspec⟩ := hspec
      cases hspec
      rfl
  refine ⟨fun hnone => ?_, fun v hv => ?_⟩
  · exact hp.covers hs ((Stmt.at_or_stopsOn hchange).resolve_right (not_exists.mpr hnone))
  · obtain ⟨cause, herror⟩ := hv.change_eq
    rw [hchange] at herror
    cases herror
    refine ⟨rfl, ?_⟩
    -- Every value that the machine holds comes from an assignment, in this program or before it.
    let P (v : Value) : Prop := (∃ s' ∈ before, s'.Assigns ∧ p.Covers s' v.place) ∨
      ∃ q ∈ earlier, ∃ s' ∈ q.stmts, s'.Assigns ∧ q.Covers s' v.place
    have hstart : ∀ name v, (m.after earlier).vars.get? name = some v → P v :=
      Machine.stored_after hearlier (by simp [hm]) fun q hq s' hs' ha v hcovers =>
        .inr ⟨q, hq, s', hs', ha, hcovers⟩
    have hstored := hp.stored_exec (show before ⊆ p.stmts by simp [hsplit]) hstart
      fun s' hs' ha v hcovers => .inl ⟨s', hs', ha, hcovers⟩
    rw [hbefore] at hstored
    rcases hv.stored hstored with ⟨s', hs', ha, hcovers⟩ | hearlier
    · exact .inl ⟨s', hs', ha, hcovers, hp.not_covers hsplit hs' hcovers⟩
    · exact .inr hearlier

/-- A setting is assigned a number that an earlier entry has stored. -/
theorem runtime_error_place_setting :
    let p := (parseProgram "b = true print b parserTracing = (b ? a : b)").program
    let earlier := [(parseEntry "print 1 a = 2").program]
    let e : RuntimeError := ⟨⟨1, 12⟩, .setting "parserTracing"⟩
    ∃ m' before s after m₀, p.exec (Machine.after earlier {}) = (.error (.runtime e), m') ∧
      p.stmts = before ++ s :: after ∧
      Program.exec ⟨before, p.tokens⟩ (Machine.after earlier {}) = (.ok (), m₀) ∧
      ((∀ v, ¬s.StopsOn p.tokens m₀.vars m₀.tracing v) → p.Covers s e.place) ∧
      ∀ v, s.StopsOn p.tokens m₀.vars m₀.tracing v → e.place = v.place ∧
        ((∃ s' ∈ before, s'.Assigns ∧ p.Covers s' e.place ∧ ¬p.Covers s e.place) ∨
          ∃ q ∈ earlier, ∃ s' ∈ q.stmts, s'.Assigns ∧ q.Covers s' e.place) := by
  intro p earlier e
  have herror : (p.exec (Machine.after earlier {})).1 = .error (.runtime e) := by decide +kernel
  have hp : p.Read := Program.read_parseProgram _
  have hearlier : ∀ q ∈ earlier, q.Read :=
    List.forall_mem_singleton.mpr (Program.read_parseEntry _)
  rcases hfails : p.exec (Machine.after earlier {}) with ⟨o, m'⟩
  have ho : o = .error (.runtime e) := (congrArg Prod.fst hfails).symm.trans herror
  subst ho
  obtain ⟨before, s, after, m₀, hsplit, hbefore, -, hinside, hstored⟩ :=
    runtime_error_place hp hearlier rfl hfails
  exact ⟨m', before, s, after, m₀, rfl, hsplit, hbefore, hinside, hstored⟩

/-- A string is stored by the first line and compared in the second; the error points at the
first. -/
theorem runtime_error_elsewhere :
    let p := (parseProgram "a = 'x'\x0aa < 1").program
    p.stmts.length = 2 ∧ (Program.exec ⟨p.stmts.take 1, p.tokens⟩ {}).1 = .ok () ∧
      (p.exec {}).1 = .error (.runtime ⟨⟨1, 4⟩, .incomparable .string .number⟩) ∧
      ∀ s ∈ p.stmts.drop 1, ¬p.Covers s ⟨1, 4⟩ := by
  decide +kernel

end Reckoner
