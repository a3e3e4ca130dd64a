import Reckoner.Proofs.Defects

/-!
# What expressions evaluate to

The rules by which an expression has a value or fails, one for each way in which this can come about.
They know no stack: operands are evaluated from left to right, the right operand of a logical
operator only if the left one leaves the result open, and of the branches of a conditional only the
one that is chosen. An operator looks at its operands when it has all of them, so that a failure
inside an operand comes before one of its type. `eval_evaluates` says that the machine follows the
rules, whatever is on its stack.
-/
namespace Reckoner

@[simp] theorem Effect.mapError_ok {ε ε' α : Type} (f : ε → ε') (a : α) :
    (Except.ok a : Except ε α).mapError f = .ok a := rfl

@[simp] theorem Effect.mapError_error {ε ε' α : Type} (f : ε → ε') (e : ε) :
    (Except.error e : Except ε α).mapError f = .error (f e) := rfl

open Run

/-- Whether a left operand decides the result, whatever the right one is. -/
def LogicOp.Decides (op : LogicOp) (b : Bool) : Prop := ∀ c, op.apply b c = b

theorem LogicOp.decidedBy_iff {op : LogicOp} {b : Bool} :
    op.decidedBy b = true ↔ op.Decides b := by
  cases op <;> cases b <;> simp [decidedBy, Decides, LogicOp.apply]

/-- What the operand of a sign has to be. -/
def UnaryOp.needs : UnaryOp → OperandClass
  | not => .boolean
  | negate => .numeric

namespace Expr

/-- The complaint that an operand is not of the type that its operator needs. -/
def unfit (tokens : List Token) (operand : Expr) (needed : OperandClass) : RuntimeError :=
  ⟨operand.place, .operand (operand.plainText tokens) needed⟩

section
variable (tokens : List Token) (vars : Scope Value) (tracing : Tracing)

/-- An expression has a value or fails with an error. -/
inductive Evaluates : Expr → Except RuntimeError Value → Prop where
  | literal (t : Token) : Evaluates (literal t) (.ok t.value)
  | setting {t : Token} {s : Setting} (h : Setting.ofName? t.text = some s) :
      Evaluates (identifier t) (.ok ⟨.boolean (s.get tracing), t.pos.place⟩)
  | bound {t : Token} {v : Value} (hname : isReserved t.text = false)
      (h : vars.get? t.text = some v) : Evaluates (identifier t) (.ok v)
  | unbound {t : Token} (hname : isReserved t.text = false) (h : vars.get? t.text = none) :
      Evaluates (identifier t) (.error ⟨t.pos.place, .unbound t.text⟩)
  | paren {opening closing : Token} {inner : Expr} {o : Except RuntimeError Value}
      (h : Evaluates inner o) : Evaluates (paren opening inner closing) o
  -- Signs.
  | not {sign : Token} {operand : Expr} {b : Bool} {p : Place}
      (h : Evaluates operand (.ok ⟨.boolean b, p⟩)) :
      Evaluates (unary .not sign operand) (.ok ⟨.boolean !b, sign.pos.place⟩)
  | negate {sign : Token} {operand : Expr} {x : Number} {p : Place}
      (h : Evaluates operand (.ok ⟨.number x, p⟩)) :
      Evaluates (unary .negate sign operand) (.ok ⟨.number x.neg, sign.pos.place⟩)
  | unary_fails {op : UnaryOp} {sign : Token} {operand : Expr} {e : RuntimeError}
      (h : Evaluates operand (.error e)) : Evaluates (unary op sign operand) (.error e)
  | unary_unfit {op : UnaryOp} {sign : Token} {operand : Expr} {v : Value}
      (h : Evaluates operand (.ok v)) (hv : v.ty ≠ op.needs.ty) :
      Evaluates (unary op sign operand) (.error (operand.unfit tokens op.needs))
  -- Operators that take both operands.
  | left_fails {op : BinaryOp} {left right : Expr} {sign : Token} {e : RuntimeError}
      (h : Evaluates left (.error e)) : Evaluates (binary op left sign right) (.error e)
  | right_fails {op : BinaryOp} {left right : Expr} {sign : Token} {u : Value} {e : RuntimeError}
      (hop : ∀ l, op ≠ .logic l) (hleft : Evaluates left (.ok u))
      (hright : Evaluates right (.error e)) : Evaluates (binary op left sign right) (.error e)
  | arith {op : ArithOp} {left right : Expr} {sign : Token} {x y : Number} {p q : Place}
      (hleft : Evaluates left (.ok ⟨.number x, p⟩))
      (hright : Evaluates right (.ok ⟨.number y, q⟩)) :
      Evaluates (binary (.arith op) left sign right) (.ok ⟨.number (op.apply x y), left.place⟩)
  | arith_left_unfit {op : ArithOp} {left right : Expr} {sign : Token} {u v : Value}
      (hleft : Evaluates left (.ok u)) (hright : Evaluates right (.ok v)) (hu : u.ty ≠ .number) :
      Evaluates (binary (.arith op) left sign right) (.error (left.unfit tokens .numeric))
  | arith_right_unfit {op : ArithOp} {left right : Expr} {sign : Token} {u v : Value}
      (hleft : Evaluates left (.ok u)) (hright : Evaluates right (.ok v)) (hu : u.ty = .number)
      (hv : v.ty ≠ .number) :
      Evaluates (binary (.arith op) left sign right) (.error (right.unfit tokens .numeric))
  | related {r : Relation} {left right : Expr} {sign : Token} {u v w : Value}
      (hleft : Evaluates left (.ok u)) (hright : Evaluates right (.ok v))
      (h : r.apply u v = .ok w) :
      Evaluates (binary (.relation r) left sign right) (.ok ⟨w.datum, left.place⟩)
  | unrelated {r : Relation} {left right : Expr} {sign : Token} {u v : Value} {e : RuntimeError}
      (hleft : Evaluates left (.ok u)) (hright : Evaluates right (.ok v))
      (h : r.apply u v = .error (.runtime e)) :
      Evaluates (binary (.relation r) left sign right) (.error e)
  -- Operators that may do without the right operand.
  | logic_left_unfit {op : LogicOp} {left right : Expr} {sign : Token} {u : Value}
      (hleft : Evaluates left (.ok u)) (hu : u.ty ≠ .boolean) :
      Evaluates (binary (.logic op) left sign right) (.error (left.unfit tokens .boolean))
  | decided {op : LogicOp} {left right : Expr} {sign : Token} {b : Bool} {p : Place}
      (hleft : Evaluates left (.ok ⟨.boolean b, p⟩)) (hop : op.Decides b) :
      Evaluates (binary (.logic op) left sign right) (.ok ⟨.boolean b, left.place⟩)
  | undecided {op : LogicOp} {left right : Expr} {sign : Token} {b c : Bool} {p q : Place}
      (hleft : Evaluates left (.ok ⟨.boolean b, p⟩)) (hop : ¬op.Decides b)
      (hright : Evaluates right (.ok ⟨.boolean c, q⟩)) :
      Evaluates (binary (.logic op) left sign right) (.ok ⟨.boolean (op.apply b c), left.place⟩)
  | undecided_fails {op : LogicOp} {left right : Expr} {sign : Token} {b : Bool} {p : Place}
      {e : RuntimeError} (hleft : Evaluates left (.ok ⟨.boolean b, p⟩)) (hop : ¬op.Decides b)
      (hright : Evaluates right (.error e)) :
      Evaluates (binary (.logic op) left sign right) (.error e)
  | undecided_unfit {op : LogicOp} {left right : Expr} {sign : Token} {b : Bool} {p : Place}
      {v : Value} (hleft : Evaluates left (.ok ⟨.boolean b, p⟩)) (hop : ¬op.Decides b)
      (hright : Evaluates right (.ok v)) (hv : v.ty ≠ .boolean) :
      Evaluates (binary (.logic op) left sign right) (.error (right.unfit tokens .boolean))
  -- The conditional.
  | chosen {condition thenExpr elseExpr : Expr} {question colon : Token} {b : Bool} {p : Place}
      {o : Except RuntimeError Value} (hcondition : Evaluates condition (.ok ⟨.boolean b, p⟩))
      (h : Evaluates (if b then thenExpr else elseExpr) o) :
      Evaluates (ternary condition question thenExpr colon elseExpr) o
  | condition_fails {condition thenExpr elseExpr : Expr} {question colon : Token}
      {e : RuntimeError} (h : Evaluates condition (.error e)) :
      Evaluates (ternary condition question thenExpr colon elseExpr) (.error e)
  | condition_unfit {condition thenExpr elseExpr : Expr} {question colon : Token} {u : Value}
      (h : Evaluates condition (.ok u)) (hu : u.ty ≠ .boolean) :
      Evaluates (ternary condition question thenExpr colon elseExpr)
        (.error (condition.unfit tokens .boolean))

end

/-! ## The rules and the value of an expression -/

section
variable {tokens : List Token} {vars : Scope Value} {tracing : Tracing} {operand : Expr} {v : Value}

@[simp] theorem numberOf_number (x : Number) (p : Place) :
    numberOf tokens operand ⟨.number x, p⟩ = .ok x := rfl

@[simp] theorem booleanOf_boolean (b : Bool) (p : Place) :
    booleanOf tokens operand ⟨.boolean b, p⟩ = .ok b := rfl

theorem numberOf_of_ty_ne (h : v.ty ≠ .number) :
    numberOf tokens operand v = .error (.runtime (operand.unfit tokens .numeric)) := by
  obtain ⟨_ | _ | _, _⟩ := v
  · exact absurd rfl h
  · rfl
  · rfl

theorem booleanOf_of_ty_ne (h : v.ty ≠ .boolean) :
    booleanOf tokens operand v = .error (.runtime (operand.unfit tokens .boolean)) := by
  obtain ⟨_ | _ | _, _⟩ := v
  · rfl
  · rfl
  · exact absurd rfl h

/-- Whatever follows from the rules is the value of the expression. -/
theorem Evaluates.meaning_eq {e : Expr} {o : Except RuntimeError Value}
    (h : Evaluates tokens vars tracing e o) :
    e.meaning tokens vars tracing = o.mapError .runtime := by
  induction h with
  | literal t => rfl
  | setting h => simp [meaning, isReserved, Setting.read, h]
  | bound hname h => simp [meaning, hname, h]
  | unbound hname h => simp [meaning, hname, h]
  | paren _ ih => exact ih
  | not _ ih => simp [meaning, ih]
  | negate _ ih => simp [meaning, ih]
  | @unary_fails op _ _ _ _ ih => cases op <;> simp [meaning, ih]
  | @unary_unfit op _ _ _ _ hv ih =>
    cases op with
    | not => simp [meaning, ih, booleanOf_of_ty_ne hv, UnaryOp.needs]
    | negate => simp [meaning, ih, numberOf_of_ty_ne hv, UnaryOp.needs]
  | @left_fails op _ _ _ _ _ ih =>
    rcases op with op | r | op <;> simp [meaning, ih]
  | @right_fails op _ _ _ _ _ hop _ _ ihl ihr =>
    rcases op with op | r | op
    · simp [meaning, ihl, ihr]
    · simp [meaning, ihl, ihr]
    · exact absurd rfl (hop op)
  | arith _ _ ihl ihr => simp [meaning, ihl, ihr]
  | arith_left_unfit _ _ hu ihl ihr =>
    simp [meaning, ihl, ihr, numberOf_of_ty_ne hu]
  | @arith_right_unfit _ _ _ _ u _ _ _ hu hv ihl ihr =>
    obtain ⟨x, p, rfl⟩ := Value.exists_number hu
    simp [meaning, ihl, ihr, numberOf_of_ty_ne hv]
  | related _ _ h ihl ihr => simp [meaning, ihl, ihr, h]
  | unrelated _ _ h ihl ihr => simp [meaning, ihl, ihr, h]
  | logic_left_unfit _ hu ihl => simp [meaning, ihl, booleanOf_of_ty_ne hu]
  | decided _ hop ihl =>
    simp [meaning, ihl, LogicOp.decidedBy_iff.mpr hop]
  | undecided _ hop _ ihl ihr =>
    simp [meaning, ihl, ihr, mt LogicOp.decidedBy_iff.mp hop]
  | undecided_fails _ hop _ ihl ihr =>
    simp [meaning, ihl, ihr, mt LogicOp.decidedBy_iff.mp hop]
  | undecided_unfit _ hop _ hv ihl ihr =>
    simp [meaning, ihl, ihr, booleanOf_of_ty_ne hv, mt LogicOp.decidedBy_iff.mp hop]
  | @chosen _ _ _ _ _ b _ _ _ _ ihc ih =>
    cases b <;> simpa [meaning, ihc] using ih
  | condition_fails _ ihc => simp [meaning, ihc]
  | condition_unfit _ hu ihc => simp [meaning, ihc, booleanOf_of_ty_ne hu]

/-! ## Every expression has a value or fails -/

theorem exists_evaluates_unary {op : UnaryOp} {sign : Token}
    (h : ∃ o, Evaluates tokens vars tracing operand o) :
    ∃ o, Evaluates tokens vars tracing (unary op sign operand) o := by
  obtain ⟨e | v, h⟩ := h
  · exact ⟨_, .unary_fails h⟩
  · cases op with
    | not =>
      by_cases hv : v.ty = .boolean
      · obtain ⟨b, p, rfl⟩ := Value.exists_boolean hv
        exact ⟨_, .not h⟩
      · exact ⟨_, .unary_unfit h hv⟩
    | negate =>
      by_cases hv : v.ty = .number
      · obtain ⟨x, p, rfl⟩ := Value.exists_number hv
        exact ⟨_, .negate h⟩
      · exact ⟨_, .unary_unfit h hv⟩

theorem exists_evaluates_arith {op : ArithOp} {left right : Expr} {sign : Token} {u v : Value}
    (hleft : Evaluates tokens vars tracing left (.ok u))
    (hright : Evaluates tokens vars tracing right (.ok v)) :
    ∃ o, Evaluates tokens vars tracing (binary (.arith op) left sign right) o := by
  by_cases hu : u.ty = .number
  · by_cases hv : v.ty = .number
    · obtain ⟨x, p, rfl⟩ := Value.exists_number hu
      obtain ⟨y, q, rfl⟩ := Value.exists_number hv
      exact ⟨_, .arith hleft hright⟩
    · exact ⟨_, .arith_right_unfit hleft hright hu hv⟩
  · exact ⟨_, .arith_left_unfit hleft hright hu⟩

theorem exists_evaluates_relation {r : Relation} {left right : Expr} {sign : Token} {u v : Value}
    (hleft : Evaluates tokens vars tracing left (.ok u))
    (hright : Evaluates tokens vars tracing right (.ok v)) :
    ∃ o, Evaluates tokens vars tracing (binary (.relation r) left sign right) o := by
  obtain ⟨w, hw⟩ | ⟨e, he⟩ := (r.blameless_apply u v).cases
  · exact ⟨_, .related hleft hright hw⟩
  · exact ⟨_, .unrelated hleft hright he⟩

theorem exists_evaluates_logic {op : LogicOp} {left right : Expr} {sign : Token} {u : Value}
    (hleft : Evaluates tokens vars tracing left (.ok u))
    (hright : ∃ o, Evaluates tokens vars tracing right o) :
    ∃ o, Evaluates tokens vars tracing (binary (.logic op) left sign right) o := by
  by_cases hu : u.ty = .boolean
  · obtain ⟨b, p, rfl⟩ := Value.exists_boolean hu
    by_cases hop : op.Decides b
    · exact ⟨_, .decided hleft hop⟩
    · obtain ⟨e | v, hright⟩ := hright
      · exact ⟨_, .undecided_fails hleft hop hright⟩
      · by_cases hv : v.ty = .boolean
        · obtain ⟨c, q, rfl⟩ := Value.exists_boolean hv
          exact ⟨_, .undecided hleft hop hright⟩
        · exact ⟨_, .undecided_unfit hleft hop hright hv⟩
  · exact ⟨_, .logic_left_unfit hleft hu⟩

variable (tokens vars tracing)

/-- There is a rule for every expression, whatever its operands evaluate to. -/
theorem exists_evaluates (e : Expr) : ∃ o, Evaluates tokens vars tracing e o := by
  induction e with
  | literal t => exact ⟨_, .literal t⟩
  | identifier t =>
    cases hs : Setting.ofName? t.text with
    | some s => exact ⟨_, .setting hs⟩
    | none =>
      have hname : isReserved t.text = false := by simp [isReserved, hs]
      cases hv : vars.get? t.text with
      | some v => exact ⟨_, .bound hname hv⟩
      | none => exact ⟨_, .unbound hname hv⟩
  | paren opening inner closing ih =>
    obtain ⟨o, h⟩ := ih
    exact ⟨o, .paren h⟩
  | unary op sign operand ih => exact exists_evaluates_unary ih
  | binary op left sign right ihl ihr =>
    obtain ⟨e | u, hleft⟩ := ihl
    · exact ⟨_, .left_fails hleft⟩
    · rcases op with op | r | op
      · obtain ⟨e | v, hright⟩ := ihr
        · exact ⟨_, .right_fails nofun hleft hright⟩
        · exact exists_evaluates_arith hleft hright
      · obtain ⟨e | v, hright⟩ := ihr
        · exact ⟨_, .right_fails nofun hleft hright⟩
        · exact exists_evaluates_relation hleft hright
      · exact exists_evaluates_logic hleft ihr
  | ternary condition question thenExpr colon elseExpr ihc iht ihe =>
    obtain ⟨e | u, hcondition⟩ := ihc
    · exact ⟨_, .condition_fails hcondition⟩
    · by_cases hu : u.ty = .boolean
      · obtain ⟨b, p, rfl⟩ := Value.exists_boolean hu
        obtain ⟨o, h⟩ : ∃ o, Evaluates tokens vars tracing (if b then thenExpr else elseExpr) o := by
          cases b with
          | true => exact iht
          | false => exact ihe
        exact ⟨o, .chosen hcondition h⟩
      · exact ⟨_, .condition_unfit hcondition hu⟩

end

/-- The rules lead to one outcome. -/
theorem Evaluates.unique {tokens : List Token} {vars : Scope Value} {tracing : Tracing} {e : Expr}
    {o o' : Except RuntimeError Value} (h : Evaluates tokens vars tracing e o)
    (h' : Evaluates tokens vars tracing e o') : o = o' := by
  have heq := h.meaning_eq.symm.trans h'.meaning_eq
  cases o with
  | ok v =>
    cases o' with
    | ok v' => simpa using heq
    | error e' => cases heq
  | error e =>
    cases o' with
    | ok v' => cases heq
    | error e' => simpa using heq

/-- An expression evaluates to exactly one outcome by the rules. If this is a value, the machine puts
it on top of what is on its stack; if it is an error, the machine stops with it. Nothing but the
stack is changed. -/
theorem eval_evaluates (tokens : List Token) (e : Expr) (m : Machine) :
    ∃ o, (∀ o', Evaluates tokens m.vars m.tracing e o' ↔ o' = o) ∧
      match o with
      | .ok v => e.eval tokens m = (.ok (), { m with values := v :: m.values })
      | .error err => ∃ vs, e.eval tokens m = (.error (.runtime err), { m with values := vs }) := by
  obtain ⟨o, h⟩ := exists_evaluates tokens m.vars m.tracing e
  have hspec := e.eval_spec tokens m
  rw [h.meaning_eq] at hspec
  refine ⟨o, fun o' => ⟨fun h' => h'.unique h, fun heq => heq ▸ h⟩, ?_⟩
  cases o with
  | ok v => exact hspec
  | error err => exact hspec

end Expr
end Reckoner
