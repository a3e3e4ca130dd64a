import Reckoner.Machine
import Reckoner.Proofs.Effect

/-!
# Values without a stack

The machine evaluates expressions onto a stack. Here the value of an expression is a function of
the variables and the tracing alone: operands from left to right, the logical operators and the
conditional choosing what else is looked at, and the first fault winning. `Expr.eval_spec` says
that the machine computes this value, pushes it and touches nothing else, or stops with the same
fault.
-/
namespace Reckoner

namespace Machine

/-- The machine with one more value on its stack. -/
def pushed (v : Value) (m : Machine) : Machine := { m with values := v :: m.values }

@[simp] theorem vars_pushed (v : Value) (m : Machine) : (m.pushed v).vars = m.vars := rfl

@[simp] theorem tracing_pushed (v : Value) (m : Machine) : (m.pushed v).tracing = m.tracing := rfl

/-- The machine with more in its transcript. -/
def wrote (es : List Entry) (m : Machine) : Machine := { m with transcript := m.transcript ++ es }

@[simp] theorem vars_wrote (es : List Entry) (m : Machine) : (m.wrote es).vars = m.vars := rfl

@[simp] theorem wrote_nil (m : Machine) : m.wrote [] = m := by
  simp [wrote]

@[simp] theorem wrote_wrote (es es' : List Entry) (m : Machine) :
    (m.wrote es).wrote es' = m.wrote (es ++ es') := by
  simp [wrote]

end Machine

namespace Run

@[simp] theorem push_apply (v : Value) (m : Machine) : push v m = (.ok (), m.pushed v) := rfl

/-- A value that was pushed is popped again. -/
@[simp] theorem pop_pushed (v : Value) (m : Machine) : pop (m.pushed v) = (.ok v, m) := rfl

@[simp] theorem fail_apply {α : Type} (place : Place) (cause : RuntimeCause) (m : Machine) :
    (fail place cause : Run α) m = (.error (.runtime ⟨place, cause⟩), m) := rfl

@[simp] theorem write_apply (origin : Origin) (text : Text) (m : Machine) :
    write origin text m = (.ok (), m.wrote [⟨origin, text⟩]) := rfl

@[simp] theorem printLine_apply (text : Text) (m : Machine) :
    printLine text m = (.ok (), m.wrote [⟨.program, text.line⟩]) := rfl

@[simp] theorem debug_apply (message : Text) (m : Machine) :
    debug message m =
      (.ok (), m.wrote (if m.tracing.debug then [⟨.trace, debugLine message⟩] else [])) := by
  by_cases h : m.tracing.debug <;> simp [debug, h]

/-- Writing something for every element of a list. -/
theorem forM_apply {α : Type} {f : α → Run Unit} {entry : α → Entry}
    (h : ∀ a m, f a m = (.ok (), m.wrote [entry a])) (as : List α) (m : Machine) :
    as.forM f m = (.ok (), m.wrote (as.map entry)) := by
  induction as generalizing m with
  | nil => simp
  | cons a as ih =>
    have ih : ∀ m, forM as f m = (.ok (), m.wrote (as.map entry)) := ih
    simp [h, ih]

/-- The number that an operand stands for, or the fault that it stands for none. -/
def numberOf (tokens : List Token) (operand : Expr) (v : Value) : Except Fault Number :=
  match v.datum with
  | .number x => .ok x
  | _ => .error (.runtime ⟨operand.place, .operand (operand.plainText tokens) .numeric⟩)

/-- The truth value that an operand stands for, or the fault that it stands for none. -/
def booleanOf (tokens : List Token) (operand : Expr) (v : Value) : Except Fault Bool :=
  match v.datum with
  | .boolean b => .ok b
  | _ => .error (.runtime ⟨operand.place, .operand (operand.plainText tokens) .boolean⟩)

@[simp] theorem requireNumber_apply (tokens : List Token) (operand : Expr) (v : Value)
    (m : Machine) : requireNumber tokens operand v m = (numberOf tokens operand v, m) := by
  obtain ⟨d, _⟩ := v
  cases d <;> rfl

@[simp] theorem requireBoolean_apply (tokens : List Token) (operand : Expr) (v : Value)
    (m : Machine) : requireBoolean tokens operand v m = (booleanOf tokens operand v, m) := by
  obtain ⟨d, _⟩ := v
  cases d <;> rfl

end Run

open Run

namespace Expr

/-- The value of an expression. -/
def meaning (tokens : List Token) (vars : Scope Value) (tracing : Tracing) :
    Expr → Except Fault Value
  | literal t => .ok t.value
  | identifier t =>
    if isReserved t.text then Setting.read t.text t.pos.place tracing
    else
      match vars.get? t.text with
      | some v => .ok v
      | none => .error (.runtime ⟨t.pos.place, .unbound t.text⟩)
  | paren _ inner _ => inner.meaning tokens vars tracing
  | unary .not sign operand => do
    let b ← booleanOf tokens operand (← operand.meaning tokens vars tracing)
    return ⟨.boolean !b, sign.pos.place⟩
  | unary .negate sign operand => do
    let x ← numberOf tokens operand (← operand.meaning tokens vars tracing)
    return ⟨.number x.neg, sign.pos.place⟩
  | binary (.arith op) left _ right => do
    let u ← left.meaning tokens vars tracing
    let v ← right.meaning tokens vars tracing
    let x ← numberOf tokens left u
    let y ← numberOf tokens right v
    return ⟨.number (op.apply x y), left.place⟩
  | binary (.relation r) left _ right => do
    let u ← left.meaning tokens vars tracing
    let v ← right.meaning tokens vars tracing
    let result ← r.apply u v
    return { result with place := left.place }
  | binary (.logic op) left _ right => do
    let b ← booleanOf tokens left (← left.meaning tokens vars tracing)
    if op.decidedBy b then
      return ⟨.boolean b, left.place⟩
    else
      let c ← booleanOf tokens right (← right.meaning tokens vars tracing)
      return ⟨.boolean (op.apply b c), left.place⟩
  | ternary condition _ thenExpr _ elseExpr => do
    let b ← booleanOf tokens condition (← condition.meaning tokens vars tracing)
    if b then thenExpr.meaning tokens vars tracing else elseExpr.meaning tokens vars tracing

/-- The machine has pushed a value, or stopped with a fault and with some operands left over. -/
def Leaves (m : Machine) (result : Except Fault Unit × Machine) : Except Fault Value → Prop
  | .ok v => result = (.ok (), m.pushed v)
  | .error f => ∃ vs, result = (.error f, { m with values := vs })

@[simp] theorem leaves_ok (m : Machine) (v : Value) : Leaves m (.ok (), m.pushed v) (.ok v) := rfl

@[simp] theorem leaves_error (m : Machine) (f : Fault) : Leaves m (.error f, m) (.error f) :=
  ⟨m.values, rfl⟩

/-- An operand comes first, on a machine that may have other operands on its stack already. -/
theorem leaves_bind {m m₁ : Machine} {x : Run Unit} {k : Unit → Run Unit}
    {o : Except Fault Value} {g : Value → Except Fault Value} (hx : Leaves m₁ (x m₁) o)
    (hm : ∀ vs, { m₁ with values := vs } = { m with values := vs })
    (hk : ∀ v, Leaves m (k () (m₁.pushed v)) (g v)) :
    Leaves m ((x >>= k) m₁) (o >>= g) := by
  cases o with
  | ok v =>
    have hx : x m₁ = (.ok (), m₁.pushed v) := hx
    simpa [hx] using hk v
  | error f =>
    obtain ⟨vs, hx⟩ := hx
    exact ⟨vs, by simp [hx, hm]⟩

/-- The machine computes the value of an expression. -/
theorem eval_spec (tokens : List Token) (e : Expr) (m : Machine) :
    Leaves m (e.eval tokens m) (e.meaning tokens m.vars m.tracing) := by
  induction e generalizing m with
  | literal t => simp [meaning, eval]
  | identifier t =>
    by_cases h : isReserved t.text
    · cases hr : Setting.read t.text t.pos.place m.tracing <;> simp [meaning, eval, h, hr]
    · cases hg : m.vars.get? t.text <;> simp [meaning, eval, h, hg]
  | paren _ inner _ ih => exact ih m
  | unary op sign operand ih =>
    cases op with
    | not =>
      refine leaves_bind (ih m) (fun _ => rfl) fun v => ?_
      cases h : booleanOf tokens operand v <;> simp [h]
    | negate =>
      refine leaves_bind (ih m) (fun _ => rfl) fun v => ?_
      cases h : numberOf tokens operand v <;> simp [h]
  | binary op left sign right ihl ihr =>
    rcases op with op | r | op
    · refine leaves_bind (ihl m) (fun _ => rfl) fun u => ?_
      refine leaves_bind (ihr (m.pushed u)) (fun _ => rfl) fun v => ?_
      cases hx : numberOf tokens left u with
      | error f => simp [hx]
      | ok x => cases hy : numberOf tokens right v <;> simp [hx, hy]
    · refine leaves_bind (ihl m) (fun _ => rfl) fun u => ?_
      refine leaves_bind (ihr (m.pushed u)) (fun _ => rfl) fun v => ?_
      cases h : r.apply u v <;> simp [h]
    · refine leaves_bind (ihl m) (fun _ => rfl) fun u => ?_
      cases hb : booleanOf tokens left u with
      | error f => simp [hb]
      | ok b =>
        by_cases hd : op.decidedBy b
        · simp [hb, hd]
        · simp only [Effect.bind_apply, pop_pushed, requireBoolean_apply, hb, hd,
            Effect.ok_bind]
          refine leaves_bind (ihr m) (fun _ => rfl) fun v => ?_
          cases hc : booleanOf tokens right v <;> simp [hc]
  | ternary condition question thenExpr colon elseExpr ihc iht ihe =>
    refine leaves_bind (ihc m) (fun _ => rfl) fun v => ?_
    cases hb : booleanOf tokens condition v with
    | error f => simp [hb]
    | ok b =>
      cases b with
      | true => simpa [hb] using iht m
      | false => simpa [hb] using ihe m

end Expr

/-- Assigning to a name that is not reserved binds it. -/
theorem Stmt.bind_apply {name : Text} (h : ¬isReserved name) (v : Value) (m : Machine) :
    Stmt.bind name v m =
      (.ok (), { m.wrote (if m.tracing.debug then [⟨.trace, debugLine ("assignment to " ++ name)⟩]
        else []) with vars := m.vars.set name v }) := by
  simp [Stmt.bind, h]

/-- A program runs its first statement on an empty stack, and then the others. -/
theorem Program.exec_cons (s : Stmt) (ss : List Stmt) (tokens : List Token) (m : Machine) :
    Program.exec ⟨s :: ss, tokens⟩ m =
      match s.exec tokens { m with values := [] } with
      | (.ok (), m') => Program.exec ⟨ss, tokens⟩ m'
      | (.error f, m') => (.error f, m') := by
  simp only [Program.exec, List.forM_eq_forM, List.forM_cons, Effect.bind_apply, clear,
    Effect.modify_apply]
  rcases s.exec tokens { m with values := [] } with ⟨_ | _, _⟩ <;> rfl

end Reckoner
