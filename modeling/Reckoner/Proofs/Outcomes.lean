import Reckoner.Proofs.Meaning

/-!
# Statements without a stack

What a statement does is a function of the variables and the tracing alone: it stops with a fault,
or it leaves some variables and some tracing and writes something. `Stmt.exec_spec` says that the
machine does exactly this. A statement that stops with a fault binds nothing, switches nothing and
writes nothing; all that is left of it are operands, which the next statement clears away.
-/
namespace Reckoner

open Run

/-- What a statement leaves, and what it writes. -/
structure Change where
  vars : Scope Value
  tracing : Tracing
  written : Transcript

namespace Machine

/-- The machine after a change. -/
def changed (c : Change) (m : Machine) : Machine :=
  { m with vars := c.vars, tracing := c.tracing, transcript := m.transcript ++ c.written }

@[simp] theorem vars_changed (c : Change) (m : Machine) : (m.changed c).vars = c.vars := rfl

@[simp] theorem tracing_changed (c : Change) (m : Machine) : (m.changed c).tracing = c.tracing :=
  rfl

@[simp] theorem transcript_changed (c : Change) (m : Machine) :
    (m.changed c).transcript = m.transcript ++ c.written := rfl

end Machine

/-- A computation gives a result and the machine that goes with it, or stops with a fault and with
some operands left over. -/
def Run.Yields {α β : Type} (m : Machine) (result : Except Fault α × Machine)
    (done : β → α × Machine) : Except Fault β → Prop
  | .ok b => result = (.ok (done b).1, (done b).2)
  | .error f => ∃ vs, result = (.error f, { m with values := vs })

namespace Expr
variable (tokens : List Token)

/-- The value of an expression is all that matters to what is done with it. -/
theorem yields_bind {α β : Type} {e : Expr} {m : Machine} {k : Value → Run α}
    {g : Value → Except Fault β} {done : β → α × Machine}
    (h : ∀ v, Yields m (k v m) done (g v)) :
    Yields m ((e.eval tokens >>= fun _ => pop >>= k) m) done
      (e.meaning tokens m.vars m.tracing >>= g) := by
  have hspec := e.eval_spec tokens m
  cases hv : e.meaning tokens m.vars m.tracing with
  | ok v =>
    rw [hv] at hspec
    have heval : e.eval tokens m = (.ok (), m.pushed v) := hspec
    simpa [heval] using h v
  | error f =>
    rw [hv] at hspec
    obtain ⟨vs, heval⟩ := hspec
    exact ⟨vs, by simp [heval]⟩

/-- The texts of the values of some expressions, one after the other. -/
def texts (vars : Scope Value) (tracing : Tracing) : List Expr → Except Fault Text
  | [] => .ok []
  | e :: es => do
    let v ← e.meaning tokens vars tracing
    return v.text ++ (← texts vars tracing es)

theorem evalTexts_spec (es : List Expr) (m : Machine) :
    Yields m (evalTexts tokens es m) (fun text => (text, m))
      (texts tokens m.vars m.tracing es) := by
  induction es with
  | nil => exact rfl
  | cons e es ih =>
    rw [evalTexts, texts]
    refine yields_bind tokens fun v => ?_
    cases ht : texts tokens m.vars m.tracing es with
    | ok text =>
      rw [ht] at ih
      have hrest : evalTexts tokens es m = (.ok text, m) := ih
      simp [Yields, hrest]
    | error f =>
      rw [ht] at ih
      obtain ⟨vs, hrest⟩ := ih
      exact ⟨vs, by simp [hrest]⟩

end Expr

namespace Stmt
variable (tokens : List Token)

/-- What an inspection shows, given whether debugging is on. -/
def shown (debug : Bool) (kind : Inspection) (s : Stmt) : Except Fault Transcript :=
  match kind with
  | .tree => .ok [⟨.program, s.innerTree.line⟩]
  | .tokens =>
    .ok ((tokenRange tokens s.bodyInterval.1 s.bodyInterval.2).map fun t =>
      ⟨.program, t.describe.line⟩)
  | .gui =>
    .ok (if debug then [⟨.trace, debugLine "gui: no tree viewer in this build, skipping"⟩] else [])
  | .refactor =>
    match s.simplified tokens with
    | .ok text => .ok [⟨.program, text.line⟩]
    | .error o => .error (.overlap o)

theorem inspect_spec (kind : Inspection) (s : Stmt) (m : Machine) :
    inspect tokens kind s m =
      match shown tokens m.tracing.debug kind s with
      | .ok es => (.ok (), m.wrote es)
      | .error f => (.error f, m) := by
  cases kind with
  | tree => exact printLine_apply _ m
  | tokens => exact forM_apply (fun t m => printLine_apply t.describe m) _ m
  | gui => exact debug_apply _ m
  | refactor =>
    simp only [inspect, shown]
    cases s.simplified tokens with
    | ok text => exact printLine_apply text m
    | error o => rfl

/-- What becomes of the variables and the tracing when a value is assigned. -/
def binding (name : Text) (v : Value) (vars : Scope Value) (tracing : Tracing) :
    Except Fault Change :=
  if isReserved name then do
    let (tracing, confirmation) ← Setting.assign name v tracing
    return ⟨vars, tracing, [⟨.program, confirmation⟩]⟩
  else
    .ok ⟨vars.set name v, tracing,
      if tracing.debug then [⟨.trace, debugLine ("assignment to " ++ name)⟩] else []⟩

theorem bind_spec (name : Text) (v : Value) (m : Machine) :
    Yields m (bind name v m) (fun c => ((), m.changed c)) (binding name v m.vars m.tracing) := by
  by_cases h : isReserved name
  · rw [binding, if_pos h]
    cases ha : Setting.assign name v m.tracing with
    | ok p => simp [bind, h, ha, Yields, Machine.changed, Machine.wrote]
    | error f => exact ⟨m.values, by simp [bind, h, ha]⟩
  · rw [binding, if_neg h]
    exact bind_apply h v m

/-- What a statement does. -/
def change (vars : Scope Value) (tracing : Tracing) (s : Stmt) : Except Fault Change :=
  match s with
  | .assign name _ value => do
    let v ← value.meaning tokens vars tracing
    binding name.text v vars tracing
  | .print _ arg more => do
    let text ← Expr.texts tokens vars tracing (arg :: more)
    return ⟨vars, tracing, [⟨.program, text.line⟩]⟩
  | .expr e => do
    let v ← e.meaning tokens vars tracing
    return ⟨vars, tracing, [⟨.program, v.text.line⟩]⟩
  | .vars _ => .ok ⟨vars, tracing, vars.bindings.map fun p => ⟨.program, varLine p.1 p.2⟩⟩
  | .block kind _ _ _ _ | .wrap kind _ _ => do
    let es ← shown tokens tracing.debug kind s
    return ⟨vars, tracing, es⟩

/-- The machine does what a statement does, and leaves its stack as it was unless it stops. -/
theorem exec_spec (s : Stmt) (m : Machine) :
    Yields m (s.exec tokens m) (fun c => ((), m.changed c)) (s.change tokens m.vars m.tracing) := by
  have hinspect (kind : Inspection) (s : Stmt) :
      Yields m (inspect tokens kind s m) (fun c => ((), m.changed c)) do
        let es ← shown tokens m.tracing.debug kind s
        return ⟨m.vars, m.tracing, es⟩ := by
    rw [inspect_spec]
    cases shown tokens m.tracing.debug kind s with
    | ok es => exact rfl
    | error f => exact ⟨m.values, rfl⟩
  cases s with
  | assign name equals value => exact Expr.yields_bind tokens fun v => bind_spec name.text v m
  | print keyword arg more =>
    have hspec := Expr.evalTexts_spec tokens (arg :: more) m
    rw [change]
    cases ht : Expr.texts tokens m.vars m.tracing (arg :: more) with
    | ok text =>
      rw [ht] at hspec
      have heval : Expr.evalTexts tokens (arg :: more) m = (.ok text, m) := hspec
      simp [Yields, exec, heval, Machine.changed, Machine.wrote]
    | error f =>
      rw [ht] at hspec
      obtain ⟨vs, heval⟩ := hspec
      exact ⟨vs, by simp [exec, heval]⟩
  | expr e => exact Expr.yields_bind tokens fun v => printLine_apply v.text m
  | vars keyword =>
    exact forM_apply (fun p m => write_apply .program (varLine p.1 p.2) m) m.vars.bindings m
  | block kind keyword opening body closing => exact hinspect kind _
  | wrap kind keyword inner => exact hinspect kind _

end Stmt

/-- A program does what its first statement does, and then what the others do. The operands that a
fault leaves over are of no account. -/
theorem Program.exec_cons_spec (s : Stmt) (ss : List Stmt) (tokens : List Token) (m : Machine) :
    match s.change tokens m.vars m.tracing with
    | .ok c =>
      Program.exec ⟨s :: ss, tokens⟩ m =
        Program.exec ⟨ss, tokens⟩ { m.changed c with values := [] }
    | .error f =>
      ∃ vs, Program.exec ⟨s :: ss, tokens⟩ m = (.error f, { m with values := vs }) := by
  have hspec := s.exec_spec tokens { m with values := [] }
  rw [exec_cons]
  cases hc : s.change tokens m.vars m.tracing with
  | ok c =>
    simp only [hc] at hspec
    rw [hspec]
    rfl
  | error f =>
    simp only [hc] at hspec
    obtain ⟨vs, hvs⟩ := hspec
    exact ⟨vs, by rw [hvs]⟩

end Reckoner
