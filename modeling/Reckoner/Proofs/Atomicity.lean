import Reckoner.Parser
import Reckoner.Proofs.Outcomes

/-!
# A statement fails as a whole

A program that stops with a fault has done what the statements before the failing one do, and
nothing else: `Program.exec_fault`. All that is left of the failing statement are operands on the
stack. Every program and every expression begins by clearing these away, so that two machines that
differ in them only cannot be told apart by what they are asked to do later.
-/
namespace Reckoner

/-! ## Machines that differ in their operands -/

namespace Machine

/-- Two machines are the same but for the operands on their stacks. -/
def SameButOperands (m m' : Machine) : Prop :=
  m'.vars = m.vars ∧ m'.tracing = m.tracing ∧ m'.transcript = m.transcript

namespace SameButOperands
variable {m m' : Machine}

theorem refl (m : Machine) : m.SameButOperands m := ⟨rfl, rfl, rfl⟩

theorem of_values (m : Machine) (vs : List Value) : m.SameButOperands { m with values := vs } :=
  ⟨rfl, rfl, rfl⟩

/-- Nothing else is left once the operands are cleared away. -/
theorem cleared (h : m.SameButOperands m') :
    ({ m' with values := [] } : Machine) = { m with values := [] } := by
  obtain ⟨hvars, htracing, htranscript⟩ := h
  rw [hvars, htracing, htranscript]

end SameButOperands
end Machine

/-- Something that a machine is asked to do. -/
inductive Call where
  | exec (p : Program)
  | value (tokens : List Token) (e : Expr)

namespace Call

/-- Does what is asked for. A program has no value, an expression has one. -/
def run : Call → Run (Option Value)
  | exec p => do
    p.exec
    return none
  | value tokens e => return some (← e.value tokens)

/-- The answers to some calls, one after the other, and the machine after them. -/
def answers (m : Machine) : List Call → List (Except Fault (Option Value)) × Machine
  | [] => ([], m)
  | c :: cs =>
    let (answer, m) := c.run m
    let (rest, m) := answers m cs
    (answer :: rest, m)

variable {m m' : Machine}

/-- What a call does, it does to a machine without operands. -/
theorem run_sameButOperands (h : m.SameButOperands m') (c : Call) :
    (c.run m').1 = (c.run m).1 ∧ (c.run m).2.SameButOperands (c.run m').2 := by
  cases c with
  | exec p =>
    obtain ⟨ss, tokens⟩ := p
    cases ss with
    | nil => exact ⟨rfl, h⟩
    | cons s ss =>
      have hrun : run (.exec ⟨s :: ss, tokens⟩) m' = run (.exec ⟨s :: ss, tokens⟩) m := by
        simp only [run, Effect.bind_apply, Program.exec_cons, h.cleared]
      rw [hrun]
      exact ⟨rfl, .refl _⟩
  | value tokens e =>
    have hrun : run (.value tokens e) m' = run (.value tokens e) m := by
      simp only [run, Expr.value, Effect.bind_apply, Run.clear, Effect.modify_apply, h.cleared]
    rw [hrun]
    exact ⟨rfl, .refl _⟩

theorem answers_sameButOperands (h : m.SameButOperands m') (cs : List Call) :
    (answers m' cs).1 = (answers m cs).1 ∧
      (answers m cs).2.SameButOperands (answers m' cs).2 := by
  induction cs generalizing m m' with
  | nil => exact ⟨rfl, h⟩
  | cons c cs ih =>
    obtain ⟨hanswer, hnext⟩ := run_sameButOperands h c
    obtain ⟨hrest, hlast⟩ := ih hnext
    exact ⟨List.cons_eq_cons.mpr ⟨hanswer, hrest⟩, hlast⟩

end Call

/-! ## The failing statement -/

/-- The statement at which a program stops with a fault. -/
theorem Program.exists_failing {ss : List Stmt} {tokens : List Token} {m m' : Machine} {f : Fault}
    (h : Program.exec ⟨ss, tokens⟩ m = (.error f, m')) :
    ∃ before s after m₀, ss = before ++ s :: after ∧
      Program.exec ⟨before, tokens⟩ m = (.ok (), m₀) ∧
      Program.exec ⟨[s], tokens⟩ m₀ = (.error f, m') ∧ m₀.SameButOperands m' := by
  induction ss generalizing m with
  | nil => cases h
  | cons s ss ih =>
    have hstep := Program.exec_cons s ss tokens m
    rw [h] at hstep
    rcases hexec : s.exec tokens { m with values := [] } with ⟨_ | _, m₁⟩
    · -- The first statement fails, and leaves nothing but operands.
      rw [hexec] at hstep
      cases hstep
      refine ⟨[], s, ss, m, rfl, rfl, by rw [Program.exec_cons, hexec], ?_⟩
      have hspec := s.exec_spec tokens { m with values := [] }
      rw [hexec] at hspec
      cases hc : s.change tokens m.vars m.tracing with
      | ok c =>
        rw [hc] at hspec
        cases hspec
      | error f' =>
        rw [hc] at hspec
        obtain ⟨vs, hvs⟩ := hspec
        cases hvs
        exact .of_values m vs
    · rw [hexec] at hstep
      obtain ⟨before, s', after, m₀, rfl, hbefore, hfailing, hsame⟩ := ih hstep.symm
      refine ⟨s :: before, s', after, m₀, rfl, ?_, hfailing, hsame⟩
      rw [Program.exec_cons, hexec]
      exact hbefore

/-- If a program stops with a fault, then at one of its statements. Those before it run to their end
on their own, and leave the same variables in the same order, the same tracing and the same
transcript as the whole program does; so the failing statement binds nothing, switches nothing and
writes nothing, and no other runs. The operands that it leaves on the stack make no difference to
anything that the machine is asked to do later. -/
theorem Program.exec_fault (p : Program) {m m' : Machine} {f : Fault}
    (h : p.exec m = (.error f, m')) :
    ∃ before s after m₀, p.stmts = before ++ s :: after ∧
      Program.exec ⟨before, p.tokens⟩ m = (.ok (), m₀) ∧
      Program.exec ⟨[s], p.tokens⟩ m₀ = (.error f, m') ∧
      (m'.vars = m₀.vars ∧ m'.tracing = m₀.tracing ∧ m'.transcript = m₀.transcript) ∧
      ∀ cs, (Call.answers m' cs).1 = (Call.answers m₀ cs).1 ∧
        (Call.answers m₀ cs).2.SameButOperands (Call.answers m' cs).2 := by
  obtain ⟨before, s, after, m₀, hstmts, hbefore, hfailing, hsame⟩ := exists_failing h
  exact ⟨before, s, after, m₀, hstmts, hbefore, hfailing, hsame,
    Call.answers_sameButOperands hsame⟩

theorem Program.exec_fault_printing :
    let p := (parseProgram "x = 'a' y = true print x ('b' == (x < y)) print 'z'").program
    let m : Machine := { values := [⟨.boolean true, ⟨1, 0⟩⟩] }
    ∃ f before s after m₀ m', p.exec m = (.error f, m') ∧
      m'.vars.keys = (["x", "y"] : List Text) ∧ m'.transcript = [] ∧ m'.values.length = 1 ∧
      p.stmts = before ++ s :: after ∧
      Program.exec ⟨before, p.tokens⟩ m = (.ok (), m₀) ∧
      Program.exec ⟨[s], p.tokens⟩ m₀ = (.error f, m') ∧ m'.vars = m₀.vars ∧
      ∀ cs, (Call.answers m' cs).1 = (Call.answers m₀ cs).1 := by
  intro p m
  have hfails : (p.exec m).1.toOption = none := by decide +kernel
  have hkeys : (p.exec m).2.vars.keys = (["x", "y"] : List Text) := by decide +kernel
  have htranscript : (p.exec m).2.transcript = [] := by decide +kernel
  have hvalues : (p.exec m).2.values.length = 1 := by decide +kernel
  rcases h : p.exec m with ⟨f | _, m'⟩
  · obtain ⟨before, s, after, m₀, hstmts, hbefore, hfailing, hsame, hlater⟩ := exec_fault p h
    rw [h] at hkeys htranscript hvalues
    exact ⟨f, before, s, after, m₀, m', rfl, hkeys, htranscript, hvalues, hstmts, hbefore,
      hfailing, hsame.1, fun cs => (hlater cs).1⟩
  · rw [h] at hfails
    cases hfails

end Reckoner
