import Reckoner.Proofs.Consistency

/-!
# Transcripts only grow

Nothing that was written is taken back, whatever a program or a line does. The machine writes output
and never a diagnostic; diagnostics come from syntax errors, complaints and faults.
-/
namespace Reckoner

/-! ## Streams -/

namespace Transcript

@[simp] theorem select_append (origins : List Origin) (t t' : Transcript) :
    select origins (t ++ t') = select origins t ++ select origins t' := List.flatMap_append

theorem select_eq_nil {origins : List Origin} {t : Transcript}
    (h : ∀ e ∈ t, e.origin ∉ origins) : select origins t = [] := by
  refine List.flatMap_eq_nil_iff.mpr fun e he => ?_
  rw [if_neg (h e he)]

/-- What was written as a diagnostic stays written. -/
theorem diagnostics_ne_nil_of_prefix {t t' : Transcript} (h : t <+: t')
    (ht : t.diagnostics ≠ []) : t'.diagnostics ≠ [] := by
  obtain ⟨rest, rfl⟩ := h
  simp [diagnostics, select_append] at ht ⊢
  exact fun hnil => absurd hnil ht

end Transcript

/-! ## The machine -/

namespace Run
variable {α β : Type}

/-- A computation adds to the transcript, and no diagnostics. -/
def WritesOutput (x : Run α) : Prop :=
  ∀ m, ∃ es, (x m).2.transcript = m.transcript ++ es ∧ ∀ e ∈ es, e.origin ≠ .diagnostic

namespace WritesOutput

theorem of_eq {x : Run α} (h : ∀ m, (x m).2.transcript = m.transcript) : WritesOutput x :=
  fun m => ⟨[], by simp [h], by simp⟩

theorem bind {x : Run α} {f : α → Run β} (hx : WritesOutput x) (hf : ∀ a, WritesOutput (f a)) :
    WritesOutput (x >>= f) := by
  intro m
  obtain ⟨es, hes, horigins⟩ := hx m
  rw [Effect.bind_apply]
  rcases hrun : x m with ⟨e | a, m'⟩
  · rw [hrun] at hes
    exact ⟨es, hes, horigins⟩
  · rw [hrun] at hes
    obtain ⟨es', hes', horigins'⟩ := hf a m'
    refine ⟨es ++ es', ?_, List.forall_mem_append.mpr ⟨horigins, horigins'⟩⟩
    rw [← List.append_assoc, ← hes]
    exact hes'

theorem write {origin : Origin} (h : origin ≠ .diagnostic) (text : Text) :
    WritesOutput (Run.write origin text) :=
  fun m => ⟨[⟨origin, text⟩], rfl, by simpa using h⟩

theorem printLine (text : Text) : WritesOutput (Run.printLine text) := write (by decide) _

theorem debug (message : Text) : WritesOutput (Run.debug message) := by
  intro m
  rw [debug_apply]
  refine ⟨_, rfl, ?_⟩
  split <;> simp

theorem pop : WritesOutput Run.pop := by
  refine of_eq fun m => ?_
  rw [Run.pop, Effect.bind_apply, Effect.get_apply]
  cases h : m.values <;> simp [h]

theorem forM {f : α → Run Unit} (hf : ∀ a, WritesOutput (f a)) (as : List α) :
    WritesOutput (as.forM f) := by
  induction as with
  | nil => exact of_eq fun _ => rfl
  | cons a as ih => exact (hf a).bind fun _ => ih

end WritesOutput
end Run

open Run

theorem Expr.writesOutput_eval (tokens : List Token) (e : Expr) : WritesOutput (e.eval tokens) := by
  refine .of_eq fun m => ?_
  have hspec := e.eval_spec tokens m
  cases hmeaning : e.meaning tokens m.vars m.tracing with
  | ok v =>
    rw [hmeaning] at hspec
    rw [show e.eval tokens m = _ from hspec]
    rfl
  | error f =>
    rw [hmeaning] at hspec
    obtain ⟨vs, hvs⟩ := hspec
    rw [hvs]

theorem Expr.writesOutput_evalTexts (tokens : List Token) (es : List Expr) :
    WritesOutput (Expr.evalTexts tokens es) := by
  induction es with
  | nil => exact .of_eq fun _ => rfl
  | cons e es ih =>
    refine (e.writesOutput_eval tokens).bind fun _ => WritesOutput.pop.bind fun v => ?_
    exact ih.bind fun _ => .of_eq fun _ => rfl

namespace Stmt

theorem writesOutput_bind (name : Text) (v : Value) : WritesOutput (Stmt.bind name v) := by
  unfold Stmt.bind
  split
  · refine .bind (.of_eq fun _ => rfl) fun _ => .bind (.of_eq fun _ => rfl) fun _ => ?_
    exact .bind (.of_eq fun _ => rfl) fun _ => .write (by decide) _
  · exact (WritesOutput.debug _).bind fun _ => .of_eq fun _ => rfl

theorem writesOutput_inspect (tokens : List Token) (kind : Inspection) (s : Stmt) :
    WritesOutput (inspect tokens kind s) := by
  cases kind with
  | tree => exact .printLine _
  | tokens => exact .forM (fun _ => .printLine _) _
  | gui => exact .debug _
  | refactor =>
    rw [inspect]
    split
    · exact .printLine _
    · exact .of_eq fun _ => rfl

/-- A statement writes output only. -/
theorem writesOutput_exec (tokens : List Token) (s : Stmt) : WritesOutput (s.exec tokens) := by
  cases s with
  | assign name _ value =>
    refine (value.writesOutput_eval tokens).bind fun _ => ?_
    exact WritesOutput.pop.bind fun v => writesOutput_bind name.text v
  | print _ arg more =>
    exact (Expr.writesOutput_evalTexts tokens (arg :: more)).bind fun _ => .printLine _
  | expr e =>
    refine (e.writesOutput_eval tokens).bind fun _ => ?_
    exact WritesOutput.pop.bind fun _ => .printLine _
  | vars _ =>
    refine .bind (.of_eq fun _ => rfl) fun m => ?_
    exact .forM (fun _ => .write (by decide) _) _
  | block kind _ _ _ _ => exact writesOutput_inspect tokens kind _
  | wrap kind _ _ => exact writesOutput_inspect tokens kind _

end Stmt

/-- A program writes output only. -/
theorem Program.writesOutput_exec (p : Program) : WritesOutput p.exec :=
  .forM (fun s => .bind (.of_eq fun _ => rfl) fun _ => s.writesOutput_exec p.tokens) p.stmts

theorem Program.diagnostics_exec (p : Program) (m : Machine) :
    (p.exec m).2.transcript.diagnostics = m.transcript.diagnostics := by
  obtain ⟨es, hes, horigins⟩ := p.writesOutput_exec m
  have hnone : Transcript.diagnostics es = [] :=
    Transcript.select_eq_nil fun e he => by simpa using horigins e he
  rw [hes, Transcript.diagnostics, Transcript.select_append]
  rw [Transcript.diagnostics] at hnone ⊢
  rw [hnone, List.append_nil]

/-! ## Interpreters and sessions -/

namespace Interpreter
variable (i : Interpreter)

theorem transcript_reportAll (messages : List Text) :
    (i.reportAll messages).machine.transcript =
      i.machine.transcript ++ messages.map fun m => ⟨.diagnostic, diagnosticLine i.color m⟩ := by
  induction messages generalizing i with
  | nil => simp [reportAll]
  | cons m ms ih =>
    have : (i.report m).reportAll ms = i.reportAll (m :: ms) := rfl
    rw [← this, ih (i.report m)]
    simp [report, write]

theorem prefix_reportAll (messages : List Text) :
    i.machine.transcript <+: (i.reportAll messages).machine.transcript := by
  rw [transcript_reportAll]
  exact List.prefix_append _ _

/-- A complaint is never empty. -/
theorem diagnostics_reportAll_ne_nil {messages : List Text} (h : messages ≠ []) :
    (i.reportAll messages).machine.transcript.diagnostics ≠ [] := by
  obtain ⟨m, ms, rfl⟩ := List.exists_cons_of_ne_nil h
  rw [transcript_reportAll]
  simp [Transcript.diagnostics, Transcript.select, diagnosticLine, Text.line]

theorem prefix_exec (p : Program) : i.machine.transcript <+: (i.exec p).2.machine.transcript := by
  obtain ⟨es, hes, -⟩ := p.writesOutput_exec i.machine
  exact ⟨es, hes.symm⟩

theorem prefix_run (p : Program) : i.machine.transcript <+: (i.run p).2.machine.transcript := by
  have hcheck : i.machine.transcript <+: (i.check p).2.machine.transcript :=
    prefix_reportAll { i with checker := (p.check i.checker).2 } _
  rw [run]
  generalize i.check p = c at hcheck
  obtain ⟨_ | _ | _, j⟩ := c
  · exact hcheck
  · exact hcheck
  · have hexec := hcheck.trans (j.prefix_exec p)
    simp only
    generalize j.exec p = r at hexec
    obtain ⟨outcome, k⟩ := r
    have hreport (f : Fault) : k.machine.transcript <+: (k.report f.text).machine.transcript :=
      List.prefix_append _ _
    cases outcome with
    | ok _ => exact hexec
    | error f =>
      cases f with
      | defect d => exact hexec
      | runtime e => exact hexec.trans (hreport _)
      | overlap o => exact hexec.trans (hreport _)

end Interpreter

namespace Session
variable (s : Session)

theorem prefix_write (origin : Origin) (text : Text) :
    s.transcript <+: (s.write origin text).transcript := List.prefix_append _ _

theorem prefix_enter (text : Text) : s.transcript <+: (s.enter text).transcript := by
  have htrace := s.prefix_write .trace
    (Step.traces s.interpreter.machine.tracing.toTraceFlags (parseEntry text).log)
  have hrun := (s.interpreter.trace (parseEntry text).log).prefix_run (parseEntry text).program
  rw [enter_eq]
  dsimp only
  split
  · generalize (s.interpreter.trace (parseEntry text).log).run (parseEntry text).program = ran
      at hrun ⊢
    exact htrace.trans hrun
  · split
    · split
      · exact htrace
      · unfold log
        split
        · exact htrace.trans (prefix_write _ _ _)
        · exact htrace
    · exact htrace.trans (Interpreter.prefix_reportAll _ _)

/-- A line takes nothing back. -/
theorem prefix_feed (line : Text) : s.transcript <+: (s.feed line).2.transcript := by
  rw [feed]
  split
  · exact s.prefix_write _ _
  · simp only
    split
    · exact List.prefix_refl _
    · split
      · exact List.prefix_refl _
      · exact s.prefix_enter _

theorem prefix_fed (lines : List Text) : s.transcript <+: (s.fed lines).transcript := by
  induction lines generalizing s with
  | nil => exact List.prefix_refl _
  | cons line lines ih => exact (s.prefix_feed line).trans (ih (s.feed line).2)

end Session

end Reckoner
