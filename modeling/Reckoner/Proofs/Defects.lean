import Reckoner.Proofs.Consistency

/-!
# The interpreter is never at fault

A runtime error is the fault of the program; a defect, or edits that cannot be resolved, would be
that of the interpreter. No input makes the interpreter stop with one of these. That holds of
programs that were checked, of programs that were not, and of what was recovered from a text with
syntax errors: the machine tests its operands itself and pops only what it has pushed, the checker
asks for the order of types only where there is one, and the tokens of the statements are those of
the source at the same numbers.
-/
namespace Reckoner

namespace Fault
variable {α β : Type}

/-- The interpreter is not to blame for an outcome: it is a result or a runtime error. -/
def Blameless : Except Fault α → Prop
  | .ok _ | .error (.runtime _) => True
  | .error (.overlap _) | .error (.defect _) => False

@[simp] theorem blameless_ok (a : α) : Blameless (.ok a) := trivial

@[simp] theorem blameless_runtime (e : RuntimeError) :
    Blameless (.error (.runtime e) : Except Fault α) := trivial

theorem Blameless.bind {o : Except Fault α} {f : α → Except Fault β} (h : Blameless o)
    (hf : ∀ a, Blameless (f a)) : Blameless (o >>= f) := by
  cases o with
  | ok a => exact hf a
  | error e =>
    cases e with
    | runtime e => exact blameless_runtime e
    | overlap _ | defect _ => exact absurd h id

theorem Blameless.cases {o : Except Fault α} (h : Blameless o) :
    (∃ a, o = .ok a) ∨ ∃ e, o = .error (.runtime e) := by
  rcases o with (e | _ | _) | a
  · exact .inr ⟨e, rfl⟩
  · exact absurd h id
  · exact absurd h id
  · exact .inl ⟨a, rfl⟩

end Fault

open Fault

/-! ## Expressions -/

namespace Run

theorem blameless_numberOf (tokens : List Token) (operand : Expr) (v : Value) :
    Blameless (numberOf tokens operand v) := by
  unfold numberOf
  split <;> simp

theorem blameless_booleanOf (tokens : List Token) (operand : Expr) (v : Value) :
    Blameless (booleanOf tokens operand v) := by
  unfold booleanOf
  split <;> simp

end Run

/-- A comparison is made in the way that its relation asks for. -/
theorem Relation.blameless_apply (r : Relation) (u v : Value) : Blameless (r.apply u v) := by
  obtain ⟨d, p⟩ := u
  obtain ⟨d', p'⟩ := v
  cases r <;> cases d <;> cases d' <;>
    simp [Relation.apply, Relation.isEquality, Value.equals, Value.compare]

namespace Setting

theorem blameless_read {name : Text} (h : isReserved name) (place : Place) (t : Tracing) :
    Blameless (read name place t) := by
  obtain ⟨s, hs⟩ := Option.isSome_iff_exists.mp h
  simp [read, hs]

theorem blameless_assign {name : Text} (h : isReserved name) (v : Value) (t : Tracing) :
    Blameless (assign name v t) := by
  obtain ⟨s, hs⟩ := Option.isSome_iff_exists.mp h
  unfold assign
  rw [hs]
  cases v.datum <;> simp

end Setting

open Run

namespace Expr

/-- An expression has a value or fails for a reason of its own, whatever its operands are. -/
theorem blameless_meaning (tokens : List Token) (vars : Scope Value) (tracing : Tracing)
    (e : Expr) : Blameless (e.meaning tokens vars tracing) := by
  induction e with
  | literal t => exact blameless_ok t.value
  | identifier t =>
    rw [meaning]
    split
    · next hr => exact Setting.blameless_read hr _ _
    · split <;> simp
  | paren _ inner _ ih => exact ih
  | unary op sign operand ih =>
    cases op with
    | not =>
      refine ih.bind fun v => (blameless_booleanOf tokens operand v).bind fun b => ?_
      exact blameless_ok _
    | negate =>
      refine ih.bind fun v => (blameless_numberOf tokens operand v).bind fun x => ?_
      exact blameless_ok _
  | binary op left sign right ihl ihr =>
    rcases op with op | r | op
    · refine ihl.bind fun u => ihr.bind fun v => ?_
      refine (blameless_numberOf tokens left u).bind fun x => ?_
      exact (blameless_numberOf tokens right v).bind fun y => blameless_ok _
    · refine ihl.bind fun u => ihr.bind fun v => ?_
      exact (r.blameless_apply u v).bind fun result => blameless_ok _
    · refine ihl.bind fun u => (blameless_booleanOf tokens left u).bind fun b => ?_
      by_cases hd : op.decidedBy b
      · simp [hd]
      · rw [if_neg hd]
        refine ihr.bind fun v => (blameless_booleanOf tokens right v).bind fun c => ?_
        exact blameless_ok _
  | ternary condition question thenExpr colon elseExpr ihc iht ihe =>
    refine ihc.bind fun u => (blameless_booleanOf tokens condition u).bind fun b => ?_
    cases b with
    | true => exact iht
    | false => exact ihe

/-- The machine pushes the value of an expression, or stops with a runtime error. -/
theorem eval_cases (tokens : List Token) (e : Expr) (m : Machine) :
    (∃ v, e.eval tokens m = (.ok (), m.pushed v)) ∨
      ∃ err m', e.eval tokens m = (.error (.runtime err), m') := by
  have hspec := e.eval_spec tokens m
  rcases (e.blameless_meaning tokens m.vars m.tracing).cases with ⟨v, hv⟩ | ⟨err, herr⟩
  · rw [hv] at hspec
    exact .inl ⟨v, hspec⟩
  · rw [herr] at hspec
    obtain ⟨vs, hvs⟩ := hspec
    exact .inr ⟨err, _, hvs⟩

theorem blameless_evalTexts (tokens : List Token) (es : List Expr) (m : Machine) :
    Blameless (evalTexts tokens es m).1 := by
  induction es with
  | nil => exact blameless_ok []
  | cons e es ih =>
    rcases e.eval_cases tokens m with ⟨v, hv⟩ | ⟨err, m', herr⟩
    · rcases h : evalTexts tokens es m with ⟨o, m'⟩
      rw [h] at ih
      rcases ih.cases with ⟨text, rfl⟩ | ⟨err, rfl⟩ <;> simp [evalTexts, hv, h]
    · simp [evalTexts, herr]

end Expr

/-! ## Statements and programs -/

namespace Stmt

theorem blameless_bind (name : Text) (v : Value) (m : Machine) :
    Blameless (Stmt.bind name v m).1 := by
  by_cases hr : isReserved name
  · rcases (Setting.blameless_assign hr v m.tracing).cases with ⟨⟨t, c⟩, h⟩ | ⟨err, h⟩ <;>
      simp [Stmt.bind, hr, h]
  · simp [bind_apply hr]

/-- A statement runs to its end or stops with a runtime error, on every machine. -/
theorem blameless_exec {s : Stmt} (h : Token.Ordered s.tokens) (tokens : List Token)
    (m : Machine) : Blameless (s.exec tokens m).1 := by
  cases s with
  | assign name equals value =>
    rcases value.eval_cases tokens m with ⟨v, hv⟩ | ⟨err, m', herr⟩
    · simpa [exec, hv] using blameless_bind name.text v m
    · simp [exec, herr]
  | print keyword arg more =>
    have hargs := Expr.blameless_evalTexts tokens (arg :: more) m
    rcases ht : Expr.evalTexts tokens (arg :: more) m with ⟨o, m'⟩
    rw [ht] at hargs
    rcases hargs.cases with ⟨text, rfl⟩ | ⟨err, rfl⟩ <;> simp [exec, ht]
  | expr e =>
    rcases e.eval_cases tokens m with ⟨v, hv⟩ | ⟨err, m', herr⟩
    · simp [exec, hv]
    · simp [exec, herr]
  | vars keyword =>
    have hw := forM_apply (fun p m => write_apply .program (varLine p.1 p.2) m) m.vars.bindings m
    simp only [exec, Effect.bind_apply, Effect.get_apply, hw, blameless_ok]
  | block kind keyword opening body closing =>
    obtain ⟨es, hes⟩ := inspect_eq_ok h tokens kind m
    simp [exec, hes]
  | wrap kind keyword inner =>
    obtain ⟨es, hes⟩ := inspect_eq_ok h tokens kind m
    simp [exec, hes]

end Stmt

/-- A program in source order runs to its end or stops with a runtime error, on every machine. -/
theorem Program.blameless_exec {p : Program} (h : Token.Ordered (Stmt.tokensOf p.stmts))
    (m : Machine) : Blameless (p.exec m).1 := by
  obtain ⟨ss, tokens⟩ := p
  induction ss generalizing m with
  | nil => exact blameless_ok ()
  | cons s ss ih =>
    obtain ⟨hs, hss, -⟩ := List.pairwise_append.mp h
    have hstep := Stmt.blameless_exec hs tokens { m with values := [] }
    rw [exec_cons]
    rcases hexec : s.exec tokens { m with values := [] } with ⟨o, m'⟩
    rw [hexec] at hstep
    rcases hstep.cases with ⟨_, rfl⟩ | ⟨e, rfl⟩
    · exact ih m' hss
    · exact blameless_runtime e

/-! ## Interpreters and sessions -/

namespace Interpreter

/-- A program that is run ends, is rejected by the checker, or stops with a runtime error. -/
theorem run_cases {i : Interpreter} (hstack : i.checker.stack = []) {p : Program}
    (h : Token.Ordered (Stmt.tokensOf p.stmts)) :
    (i.run p).1 = .ok () ∨ (i.run p).1 = .error .invalid ∨
      ∃ e, (i.run p).1 = .error (.fault (.runtime e)) := by
  obtain ⟨houtcome, -, -⟩ := check_eq hstack p
  rcases hc : i.check p with ⟨outcome, j⟩
  rw [hc] at houtcome
  subst houtcome
  cases hd : (p.checked i.checker).diagnostics.isEmpty with
  | false =>
    refine .inr (.inl ?_)
    simp [run, hc, hd]
  | true =>
    have hexec : Blameless (j.exec p).1 := Program.blameless_exec h j.machine
    rcases he : j.exec p with ⟨outcome, k⟩
    rw [he] at hexec
    rcases hexec.cases with ⟨_, rfl⟩ | ⟨e, rfl⟩
    · refine .inl ?_
      simp [run, hc, hd, he]
    · refine .inr (.inr ⟨e, ?_⟩)
      simp [run, hc, hd, he]

theorem stack_runSource {i : Interpreter} (hstack : i.checker.stack = []) (source : Text) :
    (i.runSource source).2.checker.stack = [] := by
  by_cases hp : (parseProgram source).errors.isEmpty
  · simp [runSource_eq, hp, reset, Checker.reset]
  · simpa [runSource_eq, hp, trace] using hstack

/-- The outcome of a text that is run as a program. -/
theorem runSource_cases {i : Interpreter} (hstack : i.checker.stack = []) (source : Text) :
    (i.runSource source).1 = .ok () ∨
      (∃ es, (i.runSource source).1 = .error (.syntaxErrors es)) ∨
      (i.runSource source).1 = .error .invalid ∨
      ∃ e, (i.runSource source).1 = .error (.fault (.runtime e)) := by
  have hrun := run_cases (i := i.trace (parseProgram source).log) hstack
    (Parser.ordered_readSource .program source)
  by_cases hp : (parseProgram source).errors.isEmpty
  · simp only [runSource_eq, hp, if_true]
    exact hrun.imp_right .inr
  · refine .inr (.inl ⟨(parseProgram source).errors, ?_⟩)
    simp [runSource_eq, hp]

end Interpreter

namespace Session

/-- What can be done with a session and its interpreter. -/
inductive Action where
  /-- Feeds a line to the session. -/
  | feed (line : Text)
  /-- Reads a text as a program and runs it. -/
  | run (source : Text)
  /-- Runs the statements that were read from a text, with or without syntax errors, and without
  checking them. -/
  | exec (rule : Rule) (source : Text)

/-- The session after an action. -/
def act (s : Session) : Action → Session
  | .feed line => (s.feed line).2
  | .run source => { s with interpreter := (s.interpreter.runSource source).2 }
  | .exec rule source =>
    { s with
      interpreter := (s.interpreter.exec ((Parser.ofText source).readSource rule).1.program).2 }

/-- The session after some actions. -/
def acted (s : Session) (actions : List Action) : Session := actions.foldl act s

/-- An action leaves no types on the stack of the checker. -/
theorem stack_act {s : Session} (h : s.interpreter.checker.stack = []) (a : Action) :
    (s.act a).interpreter.checker.stack = [] := by
  cases a with
  | feed line =>
    cases he : s.ready? line with
    | none =>
      rw [act, (feed_of_ready?_eq_none he).1]
      exact h
    | some parsed =>
      rw [act, feed_of_ready?_eq_some he]
      rfl
  | run source => exact Interpreter.stack_runSource h source
  | exec rule source => exact h

theorem stack_acted {s : Session} (h : s.interpreter.checker.stack = []) (actions : List Action) :
    (s.acted actions).interpreter.checker.stack = [] := by
  induction actions generalizing s with
  | nil => exact h
  | cons a actions ih => exact ih (stack_act h a)

theorem outcome?_cases {s : Session} (h : s.interpreter.checker.stack = []) (line : Text) :
    s.outcome? line = none ∨ s.outcome? line = some (.ok ()) ∨
      s.outcome? line = some (.error .invalid) ∨
      ∃ e, s.outcome? line = some (.error (.fault (.runtime e))) := by
  cases he : s.ready? line with
  | none =>
    refine .inl ?_
    rw [outcome?, he, Option.map_none]
  | some parsed =>
    have hrun := Interpreter.run_cases (i := s.interpreter.trace parsed.log) h
      (ordered_of_ready?_eq_some he)
    rw [outcome?, he, Option.map_some]
    refine .inr ?_
    simpa only [Option.some.injEq] using hrun

/-- No input makes the interpreter stop with a fault of its own. After any actions from the
beginning of a session, every line completes no entry, or one that ends, is rejected or stops with a
runtime error; the same goes for every text that is run as a program. The statements of any text can
be checked, and run without a check, in the same way. Their tokens stand in source order and each is
the token of the source with its number, so that ranges between them lie inside the source. -/
theorem acted_fresh_blameless (options : SessionOptions) (tracing : Tracing)
    (color logging : Bool) (actions : List Action) :
    let s := (fresh options tracing color logging).acted actions
    (∀ line, s.outcome? line = none ∨ s.outcome? line = some (.ok ()) ∨
      s.outcome? line = some (.error .invalid) ∨
      ∃ e, s.outcome? line = some (.error (.fault (.runtime e)))) ∧
    (∀ source, (s.interpreter.runSource source).1 = .ok () ∨
      (∃ es, (s.interpreter.runSource source).1 = .error (.syntaxErrors es)) ∨
      (s.interpreter.runSource source).1 = .error .invalid ∨
      ∃ e, (s.interpreter.runSource source).1 = .error (.fault (.runtime e))) ∧
    ∀ rule source,
      let p := ((Parser.ofText source).readSource rule).1.program
      (∃ valid, (s.interpreter.check p).1 = .ok valid) ∧
      ((s.interpreter.exec p).1 = .ok () ∨
        ∃ e, (s.interpreter.exec p).1 = .error (.runtime e)) ∧
      Token.Ordered (Stmt.tokensOf p.stmts) ∧
      ∀ t ∈ Stmt.tokensOf p.stmts, p.tokens[t.index]? = some t := by
  intro s
  have hstack : s.interpreter.checker.stack = [] := stack_acted rfl actions
  refine ⟨outcome?_cases hstack, Interpreter.runSource_cases hstack, fun rule source => ?_⟩
  intro p
  have hordered := Parser.ordered_readSource rule source
  refine ⟨⟨_, (Interpreter.check_eq hstack p).1⟩, ?_, hordered, fun t ht => ?_⟩
  · have hexec := Program.blameless_exec hordered s.interpreter.machine
    exact hexec.cases.imp_left fun ⟨_, h⟩ => h
  · exact Parser.getElem?_tokens_readSource rule source ht

end Session
end Reckoner
