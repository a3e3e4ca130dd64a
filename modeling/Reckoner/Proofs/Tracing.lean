import Reckoner.Proofs.Entries
import Reckoner.Proofs.Transcripts

/-!
# Tracing does not change results

Two sessions that trace different steps, and are otherwise the same, stay the same but for their
traces, as long as no text that they read mentions a setting: `Session.fed_retraced`. Listening to
the parser does not change what is read, and a program that does not mention a setting neither sees
nor changes what is traced.

The two runs are carried side by side. What is compared of their transcripts is a parameter, so that
the same lemmas serve for two sessions of which one reads its input more often than the other.
-/
namespace Reckoner

/-! ## Machines side by side -/

/-- How two runs are compared: which entries of their transcripts count, and what each of them
traces. The trace of a parse does not count in either. -/
structure Comparison where
  keep : Entry → Bool
  here : Tracing
  there : Tracing
  debug : there.debug = here.debug
  unseen : ∀ log, keep ⟨.trace, Step.traces here.toTraceFlags log⟩ = false
  unseen' : ∀ log, keep ⟨.trace, Step.traces there.toTraceFlags log⟩ = false

/-- Two machines that hold the same, and have written the same as far as it counts. -/
structure Machine.Twins (c : Comparison) (m m' : Machine) : Prop where
  values : m'.values = m.values
  vars : m'.vars = m.vars
  here : m.tracing = c.here
  there : m'.tracing = c.there
  transcript : m'.transcript.filter c.keep = m.transcript.filter c.keep

namespace Machine.Twins
variable {c : Comparison} {m m' : Machine} (h : m.Twins c m')
include h

/-- What both machines write keeps them twins. -/
theorem wrote (es : List Entry) : (m.wrote es).Twins c (m'.wrote es) where
  values := h.values
  vars := h.vars
  here := h.here
  there := h.there
  transcript := by
    rw [Machine.wrote, Machine.wrote, List.filter_append, List.filter_append, h.transcript]

/-- So does what only one of them writes, if it does not count. -/
theorem wrote_left {es : List Entry} (hes : es.filter c.keep = []) : (m.wrote es).Twins c m' where
  values := h.values
  vars := h.vars
  here := h.here
  there := h.there
  transcript := by rw [Machine.wrote, List.filter_append, hes, List.append_nil, h.transcript]

end Machine.Twins

namespace Run

/-- A computation does the same on machines that are twins, and leaves them so. -/
def Blind (c : Comparison) {α : Type} (x : Run α) : Prop :=
  ∀ m m', m.Twins c m' → (x m').1 = (x m).1 ∧ (x m).2.Twins c (x m').2

namespace Blind
variable {c : Comparison} {α β : Type}

theorem pure (a : α) : Blind c (pure a : Run α) := fun _ _ h => ⟨rfl, h⟩

theorem throw (f : Fault) : Blind c (throw f : Run α) := fun _ _ h => ⟨rfl, h⟩

theorem lift (x : Except Fault α) : Blind c (liftM x : Run α) := fun _ _ h => ⟨rfl, h⟩

theorem bind {x : Run α} {f : α → Run β} (hx : Blind c x) (hf : ∀ a, Blind c (f a)) :
    Blind c (x >>= f) := by
  intro m m' h
  obtain ⟨hout, htwins⟩ := hx m m' h
  rw [Effect.bind_apply, Effect.bind_apply]
  rcases hrun : x m with ⟨o, n⟩
  rcases hrun' : x m' with ⟨o', n'⟩
  rw [hrun, hrun'] at hout htwins
  obtain rfl : o' = o := hout
  cases o' with
  | error e => exact ⟨rfl, htwins⟩
  | ok a => exact hf a n n' htwins

theorem ite {p : Prop} [Decidable p] {x y : Run α} (hx : Blind c x) (hy : Blind c y) :
    Blind c (if p then x else y) := by
  split
  · exact hx
  · exact hy

/-- The variables may be looked at. -/
theorem get_vars {f : Machine → Run α} (hvars : ∀ m m', m'.vars = m.vars → f m' = f m)
    (hf : ∀ m, Blind c (f m)) : Blind c (get >>= f) := by
  intro m m' h
  rw [Effect.bind_apply, Effect.bind_apply, Effect.get_apply, Effect.get_apply]
  simp only [hvars m m' h.vars]
  exact hf m m m' h

theorem push (v : Value) : Blind c (Run.push v) :=
  fun _ _ h => ⟨rfl, { h with values := congrArg (List.cons v) h.values }⟩

theorem pop : Blind c Run.pop := by
  intro m m' h
  rw [Run.pop, Effect.bind_apply, Effect.bind_apply, Effect.get_apply, Effect.get_apply]
  simp only [h.values]
  cases m.values with
  | nil => exact ⟨rfl, h⟩
  | cons v vs => exact ⟨rfl, { h with values := rfl }⟩

theorem clear : Blind c Run.clear := fun _ _ h => ⟨rfl, { h with values := rfl }⟩

theorem write (origin : Origin) (text : Text) : Blind c (Run.write origin text) :=
  fun _ _ h => ⟨rfl, h.wrote [⟨origin, text⟩]⟩

theorem printLine (text : Text) : Blind c (Run.printLine text) := write _ _

theorem set (name : Text) (v : Value) :
    Blind c (modify fun m => { m with vars := m.vars.set name v } : Run Unit) :=
  fun _ _ h => ⟨rfl, { h with vars := congrArg (Scope.set · name v) h.vars }⟩

theorem debug (message : Text) : Blind c (Run.debug message) := by
  intro m m' h
  have hsame : m'.tracing.debug = m.tracing.debug := by rw [h.here, h.there, c.debug]
  rw [debug_apply, debug_apply, hsame]
  exact ⟨rfl, h.wrote _⟩

theorem forM {f : α → Run Unit} {as : List α} (hf : ∀ a ∈ as, Blind c (f a)) :
    Blind c (as.forM f) := by
  induction as with
  | nil => exact pure ()
  | cons a as ih =>
    rw [List.forall_mem_cons] at hf
    exact hf.1.bind fun _ => ih hf.2

section
variable (tokens : List Token) (operand : Expr) (v : Value)

theorem requireNumber : Blind c (Run.requireNumber tokens operand v) := by
  unfold Run.requireNumber
  split
  · exact pure _
  · exact throw _

theorem requireBoolean : Blind c (Run.requireBoolean tokens operand v) := by
  unfold Run.requireBoolean
  split
  · exact pure _
  · exact throw _

end

end Blind
end Run

/-! ## Programs that mention no setting -/

/-- No token is the name of a setting. -/
def Unreserved (ts : List Token) : Prop := ∀ t ∈ ts, isReserved t.text = false

instance (ts : List Token) : Decidable (Unreserved ts) :=
  inferInstanceAs (Decidable (∀ t ∈ ts, isReserved t.text = false))

@[simp] theorem unreserved_cons {t : Token} {ts : List Token} :
    Unreserved (t :: ts) ↔ isReserved t.text = false ∧ Unreserved ts :=
  List.forall_mem_cons

@[simp] theorem unreserved_append {ts us : List Token} :
    Unreserved (ts ++ us) ↔ Unreserved ts ∧ Unreserved us :=
  List.forall_mem_append

open Run

section
variable {c : Comparison} (tokens : List Token)

/-- An expression that mentions no setting does not see what is traced. -/
theorem Expr.blind_eval (e : Expr) (h : Unreserved e.tokens) : Blind c (e.eval tokens) := by
  induction e with
  | literal t => exact .push _
  | identifier t =>
    have ht : isReserved t.text = false := h t List.mem_cons_self
    rw [eval, if_neg (by simp [ht])]
    refine .get_vars (fun m m' hvars => by rw [hvars]) fun m => ?_
    cases m.vars.get? t.text with
    | some v => exact .push v
    | none => exact .throw _
  | paren opening inner closing ih =>
    rw [Expr.tokens, List.cons_append, unreserved_cons, unreserved_append] at h
    exact ih h.2.1
  | unary op sign operand ih =>
    rw [Expr.tokens, unreserved_cons] at h
    refine (ih h.2).bind fun _ => Blind.pop.bind fun v => ?_
    cases op with
    | not => exact (Blind.requireBoolean tokens operand v).bind fun b => .push _
    | negate => exact (Blind.requireNumber tokens operand v).bind fun x => .push _
  | binary op left sign right ihl ihr =>
    rw [Expr.tokens, unreserved_append, unreserved_cons] at h
    have hl := ihl h.1
    have hr := ihr h.2.2
    cases op with
    | arith op =>
      refine hl.bind fun _ => hr.bind fun _ => Blind.pop.bind fun v => Blind.pop.bind fun u => ?_
      refine (Blind.requireNumber tokens left u).bind fun x => ?_
      exact (Blind.requireNumber tokens right v).bind fun y => .push _
    | relation r =>
      refine hl.bind fun _ => hr.bind fun _ => Blind.pop.bind fun v => Blind.pop.bind fun u => ?_
      exact (Blind.lift (r.apply u v)).bind fun result => .push _
    | logic op =>
      refine hl.bind fun _ => Blind.pop.bind fun u => ?_
      refine (Blind.requireBoolean tokens left u).bind fun b => .ite (.push _) ?_
      refine hr.bind fun _ => Blind.pop.bind fun v => ?_
      exact (Blind.requireBoolean tokens right v).bind fun d => .push _
  | ternary condition question thenExpr colon elseExpr ihc iht ihe =>
    simp only [Expr.tokens, unreserved_append, unreserved_cons] at h
    obtain ⟨⟨hcondition, -, hthen⟩, -, helse⟩ := h
    refine (ihc hcondition).bind fun _ => Blind.pop.bind fun v => ?_
    exact (Blind.requireBoolean tokens condition v).bind fun b => .ite (iht hthen) (ihe helse)

theorem Expr.blind_evalTexts {es : List Expr} (h : Unreserved (es.flatMap Expr.tokens)) :
    Blind c (Expr.evalTexts tokens es) := by
  induction es with
  | nil => exact .pure _
  | cons e es ih =>
    rw [List.flatMap_cons, unreserved_append] at h
    refine (e.blind_eval tokens h.1).bind fun _ => Blind.pop.bind fun v => ?_
    exact (ih h.2).bind fun text => .pure _

namespace Stmt

theorem blind_inspect (kind : Inspection) (s : Stmt) : Blind c (inspect tokens kind s) := by
  cases kind with
  | tree => exact .printLine _
  | tokens => exact .forM fun _ _ => .printLine _
  | gui => exact .debug _
  | refactor =>
    rw [inspect]
    split
    · exact .printLine _
    · exact .throw _

/-- A statement that mentions no setting neither sees nor changes what is traced. -/
theorem blind_exec (s : Stmt) (h : Unreserved s.tokens) : Blind c (s.exec tokens) := by
  cases s with
  | assign name equals value =>
    rw [Stmt.tokens, unreserved_cons, unreserved_cons] at h
    refine (value.blind_eval tokens h.2.2).bind fun _ => Blind.pop.bind fun v => ?_
    rw [Stmt.bind, if_neg (by simp [h.1])]
    exact (Blind.debug _).bind fun _ => .set name.text v
  | print keyword arg more =>
    rw [Stmt.tokens, List.cons_append, unreserved_cons] at h
    have hargs : Unreserved ((arg :: more).flatMap Expr.tokens) := by
      rw [List.flatMap_cons]
      exact h.2
    exact (Expr.blind_evalTexts tokens hargs).bind fun _ => .printLine _
  | expr e => exact (e.blind_eval tokens h).bind fun _ => Blind.pop.bind fun v => .printLine _
  | vars keyword =>
    exact .get_vars (fun m m' hvars => by rw [hvars]) fun m => .forM fun _ _ => .write _ _
  | block kind _ _ _ _ => exact blind_inspect tokens kind _
  | wrap kind _ _ => exact blind_inspect tokens kind _

end Stmt

theorem Program.blind_exec {p : Program} (h : Unreserved (Stmt.tokensOf p.stmts)) :
    Blind c p.exec := by
  refine .forM fun s hs => Blind.clear.bind fun _ => s.blind_exec p.tokens fun t ht => ?_
  exact h t (Stmt.subset_tokensOf hs ht)

end

/-! ## Interpreters side by side -/

/-- Two interpreters with the same checker whose machines are twins. -/
structure Interpreter.Twins (c : Comparison) (i i' : Interpreter) : Prop where
  checker : i'.checker = i.checker
  color : i'.color = i.color
  machine : i.machine.Twins c i'.machine

namespace Interpreter.Twins
variable {c : Comparison} {i i' : Interpreter} (h : i.Twins c i')
include h

theorem write (origin : Origin) (text : Text) :
    (i.write origin text).Twins c (i'.write origin text) :=
  ⟨h.checker, h.color, h.machine.wrote _⟩

theorem report (message : Text) : (i.report message).Twins c (i'.report message) := by
  rw [Interpreter.report, Interpreter.report, h.color]
  exact h.write _ _

theorem reportAll (messages : List Text) :
    (i.reportAll messages).Twins c (i'.reportAll messages) := by
  induction messages generalizing i i' with
  | nil => exact h
  | cons message messages ih => exact ih (h.report message)

/-- The check does not depend on what is traced. -/
theorem check (p : Program) :
    (i'.check p).1 = (i.check p).1 ∧ (i.check p).2.Twins c (i'.check p).2 := by
  rcases hcheck : p.check i.checker with ⟨o, checker⟩
  have hchecked : ({ i with checker } : Interpreter).Twins c { i' with checker } :=
    ⟨rfl, h.color, h.machine⟩
  simp only [Interpreter.check, h.checker, hcheck]
  exact ⟨trivial, hchecked.reportAll _⟩

theorem reset : i.reset.Twins c i'.reset :=
  ⟨congrArg Checker.reset h.checker, h.color, h.machine⟩

theorem run {p : Program} (hp : Unreserved (Stmt.tokensOf p.stmts)) :
    (i.run p).2.Twins c (i'.run p).2 := by
  obtain ⟨hout, hchecked⟩ := h.check p
  rw [Interpreter.run, Interpreter.run]
  generalize i.check p = r at hout hchecked ⊢
  generalize i'.check p = r' at hout hchecked ⊢
  obtain ⟨o, j⟩ := r
  obtain ⟨o', j'⟩ := r'
  obtain rfl : o' = o := hout
  cases o' with
  | error d => exact hchecked
  | ok sound =>
    cases sound with
    | false => exact hchecked
    | true =>
      obtain ⟨hran, hmachine⟩ := Program.blind_exec hp j.machine j'.machine hchecked.machine
      have hexec : (j.exec p).2.Twins c (j'.exec p).2 :=
        ⟨hchecked.checker, hchecked.color, hmachine⟩
      have hout : (j'.exec p).1 = (j.exec p).1 := hran
      simp only
      generalize j.exec p = r at hout hexec ⊢
      generalize j'.exec p = r' at hout hexec ⊢
      obtain ⟨r, k⟩ := r
      obtain ⟨r', k'⟩ := r'
      obtain rfl : r' = r := hout
      cases r' with
      | ok _ => exact hexec
      | error f =>
        cases f with
        | defect d => exact hexec
        | runtime e => exact hexec.report _
        | overlap o => exact hexec.report _

/-- Each writes its own trace, which does not count. -/
theorem trace (log : List Step) : (i.trace log).Twins c (i'.trace log) where
  checker := h.checker
  color := h.color
  machine :=
    { h.machine with
      transcript := by
        have hhere := c.unseen log
        have hthere := c.unseen' log
        rw [← h.machine.here] at hhere
        rw [← h.machine.there] at hthere
        simp [Interpreter.trace, Interpreter.write, hhere, hthere, h.machine.transcript] }

end Interpreter.Twins

/-! ## Sessions side by side -/

namespace Session

/-- Two sessions whose interpreters are twins. They may have different lines pending. -/
structure Twins (c : Comparison) (s s' : Session) : Prop where
  options : s'.options = s.options
  logging : s'.logging = s.logging
  interpreter : s.interpreter.Twins c s'.interpreter

/-- The text that a session reads when it takes a line, unless the line asks for nothing to be
read. -/
def reads? (line : Text) (s : Session) : Option Text :=
  let text := s.buffer ++ line.line
  if Text.trimSpace line = Text.ofString "quit" ∨
      (Text.dropSuffix? s.options.continuation text.trimBlankEnd).isSome ∨
      Text.trimSpace text = [] then none
  else some text

/-- What is read when a line is taken mentions no setting. -/
def ReadsUnreserved (line : Text) (s : Session) : Prop :=
  ∀ text ∈ s.reads? line, Unreserved (Lexed.ofText text).tokens

instance (line : Text) (s : Session) : Decidable (s.ReadsUnreserved line) :=
  inferInstanceAs (Decidable (∀ text ∈ s.reads? line, Unreserved (Lexed.ofText text).tokens))

/-- Something holds whenever one of some lines is taken. -/
def Along (P : Text → Session → Prop) : List Text → Session → Prop
  | [], _ => True
  | line :: lines, s => P line s ∧ Along P lines (s.feed line).2

instance decidableAlong (P : Text → Session → Prop) [∀ line s, Decidable (P line s)] :
    (lines : List Text) → (s : Session) → Decidable (Along P lines s)
  | [], _ => isTrue trivial
  | line :: lines, s =>
    have := decidableAlong P lines (s.feed line).2
    inferInstanceAs (Decidable (P line s ∧ Along P lines (s.feed line).2))

theorem along_append {P : Text → Session → Prop} {past lines : List Text} {s : Session} :
    Along P (past ++ lines) s ↔ Along P past s ∧ Along P lines (s.fed past) := by
  induction past generalizing s with
  | nil => exact (true_and _).symm ▸ Iff.rfl
  | cons line past ih =>
    rw [List.cons_append, Along, Along, ih, and_assoc]
    rfl

namespace Twins
variable {c : Comparison} {s s' : Session} (h : s.Twins c s')
include h

theorem write (origin : Origin) (text : Text) :
    (s.write origin text).Twins c (s'.write origin text) :=
  ⟨h.options, h.logging, h.interpreter.write _ _⟩

theorem log (message : Text) : (s.log message).Twins c (s'.log message) := by
  rw [Session.log, Session.log, h.logging]
  split
  · exact h.write _ _
  · exact h

/-- An entry is taken in the same way by both. -/
theorem enter {text : Text} (hfree : Unreserved (Lexed.ofText text).tokens) :
    (s.enter text).Twins c (s'.enter text) ∧ (s'.enter text).buffer = (s.enter text).buffer := by
  have hstmts : Unreserved (Stmt.tokensOf (parseEntry text).program.stmts) := fun u hu =>
    hfree u (Lexed.mem_tokens_of_mem_visible
      ((Parser.tokensOf_readSource_sublist .entry text).subset hu))
  have htrace := h.interpreter.trace (parseEntry text).log
  rw [enter_eq, enter_eq]
  dsimp only
  split
  · exact ⟨⟨h.options, h.logging, (htrace.run hstmts).reset⟩, rfl⟩
  split
  · split
    · exact ⟨⟨h.options, h.logging, htrace⟩, rfl⟩
    · have hpending : ({ s with
            interpreter := s.interpreter.trace (parseEntry text).log, buffer := text } :
            Session).Twins c
          { s' with interpreter := s'.interpreter.trace (parseEntry text).log, buffer := text } :=
        ⟨h.options, h.logging, htrace⟩
      refine ⟨hpending.log _, ?_⟩
      rw [Session.log, Session.log, h.logging]
      split <;> rfl
  · exact ⟨⟨h.options, h.logging, htrace.reportAll _⟩, rfl⟩

/-- Both take a line in the same way, if they have the same lines pending. -/
theorem feed (hbuffer : s'.buffer = s.buffer) {line : Text} (hfree : s.ReadsUnreserved line) :
    (s'.feed line).1 = (s.feed line).1 ∧ (s.feed line).2.Twins c (s'.feed line).2 ∧
      (s'.feed line).2.buffer = (s.feed line).2.buffer := by
  rw [Session.feed, Session.feed, hbuffer, h.options]
  by_cases hq : Text.trimSpace line = Text.ofString "quit"
  · rw [if_pos hq, if_pos hq]
    exact ⟨rfl, h.write _ _, hbuffer⟩
  rw [if_neg hq, if_neg hq]
  dsimp only
  cases hd : Text.dropSuffix? s.options.continuation (s.buffer ++ line.line).trimBlankEnd with
  | some start => exact ⟨rfl, ⟨rfl, h.logging, h.interpreter⟩, rfl⟩
  | none =>
    by_cases hb : Text.trimSpace (s.buffer ++ line.line) = []
    · simp only [hb, if_true]
      exact ⟨trivial, ⟨rfl, h.logging, h.interpreter⟩, trivial⟩
    · simp only [hb, if_false]
      have hread : s.reads? line = some (s.buffer ++ line.line) := by
        simp [reads?, hq, hd, hb]
      exact ⟨trivial, h.enter (hfree _ hread)⟩

/-- Both take some lines in the same way. -/
theorem fed (hbuffer : s'.buffer = s.buffer) {lines : List Text}
    (hfree : Along ReadsUnreserved lines s) :
    (s.fed lines).Twins c (s'.fed lines) ∧ (s'.fed lines).buffer = (s.fed lines).buffer := by
  induction lines generalizing s s' with
  | nil => exact ⟨h, hbuffer⟩
  | cons line lines ih =>
    obtain ⟨-, htwins, hbuffer⟩ := h.feed hbuffer hfree.1
    exact ih htwins hbuffer hfree.2

end Twins
end Session

/-! ## Streams -/

/-- Entries that add nothing to a stream can be left out. -/
theorem Transcript.select_filter {origins : List Origin} {keep : Entry → Bool}
    (h : ∀ e, keep e = false → e.origin ∉ origins ∨ e.text = []) (t : Transcript) :
    select origins (t.filter keep) = select origins t := by
  induction t with
  | nil => rfl
  | cons e t ih =>
    have hcons (t : Transcript) : select origins (e :: t) =
        (if e.origin ∈ origins then e.text else []) ++ select origins t := rfl
    cases hk : keep e with
    | true => rw [List.filter_cons_of_pos hk, hcons, hcons, ih]
    | false =>
      rw [List.filter_cons_of_neg (by simp [hk]), hcons, ih]
      rcases h e hk with hno | hempty
      · rw [if_neg hno, List.nil_append]
      · rw [hempty, ite_self, List.nil_append]

/-- Traces do not count. -/
def Comparison.untraced (here there : Tracing) (h : there.debug = here.debug) : Comparison where
  keep e := e.origin != .trace
  here := here
  there := there
  debug := h
  unseen _ := rfl
  unseen' _ := rfl

theorem Comparison.keep_untraced {here there : Tracing} {hdebug : there.debug = here.debug}
    {origins : List Origin} (horigins : .trace ∉ origins) {e : Entry}
    (h : (untraced here there hdebug).keep e = false) : e.origin ∉ origins ∨ e.text = [] := by
  have htrace : e.origin = .trace := by simpa [untraced] using h
  exact .inl (htrace ▸ horigins)

namespace Session

/-- Twins have written the same in a stream to which nothing is added that does not count. -/
theorem Twins.select_eq {c : Comparison} {s s' : Session} (h : s.Twins c s') {origins : List Origin}
    (hkeep : ∀ e, c.keep e = false → e.origin ∉ origins ∨ e.text = []) :
    s'.transcript.select origins = s.transcript.select origins := by
  rw [← Transcript.select_filter hkeep, ← Transcript.select_filter hkeep s.transcript]
  exact congrArg _ h.interpreter.machine.transcript

/-- The session with other steps of the parser traced. -/
def retraced (flags : TraceFlags) (s : Session) : Session :=
  { s with
    interpreter.machine.tracing := { s.interpreter.machine.tracing with toTraceFlags := flags } }

/-- Two sessions that differ only in which steps of the parser they trace, and that read no text
with the name of a setting among its tokens, agree after every line: in whether the session is to
end, in the lines pending, the variables and the declared types, and in everything that they have
written but their traces. Likewise two parses of a source, whatever is told of them to a hook and a
listener, give the same program and the same syntax errors in the same order. -/
theorem fed_retraced (flags : TraceFlags) {s : Session} {lines : List Text}
    (hfree : Along ReadsUnreserved lines s) :
    (∀ past line, past ++ [line] <+: lines →
      let ran := s.fed (past ++ [line])
      let ran' := (s.retraced flags).fed (past ++ [line])
      (((s.retraced flags).fed past).feed line).1 = ((s.fed past).feed line).1 ∧
        ran'.buffer = ran.buffer ∧ ran'.vars = ran.vars ∧ ran'.types = ran.types ∧
        ∀ origins, .trace ∉ origins →
          ran'.transcript.select origins = ran.transcript.select origins) ∧
    ∀ rule text (hooks hooks' : TraceFlags),
      let parsed := ((Parser.ofText text).readSource rule hooks).1
      let parsed' := ((Parser.ofText text).readSource rule hooks').1
      parsed'.program = parsed.program ∧ parsed'.errors = parsed.errors := by
  constructor
  · rintro past line ⟨rest, rfl⟩ ran ran'
    rw [along_append, along_append] at hfree
    obtain ⟨⟨hpast, hline, -⟩, -⟩ := hfree
    have hstart : s.Twins (.untraced s.interpreter.machine.tracing
        (s.retraced flags).interpreter.machine.tracing rfl) (s.retraced flags) :=
      ⟨rfl, rfl, rfl, rfl, rfl, rfl, rfl, rfl, rfl⟩
    obtain ⟨htwins, hbuffer⟩ := hstart.fed rfl hpast
    obtain ⟨hquit, hran, hpending⟩ := htwins.feed hbuffer hline
    rw [← fed_concat, ← fed_concat] at hran hpending
    exact ⟨hquit, hpending, hran.interpreter.machine.vars,
      congrArg Checker.types hran.interpreter.checker, fun _ horigins =>
        hran.select_eq fun _ => Comparison.keep_untraced horigins⟩
  · intro rule text hooks hooks'
    have hheard := Parser.readSource_heard rule text hooks
    have hheard' := Parser.readSource_heard rule text hooks'
    simp only [hheard, hheard', and_self]

theorem fed_retraced_mixed :
    let past : List Text := ["x = 1", "tree \x7b", "x \x7d // 'parserTracing'", "x < 'a", "b' ^"]
    let line : Text := "y"
    let s := fresh {} {} false false
    let ran := s.fed (past ++ [line])
    let ran' := (fresh {} { lexer := true, parser := true } false false).fed (past ++ [line])
    Along ReadsUnreserved (past ++ [line]) s ∧
      ran'.transcript.diagnostics = ran.transcript.diagnostics ∧ ran'.vars = ran.vars := by
  intro past line s ran ran'
  have hfree : Along ReadsUnreserved (past ++ [line]) s := by decide +kernel
  obtain ⟨-, -, hvars, -, hselect⟩ :=
    (fed_retraced ⟨true, true⟩ hfree).1 past line (List.prefix_refl _)
  exact ⟨hfree, hselect [.diagnostic] (by decide), hvars⟩

end Session
end Reckoner
