import Reckoner.Proofs.Listening
import Reckoner.Proofs.Soundness

/-!
# Programs and sessions that stay consistent

An interpreter is consistent between two programs if its tables of types and of values belong
together and the checker has nothing left over. A program that passes the check keeps it so and
never stops with a fault.

A whole session is another matter. The checker declares types while it walks a program, also if it
rejects the program in the end, and then the machine never binds the values. The last section says
exactly when a session stays consistent: as long as every rejected entry leaves the declared types
as they were.
-/
namespace Reckoner

namespace Interpreter

/-- Between two programs: the tables of types and of values belong together, the checker is inside
of no inspection, its stack is empty and there are no complaints. -/
structure Consistent (i : Interpreter) : Prop where
  agree : Agree i.checker.types i.machine.vars
  stack : i.checker.stack = []
  depth : i.checker.depth = 0
  diagnostics : i.checker.diagnostics = []

section
variable (i : Interpreter)

@[simp] theorem checker_write (origin : Origin) (text : Text) :
    (i.write origin text).checker = i.checker := rfl

@[simp] theorem vars_write (origin : Origin) (text : Text) :
    (i.write origin text).machine.vars = i.machine.vars := rfl

@[simp] theorem checker_reportAll (messages : List Text) :
    (i.reportAll messages).checker = i.checker := by
  induction messages generalizing i with
  | nil => rfl
  | cons m ms ih => exact ih (i.report m)

@[simp] theorem vars_reportAll (messages : List Text) :
    (i.reportAll messages).machine.vars = i.machine.vars := by
  induction messages generalizing i with
  | nil => rfl
  | cons m ms ih => exact ih (i.report m)

end

/-- Checking a program only touches the checker and the diagnostics. -/
theorem check_eq {i : Interpreter} (h : i.checker.stack = []) (p : Program) :
    (i.check p).1 = .ok (p.checked i.checker).diagnostics.isEmpty ∧
      (i.check p).2.checker = p.checked i.checker ∧
      (i.check p).2.machine.vars = i.machine.vars := by
  have hcheck := p.check_eq h
  simp [check, hcheck]

/-- A session begins consistent. -/
theorem Consistent.initial (machine : Machine) (color : Bool) (h : machine.vars = {}) :
    Consistent { machine, color } :=
  ⟨h ▸ Agree.empty, rfl, rfl, rfl⟩

namespace Consistent
variable {i : Interpreter} {p : Program}

theorem complaintsAll_eq_nil (h : i.Consistent)
    (hcheck : (p.checked i.checker).diagnostics.isEmpty = true) :
    Stmt.complaintsAll p.tokens i.checker.types p.stmts = [] := by
  simpa [Program.checked, Checker.declaring, Checker.noting, h.depth, h.diagnostics] using hcheck

/-- A program in source order that passes the check runs to its end and leaves a consistent
interpreter. -/
theorem exec_of_check_of_ordered (h : i.Consistent)
    (ho : Token.Ordered (Stmt.tokensOf p.stmts)) (hcheck : (i.check p).1 = .ok true) :
    ((i.check p).2.exec p).1 = .ok () ∧ ((i.check p).2.exec p).2.Consistent := by
  obtain ⟨houtcome, hchecker, hvars⟩ := check_eq h.stack p
  rw [houtcome, Except.ok.injEq] at hcheck
  have hnil := h.complaintsAll_eq_nil hcheck
  have hagree : Agree i.checker.types (i.check p).2.machine.vars := hvars ▸ h.agree
  obtain ⟨m, hm, hagree'⟩ := Program.exec_of_complaintsAll_eq_nil hagree ho hnil
  have hexec : (i.check p).2.exec p = (.ok (), { (i.check p).2 with machine := m }) := by
    simp [exec, hm]
  rw [hexec]
  refine ⟨rfl, ?_⟩
  constructor
  all_goals simp only [hchecker, Program.checked, hnil, Checker.noting_nil, Checker.declaring]
  · exact hagree'
  · exact h.stack
  · exact h.depth
  · exact h.diagnostics

theorem run_of_check (h : i.Consistent) (ho : Token.Ordered (Stmt.tokensOf p.stmts))
    (hcheck : (i.check p).1 = .ok true) : (i.run p).1 = .ok () ∧ (i.run p).2.Consistent := by
  obtain ⟨houtcome, hconsistent⟩ := h.exec_of_check_of_ordered ho hcheck
  generalize hc : i.check p = c at houtcome hconsistent hcheck
  obtain ⟨outcome, j⟩ := c
  generalize he : j.exec p = r at houtcome hconsistent
  obtain ⟨outcome', k⟩ := r
  simp only at houtcome hcheck
  subst houtcome hcheck
  simp only [run, hc, he]
  exact ⟨trivial, hconsistent⟩

end Consistent

/-- A program that was rejected is not run, but what it declares is. -/
theorem run_of_rejected {i : Interpreter} (hstack : i.checker.stack = []) {p : Program}
    (h : (i.check p).1 = .ok false) :
    (i.run p).1 = .error .invalid ∧ (i.run p).2.checker = p.checked i.checker ∧
      (i.run p).2.machine.vars = i.machine.vars := by
  obtain ⟨-, hchecker, hvars⟩ := check_eq hstack p
  generalize hc : i.check p = c at hchecker hvars h
  obtain ⟨outcome, j⟩ := c
  simp only at h
  subst h
  simp only [run, hc]
  exact ⟨trivial, hchecker, hvars⟩

/-- A program that was read from a source, with or without syntax errors, and passes the check of a
consistent interpreter runs to its end, and leaves the interpreter consistent. -/
theorem exec_of_check {i : Interpreter} (h : i.Consistent) {t : Text} {p : Program}
    (hp : p = (parseProgram t).program ∨ p = (parseEntry t).program)
    (hcheck : (i.check p).1 = .ok true) :
    ((i.check p).2.exec p).1 = .ok () ∧ ((i.check p).2.exec p).2.Consistent := by
  refine h.exec_of_check_of_ordered ?_ hcheck
  rcases hp with rfl | rfl
  · exact Parser.ordered_readSource .program t
  · exact Parser.ordered_readSource .entry t

theorem exec_of_check_recovered :
    let p :=
      (parseProgram "x = 1 ) refactor \x7b x - 0 y \x7d print x < 2 ? !true : 'b' == 'a'").program
    (({} : Interpreter).check p).1 = .ok true ∧
      ((({} : Interpreter).check p).2.exec p).1 = .ok () ∧
      ((({} : Interpreter).check p).2.exec p).2.Consistent := by
  intro p
  have hcheck : (({} : Interpreter).check p).1 = .ok true :=
    (check_eq rfl p).1.trans (congrArg Except.ok (by decide +kernel))
  exact ⟨hcheck, exec_of_check (Consistent.initial {} false rfl) (.inl rfl) hcheck⟩

end Interpreter

/-! ## Sessions -/

theorem Frame.get?_eq_none_iff {α : Type} (f : Frame α) (name : Text) :
    f.get? name = none ↔ name ∉ f.names := by
  induction f with
  | nil => simp [get?, names]
  | cons p f ih =>
    obtain ⟨n, b⟩ := p
    by_cases h : name = n
    · simp [get?, names, h]
    · have hne : (name == n) = false := by simpa using h
      simpa [get?, names, List.lookup_cons, hne, h] using ih

namespace Scope
variable {α : Type}

/-- The same names are bound, in the same order and to the same things. -/
def Same (s s' : Scope α) : Prop := s.keys = s'.keys ∧ ∀ name, s.get? name = s'.get? name

theorem get?_of_inner_eq_nil {s : Scope α} (h : s.inner = []) (name : Text) :
    s.get? name = s.outermost.get? name := by
  simp [get?, frames, h]

theorem get?_eq_none_iff {s : Scope α} (h : s.inner = []) (name : Text) :
    s.get? name = none ↔ name ∉ s.keys := by
  rw [get?_of_inner_eq_nil h, keys_of_inner_eq_nil h, Frame.get?_eq_none_iff]

end Scope

namespace Agree
variable {types types' : Scope Ty} {vars : Scope Value}

/-- The variables determine the declared types. -/
theorem same (h : Agree types vars) (h' : Agree types' vars) : types.Same types' := by
  have hkeys : types.keys = types'.keys := h.keys.trans h'.keys.symm
  refine ⟨hkeys, fun name => ?_⟩
  cases ht : types.get? name with
  | none =>
    rw [Scope.get?_eq_none_iff h.inner_types, hkeys, ← Scope.get?_eq_none_iff h'.inner_types] at ht
    exact ht.symm
  | some t =>
    obtain ⟨-, v, hv, hty⟩ := h.typed name t ht
    cases ht' : types'.get? name with
    | none =>
      rw [Scope.get?_eq_none_iff h'.inner_types, ← hkeys, ← Scope.get?_eq_none_iff h.inner_types,
        ht] at ht'
      cases ht'
    | some t' =>
      obtain ⟨-, v', hv', hty'⟩ := h'.typed name t' ht'
      rw [hv, Option.some.injEq] at hv'
      rw [← hty, ← hty', hv']

theorem of_same (h : Agree types vars) (hin : types'.inner = []) (hs : types.Same types') :
    Agree types' vars :=
  ⟨hin, h.inner_vars, hs.1.symm.trans h.keys, fun name t ht => h.typed name t (hs.2 name ▸ ht)⟩

end Agree

theorem Stmt.inner_declareAll {types : Scope Ty} (h : types.inner = []) (ss : List Stmt) :
    (declareAll types ss).inner = [] := by
  induction ss generalizing types with
  | nil => exact h
  | cons s ss ih =>
    refine ih ?_
    cases s with
    | assign name equals value =>
      rw [declare]
      split
      · exact h
      · rw [Scope.set_of_inner_eq_nil h]
        exact h
    | _ => exact h

namespace Session

/-- A session of which nothing has been read. -/
def fresh (options : SessionOptions) (tracing : Tracing) (color logging : Bool) : Session :=
  { options, interpreter := { machine := { tracing }, color }, logging }

/-- The session after some lines. -/
def fed (lines : List Text) (s : Session) : Session := lines.foldl (fun s line => (s.feed line).2) s

/-- The entry that a line completes. -/
def ready? (line : Text) (s : Session) : Option Parsed :=
  let text := s.buffer ++ line.line
  if Text.trimSpace line = Text.ofString "quit" ∨ Text.trimSpace text = [] ∨
      (Text.dropSuffix? s.options.continuation text.trimBlankEnd).isSome ∨
      !(parseEntry text).errors.isEmpty then none
  else some (parseEntry text)

/-- How the entry that a line completes ends. -/
def outcome? (line : Text) (s : Session) : Option (Except Failure Unit) :=
  (s.ready? line).map fun parsed =>
    ((s.interpreter.trace parsed.log).run parsed.program).1

/-- The declared types. -/
def types (s : Session) : Scope Ty := s.interpreter.checker.types

/-- The variables. -/
def vars (s : Session) : Scope Value := s.interpreter.machine.vars

/-- The checker has nothing left over from the last entry. -/
structure Rested (s : Session) : Prop where
  inner : s.types.inner = []
  stack : s.interpreter.checker.stack = []
  depth : s.interpreter.checker.depth = 0
  diagnostics : s.interpreter.checker.diagnostics = []

/-- A text with syntax errors leaves the checker and the variables alone. -/
theorem enter_of_errors {text : Text} {s : Session}
    (h : (parseEntry text).errors.isEmpty = false) :
    (s.enter text).interpreter.checker = s.interpreter.checker ∧ (s.enter text).vars = s.vars := by
  simp only [enter_eq, h, Bool.false_eq_true, if_false]
  split
  · split
    · exact ⟨rfl, rfl⟩
    · unfold log
      split <;> exact ⟨rfl, rfl⟩
  · simp [vars, Interpreter.trace]

/-- A line that completes no entry leaves the checker and the variables alone. -/
theorem feed_of_ready?_eq_none {line : Text} {s : Session} (h : s.ready? line = none) :
    (s.feed line).2.interpreter.checker = s.interpreter.checker ∧
      (s.feed line).2.vars = s.vars := by
  by_cases hq : Text.trimSpace line = Text.ofString "quit"
  · simp [feed, hq, vars, write]
  cases hd : Text.dropSuffix? s.options.continuation (s.buffer ++ line.line).trimBlankEnd with
  | some start => simp [feed, hq, hd, vars]
  | none =>
    by_cases hb : Text.trimSpace (s.buffer ++ line.line) = []
    · simp [feed, hq, hd, hb, vars]
    · have herrors : (parseEntry (s.buffer ++ line.line)).errors.isEmpty = false := by
        simpa [ready?, hq, hb, hd] using h
      simp only [feed, hq, hd, hb, if_false]
      exact enter_of_errors herrors

/-- A complete entry is checked and run, and then the checker is reset. -/
theorem feed_eq_of_ready? {line : Text} {s : Session} {parsed : Parsed}
    (h : s.ready? line = some parsed) :
    (s.feed line).2 = { s with
      buffer := []
      interpreter := ((s.interpreter.trace parsed.log).run parsed.program).2.reset } := by
  simp only [ready?, Option.ite_none_left_eq_some, not_or, Option.some.injEq] at h
  obtain ⟨⟨hq, hb, hd, herrors⟩, rfl⟩ := h
  have hd' : Text.dropSuffix? s.options.continuation (s.buffer ++ line.line).trimBlankEnd =
      none := by
    simpa using hd
  have herrors' : (parseEntry (s.buffer ++ line.line)).errors.isEmpty = true := by
    simpa using herrors
  simp [feed, hq, hd', hb, enter_eq, herrors']

theorem feed_of_ready?_eq_some {line : Text} {s : Session} {parsed : Parsed}
    (h : s.ready? line = some parsed) :
    (s.feed line).2.interpreter =
      ((s.interpreter.trace parsed.log).run parsed.program).2.reset := by
  rw [feed_eq_of_ready? h]

/-- The program of an entry was read from a text. -/
theorem ordered_of_ready?_eq_some {line : Text} {s : Session} {parsed : Parsed}
    (h : s.ready? line = some parsed) : Token.Ordered (Stmt.tokensOf parsed.program.stmts) := by
  simp only [ready?, Option.ite_none_left_eq_some, Option.some.injEq] at h
  obtain ⟨-, rfl⟩ := h
  exact Parser.ordered_readSource .entry _

namespace Rested
variable {s : Session} {line : Text} {parsed : Parsed}

theorem consistent_trace (h : s.Rested) (hagree : Agree s.types s.vars) (log : List Step) :
    (s.interpreter.trace log).Consistent :=
  ⟨hagree, h.stack, h.depth, h.diagnostics⟩

/-- An entry that passes the check runs to its end and keeps the tables together. -/
theorem accepted (h : s.Rested) (hagree : Agree s.types s.vars) (he : s.ready? line = some parsed)
    (hc : (parsed.program.checked s.interpreter.checker).diagnostics.isEmpty = true) :
    s.outcome? line = some (.ok ()) ∧ Agree (s.feed line).2.types (s.feed line).2.vars := by
  have hcons := h.consistent_trace hagree parsed.log
  have hcheck : ((s.interpreter.trace parsed.log).check parsed.program).1 = .ok true :=
    (Interpreter.check_eq hcons.stack parsed.program).1.trans (congrArg Except.ok hc)
  obtain ⟨hrun, hcons'⟩ := hcons.run_of_check (ordered_of_ready?_eq_some he) hcheck
  refine ⟨by rw [outcome?, he, Option.map_some, hrun], ?_⟩
  rw [types, vars, feed_of_ready?_eq_some he]
  exact hcons'.agree

/-- An entry that is rejected declares its types all the same, and binds nothing. -/
theorem rejected (h : s.Rested) (he : s.ready? line = some parsed)
    (hc : (parsed.program.checked s.interpreter.checker).diagnostics.isEmpty = false) :
    s.outcome? line = some (.error .invalid) ∧
      (s.feed line).2.types = Stmt.declareAll s.types parsed.program.stmts ∧
      (s.feed line).2.vars = s.vars := by
  have hstack : (s.interpreter.trace parsed.log).checker.stack = [] := h.stack
  have hcheck : ((s.interpreter.trace parsed.log).check parsed.program).1 = .ok false :=
    (Interpreter.check_eq hstack parsed.program).1.trans (congrArg Except.ok hc)
  obtain ⟨hrun, hchecker, hvars⟩ := Interpreter.run_of_rejected hstack hcheck
  refine ⟨by rw [outcome?, he, Option.map_some, hrun], ?_, ?_⟩
  · rw [types, feed_of_ready?_eq_some he]
    exact congrArg Checker.types hchecker
  · rw [vars, feed_of_ready?_eq_some he]
    exact hvars

/-- After every line the checker has nothing left over. -/
theorem feed (h : s.Rested) (hagree : Agree s.types s.vars) (line : Text) :
    (s.feed line).2.Rested := by
  cases he : s.ready? line with
  | none =>
    obtain ⟨hchecker, -⟩ := feed_of_ready?_eq_none he
    exact ⟨by rw [types, hchecker]; exact h.inner, hchecker ▸ h.stack, hchecker ▸ h.depth,
      hchecker ▸ h.diagnostics⟩
  | some parsed =>
    have hfeed := feed_of_ready?_eq_some he
    refine ⟨?_, by rw [hfeed]; rfl, by rw [hfeed]; rfl, by rw [hfeed]; rfl⟩
    cases hc : (parsed.program.checked s.interpreter.checker).diagnostics.isEmpty with
    | true => exact (h.accepted hagree he hc).2.inner_types
    | false =>
      rw [(h.rejected he hc).2.1]
      exact Stmt.inner_declareAll h.inner _

/-- One line: if the tables belong together, they do so after it unless it completes an entry that
is rejected and changes the declared types. -/
theorem agree_feed_iff (h : s.Rested) (hagree : Agree s.types s.vars) (line : Text) :
    Agree (s.feed line).2.types (s.feed line).2.vars ↔
      (s.outcome? line = some (.error .invalid) → s.types.Same (s.feed line).2.types) := by
  cases he : s.ready? line with
  | none =>
    obtain ⟨hchecker, hvars⟩ := feed_of_ready?_eq_none he
    have htypes : (s.feed line).2.types = s.types := congrArg Checker.types hchecker
    rw [htypes, hvars]
    exact ⟨fun _ _ => hagree.same hagree, fun _ => hagree⟩
  | some parsed =>
    cases hc : (parsed.program.checked s.interpreter.checker).diagnostics.isEmpty with
    | true =>
      obtain ⟨houtcome, hagree'⟩ := h.accepted hagree he hc
      simp [houtcome, hagree']
    | false =>
      obtain ⟨houtcome, -, hvars⟩ := h.rejected he hc
      rw [hvars]
      exact ⟨fun hagree' _ => hagree.same hagree',
        fun hsame => hagree.of_same (h.feed hagree line).inner (hsame houtcome)⟩

/-- One line: if the tables belong together, an entry that it completes is rejected or runs to its
end. -/
theorem outcome?_ne_fault (h : s.Rested) (hagree : Agree s.types s.vars) (line : Text)
    (f : Fault) : s.outcome? line ≠ some (.error (.fault f)) := by
  cases he : s.ready? line with
  | none => simp [outcome?, he]
  | some parsed =>
    cases hc : (parsed.program.checked s.interpreter.checker).diagnostics.isEmpty with
    | true => simp [(h.accepted hagree he hc).1]
    | false => simp [(h.rejected he hc).1]

end Rested

theorem fed_append (past lines : List Text) (s : Session) :
    s.fed (past ++ lines) = (s.fed past).fed lines :=
  List.foldl_append

theorem fed_concat (past : List Text) (line : Text) (s : Session) :
    s.fed (past ++ [line]) = ((s.fed past).feed line).2 :=
  fed_append past [line] s

theorem rested_fresh (options : SessionOptions) (tracing : Tracing) (color logging : Bool) :
    (fresh options tracing color logging).Rested :=
  ⟨rfl, rfl, rfl, rfl⟩

/-- The tables belong together after every one of some lines. -/
def StaysTogether (s : Session) (lines : List Text) : Prop :=
  ∀ past, past <+: lines → Agree (s.fed past).types (s.fed past).vars

/-- Every entry among some lines that is rejected leaves the declared types as they were. -/
def RejectsCleanly (s : Session) (lines : List Text) : Prop :=
  ∀ past line, past ++ [line] <+: lines →
    (s.fed past).outcome? line = some (.error .invalid) →
    (s.fed past).types.Same (s.fed (past ++ [line])).types

theorem StaysTogether.rested {s : Session} {lines : List Text} (h : s.StaysTogether lines)
    (hs : s.Rested) {past : List Text} (hp : past <+: lines) : (s.fed past).Rested := by
  induction past generalizing s lines with
  | nil => exact hs
  | cons line past ih =>
    obtain ⟨rest, rfl⟩ := hp
    have hagree := h [] List.nil_prefix
    refine ih (s := (s.feed line).2) (fun p hp' => ?_) (hs.feed hagree line) ⟨rest, rfl⟩
    exact h (line :: p) (List.cons_prefix_cons.mpr ⟨rfl, hp'⟩)

/-- Along some lines the tables stay together if and only if every rejected entry leaves the
declared types as they were. -/
theorem Rested.staysTogether_iff {s : Session} (hs : s.Rested) (hagree : Agree s.types s.vars)
    (lines : List Text) : s.StaysTogether lines ↔ s.RejectsCleanly lines := by
  constructor
  · intro h past line hp hout
    have hpast := (List.prefix_append past [line]).trans hp
    have hnext := h _ hp
    rw [fed_concat] at hnext ⊢
    exact ((h.rested hs hpast).agree_feed_iff (h past hpast) line).mp hnext hout
  · intro h past hp
    -- After its first line a session is one that stays together over the others.
    induction past generalizing s lines with
    | nil => exact hagree
    | cons line past ih =>
      obtain ⟨rest, rfl⟩ := hp
      have hagree' := (hs.agree_feed_iff hagree line).mpr
        (h [] line (List.cons_prefix_cons.mpr ⟨rfl, List.nil_prefix⟩))
      refine ih (hs.feed hagree line) hagree' (past ++ rest) (fun p l hp' => ?_) ⟨rest, rfl⟩
      exact h (line :: p) l (List.cons_prefix_cons.mpr ⟨rfl, hp'⟩)

/-- In a session from its beginning, whatever is fed to it, the declared types and the variables
belong together after every line if and only if every rejected entry leaves the declared types as
they were. Then no entry that passes the check ends in a fault. -/
theorem staysTogether_fresh_iff (options : SessionOptions) (tracing : Tracing)
    (color logging : Bool) (lines : List Text) :
    ((fresh options tracing color logging).StaysTogether lines ↔
      (fresh options tracing color logging).RejectsCleanly lines) ∧
    ((fresh options tracing color logging).RejectsCleanly lines →
      ∀ past line f, past ++ [line] <+: lines →
        ((fresh options tracing color logging).fed past).outcome? line ≠
          some (.error (.fault f))) := by
  have hs := rested_fresh options tracing color logging
  have hiff := hs.staysTogether_iff Agree.empty lines
  refine ⟨hiff, fun h past line f hp => ?_⟩
  have htogether := hiff.mpr h
  have hpast := (List.prefix_append past [line]).trans hp
  exact (htogether.rested hs hpast).outcome?_ne_fault (htogether past hpast) line f

/-- Whether an entry has stopped with a fault. -/
instance (o : Option (Except Failure Unit)) : Decidable (∃ f, o = some (.error (.fault f))) :=
  match o with
  | some (.error (.fault f)) => isTrue ⟨f, rfl⟩
  | none | some (.ok _) | some (.error (.syntaxErrors _)) | some (.error .invalid) =>
    isFalse (by simp)

/-- The second line is rejected for its last name, but declares the first one with another type.
The check lets the third line pass, which the machine cannot run. -/
theorem fault_after_rejected_entry :
    ¬(fresh {} {} false false).StaysTogether ["a = true", "a = 'x' b"] ∧
      ∃ f, ((fresh {} {} false false).fed ["a = true", "a = 'x' b"]).outcome? "a < 'y'" =
        some (.error (.fault f)) := by
  refine ⟨fun h => ?_, by decide +kernel⟩
  obtain ⟨-, v, hv, hty⟩ := (h _ (List.prefix_refl _)).typed "a" .string (by decide +kernel)
  have hb : (((fresh {} {} false false).fed ["a = true", "a = 'x' b"]).vars.get? "a").map Value.ty =
      some .boolean := by decide +kernel
  rw [hv, Option.map_some, hty] at hb
  cases hb

end Session

end Reckoner
