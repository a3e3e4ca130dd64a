import Reckoner.Proofs.Entries
import Reckoner.Proofs.Transcripts

/-!
# Running at once and line by line

A source is checked as a whole before any of it runs, a session checks and runs one entry after the
other. If the lines of a source are entries of their own, and are read as the same statements in the
source, this makes no difference: a session has something to report if and only if the source is
rejected, and otherwise both write the same and leave the same types and variables.

The proof runs the two side by side. A statement of the source is one of an entry that was moved, so
that it has complaints whenever the other has, and otherwise writes and binds the same
(`Stmt.exec_map`). This is carried over the statements of a line, and then over the lines.
-/
namespace Reckoner

/-! ## Variables that hold the same -/

theorem Scope.keys_set {α : Type} {s : Scope α} (h : s.inner = []) (name : Text) (a : α) :
    (s.set name a).keys = if name ∈ s.keys then s.keys else s.keys ++ [name] := by
  rw [set_of_inner_eq_nil h, keys_of_inner_eq_nil (by exact h), keys_of_inner_eq_nil h,
    Frame.names_set]

theorem Scope.inner_set {α : Type} {s : Scope α} (h : s.inner = []) (name : Text) (a : α) :
    (s.set name a).inner = [] := by
  rw [set_of_inner_eq_nil h]
  exact h

namespace Scope.SameData
variable {vars vars' : Scope Value}

theorem set (h : vars.SameData vars') (hin : vars.inner = []) (hin' : vars'.inner = [])
    (name : Text) {v v' : Value} (hv : v.datum = v'.datum) :
    (vars.set name v).SameData (vars'.set name v') := by
  refine ⟨?_, fun other => ?_⟩
  · rw [keys_set hin, keys_set hin', h.1]
  · by_cases ho : other = name
    · rw [ho, get?_set_self, get?_set_self, Option.map_some, Option.map_some, hv]
    · rw [get?_set_of_ne vars v ho, get?_set_of_ne vars' v' ho]
      exact h.2 other

/-- Variables that hold the same are listed in the same way. -/
theorem map_bindings (h : vars.SameData vars') :
    vars.bindings.map (fun p => Stmt.varLine p.1 p.2) =
      vars'.bindings.map fun p => Stmt.varLine p.1 p.2 := by
  rw [bindings, bindings, List.map_filterMap, List.map_filterMap, h.1]
  refine List.filterMap_congr fun name _ => ?_
  have hdata := h.2 name
  cases hv : vars.get? name <;> cases hv' : vars'.get? name <;>
    simp_all [Stmt.varLine, Value.text]

end Scope.SameData

/-! ## Machines side by side -/

/-- Two machines that trace nothing hold the same and have written the same output. -/
structure Machine.Alike (m m' : Machine) : Prop where
  vars : m.vars.SameData m'.vars
  inner : m.vars.inner = []
  inner' : m'.vars.inner = []
  tracing : m.tracing = {}
  tracing' : m'.tracing = {}
  output : m.transcript.output = m'.transcript.output

namespace Machine.Alike
variable {m m' : Machine} (h : m.Alike m')
include h

theorem wrote (es : List Entry) : (m.wrote es).Alike (m'.wrote es) where
  vars := h.vars
  inner := h.inner
  inner' := h.inner'
  tracing := h.tracing
  tracing' := h.tracing'
  output := by
    have := h.output
    simp only [Transcript.output, Machine.wrote, Transcript.select_append] at this ⊢
    rw [this]

/-- Empty output makes no difference. -/
theorem wrote_left {es : List Entry} (hes : Transcript.output es = []) : (m.wrote es).Alike m' where
  vars := h.vars
  inner := h.inner
  inner' := h.inner'
  tracing := h.tracing
  tracing' := h.tracing'
  output := by
    have := h.output
    simp only [Transcript.output, Machine.wrote, Transcript.select_append] at this hes ⊢
    rw [this, hes, List.append_nil]

theorem set (name : Text) {v v' : Value} (hv : v.datum = v'.datum) :
    Machine.Alike { m with vars := m.vars.set name v } { m' with vars := m'.vars.set name v' } where
  vars := h.vars.set h.inner h.inner' name hv
  inner := Scope.inner_set h.inner name v
  inner' := Scope.inner_set h.inner' name v'
  tracing := h.tracing
  tracing' := h.tracing'
  output := h.output

theorem cleared : Machine.Alike { m with values := [] } { m' with values := [] } :=
  ⟨h.vars, h.inner, h.inner', h.tracing, h.tracing', h.output⟩

end Machine.Alike

section
variable {f : Token → Token} (hf : Token.IsMove f) {types : Scope Ty} {m m' : Machine}
  (hfit : Fits types m.vars) (halike : m.Alike m') {tokens : List Token} (tokens' : List Token)
include hf hfit halike

/-- An expression without complaints and a moved one leave values that hold the same. -/
theorem Expr.eval_map {e : Expr} (h : e.complaints tokens types = []) :
    ∃ v v', e.eval tokens m = (.ok (), m.pushed v) ∧
      (e.map f).eval tokens' m' = (.ok (), m'.pushed v') ∧ v'.datum = v.datum ∧
      v.ty = e.type types := by
  obtain ⟨v, hv, hty⟩ := e.meaning_of_complaints_eq_nil hfit tokens m.tracing h
  obtain ⟨v', hv', hdatum⟩ := Expr.meaning_map hf halike.vars tokens tokens' m.tracing e v hv
  have hspec := e.eval_spec tokens m
  have hspec' := (e.map f).eval_spec tokens' m'
  rw [hv] at hspec
  rw [halike.tracing'.trans halike.tracing.symm, hv'] at hspec'
  exact ⟨v, v', hspec, hspec', hdatum, hty⟩

theorem Expr.evalTexts_map {es : List Expr}
    (h : es.flatMap (Expr.complaints tokens types) = []) :
    ∃ text, Expr.evalTexts tokens es m = (.ok text, m) ∧
      Expr.evalTexts tokens' (es.map (Expr.map f)) m' = (.ok text, m') := by
  induction es with
  | nil => exact ⟨[], rfl, rfl⟩
  | cons e es ih =>
    rw [List.flatMap_cons, List.append_eq_nil_iff] at h
    obtain ⟨v, v', hv, hv', hdatum, -⟩ := Expr.eval_map hf hfit halike tokens' h.1
    obtain ⟨text, ht, ht'⟩ := ih h.2
    refine ⟨v.text ++ text, by simp [evalTexts, hv, ht], ?_⟩
    simp [evalTexts, hv', ht', Value.text, hdatum]

end

open Run

/-- Neither the keyword that shows tokens nor a reserved name. -/
def Token.Plain (t : Token) : Prop := t.kind ≠ .inspect .tokens ∧ isReserved t.text = false

instance (t : Token) : Decidable t.Plain := inferInstanceAs (Decidable (_ ∧ _))

namespace Stmt

theorem bind_of_quiet {name : Text} {m : Machine} (h : ¬isReserved name) (hm : m.tracing = {})
    (v : Value) : bind name v m = (.ok (), { m with vars := m.vars.set name v }) := by
  have hdebug : m.tracing.debug = false := by rw [hm]
  simp [bind_apply h, hdebug]

/-- What a statement is refactored to, if it is to be refactored, is the same for a moved one. -/
def ShowsSame (f : Token → Token) (tokens tokens' : List Token) : Stmt → Prop
  | block .refactor keyword opening body closing =>
    ((block .refactor keyword opening body closing).map f).simplified tokens' =
      (block .refactor keyword opening body closing).simplified tokens
  | _ => True

section
variable {f : Token → Token} (hf : Token.IsMove f) {types : Scope Ty} {m m' : Machine}
  (hagree : Agree types m.vars) (halike : m.Alike m') {tokens tokens' : List Token}
include hf

/-- What a statement shows of the program does not depend on where it stands. -/
theorem inspect_map (halike : m.Alike m') {s : Stmt} (hordered : Token.Ordered s.tokens)
    {kind : Inspection} (hkind : kind ≠ .tokens)
    (hshows : kind = .refactor → (s.map f).simplified tokens' = s.simplified tokens) :
    ∃ n n', inspect tokens kind s m = (.ok (), n) ∧
      inspect tokens' kind (s.map f) m' = (.ok (), n') ∧ n.Alike n' ∧ n.vars = m.vars := by
  cases kind with
  | tree =>
    refine ⟨_, _, printLine_apply _ m, printLine_apply _ m', ?_, rfl⟩
    rw [innerTree_map hf]
    exact halike.wrote _
  | tokens => exact absurd rfl hkind
  | gui =>
    refine ⟨_, _, debug_apply _ m, debug_apply _ m', ?_, rfl⟩
    rw [halike.tracing, halike.tracing']
    exact halike.wrote _
  | refactor =>
    obtain ⟨text, htext⟩ := simplified_eq_ok hordered tokens
    have htext' := (hshows rfl).trans htext
    refine ⟨_, _, ?_, ?_, halike.wrote [⟨.program, text.line⟩], rfl⟩
    · rw [inspect, htext]
      exact printLine_apply text m
    · rw [inspect, htext']
      exact printLine_apply text m'

include hagree halike

/-- A statement without complaints and a moved one run to their ends side by side. -/
theorem exec_map {s : Stmt} (hformed : s.Formed) (hordered : Token.Ordered s.tokens)
    (hplain : ∀ t ∈ s.tokens, t.Plain) (hshows : s.ShowsSame f tokens tokens')
    (h : s.complaints tokens types = []) :
    ∃ n n', s.exec tokens m = (.ok (), n) ∧ (s.map f).exec tokens' m' = (.ok (), n') ∧
      n.Alike n' ∧ Agree (s.declare types) n.vars := by
  have hfit := hagree.fits
  cases s with
  | assign name equals value =>
    rw [complaints, List.append_eq_nil_iff] at h
    obtain ⟨v, v', hv, hv', hdatum, hty⟩ := Expr.eval_map hf hfit halike tokens' h.1
    have hfree : ¬isReserved name.text := by simp [(hplain name List.mem_cons_self).2]
    refine ⟨_, _, ?_, ?_, halike.set name.text hdatum.symm, ?_⟩
    · have hx : (assign name equals value).exec tokens m = bind name.text v m := by
        simp [exec, hv]
      rw [hx, bind_of_quiet hfree halike.tracing]
    · have hx : ((assign name equals value).map f).exec tokens' m' = bind name.text v' m' := by
        simp [map, exec, hv', hf.text]
      rw [hx, bind_of_quiet hfree halike.tracing']
    · rw [declare, if_neg hfree, ← hty]
      exact hagree.set name.text v
  | print keyword arg more =>
    obtain ⟨text, ht, ht'⟩ := Expr.evalTexts_map hf hfit halike tokens' h
    refine ⟨m.wrote [⟨.program, text.line⟩], m'.wrote [⟨.program, text.line⟩], ?_, ?_,
      halike.wrote _, hagree⟩
    · simp [exec, ht]
    · rw [List.map_cons] at ht'
      simp [map, exec, ht']
  | expr e =>
    obtain ⟨v, v', hv, hv', hdatum, -⟩ := Expr.eval_map hf hfit halike tokens' h
    refine ⟨m.wrote [⟨.program, v.text.line⟩], m'.wrote [⟨.program, v.text.line⟩], ?_, ?_,
      halike.wrote _, hagree⟩
    · simp [exec, hv]
    · simp [map, exec, hv', Value.text, hdatum]
  | vars keyword =>
    have hwrite (m : Machine) : (vars keyword).exec tokens m = (.ok (), m.wrote
        ((m.vars.bindings.map fun p => varLine p.1 p.2).map (Entry.mk .program))) := by
      rw [List.map_map]
      exact forM_apply (fun p m => write_apply .program (varLine p.1 p.2) m) m.vars.bindings m
    refine ⟨_, _, hwrite m, hwrite m', ?_, hagree⟩
    rw [halike.vars.map_bindings]
    exact halike.wrote _
  | block kind keyword opening body closing =>
    have hkind : kind ≠ .tokens := by
      rintro rfl
      exact (hplain keyword (by simp [Stmt.tokens])).1 hformed.1
    obtain ⟨n, n', hn, hn', halike', hvars⟩ := inspect_map hf halike hordered hkind
      (by rintro rfl; exact hshows)
    exact ⟨n, n', hn, hn', halike', by rw [hvars]; exact hagree⟩
  | wrap kind keyword inner =>
    have hkind : kind ≠ .tokens := by
      rintro rfl
      exact (hplain keyword (by simp [Stmt.tokens])).1 hformed.1
    obtain ⟨n, n', hn, hn', halike', hvars⟩ := inspect_map hf halike hordered hkind
      fun hrefactor => absurd hrefactor hformed.2.1
    exact ⟨n, n', hn, hn', halike', by rw [hvars]; exact hagree⟩

end
end Stmt

namespace Program

/-- A program runs its statements one after the other. -/
theorem exec_append (ss ss' : List Stmt) (tokens : List Token) (m : Machine) :
    Program.exec ⟨ss ++ ss', tokens⟩ m =
      match Program.exec ⟨ss, tokens⟩ m with
      | (.ok (), m') => Program.exec ⟨ss', tokens⟩ m'
      | (.error f, m') => (.error f, m') := by
  induction ss generalizing m with
  | nil => rfl
  | cons s ss ih =>
    rw [List.cons_append, exec_cons, exec_cons]
    rcases s.exec tokens { m with values := [] } with ⟨_ | _, m'⟩
    · rfl
    · exact ih m'

/-- Statements without complaints and moved ones run to their ends side by side. -/
theorem exec_mapAll {f : Token → Token} (hf : Token.IsMove f) {types : Scope Ty} {m m' : Machine}
    (hagree : Agree types m.vars) (halike : m.Alike m') {tokens tokens' : List Token}
    {ss : List Stmt} (hformed : Stmt.FormedAll ss) (hordered : Token.Ordered (Stmt.tokensOf ss))
    (hplain : ∀ t ∈ Stmt.tokensOf ss, t.Plain)
    (hshows : ∀ s ∈ ss, s.ShowsSame f tokens tokens')
    (h : Stmt.complaintsAll tokens types ss = []) :
    ∃ n n', Program.exec ⟨ss, tokens⟩ m = (.ok (), n) ∧
      Program.exec ⟨Stmt.mapAll f ss, tokens'⟩ m' = (.ok (), n') ∧ n.Alike n' ∧
      Agree (Stmt.declareAll types ss) n.vars := by
  induction ss generalizing types m m' with
  | nil => exact ⟨m, m', rfl, rfl, halike, hagree⟩
  | cons s ss ih =>
    rw [Stmt.complaintsAll, List.append_eq_nil_iff] at h
    rw [Stmt.tokensOf, List.forall_mem_append] at hplain
    rw [List.forall_mem_cons] at hshows
    obtain ⟨hs, hss, -⟩ := List.pairwise_append.mp hordered
    have hclear : Agree types { m with values := [] }.vars := hagree
    obtain ⟨n₁, n₁', hn₁, hn₁', halike₁, hagree₁⟩ :=
      Stmt.exec_map hf hclear halike.cleared hformed.1 hs hplain.1 hshows.1 h.1
    obtain ⟨n₂, n₂', hn₂, hn₂', hrest⟩ := ih hagree₁ halike₁ hformed.2 hss hplain.2 hshows.2 h.2
    refine ⟨n₂, n₂', ?_, ?_, hrest⟩
    · rw [exec_cons, hn₁]
      exact hn₂
    · rw [Stmt.mapAll, exec_cons, hn₁']
      exact hn₂'

end Program

theorem Stmt.complaintsAll_append (tokens : List Token) (types : Scope Ty) (ss ss' : List Stmt) :
    complaintsAll tokens types (ss ++ ss') =
      complaintsAll tokens types ss ++ complaintsAll tokens (declareAll types ss) ss' := by
  induction ss generalizing types with
  | nil => rfl
  | cons s ss ih =>
    rw [List.cons_append, complaintsAll, complaintsAll, ih, List.append_assoc]
    rfl

/-! ## Programs that are accepted or not -/

namespace Interpreter
variable {i : Interpreter} {p : Program}

/-- A program without complaints is run, and only the types that it declares are kept of the
check. -/
theorem run_of_complaintsAll_eq_nil (h : i.Consistent)
    (hnil : Stmt.complaintsAll p.tokens i.checker.types p.stmts = []) {n : Machine}
    (hexec : p.exec i.machine = (.ok (), n)) :
    i.run p = (.ok (), { i with
      checker := i.checker.declaring (Stmt.declareAll i.checker.types p.stmts)
      machine := n }) := by
  have hchecked : p.checked i.checker =
      i.checker.declaring (Stmt.declareAll i.checker.types p.stmts) := by
    rw [Program.checked, hnil, Checker.noting_nil]
  have hdiagnostics : (p.checked i.checker).diagnostics = [] := by
    rw [hchecked]
    exact h.diagnostics
  have hcheck : i.check p = (.ok true, { i with checker := p.checked i.checker }) := by
    simp [check, p.check_eq h.stack, hdiagnostics, reportAll]
  simp only [run, hcheck, exec, hexec, hchecked]

/-- A program with complaints is reported. -/
theorem diagnostics_run_ne_nil (h : i.Consistent)
    (hcomplaints : Stmt.complaintsAll p.tokens i.checker.types p.stmts ≠ []) :
    (i.run p).1 = .error .invalid ∧ (i.run p).2.machine.transcript.diagnostics ≠ [] := by
  have hdiagnostics : (p.checked i.checker).diagnostics =
      Stmt.complaintsAll p.tokens i.checker.types p.stmts := by
    simp [Program.checked, Checker.declaring, Checker.noting, h.depth, h.diagnostics]
  have hfalse : (p.checked i.checker).diagnostics.isEmpty = false := by
    rw [hdiagnostics]
    simpa using hcomplaints
  have hcheck : i.check p = (.ok false, { i with checker := p.checked i.checker }.reportAll
      ((p.checked i.checker).diagnostics.map Diagnostic.text)) := by
    simp [check, p.check_eq h.stack, hfalse, h.diagnostics]
  simp only [run, hcheck]
  refine ⟨trivial, diagnostics_reportAll_ne_nil _ ?_⟩
  rw [hdiagnostics]
  simpa using hcomplaints

end Interpreter

/-! ## One line -/

/-- A line that a session takes as an entry on its own. -/
structure Text.IsEntry (line : Text) : Prop where
  stays : Text.trimSpace line ≠ Text.ofString "quit"
  ends : Text.dropSuffix? "\\" line.trimBlankEnd = none
  errors : (parseEntry line).errors = []

instance (line : Text) : Decidable line.IsEntry :=
  decidable_of_iff (Text.trimSpace line ≠ Text.ofString "quit" ∧
      Text.dropSuffix? "\\" line.trimBlankEnd = none ∧ (parseEntry line).errors = [])
    ⟨fun ⟨hstays, hends, herrors⟩ => ⟨hstays, hends, herrors⟩, fun h => ⟨h.stays, h.ends, h.errors⟩⟩

namespace Session
variable {s : Session} {line : Text}

/-- A session that continues nothing takes the line as it stands. -/
theorem ready?_of_isEntry (h : line.IsEntry) (hbuffer : s.buffer = [])
    (hcontinuation : s.options.continuation = Text.ofString "\\") :
    s.ready? line = some (parseEntry line.line) := by
  have hends := h.ends
  rw [← Text.trimBlankEnd_line] at hends
  simp [ready?, hbuffer, hcontinuation, h.stays, hends, trimSpace_line_ne_nil h.errors,
    (parseEntry_line h.errors).1]

/-- A session with nothing to report, and a machine that has run the same statements. -/
structure Follows (s : Session) (m : Machine) : Prop where
  rested : s.Rested
  agree : Agree s.types s.vars
  buffer : s.buffer = []
  continuation : s.options.continuation = Text.ofString "\\"
  alike : s.interpreter.machine.Alike m
  diagnostics : s.transcript.diagnostics = []

end Session

/-- Without tracing, the trace of a parse is empty. -/
theorem Step.traces_off (log : List Step) : Step.traces {} log = [] := by
  refine List.flatMap_eq_nil_iff.mpr fun step _ => ?_
  cases step <;> rfl

namespace Interpreter
variable {i : Interpreter}

theorem trace_of_quiet (h : i.machine.tracing = {}) (log : List Step) :
    (i.trace log).machine = i.machine.wrote [⟨.trace, []⟩] := by
  rw [trace, h, Step.traces_off]
  rfl

end Interpreter

namespace Stmt.Carries
variable {source line : Text} {ss : List Stmt}

theorem complaintsAll_iff (h : Carries source line ss) (types : Scope Ty)
    (tokens tokens' : List Token) :
    complaintsAll tokens' types ss = [] ↔
      complaintsAll tokens types (parseEntry line.line).program.stmts = [] := by
  obtain ⟨f, hf, rfl, -⟩ := h
  exact complaintsAll_mapAll hf types _ tokens tokens'

theorem declareAll_eq (h : Carries source line ss) (types : Scope Ty) :
    declareAll types ss = declareAll types (parseEntry line.line).program.stmts := by
  obtain ⟨f, hf, rfl, -⟩ := h
  exact declareAll_mapAll hf types _

/-- The statements of a line and those of the source that they became run to their ends side by
side. -/
theorem exec (h : Carries source line ss) (hline : (parseEntry line.line).errors = [])
    (hsource : (parseProgram source).errors = [])
    (hss : ∀ s ∈ ss, s ∈ (parseProgram source).program.stmts) (hplain : ∀ t ∈ tokensOf ss, t.Plain)
    {types : Scope Ty} {m m' : Machine} (hagree : Agree types m.vars) (halike : m.Alike m')
    (hnil : complaintsAll (parseEntry line.line).program.tokens types
      (parseEntry line.line).program.stmts = []) :
    ∃ n n', (parseEntry line.line).program.exec m = (.ok (), n) ∧
      Program.exec ⟨ss, (parseProgram source).program.tokens⟩ m' = (.ok (), n') ∧ n.Alike n' ∧
      Agree (declareAll types (parseEntry line.line).program.stmts) n.vars := by
  obtain ⟨f, hf, rfl, hgap⟩ := h
  obtain ⟨-, hformed, -⟩ := Parser.readSource_sound .entry line.line hline
  have hordered : Token.Ordered (tokensOf (parseEntry line.line).program.stmts) :=
    Parser.ordered_readSource .entry line.line
  have htokens : (parseEntry line.line).program.tokens = (Lexed.ofText line.line).tokens :=
    Parser.tokens_readSource .entry line.line
  have htokens' : (parseProgram source).program.tokens = (Lexed.ofText source).tokens :=
    Parser.tokens_readSource .program source
  have hplain' : ∀ t ∈ tokensOf (parseEntry line.line).program.stmts, t.Plain := by
    intro t ht
    have := hplain (f t) (by rw [tokensOf_mapAll]; exact List.mem_map_of_mem ht)
    rwa [Token.Plain, hf.kind, hf.text] at this
  have hshows : ∀ s ∈ (parseEntry line.line).program.stmts, s.ShowsSame f
      (parseEntry line.line).program.tokens (parseProgram source).program.tokens := by
    intro s hs
    have hmoved : s.map f ∈ (parseProgram source).program.stmts :=
      hss _ (by rw [mapAll_eq_map]; exact List.mem_map_of_mem hs)
    unfold ShowsSame
    split
    · next keyword opening body closing =>
      rw [htokens, htokens']
      refine simplified_map .entry .program hline hsource hf (mem_partsOf hs) (mem_partsOf hmoved)
        fun u hu => hgap u (mem_tail_tokensOf hs ?_)
      exact List.mem_cons_of_mem _ hu
    · trivial
  exact Program.exec_mapAll hf hagree halike hformed hordered hplain' hshows hnil

end Stmt.Carries

namespace Session.Follows
variable {s : Session} {m : Machine} {source line : Text} {ss : List Stmt}

/-- A line without complaints is run, and so is what it became in the source. -/
theorem accepted (h : s.Follows m) (hline : line.IsEntry) (hcarries : Stmt.Carries source line ss)
    (hsource : (parseProgram source).errors = [])
    (hss : ∀ s ∈ ss, s ∈ (parseProgram source).program.stmts)
    (hplain : ∀ t ∈ Stmt.tokensOf ss, t.Plain)
    (hnil : Stmt.complaintsAll (parseProgram source).program.tokens s.types ss = []) :
    ∃ n, Program.exec ⟨ss, (parseProgram source).program.tokens⟩ m = (.ok (), n) ∧
      (s.feed line).2.Follows n ∧ (s.feed line).2.types = Stmt.declareAll s.types ss := by
  have hready := ready?_of_isEntry hline h.buffer h.continuation
  have hfeed := feed_eq_of_ready? hready
  have hcons := h.rested.consistent_trace h.agree (parseEntry line.line).log
  have hmachine := Interpreter.trace_of_quiet h.alike.tracing (parseEntry line.line).log
  have halike : (s.interpreter.trace (parseEntry line.line).log).machine.Alike m := by
    rw [hmachine]
    exact h.alike.wrote_left rfl
  have hcomplaints :=
    (hcarries.complaintsAll_iff s.types (parseEntry line.line).program.tokens _).mp hnil
  obtain ⟨n, n', hn, hn', halike', hagree'⟩ := hcarries.exec (parseEntry_line hline.errors).1
    hsource hss hplain hcons.agree halike hcomplaints
  have hrun := Interpreter.run_of_complaintsAll_eq_nil hcons hcomplaints hn
  rw [hrun] at hfeed
  have htypes : (s.feed line).2.types = Stmt.declareAll s.types ss := by
    rw [hfeed, hcarries.declareAll_eq]
    rfl
  refine ⟨n', hn', ?_, htypes⟩
  have hagreed : Agree (s.feed line).2.types (s.feed line).2.vars := by
    rw [htypes, hcarries.declareAll_eq, hfeed]
    exact hagree'
  refine ⟨h.rested.feed h.agree line, hagreed, ?_, ?_, ?_, ?_⟩
  · rw [hfeed]
  · rw [hfeed]
    exact h.continuation
  · rw [hfeed]
    exact halike'
  · have hdiagnostics := (parseEntry line.line).program.diagnostics_exec
      (s.interpreter.trace (parseEntry line.line).log).machine
    rw [hn, hmachine] at hdiagnostics
    rw [transcript, hfeed]
    refine hdiagnostics.trans ?_
    rw [Machine.wrote, Transcript.diagnostics, Transcript.select_append]
    exact List.append_eq_nil_iff.mpr ⟨h.diagnostics, rfl⟩

/-- A line with complaints is reported. -/
theorem rejected (h : s.Follows m) (hline : line.IsEntry) (hcarries : Stmt.Carries source line ss)
    (tokens : List Token) (hcomplaints : Stmt.complaintsAll tokens s.types ss ≠ []) :
    (s.feed line).2.transcript.diagnostics ≠ [] := by
  have hready := ready?_of_isEntry hline h.buffer h.continuation
  have hcons := h.rested.consistent_trace h.agree (parseEntry line.line).log
  rw [transcript, feed_eq_of_ready? hready]
  refine (Interpreter.diagnostics_run_ne_nil hcons fun hnil => hcomplaints ?_).2
  exact (hcarries.complaintsAll_iff s.types _ tokens).mpr hnil

section
variable {lines : List Text} {chunks : List (List Stmt)}
  (hcarries : List.Forall₂ (Stmt.Carries source) lines chunks)
  (hlines : ∀ line ∈ lines, line.IsEntry) (hsource : (parseProgram source).errors = [])
  (hss : ∀ s ∈ chunks.flatten, s ∈ (parseProgram source).program.stmts)
  (hplain : ∀ t ∈ Stmt.tokensOf chunks.flatten, t.Plain)
include hcarries hlines hsource hss hplain

/-- Lines without complaints are run one after the other, and so is what they became in the
source. -/
theorem fed_accepted (h : s.Follows m)
    (hnil : Stmt.complaintsAll (parseProgram source).program.tokens s.types chunks.flatten = []) :
    ∃ n, Program.exec ⟨chunks.flatten, (parseProgram source).program.tokens⟩ m = (.ok (), n) ∧
      (s.fed lines).Follows n ∧ (s.fed lines).types = Stmt.declareAll s.types chunks.flatten := by
  induction hcarries generalizing s m with
  | nil => exact ⟨m, rfl, h, rfl⟩
  | @cons line ss lines chunks hhead _ ih =>
    rw [List.forall_mem_cons] at hlines
    rw [List.flatten_cons, List.forall_mem_append] at hss
    rw [List.flatten_cons, Stmt.tokensOf_append, List.forall_mem_append] at hplain
    rw [List.flatten_cons, Stmt.complaintsAll_append, List.append_eq_nil_iff] at hnil
    obtain ⟨n, hn, hfollows, htypes⟩ :=
      h.accepted hlines.1 hhead hsource hss.1 hplain.1 hnil.1
    rw [← htypes] at hnil
    obtain ⟨n', hn', hfollows', htypes'⟩ := ih hlines.2 hss.2 hplain.2 hfollows hnil.2
    refine ⟨n', ?_, hfollows', ?_⟩
    · rw [List.flatten_cons, Program.exec_append, hn]
      exact hn'
    · rw [List.flatten_cons, Stmt.declareAll, List.foldl_append]
      rw [htypes] at htypes'
      exact htypes'

/-- Among lines with complaints there is one that is reported. -/
theorem fed_rejected (h : s.Follows m) (hcomplaints :
      Stmt.complaintsAll (parseProgram source).program.tokens s.types chunks.flatten ≠ []) :
    (s.fed lines).transcript.diagnostics ≠ [] := by
  induction hcarries generalizing s m with
  | nil => exact absurd rfl hcomplaints
  | @cons line ss lines chunks hhead _ ih =>
    rw [List.forall_mem_cons] at hlines
    rw [List.flatten_cons, List.forall_mem_append] at hss
    rw [List.flatten_cons, Stmt.tokensOf_append, List.forall_mem_append] at hplain
    rw [List.flatten_cons, Stmt.complaintsAll_append] at hcomplaints
    by_cases hnil : Stmt.complaintsAll (parseProgram source).program.tokens s.types ss = []
    · obtain ⟨n, -, hfollows, htypes⟩ := h.accepted hlines.1 hhead hsource hss.1 hplain.1 hnil
      rw [hnil, List.nil_append, ← htypes] at hcomplaints
      exact ih hlines.2 hss.2 hplain.2 hfollows hcomplaints
    · -- The first line that is rejected: nothing later takes its report back.
      exact Transcript.diagnostics_ne_nil_of_prefix (prefix_fed _ lines)
        (h.rejected hlines.1 hhead _ hnil)

end

end Session.Follows

/-! ## All lines -/

namespace Session

/-- At the beginning there is nothing to report, and the trace of a parse is empty. -/
theorem follows_fresh (color logging : Bool) (log : List Step) :
    (fresh {} {} color logging).Follows (({ color } : Interpreter).trace log).machine where
  rested := rested_fresh {} {} color logging
  agree := Agree.empty
  buffer := rfl
  continuation := rfl
  alike := by
    rw [Interpreter.trace_of_quiet rfl]
    exact ⟨⟨rfl, fun _ => rfl⟩, rfl, rfl, rfl, rfl, rfl⟩
  diagnostics := rfl

/-- If the lines of a source are entries, and the source is read as their statements, then it is run
to its end if and only if a session that is fed the lines has nothing to report. In this case both
write the same output and leave the same types and, but for the places that they come from, the same
values. -/
theorem runSource_join_iff_fed (color logging : Bool) {lines : List Text}
    (hlines : ∀ line ∈ lines, line.IsEntry)
    (herrors : (parseProgram (Text.join [Text.newline] lines)).errors = [])
    (hstmts : Stmt.unplacedAll (parseProgram (Text.join [Text.newline] lines)).program.stmts =
      lines.flatMap fun line => Stmt.unplacedAll (parseEntry line).program.stmts)
    (hplain : ∀ t ∈ Stmt.tokensOf (parseProgram (Text.join [Text.newline] lines)).program.stmts,
      t.Plain) :
    let ran := ({ color } : Interpreter).runSource (Text.join [Text.newline] lines)
    let s := (fresh {} {} color logging).fed lines
    (ran.1 = .ok () ↔ s.transcript.diagnostics = []) ∧
      (ran.1 = .ok () → s.transcript.output = ran.2.machine.transcript.output ∧
        s.vars.SameData ran.2.machine.vars ∧ s.types = ran.2.checker.types) := by
  obtain ⟨chunks, hchunks, hcarries⟩ :=
    Stmt.exists_carries_join (fun line hline => (hlines line hline).errors) herrors hstmts
  generalize Text.join [Text.newline] lines = source at *
  intro ran s
  have hfollows := follows_fresh color logging (parseProgram source).log
  have hcons : (({ color } : Interpreter).trace (parseProgram source).log).Consistent :=
    .initial _ color rfl
  have hran : ran = ((({ color } : Interpreter).trace (parseProgram source).log).run
      (parseProgram source).program).map id Interpreter.reset := by
    simp [ran, Interpreter.runSource_eq, herrors, Prod.map]
  have hss : ∀ s ∈ chunks.flatten, s ∈ (parseProgram source).program.stmts := by
    rw [hchunks]
    exact fun s hs => hs
  rw [hchunks] at hplain
  by_cases hnil : Stmt.complaintsAll (parseProgram source).program.tokens {} chunks.flatten = []
  · obtain ⟨n, hn, hfed, htypes⟩ :=
      Follows.fed_accepted hcarries hlines herrors hss hplain hfollows hnil
    rw [← hchunks] at hnil hn htypes
    rw [Interpreter.run_of_complaintsAll_eq_nil hcons hnil hn] at hran
    have hok : ran.1 = .ok () := by rw [hran]; rfl
    refine ⟨iff_of_true hok hfed.diagnostics, fun _ => ?_⟩
    rw [hran]
    exact ⟨hfed.alike.output, hfed.alike.vars, htypes⟩
  · have hreported := Follows.fed_rejected hcarries hlines herrors hss hplain hfollows hnil
    rw [← hchunks] at hnil
    have hinvalid := (Interpreter.diagnostics_run_ne_nil hcons hnil).1
    have hfails : ran.1 ≠ .ok () := by
      rw [hran, Prod.map_fst, hinvalid]
      simp
    exact ⟨iff_of_false hfails hreported, fun hok => absurd hok hfails⟩

theorem runSource_join_iff_fed_inspecting :
    let lines : List Text := ["a = 2 b = 'x' // two",
      "refactor \x7b 0 + a  \x7d tree \x7b a \x7d", "vars", "  print a b"]
    let ran := ({} : Interpreter).runSource (Text.join [Text.newline] lines)
    let s := (fresh {} {} false false).fed lines
    ran.1 = .ok () ∧ s.transcript.diagnostics = [] ∧
      s.transcript.output = ran.2.machine.transcript.output ∧
      s.vars.SameData ran.2.machine.vars ∧ s.types = ran.2.checker.types := by
  intro lines ran s
  obtain ⟨hiff, hsame⟩ := @runSource_join_iff_fed false false lines (by decide +kernel)
    (by decide +kernel) (by decide +kernel) (by decide +kernel)
  have hnothing : s.transcript.diagnostics = [] := by decide +kernel
  subst ran s
  have hok := hiff.mpr hnothing
  exact ⟨hok, hnothing, hsame hok⟩

end Session
end Reckoner
