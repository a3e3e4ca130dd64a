import Reckoner.Proofs.Listening

/-!
# The trace of a parse

Who listens to the parser hears of rules that are entered and left and of tokens that are passed.
The parser returns early from wherever it finds a fault, and it passes tokens that it cannot use in
three ways: one that begins no statement, one in front of an operand, and any number of them after
a statement that failed. This module shows that the trace stays in order all the same.
`Step.openAfter` replays a trace on a stack of open rules. `Traced` is what a state of the parser
has in common with what was heard so far, and `Reads.traced` keeps it, rule by rule. For whole
sources it gives `parse_accounts`.
-/
namespace Reckoner

namespace Step

/-- The token that a step passes. -/
def consumed? : Step → Option Token
  | consume t _ => some t
  | _ => none

/-- The rules that are open after a step, the innermost first. Only the innermost one may be left,
and tokens may only be passed in it. -/
def nest (opened : List Rule) : Step → Option (List Rule)
  | create _ | fault _ => some opened
  | enter rule _ => some (rule :: opened)
  | consume _ rule => if opened.head? = some rule then some opened else none
  | exit rule _ => if opened.head? = some rule then some opened.tail else none

/-- The rules that are open after a whole log, if it is well nested. -/
def openAfter (log : List Step) : Option (List Rule) := log.foldlM nest []

/-- A step that opens and leaves no rule and passes no token. -/
def Silent (s : Step) : Prop := s.consumed? = none ∧ ∀ opened, s.nest opened = some opened

theorem silent_create (t : Token) : (create t).Silent := ⟨rfl, fun _ => rfl⟩

theorem silent_fault (e : SyntaxError) : (fault e).Silent := ⟨rfl, fun _ => rfl⟩

theorem silent_steps (i : Item) : ∀ s ∈ i.steps, s.Silent := by
  intro s hs
  rcases List.mem_append.mp hs with hs | hs
  · obtain ⟨e, -, rfl⟩ := List.mem_map.mp hs
    exact silent_fault e
  · rw [List.mem_singleton.mp hs]
    exact silent_create i.token

/-- Who hears the parser misses silent steps only. -/
theorem silent_of_not_heard {hooks : TraceFlags} (h : hooks.parser = true) {s : Step}
    (hs : s.heard hooks = false) : s.Silent := by
  cases s with
  | create t => exact silent_create t
  | fault e => exact silent_fault e
  | _ => simp [heard, h] at hs

/-- Silent steps may be left out. -/
theorem foldlM_nest_filter {keep : Step → Bool} {log : List Step}
    (h : ∀ s ∈ log, keep s = false → s.Silent) (opened : List Rule) :
    (log.filter keep).foldlM nest opened = log.foldlM nest opened := by
  induction log generalizing opened with
  | nil => rfl
  | cons s log ih =>
    rw [List.forall_mem_cons] at h
    cases hk : keep s with
    | true => simp [hk, ih h.2]
    | false => simp [hk, ih h.2, (h.1 hk).2]

theorem consumed_filter {keep : Step → Bool} {log : List Step}
    (h : ∀ s ∈ log, keep s = false → s.Silent) :
    (log.filter keep).filterMap consumed? = log.filterMap consumed? := by
  induction log with
  | nil => rfl
  | cons s log ih =>
    rw [List.forall_mem_cons] at h
    cases hk : keep s with
    | true => simp [List.filterMap_cons, hk, ih h.2]
    | false => simp [hk, ih h.2, (h.1 hk).1]

theorem foldlM_nest_of_silent {log : List Step} (h : ∀ s ∈ log, s.Silent) (opened : List Rule) :
    log.foldlM nest opened = some opened := by
  have hleft : (log.filter fun _ => false).foldlM nest opened = log.foldlM nest opened :=
    foldlM_nest_filter (fun s hs _ => h s hs) opened
  rw [← hleft, List.filter_eq_nil_iff.mpr (by simp)]
  rfl

theorem openAfter_noted {log : List Step} {s : Step} {opened opened' : List Rule}
    (h : openAfter log.reverse = some opened) (hs : s.nest opened = some opened') :
    openAfter (s :: log).reverse = some opened' := by
  rw [openAfter] at h ⊢
  simp [List.foldlM_append, h, hs]

end Step

/-! ## Single steps -/

namespace ParseState

/-- What a state has in common with what was heard up to it: the rules that are open, and the
tokens of the source, of which those that were passed are followed by those that are left. -/
structure Traced (all : List Token) (opened : List Rule) (st : ParseState) : Prop where
  ends : st.Ends
  opened : Step.openAfter st.log.reverse = some opened
  consumed : st.log.reverse.filterMap Step.consumed? ++ st.rest.map Word.token = all

namespace Traced
variable {all : List Token} {opened : List Rule} {rule : Rule} {st : ParseState}

/-- Silent steps change nothing. -/
theorem of_silent {st' : ParseState} (h : st.Traced all opened) (hrest : st'.rest = st.rest)
    (hlast : st'.last = st.last) {more : List Step} (hlog : st'.log = more.reverse ++ st.log)
    (hs : ∀ s ∈ more, s.Silent) : st'.Traced all opened where
  ends := by
    rw [Ends, hlast]
    exact h.ends
  opened := by
    have hopened := h.opened
    rw [Step.openAfter] at hopened ⊢
    simp [hlog, List.foldlM_append, hopened, Step.foldlM_nest_of_silent hs]
  consumed := by
    have hnone : more.filterMap Step.consumed? = [] :=
      List.filterMap_eq_nil_iff.mpr fun s hm => (hs s hm).1
    simpa [hlog, hrest, hnone] using h.consumed

theorem creating (h : st.Traced all opened) (w : Word) : (st.creating w).Traced all opened := by
  refine h.of_silent rfl rfl rfl fun s hs => ?_
  obtain ⟨i, -, hs⟩ := List.mem_flatMap.mp hs
  exact Step.silent_steps i s hs

theorem looked (h : st.Traced all opened) : st.looked.Traced all opened := h.creating _

theorem peeked (h : st.Traced all opened) : st.peeked.Traced all opened := h.looked.creating _

theorem probed (h : st.Traced all opened) : st.probed.Traced all opened := by
  unfold ParseState.probed
  split
  · exact h.looked.peeked
  · exact h.looked

theorem noted (h : st.Traced all opened) {s : Step} {opened' : List Rule}
    (hnest : s.nest opened = some opened') (hnone : s.consumed? = none) :
    (st.noted s).Traced all opened' where
  ends := h.ends.noted
  opened := Step.openAfter_noted h.opened hnest
  consumed := by
    have hsingle : [s].filterMap Step.consumed? = [] := by simp [hnone]
    simpa [ParseState.noted, hsingle] using h.consumed

theorem fault (h : st.Traced all opened) (e : SyntaxError) :
    (st.noted (.fault e)).Traced all opened := h.noted rfl rfl

/-- A rule that is entered is the innermost one. -/
theorem entered (h : st.Traced all opened) (rule : Rule) :
    (st.entered rule).Traced all (rule :: opened) := h.looked.noted rfl rfl

/-- The innermost rule is left. -/
theorem exited (h : st.Traced all (rule :: opened)) : (st.exited rule).Traced all opened :=
  h.looked.noted (by simp [Step.nest]) rfl

/-- The token that is passed is the next one of the source. -/
theorem passed (h : st.Traced all (rule :: opened)) (hk : st.token.kind ≠ .eof) :
    (st.passed rule).Traced all (rule :: opened) := by
  obtain ⟨w, ws, hw⟩ := List.exists_cons_of_ne_nil (h.ends.rest_ne_nil hk)
  refine Traced.looked ⟨h.ends, Step.openAfter_noted h.looked.opened (by simp [Step.nest]), ?_⟩
  have hconsumed := h.looked.consumed
  simp only [rest_looked, hw, List.map_cons] at hconsumed
  simpa [ParseState.noted, Step.consumed?, hw, token_of_rest_eq_cons hw] using hconsumed

/-- At the end of a source the end of input is passed, once. -/
theorem passed_last (h : st.Traced all (rule :: opened)) (hr : st.rest = []) :
    (st.passed rule).Traced (all ++ [st.last.token]) (rule :: opened) := by
  refine Traced.looked ⟨h.ends, Step.openAfter_noted h.looked.opened (by simp [Step.nest]), ?_⟩
  have hconsumed := h.looked.consumed
  rw [← hconsumed]
  simp [ParseState.noted, Step.consumed?, hr, token_of_rest_eq_nil hr]

/-- Skipping passes tokens in the rule of the statements. -/
theorem skips {line : Nat} {closing : TokenKind} {st' : ParseState}
    (hs : Skips line closing rule st st') (h : st.Traced all (rule :: opened)) :
    st'.Traced all (rule :: opened) := by
  induction hs with
  | stop _ => exact h.looked
  | step hend _ ih => exact ih (h.looked.passed fun hk => hend (.inl (.inl hk)))

/-- A source is read inside its rule. -/
theorem opening (h : st.Traced all []) (rule : Rule) : (st.opened rule).Traced all [rule] := by
  unfold ParseState.opened
  split
  · split
    · exact (h.entered rule).looked.fault _
    · exact (h.entered rule).looked
  · exact h.entered rule

end Traced
end ParseState

open ParseState

/-! ## Whatever is read -/

/-- The rules that are open while something is read: those around it and perhaps one of its own. -/
def Goal.around {p : Phrase} : Goal p → List Rule → List Rule
  | climb _ _, opened | unary, opened => .expr :: opened
  | stmts _ rule, opened => rule :: opened
  | _, opened => opened

/-- An inspection is only read from its keyword on. -/
def Goal.Ready {p : Phrase} : Goal p → TokenKind → Prop
  | inspection _, k => k ≠ .eof
  | _, _ => True

/-- Reading leaves the rules open that it found open, and passes the tokens one by one, whether it
succeeds or fails. -/
theorem Reads.traced {all : List Token} {p : Phrase} {g : Goal p} {st st' : ParseState}
    {o : Except SyntaxError p.Tree} (h : Reads g st o st') (hg : g.Ready st.token.kind)
    {opened : List Rule} (ht : st.Traced all (g.around opened)) :
    st'.Traced all (g.around opened) := by
  -- A premise is read with one more rule open if its phrase lies in one, and gives back what it
  -- found; the kind of a token that is passed in between says that it is not the end of input.
  induction h generalizing opened with
  | exprFail _ ih => exact (ih trivial (ht.entered .expr)).exited
  | expr _ _ ih ihc => exact (ihc trivial (ih trivial (ht.entered .expr))).exited
  | climbStop _ => exact ht.looked
  | binaryFail hop _ _ ih =>
    exact ih trivial (ht.looked.passed (BinaryOp.ne_eof_of_ofToken? hop))
  | binary hop _ _ _ ih ihc =>
    exact ihc trivial (ih trivial (ht.looked.passed (BinaryOp.ne_eof_of_ofToken? hop)))
  | thenFail hq _ _ ih => exact ih trivial (ht.looked.passed (by simp [hq]))
  | colonFail hq _ _ _ ih => exact (ih trivial (ht.looked.passed (by simp [hq]))).looked
  | elseFail hq _ _ hcol _ ih ihe =>
    have hthen := ih trivial (ht.looked.passed (by simp [hq]))
    exact ihe trivial (hthen.looked.passed (by simp [hcol]))
  | ternary hq _ _ hcol _ _ ih ihe ihc =>
    have hthen := ih trivial (ht.looked.passed (by simp [hq]))
    exact ihc trivial (ihe trivial (hthen.looked.passed (by simp [hcol])))
  | unaryPrimary _ _ ih => exact ih trivial ht.looked
  | unary hop _ ih => exact ih trivial (ht.looked.passed (UnaryOp.ne_eof_of_ofToken? hop))
  | literal hk => exact ((ht.entered .primary).looked.passed hk.ne_eof).exited
  | identifier hk => exact ((ht.entered .primary).looked.passed (by simp [hk])).exited
  | innerFail hk _ ih =>
    exact (ih trivial ((ht.entered .primary).looked.passed (by simp [hk]))).exited
  | closeFail hk _ _ ih =>
    exact (ih trivial ((ht.entered .primary).looked.passed (by simp [hk]))).looked.exited
  | paren hk _ hcl ih =>
    have hinner := ih trivial ((ht.entered .primary).looked.passed (by simp [hk]))
    exact (hinner.looked.passed (by simp [hcl])).exited
  | primaryEnd _ => exact (ht.entered .primary).looked.looked.exited
  | primaryFail _ _ _ _ _ => exact (ht.entered .primary).looked.peeked.looked.exited
  | skip _ _ _ heof _ _ ih =>
    exact (ih trivial (((ht.entered .primary).looked.peeked.fault _).passed heof)).exited
  | argsStop _ => exact ht.looked
  | argsAssign _ _ => exact ht.probed
  | argFail _ _ _ ih => exact ih trivial ht.probed
  | arg _ _ _ _ ih ihm => exact ihm trivial (ih trivial ht.probed)
  | stmtsDone _ => exact ht.looked
  | extraneous h _ _ ih =>
    exact ih trivial ((ht.looked.fault _).passed fun hk => h (.inr hk))
  | recover _ _ _ hsk _ ihs ihm =>
    exact ihm trivial (.skips hsk ((ihs trivial ht.looked).fault _))
  | stmts _ _ _ _ ihs ihm => exact ihm trivial (ihs trivial ht.looked)
  | assign hid ha _ ih =>
    have hname := (ht.entered .stmt).probed.passed (by simp [hid])
    exact (ih trivial (hname.looked.passed (by simp [ha]))).exited
  | exprStmt _ _ _ _ _ ih => exact (ih trivial (ht.entered .stmt).probed).exited
  | printFail hk _ ih => exact (ih trivial ((ht.entered .stmt).looked.passed (by simp [hk]))).exited
  | print hk _ _ ih ihm =>
    have harg := ih trivial ((ht.entered .stmt).looked.passed (by simp [hk]))
    exact (ihm trivial harg).exited
  | vars hk => exact ((ht.entered .stmt).looked.passed (by simp [hk])).exited
  | inspect hk _ ih => exact (ih (by simp [Goal.Ready, hk]) (ht.entered .stmt).looked).exited
  | blockFail hb _ _ ih =>
    have hkeyword := (ht.entered .inspect).passed hg
    exact (ih trivial (hkeyword.looked.passed (by simp [hb]))).looked.exited
  | block hb _ hcl ih =>
    have hkeyword := (ht.entered .inspect).passed hg
    have hbody := ih trivial (hkeyword.looked.passed (by simp [hb]))
    exact (hbody.looked.passed (by simp [hcl])).exited
  | wrap hi _ _ ih =>
    have hkeyword := (ht.entered .inspect).passed hg
    exact (ih (by simp [Goal.Ready, hi]) hkeyword.looked).exited
  | inspectFail _ _ => exact ((ht.entered .inspect).passed hg).looked.looked.exited

/-! ## Whole sources -/

/-- What is read of a source passes all its tokens and leaves no rule open. -/
theorem Reads.traced_closed {rule : Rule} {t : Text} {o : Except SyntaxError (List Stmt)}
    {st : ParseState} (h : Reads (.stmts .eof rule) ((Parser.ofText t).start rule) o st) :
    (st.closed rule).log.reverse.filterMap Step.consumed? =
        (Lexed.ofText t).visible ++ [(Lexed.ofText t).last.token] ∧
      Step.openAfter (st.closed rule).log.reverse = some [] := by
  have hend := Parser.ends_start_ofText rule t
  have hreaches := (h.consumes hend).reaches
  have hunread : (Parser.ofText t).unread.Traced (Lexed.ofText t).visible [] := by
    refine ⟨by simpa [ParseState.Ends, Parser.start_eq] using hend, rfl, ?_⟩
    simp [Parser.unread, Word.map_token_group, Lexed.visible, Parser.lexed_ofText]
  have hread : st.Traced (Lexed.ofText t).visible [rule] :=
    h.traced trivial (hunread.opening rule)
  have hrest := Parser.rest_eq_nil_of_reads h
  have hlast : st.last.token = (Lexed.ofText t).last.token := by
    rw [hreaches.last, Parser.last_start, Parser.lexed_ofText]
  have hclosed := (hread.passed_last hrest).exited
  refine ⟨?_, hclosed.opened⟩
  have hconsumed := hclosed.consumed
  rw [rest_exited, rest_passed, hrest, hlast, List.tail_nil, List.map_nil, List.append_nil]
    at hconsumed
  exact hconsumed

/-- What a trace tells about its source. -/
structure Parsed.Accounts (t : Text) (hooks : TraceFlags) (rule : Rule) (parsed : Parsed) :
    Prop where
  /-- The lexer stops at the end of the text and not before. -/
  scanned : (lexemes t).flatMap Lexeme.text = t
  /-- The parser comes to its end by the rules, which know no fuel, and what it finds there does
  not depend on the fuel, from that which it gives itself on. -/
  finishes : ∃ st,
    Reads (.stmts .eof rule) ((Parser.ofText t).start rule) (.ok parsed.program.stmts) st ∧
      ∀ fuel, Grammar.fuelFor (Parser.ofText t).unread.rest.length ≤ fuel →
        Grammar.source hooks rule fuel (Parser.ofText t).unread =
          (.ok parsed.program.stmts, (st.closed rule).heard hooks)
  /-- The tokens that are passed are those that are not hidden, in the same order. -/
  consumed : parsed.log.filterMap Step.consumed? = (Lexed.ofText t).tokens.filter (!·.hidden)
  /-- None of them is passed twice. -/
  once : Token.Ordered (parsed.log.filterMap Step.consumed?)
  /-- The end of input is passed last. -/
  last : ∃ us eof, parsed.log.filterMap Step.consumed? = us ++ [eof] ∧ eof.kind = .eof ∧
    ∀ u ∈ us, u.kind ≠ .eof
  /-- Rules are left in the opposite order in which they are entered, none stays open, and tokens
  are passed in the innermost one. -/
  nested : Step.openAfter parsed.log = some []

/-- What a source tells who listens while it is read. -/
theorem Parser.log_readSource (rule : Rule) (t : Text) (hooks : TraceFlags) :
    ∃ ss st, Reads (.stmts .eof rule) ((ofText t).start rule) (.ok ss) st ∧
      (∀ fuel, Grammar.fuelFor (ofText t).unread.rest.length ≤ fuel →
        Grammar.source hooks rule fuel (ofText t).unread =
          (.ok ss, (st.closed rule).heard hooks)) ∧
      ((ofText t).readSource rule hooks).1.program.stmts = ss ∧
      ((ofText t).readSource rule hooks).1.log =
        (st.closed rule).log.reverse.filter (Step.heard hooks) := by
  have hend : ((ofText t).unread.opened rule).Ends := ends_start_ofText rule t
  obtain ⟨ss, st, hread, hall⟩ := Grammar.exists_reads_source hend
  have hsource : ∀ fuel, Grammar.fuelFor (ofText t).unread.rest.length ≤ fuel →
      Grammar.source hooks rule fuel (ofText t).unread =
        (.ok ss, (st.closed rule).heard hooks) := by
    intro fuel hfuel
    obtain ⟨n, rfl⟩ : ∃ n, fuel = n + 1 := ⟨fuel - 1, by rw [Grammar.fuelFor] at hfuel; omega⟩
    have hheard := Grammar.source_heard hooks (Lexed.numbered_ofText t) rule n (logged_unread t)
    rw [hall _ hfuel] at hheard
    exact hheard
  have hrun := hsource _ (Nat.le_refl _)
  simp only [unread] at hrun
  refine ⟨ss, st, hread, hsource, ?_, ?_⟩
  · simp only [readSource, hrun]
  · simp only [readSource, hrun, ParseState.heard, List.filter_reverse]

theorem Parser.readSource_accounts (rule : Rule) (t : Text) {hooks : TraceFlags}
    (hhooks : hooks.parser = true) :
    ((ofText t).readSource rule hooks).1.Accounts t hooks rule := by
  obtain ⟨ss, st, hread, hsource, hstmts, hlog⟩ := log_readSource rule t hooks
  have hsilent : ∀ s ∈ (st.closed rule).log.reverse, s.heard hooks = false → s.Silent :=
    fun s _ hs => Step.silent_of_not_heard hhooks hs
  obtain ⟨hpassed, hnested⟩ := hread.traced_closed
  have hconsumed : ((ofText t).readSource rule hooks).1.log.filterMap Step.consumed? =
      (Lexed.ofText t).visible ++ [(Lexed.ofText t).last.token] := by
    rw [hlog, Step.consumed_filter hsilent, hpassed]
  have hshown : (Lexed.ofText t).tokens.filter (!·.hidden) =
      (Lexed.ofText t).visible ++ [(Lexed.ofText t).last.token] := by
    have hhidden : (Lexed.ofText t).last.token.hidden = false := by
      rw [Token.hidden, Lexed.kind_last_ofText]
      rfl
    simp [Lexed.tokens, Lexed.all, Lexed.visible, hhidden]
  exact {
    scanned := flatMap_text_lexemes t
    finishes := ⟨st, hstmts ▸ hread, hstmts ▸ hsource⟩
    consumed := hconsumed.trans hshown.symm
    once := by
      rw [hconsumed, ← hshown]
      exact (Lexed.ordered_tokens_ofText t).filter _
    last := ⟨_, _, hconsumed, Lexed.kind_last_ofText t,
      fun u hu => Lexed.kind_ne_eof_of_mem_visible hu⟩
    nested := by
      rw [hlog, Step.openAfter, Step.foldlM_nest_filter hsilent]
      exact hnested }

/-- Whatever a text holds, parsing it comes to an end, and who listens hears of every token that is
not hidden, once and in order, and of rules that are entered and left like brackets. -/
theorem parse_accounts (t : Text) {hooks : TraceFlags} (hhooks : hooks.parser = true) :
    (parseProgram t hooks).Accounts t hooks .program ∧
      (parseEntry t hooks).Accounts t hooks .entry :=
  ⟨Parser.readSource_accounts .program t hhooks, Parser.readSource_accounts .entry t hhooks⟩

theorem parse_accounts_recovering :
    let t : Text := "tree \x7b ) a\x0a= \x7d b ? ( 2 *\x0aprint * 5 -"
    let parsed := parseProgram t ⟨false, true⟩
    parsed.errors.length = 4 ∧
      parsed.log.filterMap Step.consumed? = (Lexed.ofText t).tokens.filter (!·.hidden) ∧
      Step.openAfter parsed.log = some [] := by
  intro t parsed
  have haccounts := (parse_accounts t (show TraceFlags.parser ⟨false, true⟩ = true from rfl)).1
  exact ⟨by decide +kernel, haccounts.consumed, haccounts.nested⟩

end Reckoner
