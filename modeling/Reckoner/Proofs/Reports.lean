import Reckoner.Proofs.Verdicts

/-!
# What a parse reports

The errors of a parse come from the lexer and from the parser, in the order in which they are found.
Those of the lexer are reported when an item is created, so that they stand in source order, and an
objection to the end of input comes after all of them, since everything was created by then.

For a whole source this says what its errors are made of: those of the lexer are the faults of its
tokens (`Parser.filter_isLexical_errors`), and the first of the others is the verdict on the kinds
of its tokens (`Parser.judges_kinds`). If the first error of all objects to the end of input, then
no token is faulty (`Parser.faults_eq_nil_of_atEnd`).
-/
namespace Reckoner

open ParseState TokenKind

/-! ## The faults of the lexer -/

/-- The items of a word that are created now come right after those created before. -/
theorem take_created {all before after : List Item} {w : Word} {created : Nat}
    (hall : Token.Numbered 0 (all.map Item.token)) (hw : all = before ++ (w.items ++ after))
    (hc : before.length ≤ created) :
    all.take (created + (w.items.filter (created ≤ ·.token.index)).length) =
      all.take created ++ w.items.filter (created ≤ ·.token.index) := by
  have hnumbered : Token.Numbered before.length (w.items.map Item.token) := by
    rw [hw, List.map_append, Token.numbered_append, List.map_append, Token.numbered_append] at hall
    simpa using hall.2.1
  rw [List.take_add, filter_index_eq_drop hnumbered]
  congr 1
  rw [hw, List.drop_append, List.drop_eq_nil_of_le hc, List.nil_append, List.drop_append,
    List.take_left']
  rfl

theorem faults_creating (st : ParseState) (w : Word) :
    Step.faults (st.creating w).log =
      ((w.items.filter (st.created ≤ ·.token.index)).flatMap Item.faults).reverse ++
        Step.faults st.log := by
  have hsteps (i : Item) : i.steps.filterMap Step.fault? = i.faults := by
    have hmap : (i.faults.map Step.fault).filterMap Step.fault? = i.faults := by
      rw [List.filterMap_map]
      exact List.filterMap_some
    simp [Item.steps, hmap, Step.fault?]
  simp only [Step.faults, ParseState.creating, List.filterMap_append, List.filterMap_reverse,
    List.filterMap_flatMap, hsteps]

namespace ParseState

/-- The faults of the items that were created are in the log, in order and without others of the
lexer, and if the first error objects to the end of input then there are none. -/
structure Reported (all : List Item) (st : ParseState) : Prop
    extends Logged all st, Sourced st where
  order : ((Step.faults st.log).filter (·.isLexical)).reverse =
    (all.take st.created).flatMap Item.faults
  late : ∀ e, (Step.faults st.log).getLast? = some e → e.isLexical = false → e.atEnd = true →
    all.flatMap Item.faults = []

namespace Reported
variable {all : List Item} {st : ParseState}

theorem noted (h : st.Reported all) {s : Step} (hs : s.fault? = none) :
    (st.noted s).Reported all := by
  have hsame : Step.faults (st.noted s).log = Step.faults st.log := by
    simp [Step.faults, ParseState.noted, hs]
  exact ⟨h.toLogged.noted s, h.toSourced.noted s, hsame ▸ h.order, hsame ▸ h.late⟩

/-- The parser objects to the end of input only when all items were created. -/
theorem objected (h : st.Reported all) {e : SyntaxError} (he : e.isLexical = false)
    (hend : e.atEnd = true → all.length ≤ st.created) :
    (st.noted (.fault e)).Reported all := by
  have hfaults : Step.faults (st.noted (.fault e)).log = e :: Step.faults st.log := rfl
  refine ⟨h.toLogged.noted _, h.toSourced.noted _, ?_, fun f hf hlex hatEnd => ?_⟩
  · rw [hfaults, List.filter_cons_of_neg (by simp [he])]
    exact h.order
  · rw [hfaults] at hf
    cases hlog : Step.faults st.log with
    | nil =>
      have horder := h.order
      rw [hlog] at hf horder
      cases hf
      rwa [List.take_of_length_le (hend hatEnd), eq_comm] at horder
    | cons g gs =>
      rw [hlog, List.getLast?_cons_cons, ← hlog] at hf
      exact h.late f hf hlex hatEnd

section
variable (hall : Token.Numbered 0 (all.map Item.token))
include hall

theorem creating (h : st.Reported all) {before after : List Item} {w : Word}
    (hmem : w ∈ st.last :: st.rest) (hw : all = before ++ (w.items ++ after))
    (hc : before.length ≤ st.created) : (st.creating w).Reported all := by
  have hfresh : ∀ f ∈ (w.items.filter (st.created ≤ ·.token.index)).flatMap Item.faults,
      f.isLexical = true := by
    intro f hf
    obtain ⟨i, hi, hf⟩ := List.mem_flatMap.mp hf
    exact h.lexical w hmem i (List.mem_filter.mp hi).1 f hf
  refine ⟨(h.toLogged.creating hall hw hc).1, ((Reaches.refl st).creating w).sourced h.toSourced,
    ?_, fun e he hlex hatEnd => ?_⟩
  · have htake := take_created hall hw hc
    rw [faults_creating, List.filter_append, List.reverse_append, h.order, List.filter_reverse,
      List.reverse_reverse, List.filter_eq_self.mpr hfresh]
    simp only [ParseState.creating, htake, List.flatMap_append]
  · rw [faults_creating] at he
    cases hlog : Step.faults st.log with
    | nil =>
      rw [hlog, List.append_nil] at he
      have hmem := hfresh e (List.mem_reverse.mp (List.mem_of_getLast? he))
      simp [hlex] at hmem
    | cons g gs =>
      rw [List.getLast?_append_of_ne_nil _ (by simp [hlog])] at he
      exact h.late e he hlex hatEnd

theorem looked (h : st.Reported all) : st.looked.Reported all := by
  obtain ⟨before, after, hw, hc⟩ := h.exists_word
  exact h.creating hall (word_mem st) hw hc

theorem peeked (h : st.Reported all) : st.peeked.Reported all := by
  obtain ⟨before, after, hw, hc⟩ := h.exists_peeked hall
  exact (h.looked hall).creating hall (peeked_mem st) hw hc

theorem probed (h : st.Reported all) : st.probed.Reported all := by
  unfold ParseState.probed
  split
  · exact (h.looked hall).peeked hall
  · exact h.looked hall

theorem entered (h : st.Reported all) (rule : Rule) : (st.entered rule).Reported all :=
  (h.looked hall).noted rfl

theorem exited (h : st.Reported all) (rule : Rule) : (st.exited rule).Reported all :=
  (h.looked hall).noted rfl

theorem passed (h : st.Reported all) (rule : Rule) : (st.passed rule).Reported all := by
  have hnoted := (h.looked hall).noted (s := .consume st.token rule) rfl
  have hconsumed : Reported all { st.looked.noted (.consume st.token rule) with
      rest := st.rest.tail } :=
    ⟨h.toLogged.consumed hall rule, h.toSourced.consumed rule, hnoted.order, hnoted.late⟩
  exact hconsumed.looked hall

theorem skips (h : st.Reported all) {line : Nat} {closing : TokenKind} {rule : Rule}
    {st' : ParseState} (hs : Skips line closing rule st st') : st'.Reported all := by
  induction hs with
  | stop _ => exact h.looked hall
  | step _ _ ih => exact ih ((h.looked hall).passed hall rule)

/-- At the end of input everything was created. -/
theorem created_of_eof (h : st.Reported all) (hk : st.token.kind = .eof) :
    all.length ≤ st.looked.created := by
  have hnil : st.rest = [] := by simpa [kinds] using h.kind_token_eq_eof_iff.mp hk
  exact h.created_of_rest_eq_nil hall hnil

end
end Reported
end ParseState

theorem created_le_exited (st : ParseState) (rule : Rule) :
    st.created ≤ (st.exited rule).created := by
  rw [ParseState.exited, ParseState.noted, ParseState.looked, ParseState.creating]
  exact Nat.le_add_right _ _

/-- An outcome with a state that is reached with it. An error at the end of input comes only after
everything was created. -/
structure Reports {α : Type} (all : List Item) (o : Except SyntaxError α) (st : ParseState) :
    Prop where
  reported : st.Reported all
  created : ∀ e, o = .error e → e.atEnd = true → all.length ≤ st.created

namespace Reports
variable {α β : Type} {all : List Item} {o : Except SyntaxError α} {st : ParseState}

theorem ok (h : st.Reported all) (a : α) : Reports all (.ok a) st := by
  refine ⟨h, fun e he => ?_⟩
  cases he

theorem map (h : Reports all o st) (f : α → β) : Reports all (o.map f) st :=
  ⟨h.reported, fun e he => h.created e (map_eq_error_iff.mp he)⟩

theorem error {e : SyntaxError} (h : Reports all (.error e : Except SyntaxError α) st) :
    Reports all (.error e : Except SyntaxError β) st :=
  ⟨h.reported, fun f hf => h.created f (by cases hf; rfl)⟩

section
variable (hall : Token.Numbered 0 (all.map Item.token))
include hall

theorem exited (h : Reports all o st) (rule : Rule) : Reports all o (st.exited rule) :=
  ⟨h.reported.exited hall rule, fun e he hend =>
    Nat.le_trans (h.created e he hend) (created_le_exited st rule)⟩

theorem mismatched (h : st.Reported all) (expected : Expected) :
    Reports all (.error (.mismatched st.token expected) : Except SyntaxError α) st.looked := by
  refine ⟨h.looked hall, fun e he hend => ?_⟩
  cases he
  exact h.created_of_eof hall (by simpa [SyntaxError.atEnd] using hend)

end
end Reports

/-- Reading reports what it finds. -/
theorem Reads.reports {all : List Item} (hall : Token.Numbered 0 (all.map Item.token))
    {p : Phrase} {g : Goal p} {st st' : ParseState} {o : Except SyntaxError p.Tree}
    (h : Reads g st o st') (hst : st.Reported all) : Reports all o st' := by
  induction h with
  | exprFail _ ih => exact (ih (hst.entered hall .expr)).exited hall .expr
  | expr _ _ ih ihc => exact (ihc (ih (hst.entered hall .expr)).reported).exited hall .expr
  | climbStop _ => exact .ok (hst.looked hall) _
  | binaryFail _ _ _ ih | thenFail _ _ _ ih => exact ih ((hst.looked hall).passed hall .expr)
  | binary _ _ _ _ ih ihc => exact ihc (ih ((hst.looked hall).passed hall .expr)).reported
  | colonFail _ _ _ _ ih =>
    exact .mismatched hall (ih ((hst.looked hall).passed hall .expr)).reported _
  | elseFail _ _ _ _ _ ih ihe =>
    have hst₁ := (ih ((hst.looked hall).passed hall .expr)).reported
    exact ihe ((hst₁.looked hall).passed hall .expr)
  | ternary _ _ _ _ _ _ ih ihe ihc =>
    have hst₁ := (ih ((hst.looked hall).passed hall .expr)).reported
    exact ihc (ihe ((hst₁.looked hall).passed hall .expr)).reported
  | unaryPrimary _ _ ih => exact ih (hst.looked hall)
  | unary _ _ ih => exact (ih ((hst.looked hall).passed hall .expr)).map _
  | literal _ | identifier _ =>
    have hst₁ := ((hst.entered hall .primary).looked hall).passed hall .primary
    exact .ok (hst₁.exited hall .primary) _
  | innerFail _ _ ih =>
    exact (ih (((hst.entered hall .primary).looked hall).passed hall .primary)).exited hall .primary
  | closeFail _ _ _ ih =>
    have hst₁ := (ih (((hst.entered hall .primary).looked hall).passed hall .primary)).reported
    exact (Reports.mismatched hall hst₁ _).exited hall .primary
  | paren _ _ _ ih =>
    have hst₁ := (ih (((hst.entered hall .primary).looked hall).passed hall .primary)).reported
    exact .ok (((hst₁.looked hall).passed hall .primary).exited hall .primary) _
  | primaryEnd _ =>
    exact (Reports.mismatched hall ((hst.entered hall .primary).looked hall) _).exited hall .primary
  | primaryFail _ _ _ _ _ =>
    have hst₁ := ((hst.entered hall .primary).looked hall).peeked hall
    exact (Reports.mismatched hall hst₁ _).exited hall .primary
  | @skip st _ _ _ _ _ heof _ _ ih =>
    have hst₁ := ((hst.entered hall .primary).looked hall).peeked hall
    have hnoted := hst₁.objected (e := .extraneous st.token .expression) rfl
      (by simp [SyntaxError.atEnd, heof])
    exact (ih (hnoted.passed hall .primary)).exited hall .primary
  | argsStop _ => exact .ok (hst.looked hall) _
  | argsAssign _ _ => exact .ok (hst.probed hall) _
  | argFail _ _ _ ih => exact (ih (hst.probed hall)).error
  | arg _ _ _ _ ih ihm => exact (ihm (ih (hst.probed hall)).reported).map _
  | stmtsDone _ => exact .ok (hst.looked hall) _
  | extraneous h _ _ ih =>
    have hnoted := (hst.looked hall).objected (e := .extraneous _ .statement) rfl
      fun hend => absurd (.inr (by simpa [SyntaxError.atEnd] using hend)) h
    exact ih (hnoted.passed hall _)
  | recover _ _ hst' hsk _ ih ihm =>
    have hst₁ := ih (hst.looked hall)
    have hnoted := hst₁.reported.objected (hst'.isLexical_error _ rfl) (hst₁.created _ rfl)
    exact ihm (hnoted.skips hall hsk)
  | stmts _ _ _ _ ih ihm => exact (ihm (ih (hst.looked hall)).reported).map _
  | assign _ _ _ ih =>
    have hst₁ := ((hst.entered hall .stmt).probed hall).passed hall .stmt
    exact ((ih ((hst₁.looked hall).passed hall .stmt)).map _).exited hall .stmt
  | exprStmt _ _ _ _ _ ih =>
    exact ((ih ((hst.entered hall .stmt).probed hall)).map _).exited hall .stmt
  | printFail _ _ ih =>
    have hst₁ := ((hst.entered hall .stmt).looked hall).passed hall .stmt
    exact ((ih hst₁).error).exited hall .stmt
  | print _ _ _ ih ihm =>
    have hst₁ := ((hst.entered hall .stmt).looked hall).passed hall .stmt
    exact ((ihm (ih hst₁).reported).map _).exited hall .stmt
  | vars _ =>
    have hst₁ := ((hst.entered hall .stmt).looked hall).passed hall .stmt
    exact .ok (hst₁.exited hall .stmt) _
  | inspect _ _ ih => exact (ih ((hst.entered hall .stmt).looked hall)).exited hall .stmt
  | blockFail _ _ _ ih =>
    have hst₁ := ((hst.entered hall .inspect).passed hall .inspect).looked hall
    exact (Reports.mismatched hall (ih (hst₁.passed hall .inspect)).reported _).exited hall .inspect
  | block _ _ _ ih =>
    have hst₁ := ((hst.entered hall .inspect).passed hall .inspect).looked hall
    have hst₂ := (ih (hst₁.passed hall .inspect)).reported
    exact .ok (((hst₂.looked hall).passed hall .inspect).exited hall .inspect) _
  | wrap _ _ _ ih =>
    have hst₁ := ((hst.entered hall .inspect).passed hall .inspect).looked hall
    exact ((ih hst₁).map _).exited hall .inspect
  | inspectFail _ _ =>
    have hst₁ := ((hst.entered hall .inspect).passed hall .inspect).looked hall
    have hmis := (Reports.mismatched (α := Stmt) hall hst₁ (.kind .openBrace)).exited hall .inspect
    simpa using hmis

/-! ## Sources -/

/-- A list of statements is read up to its end. -/
def Goal.Ended {p : Phrase} : Goal p → ParseState → Prop
  | stmts closing _, st => st.token.kind = closing ∨ st.token.kind = .eof
  | _, _ => True

theorem Reads.ended {p : Phrase} {g : Goal p} {st st' : ParseState}
    {o : Except SyntaxError p.Tree} (h : Reads g st o st') : g.Ended st' := by
  induction h with
  | stmtsDone h => exact h
  | extraneous _ _ _ ih => exact ih
  | recover _ _ _ _ _ _ ihm => exact ihm
  | stmts _ _ _ _ _ ihm => exact ihm
  | _ => trivial

namespace Lexed

/-- The kinds of the tokens that the parser sees, without the end of input. -/
def kinds (l : Lexed) : List TokenKind := l.visible.map Token.kind

theorem isLexical_locate {pos : Position} {index : Nat} {faults : List SyntaxError}
    {ls : List Lexeme} (h : ∀ f ∈ faults, f.isLexical = true) :
    ∀ i ∈ (locate pos index faults ls).all, ∀ f ∈ i.faults, f.isLexical = true := by
  fun_induction locate pos index faults ls with
  | case1 => simpa [all] using h
  | case2 pos _ _ l _ _ found ih =>
    refine ih fun f hf => ?_
    rcases List.mem_append.mp hf with hf | hf
    · exact h f hf
    · obtain ⟨b, -, rfl⟩ := List.mem_map.mp hf
      rfl
  | case3 _ _ _ l _ _ _ found _ _ ih =>
    intro i hi
    rcases List.mem_cons.mp hi with rfl | hi
    · intro f hf
      rcases List.mem_append.mp hf with hf | hf
      · exact h f hf
      · have : f ∈ if l.closed then [] else [SyntaxError.unclosed _ l.text] := hf
        split at this
        · simp at this
        · rw [List.mem_singleton.mp this]
          rfl
    · exact ih (by simp) i hi

theorem isLexical_ofText {t : Text} {i : Item} (hi : i ∈ (ofText t).all) :
    ∀ f ∈ i.faults, f.isLexical = true :=
  isLexical_locate (by simp) i hi

end Lexed

namespace Parser

theorem kinds_unread (t : Text) : (ofText t).unread.kinds = (Lexed.ofText t).kinds := by
  have htokens := map_token_rest_start .program (ofText t)
  rw [start_eq, ParseState.rest_opened, lexed_ofText] at htokens
  rw [Lexed.kinds, ← htokens, ParseState.kinds, List.map_map]
  rfl

theorem sourced_unread (t : Text) : (ofText t).unread.Sourced where
  ends := by
    have hend := ends_start_ofText .program t
    rwa [start_eq, ParseState.Ends, ParseState.last_opened] at hend
  inside := by
    intro k hk
    rw [kinds_unread] at hk
    obtain ⟨u, hu, rfl⟩ := List.mem_map.mp hk
    exact Lexed.kind_ne_eof_of_mem_visible hu
  lexical := by
    intro w hw i hi
    rw [← ParseState.last_opened .program, ← ParseState.rest_opened .program, ← start_eq] at hw
    have hmem := mem_all_of_mem_items hw hi
    rw [lexed_ofText] at hmem
    exact Lexed.isLexical_ofText hmem

theorem unopposed_unread (t : Text) : (ofText t).unread.Unopposed := ⟨sourced_unread t, rfl⟩

theorem reported_unread (t : Text) : (ofText t).unread.Reported (Lexed.ofText t).all := by
  refine ⟨logged_unread t, sourced_unread t, ?_, fun e he => ?_⟩
  · simp [unread, created_ofText, Step.faults]
  · simp [unread, Step.faults] at he

end Parser

namespace ParseState
variable {st : ParseState}

theorem Reported.opened {all : List Item} (hall : Token.Numbered 0 (all.map Item.token))
    (h : st.Reported all) (rule : Rule) : (st.opened rule).Reported all := by
  have hentered := h.entered hall rule
  unfold ParseState.opened
  split
  · split
    · next hk =>
      exact (hentered.looked hall).objected rfl fun _ => hentered.created_of_eof hall hk
    · exact hentered.looked hall
  · exact hentered

/-- Opening a source is objected to only if it is an entry without a statement. -/
theorem Unopposed.opened {rule : Rule} (h : st.Unopposed) (hentry : rule = .entry → st.kinds ≠ []) :
    (st.opened rule).Unopposed := by
  unfold ParseState.opened
  split
  · next hr =>
    rw [if_neg fun hk => hentry hr (h.kind_token_eq_eof_iff.mp hk)]
    exact (h.entered rule).looked
  · exact h.entered rule

@[simp] theorem kinds_opened (rule : Rule) : (st.opened rule).kinds = st.kinds := by
  simp [kinds]

theorem Sourced.objections_closed (hst : st.Sourced) (rule : Rule) :
    (st.closed rule).objections = st.objections :=
  ((hst.passed rule).objections_exited rule).trans (hst.objections_passed rule)

end ParseState

namespace Parser

/-- The end of a parse: everything was created, and the first objection is the verdict on the kinds
of the tokens, unless there are none where a statement is needed. -/
theorem exists_closed (rule : Rule) (t : Text) :
    ∃ st : ParseState, st.Reported (Lexed.ofText t).all ∧
      (Lexed.ofText t).all.length ≤ st.created ∧
      ((ofText t).readSource rule).1.errors = (Step.faults st.log).reverse ∧
      ((rule = .entry → (Lexed.ofText t).kinds ≠ []) →
        Judges (.stmts .eof) (Lexed.ofText t).kinds [] st.objections.getLast?) ∧
      (rule = .entry → (Lexed.ofText t).kinds = [] →
        ∃ e, st.objections.getLast? = some e ∧ e.atEnd = true) := by
  have hall : Token.Numbered 0 ((Lexed.ofText t).all.map Item.token) := Lexed.numbered_ofText t
  have hunread := reported_unread t
  have hstart := hunread.opened hall rule
  obtain ⟨ss, st, hread, -, hlog⟩ := exists_reads (ends_start_ofText rule t)
  have hst := (hread.reports hall hstart).reported
  have hkinds : st.kinds = [] := by
    have hclosing := hread.ended
    exact hst.kind_token_eq_eof_iff.mp (hclosing.elim id id)
  refine ⟨st.closed rule, (hst.passed hall rule).exited hall rule, ?_, hlog, fun hentry => ?_,
    fun hentry hnil => ?_⟩
  · have hpassed := hst.passed hall rule
    exact hpassed.created_of_eof hall (hpassed.kind_token_eq_eof_iff.mpr (by simp [hkinds]))
  · rw [hst.objections_closed]
    rw [← kinds_unread] at hentry
    have hjudged := hread.judged ((unopposed_unread t).opened hentry)
    rw [Goal.Judged, hkinds, start_eq, kinds_opened, kinds_unread] at hjudged
    exact hjudged
  · have hentered := (unopposed_unread t).entered rule
    have hk : (ofText t).unread.token.kind = .eof :=
      hunread.kind_token_eq_eof_iff.mpr (by rwa [kinds_unread])
    have hreaches := hread.reaches hstart.toSourced
    rw [start_eq, ParseState.opened, if_pos hentry, if_pos hk] at hreaches
    refine ⟨.mismatched (ofText t).unread.token .statement, ?_, by simp [SyntaxError.atEnd, hk]⟩
    rw [hst.objections_closed]
    exact (verdict?_of_fault (o := .ok ss) (β := Unit) rfl hreaches).trans
      (verdict?_error hentered.looked.objections)

section
variable (rule : Rule) (t : Text)

/-- The errors of the lexer are the faults of the tokens, in source order. -/
theorem filter_isLexical_errors :
    ((ofText t).readSource rule).1.errors.filter (·.isLexical) = (Lexed.ofText t).faults := by
  obtain ⟨st, hst, hcreated, herrors, -, -⟩ := exists_closed rule t
  rw [herrors, List.filter_reverse, hst.order, List.take_of_length_le hcreated]
  rfl

/-- If the first thing to be reported is an objection to the end of input, then no token is
faulty. -/
theorem faults_eq_nil_of_atEnd {e : SyntaxError} {es : List SyntaxError}
    (herrors : ((ofText t).readSource rule).1.errors = e :: es) (he : e.isLexical = false)
    (hend : e.atEnd = true) : (Lexed.ofText t).faults = [] := by
  obtain ⟨st, hst, -, hlog, -, -⟩ := exists_closed rule t
  refine hst.late e ?_ he hend
  rw [← List.head?_reverse, ← hlog, herrors]
  rfl

/-- The first objection to a source is the verdict on the kinds of its tokens. -/
theorem judges_kinds (hentry : rule = .entry → (Lexed.ofText t).kinds ≠ []) :
    Judges (.stmts .eof) (Lexed.ofText t).kinds []
      (((ofText t).readSource rule).1.errors.filter (!·.isLexical)).head? := by
  obtain ⟨st, -, -, hlog, hjudges, -⟩ := exists_closed rule t
  rw [hlog, List.filter_reverse, List.head?_reverse]
  exact hjudges hentry

/-- A source has no syntax errors if and only if no token is faulty and the grammar takes the kinds
of its tokens; an entry must not be empty. -/
theorem errors_eq_nil_iff :
    ((ofText t).readSource rule).1.errors = [] ↔
      (Lexed.ofText t).faults = [] ∧ (rule = .entry → (Lexed.ofText t).kinds ≠ []) ∧
        Predicts [.stmts .eof] (Lexed.ofText t).kinds [] [] := by
  constructor
  · intro herrors
    have hentry : rule = .entry → (Lexed.ofText t).kinds ≠ [] := by
      intro hrule hnil
      obtain ⟨st, -, -, hlog, -, hempty⟩ := exists_closed rule t
      obtain ⟨e, he, -⟩ := hempty hrule hnil
      rw [herrors, eq_comm, List.reverse_eq_nil_iff] at hlog
      simp [ParseState.objections, hlog] at he
    have hfaults := filter_isLexical_errors rule t
    have hjudges := judges_kinds rule t hentry
    rw [herrors] at hfaults hjudges
    exact ⟨hfaults.symm, hentry, hjudges⟩
  · rintro ⟨hfaults, hentry, hp⟩
    have hjudges := judges_kinds rule t hentry
    have hlexical := filter_isLexical_errors rule t
    rw [hfaults, List.filter_eq_nil_iff] at hlexical
    rw [List.eq_nil_iff_forall_not_mem]
    intro e he
    cases hhead : (((ofText t).readSource rule).1.errors.filter (!·.isLexical)).head? with
    | none =>
      rw [List.head?_eq_none_iff, List.filter_eq_nil_iff] at hhead
      have := hlexical e he
      simp_all
    | some f =>
      rw [hhead] at hjudges
      exact Stops.not_predicts_nil hjudges hp

end

/-! ## Entries that can be completed -/

/-- An entry that has a right continuation is objected to at its end only. -/
theorem atEnd_of_predicts_append {t : Text} {more : List TokenKind}
    (h : Predicts [.stmts .eof] ((Lexed.ofText t).kinds ++ more) [] []) {e : SyntaxError}
    (he : e ∈ ((parseEntry t).errors.filter (!·.isLexical)).head?) : e.atEnd = true := by
  by_cases hnil : (Lexed.ofText t).kinds = []
  · obtain ⟨st, -, -, hlog, -, hempty⟩ := exists_closed .entry t
    obtain ⟨f, hf, hend⟩ := hempty rfl hnil
    have hhead : ((parseEntry t).errors.filter (!·.isLexical)).head? = some f := by
      rw [show (parseEntry t).errors = _ from hlog, List.filter_reverse, List.head?_reverse]
      exact hf
    rw [hhead] at he
    cases he
    exact hend
  · have hjudges := judges_kinds .entry t fun _ => hnil
    have he : ((parseEntry t).errors.filter (!·.isLexical)).head? = some e := he
    rw [show ((ofText t).readSource .entry).1 = parseEntry t from rfl, he] at hjudges
    cases hend : e.atEnd with
    | true => rfl
    | false =>
      have hstops : Stops [.stmts .eof] (Lexed.ofText t).kinds e.atEnd := hjudges
      rw [hend] at hstops
      exact absurd h (hstops.append more).not_predicts_nil

/-- An entry that is objected to at its end only has a right continuation. -/
theorem exists_predicts_append {t : Text}
    (h : ∀ e ∈ ((parseEntry t).errors.filter (!·.isLexical)).head?, e.atEnd = true) :
    ∃ more, (∀ k ∈ more, k.fills = true) ∧ (Lexed.ofText t).kinds ++ more ≠ [] ∧
      Predicts [.stmts .eof] ((Lexed.ofText t).kinds ++ more) [] [] := by
  have hstacked : Symbol.Stacked [.stmts .eof] := ⟨⟨rfl, .inl rfl⟩, trivial⟩
  by_cases hnil : (Lexed.ofText t).kinds = []
  · refine ⟨[.number], by simp [TokenKind.fills], by simp, ?_⟩
    rw [hnil]
    have hstmt : Symbol.Stacked [.stmt, .stmts .eof] := ⟨rfl, hstacked⟩
    exact .step rfl (Predicts.fillings hstmt)
  · suffices hend : ∃ σ, Predicts [.stmts .eof] (Lexed.ofText t).kinds σ [] by
      obtain ⟨σ, hp⟩ := hend
      obtain ⟨more, hfills, hmore⟩ := hp.exists_completion hstacked
      exact ⟨more, hfills, by simp [hnil], hmore⟩
    have hjudges := judges_kinds .entry t fun _ => hnil
    cases hhead : ((parseEntry t).errors.filter (!·.isLexical)).head? with
    | none =>
      rw [show ((ofText t).readSource .entry).1 = parseEntry t from rfl, hhead] at hjudges
      exact ⟨[], hjudges⟩
    | some e =>
      rw [show ((ofText t).readSource .entry).1 = parseEntry t from rfl, hhead] at hjudges
      obtain ⟨s, σ, ks, hp, -, hend⟩ := hjudges
      rw [hend.mp (h e hhead)] at hp
      exact ⟨s :: σ, hp⟩

end Parser
end Reckoner
