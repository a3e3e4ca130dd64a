import Reckoner.Proofs.Lookahead

/-!
# Reading a source again

A parser can read its source more than once. Each time it begins at the first token and with an empty
list of errors. The tokens that were created stay, and what is wrong with a token is only reported
when it is created, so that it is not reported again.

`Parser.reread` says what comes of this. The program is the same however often a source is read, and so
are the objections of the parser. The faults of the tokens that were created before are missing; once
the source was read to its end, or filled in, these are all the faults that the lexer can find.

A parser that has created some tokens is one that has forgotten the steps in which they were created,
which is another past for the same parse.
-/
namespace Reckoner

open ParseState

/-! ## What was created before -/

namespace Lexed

/-- The steps in which the first items of a source are created. -/
def past (l : Lexed) (count : Nat) : List Step := (l.all.take count).flatMap Item.steps

variable {t : Text} {count : Nat}

/-- The first items are those with the first numbers. -/
theorem mem_take_iff {i : Item} :
    i ∈ (ofText t).all.take count ↔ i ∈ (ofText t).all ∧ i.token.index < count := by
  constructor
  · intro hi
    obtain ⟨n, hn, rfl⟩ := List.mem_take_iff_getElem.mp hi
    have hget : (ofText t).all[n]? = some (ofText t).all[n] := List.getElem?_eq_getElem (by omega)
    have hindex := Token.index_of_numbered (numbered_ofText t) (k := n)
      (t := ((ofText t).all[n]).token) (by simp [tokens, hget])
    exact ⟨List.getElem_mem _, by omega⟩
  · rintro ⟨hi, hlt⟩
    obtain ⟨hn, hget⟩ := List.getElem?_eq_some_iff.mp (getElem?_all_of_mem hi)
    exact List.mem_take_iff_getElem.mpr ⟨i.token.index, by omega, hget⟩

theorem mem_past_fault_iff {e : SyntaxError} :
    Step.fault e ∈ (ofText t).past count ↔
      e ∈ ((ofText t).all.take count).flatMap Item.faults := by
  simp [past, Item.steps]

/-- What creating an item leaves in the log does not come from another item. -/
theorem not_mem_steps {i j : Item} (hi : i ∈ (ofText t).all) (hj : j ∈ (ofText t).all)
    (h : i.token.index < j.token.index) {s : Step} (hs : s ∈ j.steps) : s ∉ i.steps := by
  intro hs'
  simp only [Item.steps, List.mem_append, List.mem_map, List.mem_singleton] at hs hs'
  rcases hs with ⟨f, hf, rfl⟩ | rfl
  · rcases hs' with ⟨g, hg, hgf⟩ | hgf
    · cases hgf
      have hbefore := (placed_ofText hi).before f hg
      have hbehind := precedes_of_index_lt hi hj h f.pos
        (List.mem_cons_of_mem _ (List.mem_map_of_mem hf))
      omega
    · cases hgf
  · rcases hs' with ⟨g, -, hgf⟩ | hgf
    · cases hgf
    · rw [Step.create.inj hgf] at h
      exact Nat.lt_irrefl _ h

/-- The steps of an item are in the past, or none of them is. -/
theorem mem_past_iff {i : Item} (hi : i ∈ (ofText t).all) {s : Step} (hs : s ∈ i.steps) :
    s ∈ (ofText t).past count ↔ i.token.index < count := by
  rw [past, List.mem_flatMap]
  constructor
  · rintro ⟨j, hj, hsj⟩
    obtain ⟨hj, hlt⟩ := mem_take_iff.mp hj
    by_contra hle
    exact not_mem_steps hj hi (by omega) hs hsj
  · intro hlt
    exact ⟨i, mem_take_iff.mpr ⟨hi, hlt⟩, hs⟩

/-- What is not in the past of some items are the steps of the later ones. -/
theorem filter_steps (count : ℕ) {is : List Item} (his : ∀ i ∈ is, i ∈ (ofText t).all) :
    (is.flatMap Item.steps).filter (· ∉ (ofText t).past count) =
      (is.filter (count ≤ ·.token.index)).flatMap Item.steps := by
  induction is with
  | nil => rfl
  | cons i is ih =>
    rw [List.forall_mem_cons] at his
    rw [List.flatMap_cons, List.filter_append, ih his.2]
    by_cases hlt : i.token.index < count
    · rw [List.filter_eq_nil_iff.mpr, List.filter_cons_of_neg (by simpa using hlt), List.nil_append]
      intro s hs
      simpa using (mem_past_iff his.1 hs).mpr hlt
    · rw [List.filter_eq_self.mpr, List.filter_cons_of_pos (by simpa using hlt), List.flatMap_cons]
      intro s hs
      simpa using mt (mem_past_iff his.1 hs).mp hlt

/-- No step of the parser creates anything. -/
theorem not_mem_past {s : Step} (hs : s.ofParser = true) : s ∉ (ofText t).past count := by
  intro hmem
  obtain ⟨i, hi, hsi⟩ := List.mem_flatMap.mp hmem
  simp only [Item.steps, List.mem_append, List.mem_map, List.mem_singleton] at hsi
  rcases hsi with ⟨f, hf, rfl⟩ | rfl
  · have hlexical := isLexical_ofText (List.mem_of_mem_take hi) f hf
    simp [Step.ofParser, hlexical] at hs
  · simp [Step.ofParser] at hs

end Lexed

theorem Step.faults_filter_past {t : Text} {count : Nat} (log : List Step) :
    faults (log.filter (· ∉ (Lexed.ofText t).past count)) =
      (faults log).filter (· ∉ ((Lexed.ofText t).all.take count).flatMap Item.faults) := by
  rw [faults, faults, List.filterMap_filter, List.filter_filterMap]
  refine List.filterMap_congr fun s _ => ?_
  cases s with
  | fault e => simp [fault?, Lexed.mem_past_fault_iff, Option.filter]
  | _ => simp [fault?]

/-! ## Another past -/

namespace ParseState
variable (t : Text) (count : Nat)

/-- The parser if some items had been created before it began. -/
def resumed (st : ParseState) : ParseState :=
  { st with created := max st.created count,
            log := st.log.filter (· ∉ (Lexed.ofText t).past count) }

variable {t count} {st : ParseState}

theorem creating_resumed {before after : List Item} {w : Word}
    (hw : (Lexed.ofText t).all = before ++ (w.items ++ after)) (hc : before.length ≤ st.created) :
    (st.resumed t count).creating w = (st.creating w).resumed t count := by
  have hnumbered : Token.Numbered before.length (w.items.map Item.token) := by
    have hall : Token.Numbered 0 ((Lexed.ofText t).all.map Item.token) := Lexed.numbered_ofText t
    rw [hw, List.map_append, Token.numbered_append, List.map_append, Token.numbered_append] at hall
    simpa using hall.2.1
  have hfresh : w.items.filter (max st.created count ≤ ·.token.index) =
      (w.items.filter (st.created ≤ ·.token.index)).filter (count ≤ ·.token.index) := by
    rw [List.filter_filter]
    refine List.filter_congr fun i _ => ?_
    rw [Bool.eq_iff_iff, Bool.and_eq_true, decide_eq_true_eq, decide_eq_true_eq, decide_eq_true_eq]
    omega
  have hmem : ∀ i ∈ w.items.filter (st.created ≤ ·.token.index), i ∈ (Lexed.ofText t).all := by
    intro i hi
    rw [hw]
    simp [(List.mem_filter.mp hi).1]
  have hlog : ((st.resumed t count).creating w).log = ((st.creating w).resumed t count).log := by
    have hfilter := Lexed.filter_steps count hmem
    rw [← hfresh] at hfilter
    simp only [resumed, creating, List.filter_append, List.filter_reverse]
    exact congrArg (List.reverse · ++ _) hfilter.symm
  have hcreated : ((st.resumed t count).creating w).created =
      ((st.creating w).resumed t count).created := by
    have hlength := congrArg List.length (filter_index_eq_drop hnumbered st.created)
    have hlength' := congrArg List.length (filter_index_eq_drop hnumbered (max st.created count))
    rw [List.length_drop] at hlength hlength'
    have hleft : ((st.resumed t count).creating w).created = max st.created count +
        (w.items.filter (max st.created count ≤ ·.token.index)).length := rfl
    have hright : ((st.creating w).resumed t count).created =
        max (st.created + (w.items.filter (st.created ≤ ·.token.index)).length) count := rfl
    omega
  exact congrArg₂ (ParseState.mk st.rest st.last) hcreated hlog

/-- Whatever was created before, the parser does the same. -/
theorem recast_resumed (t : Text) (count : Nat) :
    Recast (Lexed.ofText t).all (resumed t count) := by
  have hall : Token.Numbered 0 ((Lexed.ofText t).all.map Item.token) := Lexed.numbered_ofText t
  have hnoted (st : ParseState) {s : Step} (hs : s.ofParser = true) :
      (st.resumed t count).noted s = (st.noted s).resumed t count := by
    have hkeep : s ∉ (Lexed.ofText t).past count := Lexed.not_mem_past hs
    simp [resumed, noted, hkeep]
  have hlooked {st : ParseState} (hst : st.Logged (Lexed.ofText t).all) :
      (st.resumed t count).looked = st.looked.resumed t count := by
    obtain ⟨before, after, hw, hc⟩ := hst.exists_word
    exact creating_resumed hw hc
  refine ⟨fun _ => rfl, fun _ => rfl, hnoted, hlooked, fun {st} hst => ?_, fun {st} rule hst => ?_⟩
  · obtain ⟨before, after, hw, hc⟩ := hst.exists_peeked hall
    rw [peeked, hlooked hst]
    exact creating_resumed hw hc
  · have hconsumed := hlooked (hst.consumed hall rule)
    rw [passed, hlooked hst, hnoted _ rfl]
    exact hconsumed

end ParseState

/-! ## Reading again -/

namespace Parser

/-- The faults of the tokens that were created. -/
def noticed (p : Parser) : List SyntaxError := (p.lexed.all.take p.created).flatMap Item.faults

variable {p : Parser} {t : Text}

/-- When a source is closed, all its tokens were created. -/
theorem length_le_created_closed {rule : Rule} {o : Except SyntaxError (List Stmt)} {st : ParseState}
    (h : Reads (.stmts .eof rule) ((ofText t).start rule) o st) :
    (Lexed.ofText t).all.length ≤ (st.closed rule).created := by
  have hstable := stable_logged (Lexed.numbered_ofText t)
  have hpassed := hstable.passed rule (h.stable hstable (logged_start rule t))
  exact hpassed.created_of_rest_eq_nil (Lexed.numbered_ofText t) (by simp [rest_eq_nil_of_reads h])

/-- What comes of reading a source is told by the state in which it is closed. -/
theorem readSource_eq {rule : Rule} {hooks : TraceFlags} {ss : List Stmt} {st : ParseState}
    (h : Grammar.source hooks rule (Grammar.fuelFor p.unread.rest.length) p.unread = (.ok ss, st)) :
    p.readSource rule hooks =
      ({ program := ⟨ss, p.tokens⟩, errors := Step.faults st.log.reverse, log := st.log.reverse },
        { p with rest := st.rest, last := st.last, created := st.created,
                 errors := Step.faults st.log.reverse }) := by
  simp only [unread] at h
  simp only [readSource, h]

/-- A parser of a source reads it as if it were the first time, but for the creation of the tokens that
exist. -/
theorem readSource_of_lexed (hp : p.lexed = Lexed.ofText t) (rule : Rule) (hooks : TraceFlags) :
    (p.readSource rule hooks).1 =
      { program := ((ofText t).readSource rule hooks).1.program
        errors := ((ofText t).readSource rule hooks).1.errors.filter (· ∉ p.noticed)
        log := ((ofText t).readSource rule hooks).1.log.filter
          (· ∉ (Lexed.ofText t).past p.created) } ∧
      (Lexed.ofText t).all.length ≤ (p.readSource rule hooks).2.created := by
  have hend : ((ofText t).unread.opened rule).Ends := ends_start_ofText rule t
  obtain ⟨ss, st, hread, hsource⟩ := Grammar.exists_reads_source hend
  obtain ⟨n, hn⟩ : ∃ n, Grammar.fuelFor (ofText t).unread.rest.length = n + 1 := ⟨_, rfl⟩
  have hall : Token.Numbered 0 ((Lexed.ofText t).all.map Item.token) := Lexed.numbered_ofText t
  have hlogged := logged_unread t
  have hunread : ((ofText t).unread.resumed t p.created).heard hooks = p.unread := by
    simp [resumed, ParseState.heard, unread, created_ofText, lexed_ofText, hp]
  have hfirst := Grammar.source_heard hooks hall rule n hlogged
  have hagain := Grammar.source_recast hooks (recast_resumed t p.created) hall rule n hlogged
  have hrest : p.unread.rest = (ofText t).unread.rest := by rw [← hunread]; rfl
  rw [hsource _ (Nat.le_of_eq hn), ← hn] at hfirst hagain
  rw [hunread, ← hrest] at hagain
  rw [readSource_eq hfirst, readSource_eq hagain]
  have hnoticed : p.noticed = ((Lexed.ofText t).all.take p.created).flatMap Item.faults := by
    rw [noticed, hp]
  have hlog : (((st.closed rule).resumed t p.created).heard hooks).log.reverse =
      ((st.closed rule).heard hooks).log.reverse.filter
        (· ∉ (Lexed.ofText t).past p.created) := by
    simp only [resumed, ParseState.heard, List.filter_reverse]
    rw [List.filter_filter, List.filter_filter]
    refine congrArg List.reverse (List.filter_congr fun s _ => ?_)
    exact Bool.and_comm _ _
  refine ⟨?_, Nat.le_trans (length_le_created_closed hread) (Nat.le_max_left _ _)⟩
  rw [hlog, Step.faults_filter_past, hnoticed, tokens, tokens, hp, lexed_ofText]

section
variable (rule : Rule) (t : Text) (hooks : TraceFlags)

theorem errors_readSource_heard :
    ((ofText t).readSource rule hooks).1.errors = ((ofText t).readSource rule).1.errors := by
  rw [readSource_heard]

/-- The errors that are found the first time are the faults of the tokens and the objections. -/
theorem mem_faults_iff {e : SyntaxError} (he : e ∈ ((ofText t).readSource rule hooks).1.errors) :
    e ∈ (Lexed.ofText t).faults ↔ e.isLexical = true := by
  rw [errors_readSource_heard] at he
  rw [← filter_isLexical_errors rule t, List.mem_filter, and_iff_right he]

theorem mem_errors_of_mem_faults {e : SyntaxError} (he : e ∈ (Lexed.ofText t).faults) :
    e ∈ ((ofText t).readSource rule hooks).1.errors := by
  rw [← filter_isLexical_errors rule t] at he
  rw [errors_readSource_heard]
  exact (List.mem_filter.mp he).1

end

theorem noticed_subset (hp : p.lexed = Lexed.ofText t) : p.noticed ⊆ (Lexed.ofText t).faults := by
  rw [noticed, hp]
  intro e he
  obtain ⟨i, hi, hei⟩ := List.mem_flatMap.mp he
  exact List.mem_flatMap.mpr ⟨i, List.mem_of_mem_take hi, hei⟩

/-- Once a source was read or filled in, every fault of a token was noticed. -/
theorem noticed_of_finished (hp : p.lexed = Lexed.ofText t) {rule : Rule} {hooks : TraceFlags}
    {q : Parser} (hq : q = (p.readSource rule hooks).2 ∨ q = p.fill.2) :
    q.lexed = Lexed.ofText t ∧ q.noticed = (Lexed.ofText t).faults := by
  have hlexed : q.lexed = Lexed.ofText t := by
    rcases hq with rfl | rfl
    · exact hp
    · exact hp
  have hcreated : (Lexed.ofText t).all.length ≤ q.created := by
    rcases hq with rfl | rfl
    · exact (readSource_of_lexed hp rule hooks).2
    · rw [fill, hp]
  refine ⟨hlexed, ?_⟩
  rw [noticed, hlexed, List.take_of_length_le hcreated]
  rfl

/-- What a parser makes of its source depends on what it has done before only in the faults of the
lexer, which are missing if their tokens were created before. After the source was read or filled in,
all of them are. -/
theorem reread (hp : p.lexed = Lexed.ofText t) (rule : Rule) (hooks : TraceFlags) :
    (p.readSource rule hooks).1.program = ((ofText t).readSource rule hooks).1.program ∧
      (p.readSource rule hooks).1.errors =
        ((ofText t).readSource rule hooks).1.errors.filter (· ∉ p.noticed) ∧
      ((p.readSource rule hooks).1.errors = ((ofText t).readSource rule hooks).1.errors ↔
        p.noticed = []) ∧
      ∀ q, q = (p.readSource rule hooks).2 ∨ q = p.fill.2 → ∀ rule hooks,
        (q.readSource rule hooks).1.program = ((ofText t).readSource rule hooks).1.program ∧
          (q.readSource rule hooks).1.errors =
            ((ofText t).readSource rule hooks).1.errors.filter (!·.isLexical) := by
  have hparsed := (readSource_of_lexed hp rule hooks).1
  refine ⟨by rw [hparsed], by rw [hparsed], ?_, fun q hq rule hooks => ?_⟩
  · rw [hparsed, List.filter_eq_self]
    constructor
    · intro hkept
      refine List.eq_nil_iff_forall_not_mem.mpr fun e he => ?_
      have hmem := mem_errors_of_mem_faults rule t hooks (noticed_subset hp he)
      exact absurd he (by simpa using hkept e hmem)
    · intro hnil e _
      simp [hnil]
  · obtain ⟨hlexed, hnoticed⟩ := noticed_of_finished hp hq
    have hagain := (readSource_of_lexed hlexed rule hooks).1
    refine ⟨by rw [hagain], ?_⟩
    rw [hagain, hnoticed]
    refine List.filter_congr fun e he => ?_
    simp [mem_faults_iff rule t hooks he]

/-- A stray byte is reported once, a missing operand whenever the source is read. -/
theorem reread_stray :
    ∃ p : Parser, p.lexed = Lexed.ofText "$ 1 +" ∧ p.noticed = [.stray {} 36] ∧
      (p.readSource .program {}).1.program = ((ofText "$ 1 +").readSource .program {}).1.program ∧
      (p.readSource .program {}).1.errors =
        ((ofText "$ 1 +").readSource .program {}).1.errors.filter (· ∉ p.noticed) ∧
      (p.readSource .program {}).1.errors.length = 1 ∧
      ((ofText "$ 1 +").readSource .program {}).1.errors.length = 2 := by
  have hlexed : (ofText "$ 1 +").fill.2.lexed = Lexed.ofText "$ 1 +" := by decide +kernel
  obtain ⟨hprogram, herrors, -, -⟩ := reread hlexed .program {}
  exact ⟨_, hlexed, by decide +kernel, hprogram, herrors, by decide +kernel, by decide +kernel⟩

/-- A source with a fault is read without errors the second time. -/
theorem second_reading_differs :
    ((ofText "$ 1").readSource .program).1.errors = [.stray {} 36] ∧
      (((ofText "$ 1").readSource .program).2.readSource .program).1.errors = [] ∧
      ((ofText "$ 1").fill.2.readSource .program).1.errors = [] := by
  decide +kernel

end Parser
end Reckoner
