import Reckoner.Proofs.Discipline

/-!
# No fault of the lexer goes unnoticed

The lexer runs only as far as the parser looks, and its faults are reported when a token is created.
A parse that reports nothing has read its source to the end, so that every token was created and
none of them had a fault. What one step of the parser keeps, a whole parse keeps: `Reads.stable`.
-/
namespace Reckoner

namespace ParseState

/-- What every step of the parser keeps. -/
structure Stable (P : ParseState → Prop) : Prop where
  noted : ∀ {st} (s : Step), P st → P (st.noted s)
  looked : ∀ {st}, P st → P st.looked
  peeked : ∀ {st}, P st → P st.peeked
  passed : ∀ {st} (rule : Rule), P st → P (st.passed rule)

namespace Stable
variable {P : ParseState → Prop} {st : ParseState}

theorem entered (h : Stable P) (rule : Rule) (hst : P st) : P (st.entered rule) :=
  h.noted _ (h.looked hst)

theorem exited (h : Stable P) (rule : Rule) (hst : P st) : P (st.exited rule) :=
  h.noted _ (h.looked hst)

theorem probed (h : Stable P) (hst : P st) : P st.probed := by
  unfold ParseState.probed
  split
  · exact h.peeked (h.looked hst)
  · exact h.looked hst

theorem opened (h : Stable P) (rule : Rule) (hst : P st) : P (st.opened rule) := by
  unfold ParseState.opened
  split
  · split
    · exact h.noted _ (h.looked (h.entered rule hst))
    · exact h.looked (h.entered rule hst)
  · exact h.entered rule hst

theorem skips (h : Stable P) {line : Nat} {closing : TokenKind} {rule : Rule} {st' : ParseState}
    (hs : Skips line closing rule st st') (hst : P st) : P st' := by
  induction hs with
  | stop _ => exact h.looked hst
  | step _ _ ih => exact ih (h.passed rule (h.looked hst))

end Stable
end ParseState

open ParseState

/-- What every step of the parser keeps, reading keeps. -/
theorem Reads.stable {P : ParseState → Prop} (hP : Stable P) {p : Phrase} {g : Goal p}
    {st st' : ParseState} {o : Except SyntaxError p.Tree} (h : Reads g st o st') (hst : P st) :
    P st' := by
  induction h <;>
    grind [Stable.noted, Stable.looked, Stable.peeked, Stable.passed, Stable.entered,
      Stable.exited, Stable.probed, Stable.skips]

/-! ## Items that were created -/

/-- The items with at least a given number. -/
theorem filter_index_eq_drop {is : List Item} {n : Nat}
    (h : Token.Numbered n (is.map Item.token)) (created : Nat) :
    is.filter (created ≤ ·.token.index) = is.drop (created - n) := by
  induction is generalizing n with
  | nil => simp
  | cons i is ih =>
    obtain ⟨hi, his⟩ := h
    by_cases hc : created ≤ i.token.index
    · have hzero : created - n = 0 := by omega
      have hzero' : created - (n + 1) = 0 := by omega
      rw [List.filter_cons_of_pos (by simpa using hc), ih his, hzero, hzero', List.drop_zero,
        List.drop_zero]
    · have hsucc : created - n = created - (n + 1) + 1 := by omega
      rw [List.filter_cons_of_neg (by simpa using hc), ih his, hsucc, List.drop_succ_cons]

namespace ParseState

/-- The words ahead are the last ones of a source, all items before them were created, and the
faults of the items that were created are in the log. -/
structure Logged (all : List Item) (st : ParseState) : Prop where
  ahead : ∃ before, all = before ++ (st.rest ++ [st.last]).flatMap Word.items ∧
    before.length ≤ st.created
  faults : ∀ k i, all[k]? = some i → k < st.created → ∀ f ∈ i.faults, f ∈ Step.faults st.log

section
variable {all : List Item} {st : ParseState}

theorem Logged.noted (h : st.Logged all) (s : Step) : (st.noted s).Logged all := by
  refine ⟨h.ahead, fun k i hk hc f hf => ?_⟩
  have := h.faults k i hk hc f hf
  simp only [Step.faults, ParseState.noted, List.filterMap_cons] at this ⊢
  split
  · exact this
  · exact List.mem_cons_of_mem _ this

/-- Creating a word that was not left out creates all up to its end. -/
theorem Logged.creating (hall : Token.Numbered 0 (all.map Item.token)) (h : st.Logged all)
    {before after : List Item} {w : Word} (hw : all = before ++ (w.items ++ after))
    (hc : before.length ≤ st.created) :
    (st.creating w).Logged all ∧ before.length + w.items.length ≤ (st.creating w).created := by
  have hnumbered : Token.Numbered before.length (w.items.map Item.token) := by
    rw [hw, List.map_append, Token.numbered_append, List.map_append, Token.numbered_append] at hall
    simpa using hall.2.1
  have hlength := congrArg List.length (filter_index_eq_drop hnumbered st.created)
  rw [List.length_drop] at hlength
  have hcreated : (st.creating w).created =
      st.created + (w.items.length - (st.created - before.length)) := by
    rw [← hlength]
    rfl
  refine ⟨⟨?_, fun k i hk hlt f hf => ?_⟩, by omega⟩
  · obtain ⟨before', hsplit, hle⟩ := h.ahead
    exact ⟨before', hsplit, by omega⟩
  · have hlog : Step.faults (st.creating w).log =
        ((w.items.filter (st.created ≤ ·.token.index)).flatMap Item.steps).reverse.filterMap
          Step.fault? ++ Step.faults st.log := by
      simp [ParseState.creating, Step.faults]
    rw [hlog, List.mem_append]
    by_cases hold : k < st.created
    · exact .inr (h.faults k i hk hold f hf)
    · -- The item is one of the word, so its faults were reported now.
      have hk' : w.items[k - before.length]? = some i := by
        rw [hw, List.getElem?_append_right (by omega), List.getElem?_append_left (by omega)] at hk
        exact hk
      have hmem : i ∈ w.items := List.mem_of_getElem? hk'
      have hindex : i.token.index = k := by
        have := Token.index_of_numbered hall (k := k) (t := i.token) (by simp [hk])
        omega
      refine .inl (List.mem_filterMap.mpr ⟨.fault f, ?_, rfl⟩)
      rw [List.mem_reverse, List.mem_flatMap]
      refine ⟨i, List.mem_filter.mpr ⟨hmem, by simpa using by omega⟩, ?_⟩
      exact List.mem_append_left _ (List.mem_map_of_mem hf)

/-- All items before the current word were created. -/
theorem Logged.exists_word (h : st.Logged all) :
    ∃ before after, all = before ++ (st.word.items ++ after) ∧ before.length ≤ st.created := by
  obtain ⟨before, hsplit, hle⟩ := h.ahead
  cases hr : st.rest with
  | nil => exact ⟨before, [], by simpa [hr, ParseState.word] using hsplit, hle⟩
  | cons w ws =>
    exact ⟨before, (ws ++ [st.last]).flatMap Word.items,
      by simpa [hr, ParseState.word] using hsplit, hle⟩

theorem Logged.looked (hall : Token.Numbered 0 (all.map Item.token)) (h : st.Logged all) :
    st.looked.Logged all := by
  obtain ⟨before, after, hsplit, hle⟩ := h.exists_word
  exact (h.creating hall hsplit hle).1

/-- Once the current word was looked at, all items before the next one were created. -/
theorem Logged.exists_before (hall : Token.Numbered 0 (all.map Item.token)) (h : st.Logged all)
    {w : Word} {ws : List Word} (hr : st.rest = w :: ws) :
    ∃ before, all = before ++ (ws ++ [st.last]).flatMap Word.items ∧
      before.length ≤ st.looked.created := by
  obtain ⟨before, hsplit, hle⟩ := h.ahead
  have hword : st.word = w := by simp [ParseState.word, hr]
  have hall' : all = before ++ (w.items ++ (ws ++ [st.last]).flatMap Word.items) := by
    simpa [hr] using hsplit
  have hcreated := (h.creating hall hall' hle).2
  refine ⟨before ++ w.items, by rw [hall', List.append_assoc], ?_⟩
  rw [List.length_append, ParseState.looked, hword]
  exact hcreated

/-- Once the current word was looked at, all items before the one that is peeked at were created. -/
theorem Logged.exists_peeked (hall : Token.Numbered 0 (all.map Item.token)) (h : st.Logged all) :
    ∃ before after, all = before ++ (((st.rest.drop 1).head?.getD st.last).items ++ after) ∧
      before.length ≤ st.looked.created := by
  cases hr : st.rest with
  | nil =>
    obtain ⟨before, hsplit, hle⟩ := (h.looked hall).ahead
    exact ⟨before, [], by simpa [hr] using hsplit, hle⟩
  | cons w ws =>
    obtain ⟨before, hsplit, hle⟩ := h.exists_before hall hr
    cases ws with
    | nil => exact ⟨before, [], by simpa using hsplit, hle⟩
    | cons w' ws =>
      exact ⟨before, (ws ++ [st.last]).flatMap Word.items, by simpa using hsplit, hle⟩

theorem Logged.peeked (hall : Token.Numbered 0 (all.map Item.token)) (h : st.Logged all) :
    st.peeked.Logged all := by
  obtain ⟨before, after, hsplit, hle⟩ := h.exists_peeked hall
  exact ((h.looked hall).creating hall hsplit hle).1

/-- The state after the current token was consumed, before the next one is looked at. -/
theorem Logged.consumed (hall : Token.Numbered 0 (all.map Item.token)) (h : st.Logged all)
    (rule : Rule) :
    Logged all { st.looked.noted (.consume st.token rule) with rest := st.rest.tail } := by
  have hnoted := (h.looked hall).noted (.consume st.token rule)
  refine ⟨?_, hnoted.faults⟩
  cases hr : st.rest with
  | nil => simpa [hr] using hnoted.ahead
  | cons w ws => exact h.exists_before hall hr

theorem Logged.passed (hall : Token.Numbered 0 (all.map Item.token)) (h : st.Logged all)
    (rule : Rule) : (st.passed rule).Logged all :=
  (h.consumed hall rule).looked hall

/-- Every step of the parser reports the faults of what it creates. -/
theorem stable_logged (hall : Token.Numbered 0 (all.map Item.token)) :
    Stable (Logged all) where
  noted := fun s h => h.noted s
  looked := fun h => h.looked hall
  peeked := fun h => h.peeked hall
  passed := fun rule h => h.passed hall rule

/-- At the end of input all items were created. -/
theorem Logged.created_of_rest_eq_nil (hall : Token.Numbered 0 (all.map Item.token))
    (h : st.Logged all) (hr : st.rest = []) : all.length ≤ st.looked.created := by
  obtain ⟨before, hsplit, hle⟩ := h.ahead
  have hword : st.word = st.last := by simp [ParseState.word, hr]
  have hall' : all = before ++ (st.last.items ++ []) := by
    simpa [hr] using hsplit
  have hcreated := (h.creating hall hall' hle).2
  rw [hall', List.append_nil, List.length_append, ParseState.looked, hword]
  exact hcreated

end
end ParseState

namespace Parser

theorem created_ofText (t : Text) : (ofText t).created = 0 := by
  unfold ofText
  cases h : (Lexed.ofText t).items <;> simp [h]

/-- The state of a source before it is opened. -/
def unread (p : Parser) : ParseState :=
  { rest := (Word.group [] p.lexed.items).1,
    last := ⟨(Word.group [] p.lexed.items).2, p.lexed.last⟩, created := p.created }

theorem start_eq (rule : Rule) (p : Parser) : p.start rule = p.unread.opened rule := rfl

/-- At the start nothing was created. -/
theorem logged_unread (t : Text) : (ofText t).unread.Logged (Lexed.ofText t).all := by
  refine ⟨⟨[], ?_, Nat.zero_le _⟩, fun k i _ hk => ?_⟩
  · have hitems : _ = (ofText t).lexed.items := Word.flatMap_items_group [] (ofText t).lexed.items
    rw [Lexed.all, ← lexed_ofText, List.nil_append, List.flatMap_append, List.flatMap_singleton]
    exact (congrArg (· ++ [(ofText t).lexed.last]) hitems.symm).trans (List.append_assoc _ _ _)
  · simp [unread, created_ofText] at hk

theorem logged_start (rule : Rule) (t : Text) :
    ((ofText t).start rule).Logged (Lexed.ofText t).all :=
  (stable_logged (Lexed.numbered_ofText t)).opened rule (logged_unread t)

/-- A source without syntax errors has no faulty token. -/
theorem faults_eq_nil (rule : Rule) (t : Text)
    (herrors : ((ofText t).readSource rule).1.errors = []) :
    ∀ i ∈ (Lexed.ofText t).all, i.faults = [] := by
  have hend := ends_start_ofText rule t
  have hnumbered : Token.Numbered 0 ((Lexed.ofText t).all.map Item.token) :=
    Lexed.numbered_ofText t
  obtain ⟨ss, st, hread, -, hlog⟩ := exists_reads hend
  have hstable := stable_logged hnumbered
  have hlogged :=
    hstable.exited rule (hstable.passed rule (hread.stable hstable (logged_start rule t)))
  have hf : Step.faults (st.closed rule).log = [] :=
    List.reverse_eq_nil_iff.mp (hlog.symm.trans herrors)
  have hrest := rest_eq_nil_of_reads hread
  -- The last token was looked at when the source was closed.
  have hcreated : (Lexed.ofText t).all.length ≤ (st.closed rule).created :=
    (hstable.passed rule (hread.stable hstable (logged_start rule t))).created_of_rest_eq_nil hnumbered
      (by simp [hrest])
  intro i hi
  obtain ⟨k, hk⟩ := List.mem_iff_getElem?.mp hi
  have hlt : k < (Lexed.ofText t).all.length := (List.getElem?_eq_some_iff.mp hk).1
  refine List.eq_nil_iff_forall_not_mem.mpr fun f hfault => ?_
  have hmem := hlogged.faults k i hk (Nat.lt_of_lt_of_le hlt hcreated) f hfault
  rw [show st.closed rule = (st.passed rule).exited rule from rfl] at hf
  rw [hf] at hmem
  exact List.not_mem_nil hmem

end Parser
end Reckoner
