import Reckoner.Proofs.Coverage

/-!
# Which insertions are written

An insertion waits in front of its token until a replacement takes it in: then it is part of the
text of a range that begins there, and it goes if another range that begins there is recorded later
and swallows that one. It also goes if a range covers its token from before. `render_insertions` says
that no insertion is lost in any other way, and where it is written.

Edits are told apart by the order in which they were recorded. `Traced` says what is known of the
resolved replacements after each step: which insertions still wait in front of a token, and which
have become part of the range that begins there.
-/
namespace Reckoner
namespace Edit

/-! ## Edits by number -/

/-- The text that an edit adds. -/
def added : Edit → Text
  | insert _ text => text
  | replace r => r.text

/-- An edit as it is recorded: a range has at least one token, and what is only removed leaves no
text. -/
def Recorded : Edit → Prop
  | insert _ _ => True
  | replace r => (0 ≤ r.first ∧ r.first ≤ r.last) ∧ (r.removal → r.text = [])

instance decidableRecorded : DecidablePred Recorded
  | insert _ _ => .isTrue trivial
  | replace r =>
    inferInstanceAs (Decidable ((0 ≤ r.first ∧ r.first ≤ r.last) ∧ (r.removal → r.text = [])))

section
variable (edits : List Edit) (i : Int)

/-- Edit number `p` inserts a text before token `i`. -/
def Inserts (p : Nat) : Prop := ∃ text, edits[p]? = some (insert i text)

/-- Edit number `q` replaces a range that begins at token `i`. -/
def Begins (q : Nat) : Prop := ∃ r, edits[q]? = some (replace r) ∧ r.first = i

/-- Every token after token `i`, up to token `k`, is covered from before. -/
def Joined (k : Int) : Prop := i ≤ k ∧ ∀ j, i < j → j ≤ k → ¬Between edits j

/-- Edit number `q` takes in what waits before token `i`: its range begins there, or earlier ranges
join it to the token. -/
def Takes (q : Nat) : Prop := ∃ r, edits[q]? = some (replace r) ∧ Joined (edits.take q) i r.first

/-- An insertion before token `i` that is edit number `p` is taken in by a range, and another one that
begins at the token comes after that. -/
def Overtaken (p : Nat) : Prop := ∃ q q', p < q ∧ q < q' ∧ Takes edits i q ∧ Begins edits i q'

/-- An insertion that nothing has taken in. -/
def Waits (p : Nat) : Prop := Inserts edits i p ∧ ∀ q, p < q → ¬Takes edits i q

/-- An insertion that is not overtaken. -/
def Stands (p : Nat) : Prop := Inserts edits i p ∧ ¬Overtaken edits i p

/-- An insertion that is part of the range that begins at its token. -/
def Taken (p : Nat) : Prop := Stands edits i p ∧ ¬Waits edits i p

/-- The range that was last recorded to begin at token `i`. -/
def lastBegun : Option Replacement :=
  edits.reverse.findSome? fun
    | insert _ _ => none
    | replace r => if r.first = i then some r else none

/-- The texts of some edits, given by their numbers. -/
def texts (ps : List Nat) : Text := ps.flatMap fun p => (edits[p]?.map added).getD []

end

section
variable {edits : List Edit} {i : Int} {p q : Nat} {d e : Edit} {r : Replacement}

theorem getElem?_concat_eq_some :
    (edits ++ [d])[p]? = some e ↔ edits[p]? = some e ∨ p = edits.length ∧ e = d := by
  rw [List.getElem?_append]
  split
  · next h => simp [Nat.ne_of_lt h]
  · next h =>
    have hnone : edits[p]? = none := List.getElem?_eq_none (by omega)
    rw [hnone]
    by_cases hp : p = edits.length
    · simp [hp, eq_comm]
    · have hout : [d][p - edits.length]? = none := List.getElem?_eq_none (by simp; omega)
      simp [hout, hp]

theorem lt_length_of_getElem? (h : edits[p]? = some d) : p < edits.length :=
  (List.getElem?_eq_some_iff.mp h).1

theorem Inserts.lt_length (h : Inserts edits i p) : p < edits.length :=
  lt_length_of_getElem? h.choose_spec

theorem Takes.lt_length (h : Takes edits i q) : q < edits.length :=
  lt_length_of_getElem? h.choose_spec.1

theorem Begins.takes (h : Begins edits i q) : Takes edits i q := by
  obtain ⟨r, hr, hf⟩ := h
  exact ⟨r, hr, Int.le_of_eq hf.symm, fun j hj hle => by omega⟩

theorem inserts_concat :
    Inserts (edits ++ [d]) i p ↔
      Inserts edits i p ∨ p = edits.length ∧ ∃ text, d = insert i text := by
  simp only [Inserts, getElem?_concat_eq_some, exists_or, eq_comm (b := d)]
  constructor
  · rintro (h | ⟨text, hp, h⟩)
    · exact .inl h
    · exact .inr ⟨hp, text, h⟩
  · rintro (h | ⟨hp, text, h⟩)
    · exact .inl h
    · exact .inr ⟨text, hp, h⟩

theorem begins_concat :
    Begins (edits ++ [d]) i q ↔
      Begins edits i q ∨ q = edits.length ∧ ∃ r, d = replace r ∧ r.first = i := by
  simp only [Begins, getElem?_concat_eq_some]
  constructor
  · rintro ⟨r, hr | ⟨hq, rfl⟩, hf⟩
    · exact .inl ⟨r, hr, hf⟩
    · exact .inr ⟨hq, r, rfl, hf⟩
  · rintro (⟨r, hr, hf⟩ | ⟨hq, r, rfl, hf⟩)
    · exact ⟨r, .inl hr, hf⟩
    · exact ⟨r, .inr ⟨hq, rfl⟩, hf⟩

theorem takes_concat :
    Takes (edits ++ [d]) i q ↔
      Takes edits i q ∨ q = edits.length ∧ ∃ r, d = replace r ∧ Joined edits i r.first := by
  simp only [Takes, getElem?_concat_eq_some]
  constructor
  · rintro ⟨r, hr | ⟨rfl, rfl⟩, hj⟩
    · rw [List.take_append_of_le_length (Nat.le_of_lt (lt_length_of_getElem? hr))] at hj
      exact .inl ⟨r, hr, hj⟩
    · rw [List.take_left] at hj
      exact .inr ⟨rfl, r, rfl, hj⟩
  · rintro (⟨r, hr, hj⟩ | ⟨rfl, r, rfl, hj⟩)
    · refine ⟨r, .inl hr, ?_⟩
      rwa [List.take_append_of_le_length (Nat.le_of_lt (lt_length_of_getElem? hr))]
    · refine ⟨r, .inr ⟨rfl, rfl⟩, ?_⟩
      rwa [List.take_left]

/-! ## One more edit -/

theorem overtaken_concat :
    Overtaken (edits ++ [d]) i p ↔
      Overtaken edits i p ∨ (∃ r, d = replace r ∧ r.first = i) ∧ ∃ q, p < q ∧ Takes edits i q := by
  constructor
  · rintro ⟨q, q', hpq, hqq', ht, hb⟩
    rcases begins_concat.mp hb with hb | ⟨rfl, hd⟩
    · have hq' := hb.takes.lt_length
      rcases takes_concat.mp ht with ht | ⟨rfl, -⟩
      · exact .inl ⟨q, q', hpq, hqq', ht, hb⟩
      · omega
    · rcases takes_concat.mp ht with ht | ⟨rfl, -⟩
      · exact .inr ⟨hd, q, hpq, ht⟩
      · omega
  · rintro (⟨q, q', hpq, hqq', ht, hb⟩ | ⟨hd, q, hpq, ht⟩)
    · exact ⟨q, q', hpq, hqq', takes_concat.mpr (.inl ht), begins_concat.mpr (.inl hb)⟩
    · exact ⟨q, edits.length, hpq, ht.lt_length, takes_concat.mpr (.inl ht),
        begins_concat.mpr (.inr ⟨rfl, hd⟩)⟩

theorem Overtaken.exists_takes (h : Overtaken edits i p) : ∃ q, p < q ∧ Takes edits i q := by
  obtain ⟨q, -, hpq, -, ht, -⟩ := h
  exact ⟨q, hpq, ht⟩

theorem Waits.stands (h : Waits edits i p) : Stands edits i p := by
  refine ⟨h.1, fun hover => ?_⟩
  obtain ⟨q, hpq, ht⟩ := hover.exists_takes
  exact h.2 q hpq ht

/-- A number that is not that of a recorded edit is behind all of them. -/
theorem not_takes_of_le (h : edits.length ≤ p) (hpq : p < q) : ¬Takes edits i q := by
  intro ht
  have := ht.lt_length
  omega

theorem waits_insert {j : Int} {text : Text} :
    Waits (edits ++ [insert j text]) i p ↔ (p = edits.length ∧ j = i) ∨ Waits edits i p := by
  simp only [Waits, inserts_concat, takes_concat, reduceCtorEq, false_and, exists_false, and_false,
    or_false, insert.injEq, exists_and_left, exists_eq', and_true]
  constructor
  · rintro ⟨hin | hp, ht⟩
    · exact .inr ⟨hin, ht⟩
    · exact .inl hp
  · rintro (⟨rfl, hj⟩ | ⟨hin, ht⟩)
    · exact ⟨.inr ⟨rfl, hj⟩, fun q hq => not_takes_of_le (Nat.le_refl _) hq⟩
    · exact ⟨.inl hin, ht⟩

theorem stands_insert {j : Int} {text : Text} :
    Stands (edits ++ [insert j text]) i p ↔ (p = edits.length ∧ j = i) ∨ Stands edits i p := by
  simp only [Stands, inserts_concat, overtaken_concat, reduceCtorEq, false_and, exists_false,
    or_false, insert.injEq, exists_and_left, exists_eq', and_true]
  constructor
  · rintro ⟨hin | hp, hover⟩
    · exact .inr ⟨hin, hover⟩
    · exact .inl hp
  · rintro (⟨rfl, hj⟩ | ⟨hin, hover⟩)
    · refine ⟨.inr ⟨rfl, hj⟩, fun hover => ?_⟩
      obtain ⟨q, hq, ht⟩ := hover.exists_takes
      exact not_takes_of_le (Nat.le_refl _) hq ht
    · exact ⟨.inl hin, hover⟩

theorem not_waits_replace (h : Joined edits i r.first) : ¬Waits (edits ++ [replace r]) i p := by
  rintro ⟨hin, ht⟩
  rcases inserts_concat.mp hin with hin | ⟨-, text, htext⟩
  · exact ht edits.length hin.lt_length (takes_concat.mpr (.inr ⟨rfl, r, rfl, h⟩))
  · cases htext

theorem waits_replace (h : ¬Joined edits i r.first) :
    Waits (edits ++ [replace r]) i p ↔ Waits edits i p := by
  simp only [Waits, inserts_concat, takes_concat, replace.injEq, exists_eq_left', h, and_false,
    or_false, reduceCtorEq, exists_false]

theorem stands_replace_first :
    Stands (edits ++ [replace r]) r.first p ↔ Waits edits r.first p := by
  simp only [Stands, Waits, inserts_concat, overtaken_concat, replace.injEq, exists_eq_left',
    reduceCtorEq, exists_false, and_false, or_false, true_and]
  constructor
  · rintro ⟨hin, hover⟩
    exact ⟨hin, fun q hpq ht => hover (.inr ⟨q, hpq, ht⟩)⟩
  · rintro ⟨hin, ht⟩
    refine ⟨hin, ?_⟩
    rintro (hover | ⟨q, hpq, hq⟩)
    · obtain ⟨q, hpq, hq⟩ := hover.exists_takes
      exact ht q hpq hq
    · exact ht q hpq hq

theorem stands_replace (h : r.first ≠ i) :
    Stands (edits ++ [replace r]) i p ↔ Stands edits i p := by
  simp only [Stands, inserts_concat, overtaken_concat, replace.injEq, exists_eq_left', h,
    false_and, or_false, reduceCtorEq, exists_false, and_false]

@[simp] theorem lastBegun_insert {j : Int} {text : Text} :
    lastBegun (edits ++ [insert j text]) i = lastBegun edits i := by
  simp [lastBegun]

theorem lastBegun_replace :
    lastBegun (edits ++ [replace r]) i = if r.first = i then some r else lastBegun edits i := by
  by_cases h : r.first = i <;> simp [lastBegun, h]

@[simp] theorem between_cons_insert {j : Int} {text : Text} :
    Between (insert j text :: edits) i ↔ Between edits i := by
  simp [Between]

@[simp] theorem between_cons_replace :
    Between (replace r :: edits) i ↔ ¬(r.first < i ∧ i ≤ r.last) ∧ Between edits i := by
  simp [Between]

theorem between_insert {j : Int} {text : Text} :
    Between (edits ++ [insert j text]) i ↔ Between edits i := by
  simp [Between]

theorem between_replace :
    Between (edits ++ [replace r]) i ↔ Between edits i ∧ ¬(r.first < i ∧ i ≤ r.last) := by
  simp only [Between, List.mem_append, List.mem_singleton, replace.injEq, or_imp, forall_and,
    forall_eq]

end

/-! ## Lists of numbers -/

/-- All numbers with a property, the largest first. -/
def Lists (P : Nat → Prop) (ps : List Nat) : Prop := ps.Pairwise (· > ·) ∧ ∀ p, p ∈ ps ↔ P p

namespace Lists
variable {P Q : Nat → Prop} {ps qs : List Nat}

theorem nil (h : ∀ p, ¬P p) : Lists P [] := ⟨.nil, fun p => by simp [h p]⟩

theorem congr (h : Lists P ps) (hpq : ∀ p, Q p ↔ P p) : Lists Q ps :=
  ⟨h.1, fun p => (h.2 p).trans (hpq p).symm⟩

theorem append (h : Lists P ps) (h' : Lists Q qs) (hlt : ∀ p q, P p → Q q → q < p) :
    Lists (fun p => P p ∨ Q p) (ps ++ qs) := by
  constructor
  · refine List.pairwise_append.mpr ⟨h.1, h'.1, fun p hp q hq => ?_⟩
    exact hlt p q ((h.2 p).mp hp) ((h'.2 q).mp hq)
  · intro p
    rw [List.mem_append, h.2, h'.2]

theorem cons {n : Nat} (h : Lists P ps) (hlt : ∀ p, P p → p < n) :
    Lists (fun p => p = n ∨ P p) (n :: ps) := by
  have hn : Lists (· = n) [n] := ⟨List.pairwise_singleton _ _, fun p => List.mem_singleton⟩
  exact hn.append h fun p q hp hq => hp ▸ hlt q hq

end Lists

section
variable {edits : List Edit} {i : Int} {ps qs : List Nat} {d : Edit}

theorem texts_append : texts edits (ps ++ qs) = texts edits ps ++ texts edits qs :=
  List.flatMap_append

/-- An edit that is recorded later changes no text of an earlier one. -/
theorem texts_concat (h : ∀ p ∈ ps, p < edits.length) : texts (edits ++ [d]) ps = texts edits ps := by
  refine List.flatMap_congr fun p hp => ?_
  rw [List.getElem?_append_left (h p hp)]

theorem texts_cons_length (h : ∀ p ∈ ps, p < edits.length) :
    texts (edits ++ [d]) (edits.length :: ps) = d.added ++ texts edits ps := by
  rw [← texts_concat (d := d) h]
  simp [texts]

theorem Lists.texts_concat {P : Nat → Prop} (h : Lists P ps) (hP : ∀ p, P p → Inserts edits i p) :
    texts (edits ++ [d]) ps = texts edits ps :=
  Edit.texts_concat fun p hp => (hP p ((h.2 p).mp hp)).lt_length

end

/-! ## Resolving one replacement -/

section
variable {start : Int} {done kept : List Edit} {r r' : Replacement}

/-- What a replacement does to the edits that it is resolved against, and what becomes of it. It
takes in what is inserted at its first token, which can be the first token of a removal by which it
grows, and changes nothing outside its range. -/
structure Absorbs (done : List Edit) (r : Replacement) (kept : List Edit) (r' : Replacement) :
    Prop where
  between : ∀ j, Between kept j ∧ ¬(r'.first < j ∧ j ≤ r'.last) ↔
    Between done j ∧ ¬(r.first < j ∧ j ≤ r.last)
  inserted : ∀ j, ¬(r'.first ≤ j ∧ j ≤ r'.last) → insertedAt j kept = insertedAt j done
  range : r'.first ≤ r.first ∧ r.last ≤ r'.last
  text : r'.text = insertedAt r'.first done ++ r.text
  grown : r'.first ≠ r.first →
    r.removal = true ∧ ∃ e, replace e ∈ done ∧ e.removal = true ∧ e.first = r'.first
  removal : r'.removal = true → r.removal = true ∧ r'.text = r.text

theorem insertedAt_insert_of_ne {j k : Int} (h : j ≠ k) (text : Text) :
    insertedAt k (insert j text :: done) = insertedAt k done := by
  simp [insertedAt, h]

namespace Absorbs

theorem grown_cons (h : Absorbs done r kept r') (d : Edit) (hne : r'.first ≠ r.first) :
    r.removal = true ∧ ∃ e, replace e ∈ d :: done ∧ e.removal = true ∧ e.first = r'.first := by
  obtain ⟨hrem, e, he, hfound⟩ := h.grown hne
  exact ⟨hrem, e, List.mem_cons_of_mem _ he, hfound⟩

/-- What is inserted at the first token of the replacement becomes part of it. It does not grow any
more then. -/
theorem take {text : Text}
    (h : Absorbs done { r with text := text ++ r.text, removal := false } kept r')
    (hle : r.first ≤ r.last) : Absorbs (insert r.first text :: done) r kept r' := by
  have hfirst : r'.first = r.first := by
    by_contra hne
    simpa using (h.grown hne).1
  have hrange : r.last ≤ r'.last := h.range.2
  constructor
  · simpa using h.between
  · intro j hj
    rw [h.inserted j hj, insertedAt_insert_of_ne (by omega)]
  · exact h.range
  · rw [h.text, insertedAt, hfirst, if_pos rfl, List.append_assoc]
  · intro hne
    exact absurd hfirst hne
  · intro hrem
    simpa using (h.removal hrem).1

/-- What is inserted inside the range goes. -/
theorem dropInsertion {j : Int} {text : Text} (h : Absorbs done r kept r')
    (hin : r.first < j ∧ j ≤ r.last) : Absorbs (insert j text :: done) r kept r' := by
  have hrange := h.range
  constructor
  · simpa using h.between
  · intro k hk
    rw [h.inserted k hk, insertedAt_insert_of_ne (by omega)]
  · exact hrange
  · rw [h.text, insertedAt_insert_of_ne (by omega)]
  · exact h.grown_cons _
  · exact h.removal

/-- What is inserted elsewhere stays. -/
theorem keepInsertion {j : Int} {text : Text} (h : Absorbs done r kept r') (hne : j ≠ r'.first) :
    Absorbs (insert j text :: done) r (insert j text :: kept) r' := by
  constructor
  · simpa using h.between
  · intro k hk
    rw [insertedAt, insertedAt, h.inserted k hk]
  · exact h.range
  · rw [h.text, insertedAt_insert_of_ne hne]
  · exact h.grown_cons _
  · exact h.removal

/-- A replacement in the range goes. -/
theorem dropReplacement {e : Replacement} (h : Absorbs done r kept r')
    (hin : r.first ≤ e.first ∧ e.last ≤ r.last) : Absorbs (replace e :: done) r kept r' := by
  constructor
  · intro j
    rw [h.between, between_cons_replace]
    constructor
    · rintro ⟨hb, hj⟩
      exact ⟨⟨by omega, hb⟩, hj⟩
    · rintro ⟨⟨-, hb⟩, hj⟩
      exact ⟨hb, hj⟩
  · exact h.inserted
  · exact h.range
  · exact h.text
  · exact h.grown_cons _
  · exact h.removal

/-- A replacement elsewhere stays. -/
theorem keepReplacement (h : Absorbs done r kept r') (e : Replacement) :
    Absorbs (replace e :: done) r (replace e :: kept) r' := by
  constructor
  · intro j
    rw [between_cons_replace, between_cons_replace, and_assoc, and_assoc, h.between]
  · exact h.inserted
  · exact h.range
  · exact h.text
  · exact h.grown_cons _
  · exact h.removal

/-- A removal grows by one that it overlaps. -/
theorem grow {e : Replacement}
    (h : Absorbs done { r with first := min r.first e.first, last := max r.last e.last } kept r')
    (hrem : e.removal = true ∧ r.removal = true)
    (hmeet : ¬(e.last < r.first ∨ r.last < e.first)) : Absorbs (replace e :: done) r kept r' := by
  have hrange := h.range
  simp only at hrange
  constructor
  · intro j
    have hunion : ¬(min r.first e.first < j ∧ j ≤ max r.last e.last) ↔
        ¬(e.first < j ∧ j ≤ e.last) ∧ ¬(r.first < j ∧ j ≤ r.last) := by omega
    rw [h.between, between_cons_replace, hunion, and_left_comm, and_assoc]
  · exact h.inserted
  · omega
  · exact h.text
  · intro hne
    refine ⟨hrem.2, ?_⟩
    by_cases hfirst : r'.first = min r.first e.first
    · exact ⟨e, List.mem_cons_self, hrem.1, by omega⟩
    · exact (h.grown_cons _ hfirst).2
  · exact h.removal

/-- No range of those that are resolved begins at the token of an insertion before them. -/
theorem ne_first {j : Int} {text : Text} (h : Absorbs done r kept r')
    (hp : ∀ d ∈ done, d.Proper start) (hc : ∀ d ∈ done, (insert j text).Clear d)
    (hj : j ≠ r.first) : j ≠ r'.first := by
  rintro rfl
  obtain ⟨-, e, he, -, hfirst⟩ := h.grown hj
  have hclear := hc _ he
  have hproper := hp _ he
  simp only [Clear] at hclear
  simp only [Proper] at hproper
  omega

end Absorbs

/-- Resolving a replacement, if it succeeds, does what `Absorbs` says. -/
theorem absorbs_of_absorb (hr : (replace r).Proper start) (hp : ∀ d ∈ done, d.Proper start)
    (hc : done.Pairwise Clear) (h : absorb r done = .ok (kept, r')) : Absorbs done r kept r' := by
  -- The replacement may change with every edit that it is resolved against.
  induction done generalizing r kept r' with
  | nil =>
    cases h
    constructor <;> simp [insertedAt]
  | cons d done ih =>
    obtain ⟨hd, hdone⟩ := List.pairwise_cons.mp hc
    rw [List.forall_mem_cons] at hp
    simp only [Proper] at hr
    cases d with
    | insert j text =>
      rw [absorb] at h
      split at h
      · next hj =>
        subst hj
        exact (ih (r := { r with text := text ++ r.text, removal := false }) hr hp.2 hdone h).take
          hr.2
      · next hj =>
        split at h
        · next hin => exact (ih hr hp.2 hdone h).dropInsertion hin
        · obtain ⟨⟨kept, r₀⟩, habsorb, hok⟩ := Effect.bind_eq_ok_iff.mp h
          cases hok
          have hrest := ih hr hp.2 hdone habsorb
          exact hrest.keepInsertion (hrest.ne_first hp.2 hd hj)
    | replace e =>
      have hpe := hp.1
      simp only [Proper] at hpe
      rw [absorb] at h
      split at h
      · next hin => exact (ih hr hp.2 hdone h).dropReplacement hin
      · split at h
        · obtain ⟨⟨kept, r₀⟩, habsorb, hok⟩ := Effect.bind_eq_ok_iff.mp h
          cases hok
          exact (ih hr hp.2 hdone habsorb).keepReplacement e
        · next hmeet =>
          split at h
          · next hrem =>
            refine (ih ?_ hp.2 hdone h).grow hrem hmeet
            simp only [Proper]
            omega
          · cases h

end

/-! ## Resolving all replacements -/

section
variable {seen done edits out : List Edit} {i : Int} {p : Nat}

/-- The range that begins at a token, after some edits have been resolved, if there is one. Its text
is that of the range that was last recorded to begin there, behind what that one has taken in. -/
inductive Site (seen done : List Edit) (i : Int) : Prop where
  | free (hdone : ∀ r, replace r ∈ done → r.first ≠ i) (hlast : lastBegun seen i = none)
    (htakes : ∀ q, ¬Takes seen i q)
  | begun {r b : Replacement} {ps : List Nat} (hr : replace r ∈ done) (hfirst : r.first = i)
    (hlast : lastBegun seen i = some b) (hps : Lists (Taken seen i) ps)
    (htext : r.text = texts seen ps ++ b.text)

/-- What is known of the edits `done` that are left after the edits `seen` have been resolved. -/
structure Traced (seen done : List Edit) : Prop where
  clear : done.Pairwise Clear
  proper : ∀ d ∈ done, d.Proper 0
  removal : ∀ r, replace r ∈ done → r.removal = true → r.text = []
  between : ∀ i, Between done i ↔ Between seen i
  waiting : ∀ i, Between seen i →
    ∃ ps, Lists (Waits seen i) ps ∧ insertedAt i done = texts seen ps
  site : ∀ i, Between seen i → Site seen done i

theorem insertedAt_concat (done : List Edit) (d : Edit) :
    insertedAt i (done ++ [d]) = insertedAt i [d] ++ insertedAt i done := by
  induction done with
  | nil => simp [insertedAt]
  | cons e done ih => cases e <;> simp [insertedAt, ih]

theorem insertedAt_eq_nil (h : ∀ text, insert i text ∉ done) : insertedAt i done = [] := by
  induction done with
  | nil => rfl
  | cons d done ih =>
    have ih := ih fun text ht => h text (List.mem_cons_of_mem _ ht)
    cases d with
    | insert j text =>
      have hne : j ≠ i := by
        rintro rfl
        exact h text List.mem_cons_self
      rw [insertedAt_insert_of_ne hne, ih]
    | replace r => exact ih

/-- No two ranges of resolved replacements begin at one token. -/
theorem eq_of_first_eq (hc : done.Pairwise Clear) (hp : ∀ d ∈ done, d.Proper 0)
    {r r' : Replacement} (hr : replace r ∈ done) (hr' : replace r' ∈ done)
    (h : r.first = r'.first) : r = r' := by
  have hlast := (hp _ hr).2
  have hlast' := (hp _ hr').2
  obtain ⟨before, after, rfl⟩ := List.append_of_mem hr
  obtain ⟨-, hafter, hbefore⟩ := List.pairwise_append.mp hc
  obtain ⟨hafter, -⟩ := List.pairwise_cons.mp hafter
  rcases List.mem_append.mp hr' with hmem | hmem
  · have hclear := hbefore _ hmem _ List.mem_cons_self
    simp only [Clear] at hclear
    omega
  · rcases List.mem_cons.mp hmem with heq | hmem
    · cases heq
      rfl
    · have hclear := hafter _ hmem
      simp only [Clear] at hclear
      omega

theorem taken_insert {j : Int} {text : Text} :
    Taken (seen ++ [insert j text]) i p ↔ Taken seen i p := by
  rw [Taken, waits_insert, stands_insert, Taken]
  constructor
  · rintro ⟨hstands, hwaits⟩
    rw [not_or] at hwaits
    exact ⟨hstands.resolve_left hwaits.1, hwaits.2⟩
  · rintro ⟨hstands, hwaits⟩
    have hlt := hstands.1.lt_length
    refine ⟨.inr hstands, ?_⟩
    rintro (⟨hp, -⟩ | hw)
    · omega
    · exact hwaits hw

theorem Site.concat_insert (h : Site seen done i) (j : Int) (text : Text) :
    Site (seen ++ [insert j text]) (done ++ [Edit.insert j text]) i := by
  cases h with
  | free hdone hlast htakes =>
    refine .free ?_ (by rw [lastBegun_insert, hlast]) ?_
    · simpa using hdone
    · simpa [takes_concat] using htakes
  | begun hr hfirst hlast hps htext =>
    refine .begun (List.mem_append_left _ hr) hfirst (by rw [lastBegun_insert, hlast])
      (hps.congr fun p => taken_insert) ?_
    rw [hps.texts_concat fun p hp => hp.1.1, htext]

theorem Traced.nil : Traced [] [] where
  clear := .nil
  proper := by simp
  removal := by simp
  between := by simp
  waiting := fun i _ => ⟨[], .nil fun p h => by simpa using h.1.lt_length, rfl⟩
  site := fun i _ => .free (by simp) rfl fun q h => by simpa using h.lt_length

theorem Traced.concat_insert (h : Traced seen done) (j : Int) (text : Text) :
    Traced (seen ++ [insert j text]) (done ++ [Edit.insert j text]) := by
  constructor
  · refine List.pairwise_append.mpr ⟨h.clear, List.pairwise_singleton _ _, fun d hd e he => ?_⟩
    rw [List.mem_singleton.mp he]
    cases d <;> trivial
  · rw [List.forall_mem_append, List.forall_mem_singleton]
    exact ⟨h.proper, trivial⟩
  · simpa using h.removal
  · intro i
    rw [between_insert, between_insert, h.between]
  · intro i hi
    rw [between_insert] at hi
    obtain ⟨ps, hps, htext⟩ := h.waiting i hi
    have hlt : ∀ p, Waits seen i p → p < seen.length := fun p hp => hp.1.lt_length
    rw [insertedAt_concat, htext]
    by_cases hj : j = i
    · refine ⟨seen.length :: ps, (hps.cons hlt).congr fun p => ?_, ?_⟩
      · rw [waits_insert, and_iff_left hj]
      · rw [texts_cons_length fun p hp => hlt p ((hps.2 p).mp hp)]
        simp [insertedAt, hj, added]
    · refine ⟨ps, hps.congr fun p => ?_, ?_⟩
      · rw [waits_insert, or_iff_right fun h => hj h.2]
      · rw [hps.texts_concat fun p hp => hp.1]
        simp [insertedAt, hj]
  · intro i hi
    rw [between_insert] at hi
    exact (h.site i hi).concat_insert j text

/-- A replacement that is resolved takes in what waits before one token, if it is the first token of
what the replacement becomes. -/
theorem Traced.joined_iff (h : Traced seen done) {kept : List Edit} {r r' : Replacement}
    (hg : Gathered 0 done r kept r') (ha : Absorbs done r kept r') (hle : r.first ≤ r.last)
    (hi : Between seen i) : Joined seen i r.first ↔ i = r'.first := by
  have hrange := ha.range
  have hfirst : Between seen r'.first := by
    have hkept : Between kept r'.first := by
      intro k hk hcov
      have hclear := hg.clear _ hk
      simp only [Clear] at hclear
      omega
    exact (h.between _).mp ((ha.between _).mp ⟨hkept, by omega⟩).1
  have hjoined : Joined seen r'.first r.first := by
    refine ⟨hrange.1, fun j hj hle' hb => ?_⟩
    have hout := (ha.between j).mpr ⟨(h.between j).mpr hb, by omega⟩
    exact hout.2 ⟨hj, by omega⟩
  constructor
  · intro hj
    rcases Int.lt_trichotomy i r'.first with hlt | heq | hgt
    · exact absurd hfirst (hj.2 _ hlt hrange.1)
    · exact heq
    · exact absurd hi (hjoined.2 _ hgt hj.1)
  · rintro rfl
    exact hjoined

/-- The token at which a resolved replacement begins. -/
theorem Traced.site_first (h : Traced seen done) {kept : List Edit} {r r' : Replacement}
    (ha : Absorbs done r kept r') (hrem : r.removal = true → r.text = [])
    (hi : Between seen r'.first) (hj : Joined seen r'.first r.first) :
    Site (seen ++ [replace r]) (kept ++ [replace r']) r'.first := by
  obtain ⟨ps, hps, htext⟩ := h.waiting _ hi
  have hmem : replace r' ∈ kept ++ [replace r'] := by simp
  have hnone : ∀ p, ¬Waits (seen ++ [replace r]) r'.first p := fun p => not_waits_replace hj
  by_cases hfirst : r.first = r'.first
  · refine .begun hmem rfl (by rw [lastBegun_replace, if_pos hfirst]) (hps.congr fun p => ?_) ?_
    · rw [Taken, and_iff_left (hnone p), ← hfirst, stands_replace_first]
    · rw [hps.texts_concat fun p hp => hp.1, ← htext, ha.text]
  · -- The replacement is a removal that has grown by another one, and neither leaves a text.
    obtain ⟨hr, e, he, herem, hefirst⟩ := ha.grown (Ne.symm hfirst)
    cases h.site _ hi with
    | free hdone _ _ => exact absurd hefirst (hdone e he)
    | @begun e' b qs he' hefirst' hlast hqs hetext =>
      obtain rfl := eq_of_first_eq h.clear h.proper he he' (hefirst.trans hefirst'.symm)
      rw [h.removal e he herem, eq_comm, List.append_eq_nil_iff] at hetext
      have hlt : ∀ p q, Waits seen r'.first p → Taken seen r'.first q → q < p := by
        rintro p q ⟨-, hp⟩ ⟨hstands, hq⟩
        rw [Waits, not_and] at hq
        by_contra hle
        exact hq hstands.1 fun q' hqq' => hp q' (by omega)
      refine .begun hmem rfl (by rw [lastBegun_replace, if_neg hfirst, hlast])
        ((hps.append hqs hlt).congr fun p => ?_) ?_
      · rw [Taken, and_iff_left (hnone p), stands_replace hfirst, Taken]
        constructor
        · intro hstands
          by_cases hw : Waits seen r'.first p
          · exact .inl hw
          · exact .inr ⟨hstands, hw⟩
        · rintro (hw | ⟨hstands, -⟩)
          · exact hw.stands
          · exact hstands
      · rw [texts_append, hps.texts_concat fun p hp => hp.1, hqs.texts_concat fun p hp => hp.1.1,
          hetext.1, hetext.2, ha.text, htext, hrem hr]
        simp

/-- A token that a resolved replacement does not concern. -/
theorem Traced.site_elsewhere (h : Traced seen done) {kept : List Edit} {r r' : Replacement}
    (hg : Gathered 0 done r kept r') (hi : Between seen i) (hne : i ≠ r'.first)
    (hout : ¬(r'.first < i ∧ i ≤ r'.last)) (hj : ¬Joined seen i r.first) :
    Site (seen ++ [replace r]) (kept ++ [replace r']) i := by
  have hfirst : r.first ≠ i := by
    rintro rfl
    exact hj ⟨Int.le_refl _, fun j hj hle => by omega⟩
  cases h.site i hi with
  | free hdone hlast htakes =>
    refine .free ?_ (by rw [lastBegun_replace, if_neg hfirst, hlast]) fun q => ?_
    · intro k hk
      rcases List.mem_append.mp hk with hk | hk
      · exact hdone k (hg.sublist.subset hk)
      · cases List.mem_singleton.mp hk
        exact Ne.symm hne
    · rw [takes_concat]
      rintro (hq | ⟨-, k, hk, hjoined⟩)
      · exact htakes q hq
      · cases hk
        exact hj hjoined
  | @begun e b ps he hefirst hlast hps htext =>
    -- The range that begins at the token is still there.
    have hcovered : Covered done i := ⟨_, he, by
      have := h.proper _ he
      simp only [Proper] at this
      simp only [Covers]
      omega⟩
    have hkept : Covered kept i := by
      refine ((hg.covered i).mpr (.inl hcovered)).resolve_right fun hcov => ?_
      simp only [Covers] at hcov
      omega
    obtain ⟨k, hk, hkcov⟩ := exists_replace_of_covered hkept
    have hkdone := hg.sublist.subset hk
    have hkfirst : k.first = i := by
      have := (h.between i).mpr hi k hkdone
      omega
    obtain rfl := eq_of_first_eq h.clear h.proper he hkdone (hefirst.trans hkfirst.symm)
    refine .begun (List.mem_append_left _ hk) hefirst
      (by rw [lastBegun_replace, if_neg hfirst, hlast]) (hps.congr fun p => ?_) ?_
    · rw [Taken, Taken, stands_replace hfirst, waits_replace hj]
    · rw [hps.texts_concat fun p hp => hp.1.1, htext]

theorem Traced.concat_replace (h : Traced seen done) {kept : List Edit} {r r' : Replacement}
    (hr : (Edit.replace r).Recorded) (hres : absorb r done = .ok (kept, r')) :
    Traced (seen ++ [Edit.replace r]) (kept ++ [Edit.replace r']) := by
  have hg := gathered_of_absorb hr.1 h.proper h.clear hres
  have ha := absorbs_of_absorb hr.1 h.proper h.clear hres
  have hrange := ha.range
  have hle := hr.1.2
  have hbetween : ∀ i, Between (kept ++ [Edit.replace r']) i ↔
      Between (seen ++ [Edit.replace r]) i := by
    intro i
    rw [between_replace, between_replace, ha.between, h.between]
  constructor
  · refine List.pairwise_append.mpr ⟨h.clear.sublist hg.sublist, List.pairwise_singleton _ _, ?_⟩
    intro d hd e he
    rw [List.mem_singleton.mp he]
    exact hg.clear d hd
  · rw [List.forall_mem_append, List.forall_mem_singleton]
    exact ⟨fun d hd => h.proper d (hg.sublist.subset hd), hg.proper⟩
  · intro k hk hrem
    rcases List.mem_append.mp hk with hk | hk
    · exact h.removal k (hg.sublist.subset hk) hrem
    · cases List.mem_singleton.mp hk
      obtain ⟨hrem, htext⟩ := ha.removal hrem
      rw [htext, hr.2 hrem]
  · exact hbetween
  · intro i hi
    have hout := (between_replace.mp ((hbetween i).mpr hi)).2
    have hseen := (between_replace.mp hi).1
    have hj := h.joined_iff hg ha hle hseen
    have hnone : insertedAt i [Edit.replace r'] = [] := rfl
    rw [insertedAt_concat, hnone, List.nil_append]
    by_cases hfirst : i = r'.first
    · refine ⟨[], .nil fun p => not_waits_replace (hj.mpr hfirst), ?_⟩
      refine insertedAt_eq_nil fun text ht => ?_
      have hclear := hg.clear _ ht
      simp only [Clear] at hclear
      omega
    · obtain ⟨ps, hps, htext⟩ := h.waiting i hseen
      refine ⟨ps, hps.congr fun p => waits_replace fun hjoined => hfirst (hj.mp hjoined), ?_⟩
      rw [hps.texts_concat fun p hp => hp.1, ← htext, ha.inserted i (by omega)]
  · intro i hi
    have hout := (between_replace.mp ((hbetween i).mpr hi)).2
    have hseen := (between_replace.mp hi).1
    have hj := h.joined_iff hg ha hle hseen
    by_cases hfirst : i = r'.first
    · subst hfirst
      exact h.site_first ha hr.2 hseen (hj.mpr rfl)
    · exact h.site_elsewhere hg hseen hfirst hout fun hjoined => hfirst (hj.mp hjoined)

theorem Traced.reduceReplacements (h : Traced seen done) (hrec : ∀ d ∈ edits, d.Recorded)
    (hres : reduceReplacements done edits = .ok out) : Traced (seen ++ edits) out := by
  induction edits generalizing seen done with
  | nil =>
    cases hres
    rwa [List.append_nil]
  | cons d edits ih =>
    rw [List.forall_mem_cons] at hrec
    rw [List.append_cons]
    cases d with
    | insert j text => exact ih (h.concat_insert j text) hrec.2 hres
    | replace r =>
      obtain ⟨⟨kept, r'⟩, habsorb, hrest⟩ := Effect.bind_eq_ok_iff.mp hres
      exact ih (h.concat_replace hrec.1 habsorb) hrec.2 hrest

end

/-! ## What is written -/

instance decidableBetween (i : Int) : (edits : List Edit) → Decidable (Between edits i)
  | [] => .isTrue (by simp [Between])
  | insert _ _ :: edits => @decidable_of_iff _ _ between_cons_insert.symm (decidableBetween i edits)
  | replace r :: edits =>
    have := decidableBetween i edits
    decidable_of_iff (¬(r.first < i ∧ i ≤ r.last) ∧ Between edits i) between_cons_replace.symm

/-- What is left of a token with a text of its own: nothing if a range covers it from before, and
else the text of the range that was last recorded to begin there, if there is one. -/
def remnant (edits : List Edit) (i : Int) (own : Text) : Text :=
  if Between edits i then ((lastBegun edits i).map Replacement.text).getD own else []

section
variable {edits out : List Edit} {i : Int}

/-- Insertions do not change what is left of a token. -/
theorem body_foldl_edit (h : ∀ r, replace r ∈ edits → ¬(replace r).Touches i) (s : Spot) :
    (edits.foldl (Spot.edit i) s).body = s.body := by
  induction edits generalizing s with
  | nil => rfl
  | cons d edits ih =>
    rw [List.foldl_cons, ih fun r hr => h r (List.mem_cons_of_mem _ hr)]
    cases d with
    | insert j text =>
      rw [Spot.edit]
      split <;> rfl
    | replace r => rw [Spot.edit_of_not_touches (h r List.mem_cons_self)]

/-- The only replacement that concerns a token decides what is left of it. -/
theorem body_of_clear {start : Int} (hc : out.Pairwise Clear) (hp : ∀ d ∈ out, d.Proper start)
    {r : Replacement} (hr : replace r ∈ out) (hf : r.first ≤ i) (hl : i ≤ r.last) :
    (Spot.of out i).body = (Spot.edit i {} (.replace r)).body := by
  obtain ⟨before, after, rfl⟩ := List.append_of_mem hr
  obtain ⟨-, hafter, hbefore⟩ := List.pairwise_append.mp hc
  obtain ⟨hafter, -⟩ := List.pairwise_cons.mp hafter
  have hb : ∀ d ∈ before, ¬d.Touches i := by
    intro d hd
    have hclear := hbefore d hd _ List.mem_cons_self
    exact hclear.not_touches (hp d (List.mem_append_left _ hd)) hf hl
  have ha : ∀ e, replace e ∈ after → ¬(replace e).Touches i := by
    intro e he ht
    have hclear := hafter _ he
    have hproper := hp (replace e) (by simp [he])
    simp only [Clear] at hclear
    simp only [Proper] at hproper
    simp only [Touches] at ht
    omega
  rw [Spot.of_append_of_not_touches_left hb, Spot.of, List.foldl_cons, body_foldl_edit ha]

/-- In front of a token stand the insertions that it is not covered against and that are not
overtaken, the latest first, and then what is left of the token. -/
theorem Traced.text_spot (h : Traced edits out) (i : Int) :
    ∃ ps, Lists (fun p => Between edits i ∧ Stands edits i p) ps ∧
      ∀ own, (Spot.of out i).text own = texts edits ps ++ remnant edits i own := by
  by_cases hi : Between edits i
  · obtain ⟨ps, hps, htext⟩ := h.waiting i hi
    have hinserted := inserted_of_clear h.clear h.proper i
    rw [htext] at hinserted
    cases h.site i hi with
    | free hdone hlast htakes =>
      refine ⟨ps, hps.congr fun p => ?_, fun own => ?_⟩
      · rw [and_iff_right hi]
        exact ⟨fun hs => ⟨hs.1, fun q _ => htakes q⟩, Waits.stands⟩
      · have hnone : ∀ r, replace r ∈ out → ¬(replace r).Touches i := by
          intro r hr ht
          rcases ht with hf | hin
          · exact hdone r hr hf
          · exact (h.between i).mpr hi r hr hin
        have hbody : (Spot.of out i).body = .kept := body_foldl_edit hnone {}
        rw [Spot.text, hbody, hinserted, remnant, if_pos hi, hlast]
        rfl
    | @begun r b qs hr hfirst hlast hqs hrtext =>
      have hlt : ∀ p q, Waits edits i p → Taken edits i q → q < p := by
        rintro p q ⟨-, hp⟩ ⟨hstands, hq⟩
        rw [Waits, not_and] at hq
        by_contra hle
        exact hq hstands.1 fun q' hqq' => hp q' (by omega)
      refine ⟨ps ++ qs, (hps.append hqs hlt).congr fun p => ?_, fun own => ?_⟩
      · rw [and_iff_right hi]
        constructor
        · intro hs
          by_cases hw : Waits edits i p
          · exact .inl hw
          · exact .inr ⟨hs, hw⟩
        · rintro (hw | ⟨hs, -⟩)
          · exact hw.stands
          · exact hs
      · have hproper := h.proper _ hr
        simp only [Proper] at hproper
        have hbody := body_of_clear h.clear h.proper hr (i := i) (by omega) (by omega)
        rw [Spot.edit, if_pos hfirst] at hbody
        rw [Spot.text, hbody, hinserted, remnant, if_pos hi, hlast, texts_append, hrtext]
        simp
  · refine ⟨[], .nil fun p hp => hi hp.1, fun own => ?_⟩
    rw [← h.between, Between] at hi
    push Not at hi
    obtain ⟨r, hr, hin⟩ := hi
    have hbody := body_of_clear h.clear h.proper hr (i := i) (by omega) hin.2
    rw [Spot.edit_of_covers hin.1 hin.2] at hbody
    rw [remnant, if_neg fun hb => (h.between i).mpr hb r hr hin, Spot.text, hbody]
    rfl

end

/-- The text of a source with edits applied, in the order in which they were recorded, if they can
be resolved: what is left of every token with the insertions in front of it that are written there.
An insertion is written, exactly once, if and only if no recorded range covers its token from
before, and no range that begins at the token was recorded after one that took the insertion in. It
stands in front of its token, or of the text of the range that begins there, and insertions that
were recorded later stand further in front. -/
theorem render_insertions (t : Text) {edits ops : List Edit} (hrec : ∀ d ∈ edits, d.Recorded)
    (hreduce : reduce edits = .ok ops) :
    ∃ placed : Int → List Nat,
      (∀ i, (placed i).Pairwise (· > ·)) ∧
      (∀ i p, p ∈ placed i ↔ (∃ text, edits[p]? = some (insert i text)) ∧
        (∀ r, replace r ∈ edits → ¬(r.first < i ∧ i ≤ r.last)) ∧ ¬Overtaken edits i p) ∧
      render (Lexed.ofText t).tokens edits 0 ((Lexed.ofText t).tokens.length - 1) =
        .ok ((Lexed.ofText t).tokens.flatMap fun u =>
          texts edits (placed u.index) ++ remnant edits u.index u.text) := by
  obtain ⟨out, hout, hops⟩ := Effect.bind_eq_ok_iff.mp hreduce
  cases hops
  have htraced : Traced edits out := Traced.nil.reduceReplacements hrec hout
  choose placed hlists htext using htraced.text_spot
  refine ⟨placed, fun i => (hlists i).1, fun i p => ?_, ?_⟩
  · rw [(hlists i).2, and_left_comm]
    rfl
  · have hcount : ((Lexed.ofText t).tokens.length - 1 + 1 - 0 : Int).toNat =
        (Lexed.ofText t).tokens.length := by omega
    have hown : ∀ u ∈ (Lexed.ofText t).tokens, (Lexed.ofText t).tokens[u.index]? = some u :=
      fun u hu => Lexed.getElem?_tokens_ofText hu
    have hwritten := shown_eq_written out (Lexed.numbered_ofText t) hown
    simp only [render, hreduce, Effect.ok_bind, Effect.pure_eq_ok]
    rw [renderFrom_reduceInsertions htraced.clear htraced.proper, hcount, ← Int.natCast_zero,
      hwritten, written]
    simp only [htext]

theorem render_insertions_grown :
    let t : Text := "a b c d e"
    let edits : List Edit := [insert 2 "p", remove 4 5, insert 4 "q", remove 5 6, insert 4 "s",
      insert 6 "l", insert 2 "t", replace { first := 2, last := 2, text := "B" }, insert 9 "w"]
    (∀ d ∈ edits, d.Recorded) ∧
    ∃ placed : Int → List Nat,
      (∀ i p, p ∈ placed i ↔ (∃ text, edits[p]? = some (insert i text)) ∧
        (∀ r, replace r ∈ edits → ¬(r.first < i ∧ i ≤ r.last)) ∧ ¬Overtaken edits i p) ∧
      (Lexed.ofText t).tokens.flatMap (fun u =>
        texts edits (placed u.index) ++ remnant edits u.index u.text) = "a tpB sq ew" := by
  intro t edits
  have hrec : ∀ d ∈ edits, d.Recorded := by decide +kernel
  obtain ⟨ops, hreduce⟩ : ∃ ops, reduce edits = .ok ops := ⟨_, rfl⟩
  have hrender : render (Lexed.ofText t).tokens edits 0 ((Lexed.ofText t).tokens.length - 1) =
      .ok "a tpB sq ew" := by decide +kernel
  obtain ⟨placed, -, hplaced, htext⟩ := render_insertions t hrec hreduce
  rw [htext] at hrender
  exact ⟨hrec, placed, hplaced, by simpa using hrender⟩

/-- An insertion is lost if two ranges that begin at its token are recorded after it, although none
covers the token from before. Recorded after the first of them it is kept. -/
theorem insertion_lost :
    let tokens := (Lexed.ofText "a").tokens
    let x : Edit := insert 0 "x"
    let y : Edit := replace { first := 0, last := 0, text := "y" }
    let z : Edit := replace { first := 0, last := 0, text := "z" }
    (∀ r, replace r ∈ [x, y, z] → ¬(r.first < 0 ∧ 0 ≤ r.last)) ∧
      render tokens [x, y, z] 0 1 = .ok "z" ∧ render tokens [y, x, z] 0 1 = .ok "xz" := by
  intro tokens x y z
  have hbetween : Between [x, y, z] 0 := by decide
  exact ⟨hbetween, by decide +kernel, by decide +kernel⟩

end Edit
end Reckoner
