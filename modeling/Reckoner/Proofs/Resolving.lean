import Reckoner.Edit
import Reckoner.Proofs.Effect

/-!
# What edits leave of each token

Edits are resolved in two passes over their list and then applied from left to right. Here their
effect is said for each token number alone: `Spot.of` runs through the edits in the order in which
they were recorded and keeps what is inserted before the token and what is left of it. The first
pass keeps this effect and leaves no replacement behind an edit that it touches, the second one
keeps it and leaves at most one edit for each number, and `Edit.render_eq` says that the text is
then made up of the effects.
-/
namespace Reckoner

/-- What is left of a token. -/
inductive Remnant where
  | kept
  /-- A replacement begins here, and its text stands for all its tokens. -/
  | replaced (text : Text)
  /-- A replacement that began before has taken the token in. -/
  | covered
deriving DecidableEq, Repr

/-- The text in front of a token, and what is left of the token. -/
structure Spot where
  inserted : Text := []
  body : Remnant := .kept
deriving DecidableEq, Repr

namespace Spot

/-- One more edit, as far as it concerns a token number. -/
def edit (i : Int) (s : Spot) : Edit → Spot
  | .insert j text => if j = i then { s with inserted := text ++ s.inserted } else s
  | .replace r =>
    if r.first = i then ⟨[], .replaced (s.inserted ++ r.text)⟩
    else if r.first < i ∧ i ≤ r.last then ⟨[], .covered⟩
    else s

/-- The effect of some edits on a token number. -/
def of (edits : List Edit) (i : Int) : Spot := edits.foldl (edit i) {}

/-- The text that stands where a token stood. -/
def text (own : Text) (s : Spot) : Text :=
  match s.body with
  | .kept => s.inserted ++ own
  | .replaced text => s.inserted ++ text
  | .covered => []

/-- The spot with what is inserted made part of what replaces the token. -/
def merged (s : Spot) : Spot :=
  match s.body with
  | .kept => s
  | .replaced text => ⟨[], .replaced (s.inserted ++ text)⟩
  | .covered => ⟨[], .covered⟩

theorem text_merged (own : Text) (s : Spot) : s.merged.text own = s.text own := by
  obtain ⟨inserted, _ | _ | _⟩ := s <;> rfl

end Spot

namespace Edit

/-- Whether an edit concerns a token number. -/
def Touches (i : Int) : Edit → Prop
  | insert j _ => j = i
  | replace r => r.first = i ∨ r.first < i ∧ i ≤ r.last

/-- A replacement covers at least one token, and none before a given one. -/
def Proper (start : Int) : Edit → Prop
  | insert _ _ => True
  | replace r => start ≤ r.first ∧ r.first ≤ r.last

theorem proper_of_replace {edits : List Edit} {start : Int}
    (h : ∀ r, replace r ∈ edits → start ≤ r.first ∧ r.first ≤ r.last) :
    ∀ d ∈ edits, d.Proper start := by
  intro d hd
  cases d with
  | insert i text => trivial
  | replace r => exact h r hd

/-- Of two replacements, in the order in which they are recorded, the earlier one lies inside the
later one or they have no token in common. -/
def Nests : Edit → Edit → Prop
  | replace e, replace r =>
    r.first ≤ e.first ∧ e.last ≤ r.last ∨ e.last < r.first ∨ r.last < e.first
  | _, _ => True

end Edit

namespace Spot
open Edit

theorem edit_of_not_touches {i : Int} {d : Edit} (h : ¬d.Touches i) (s : Spot) :
    s.edit i d = s := by
  cases d with
  | insert j text => exact if_neg h
  | replace r => rw [edit, if_neg (fun hf => h (.inl hf)), if_neg (fun hf => h (.inr hf))]

theorem foldl_edit_of_not_touches {i : Int} {edits : List Edit} (h : ∀ d ∈ edits, ¬d.Touches i)
    (s : Spot) : edits.foldl (edit i) s = s := by
  induction edits with
  | nil => rfl
  | cons d edits ih =>
    rw [List.forall_mem_cons] at h
    rw [List.foldl_cons, edit_of_not_touches h.1, ih h.2]

theorem of_append (edits edits' : List Edit) (i : Int) :
    of (edits ++ edits') i = edits'.foldl (edit i) (of edits i) := List.foldl_append

theorem of_concat (edits : List Edit) (d : Edit) (i : Int) :
    of (edits ++ [d]) i = (of edits i).edit i d := of_append edits [d] i

/-- Edits that do not concern a token number may be left out after the others. -/
theorem of_append_of_not_touches {i : Int} {edits' : List Edit} (h : ∀ d ∈ edits', ¬d.Touches i)
    (edits : List Edit) : of (edits ++ edits') i = of edits i := by
  rw [of_append, foldl_edit_of_not_touches h]

/-- Edits that do not concern a token number may be left out before the others. -/
theorem of_append_of_not_touches_left {i : Int} {edits : List Edit}
    (h : ∀ d ∈ edits, ¬d.Touches i) (edits' : List Edit) : of (edits ++ edits') i = of edits' i := by
  have hnone : of edits i = {} := foldl_edit_of_not_touches h {}
  rw [of_append, hnone, of]

theorem of_of_not_touches {i : Int} {edits : List Edit} (h : ∀ d ∈ edits, ¬d.Touches i) :
    of edits i = {} := foldl_edit_of_not_touches h {}

/-- The effect of the only edit that concerns a token number. -/
theorem of_between {i : Int} {before after : List Edit} (hb : ∀ d ∈ before, ¬d.Touches i)
    (ha : ∀ d ∈ after, ¬d.Touches i) (d : Edit) :
    of (before ++ d :: after) i = edit i {} d := by
  rw [of_append_of_not_touches_left hb, of, List.foldl_cons, foldl_edit_of_not_touches ha]

theorem edit_of_covers {i : Int} {r : Replacement} (hf : r.first < i) (hl : i ≤ r.last)
    (s : Spot) : s.edit i (.replace r) = ⟨[], .covered⟩ := by
  rw [edit, if_neg (by omega), if_pos ⟨hf, hl⟩]

theorem edit_first (r : Replacement) (s : Spot) :
    s.edit r.first (.replace r) = ⟨[], .replaced (s.inserted ++ r.text)⟩ := if_pos rfl

/-- Insertions do not see whether an earlier one was merged into a replacement. -/
theorem merged_foldl_edit {i : Int} {edits : List Edit} {s s' : Spot}
    (h : ∀ r, replace r ∈ edits → ¬(replace r).Touches i) (hs : s.merged = s'.merged) :
    (edits.foldl (edit i) s).merged = (edits.foldl (edit i) s').merged := by
  induction edits generalizing s s' with
  | nil => exact hs
  | cons d edits ih =>
    rw [List.foldl_cons, List.foldl_cons]
    refine ih (fun r hr => h r (List.mem_cons_of_mem _ hr)) ?_
    cases d with
    | insert j text =>
      by_cases hj : j = i
      · obtain ⟨inserted, _ | _ | _⟩ := s <;> obtain ⟨inserted', _ | _ | _⟩ := s' <;>
          simp_all [edit, merged]
      · simpa [edit, hj] using hs
    | replace r =>
      have ht := h r List.mem_cons_self
      rw [edit_of_not_touches ht, edit_of_not_touches ht]
      exact hs

end Spot

namespace Edit

/-! ## Replacements -/

/-- A replacement does not touch what an edit recorded before it touches. -/
def Clear : Edit → Edit → Prop
  | insert i _, replace r => ¬(r.first ≤ i ∧ i ≤ r.last)
  | replace e, replace r => e.last < r.first ∨ r.last < e.first
  | _, insert _ _ => True

theorem Clear.not_touches {start : Int} {d : Edit} {r : Replacement} (h : d.Clear (.replace r))
    (hd : d.Proper start) {i : Int} (hf : r.first ≤ i) (hl : i ≤ r.last) : ¬d.Touches i := by
  cases d with
  | insert j text =>
    intro ht
    simp only [Touches] at ht
    simp only [Clear] at h
    omega
  | replace e =>
    intro ht
    simp only [Touches] at ht
    simp only [Clear] at h
    simp only [Proper] at hd
    omega

/-- All texts that are inserted before a token, the latest first. -/
def insertedAt (i : Int) : List Edit → Text
  | [] => []
  | insert j text :: edits => insertedAt i edits ++ if j = i then text else []
  | replace _ :: edits => insertedAt i edits

theorem inserted_foldl_edit {i : Int} {edits : List Edit}
    (h : ∀ r, replace r ∈ edits → ¬(replace r).Touches i) (s : Spot) :
    (edits.foldl (Spot.edit i) s).inserted = insertedAt i edits ++ s.inserted := by
  induction edits generalizing s with
  | nil => rfl
  | cons d edits ih =>
    have ih := ih fun r hr => h r (List.mem_cons_of_mem _ hr)
    cases d with
    | insert j text =>
      rw [List.foldl_cons, ih, insertedAt]
      by_cases hj : j = i <;> simp [Spot.edit, hj]
    | replace r =>
      rw [List.foldl_cons, Spot.edit_of_not_touches (h r List.mem_cons_self), ih, insertedAt]

/-- If no replacement touches what was there before it, nothing that is inserted is lost. -/
theorem inserted_of_clear {start : Int} {edits : List Edit} (hc : edits.Pairwise Clear)
    (hp : ∀ d ∈ edits, d.Proper start) (i : Int) :
    (Spot.of edits i).inserted = insertedAt i edits := by
  induction edits with
  | nil => rfl
  | cons d edits ih =>
    obtain ⟨hd, hedits⟩ := List.pairwise_cons.mp hc
    rw [List.forall_mem_cons] at hp
    by_cases ht : d.Touches i
    · -- No later replacement touches the number again.
      have hlater : ∀ r, replace r ∈ edits → ¬(replace r).Touches i := by
        intro r hr hri
        have hpr := hp.2 _ hr
        simp only [Proper] at hpr
        simp only [Touches] at hri
        exact (hd _ hr).not_touches hp.1 (i := i) (by omega) (by omega) ht
      rw [Spot.of, List.foldl_cons, inserted_foldl_edit hlater]
      cases d with
      | insert j text =>
        simp only [Touches] at ht
        simp [Spot.edit, insertedAt, ht]
      | replace r =>
        rcases ht with rfl | ⟨hf, hl⟩
        · simp [Spot.edit_first, insertedAt]
        · simp [Spot.edit_of_covers hf hl, insertedAt]
    · have hrest : Spot.of (d :: edits) i = Spot.of edits i := by
        rw [Spot.of, List.foldl_cons, Spot.edit_of_not_touches ht]
        rfl
      rw [hrest, ih hedits hp.2]
      cases d with
      | insert j text => simp [insertedAt, show ¬j = i from ht]
      | replace r => rfl

/-- What a replacement leaves of the edits before it, and what becomes of it: it keeps its range,
takes in what was inserted at its first token, and drops what lies inside its range. -/
structure Absorbed (done : List Edit) (r : Replacement) (kept : List Edit) (r' : Replacement) :
    Prop where
  sublist : kept.Sublist done
  first : r'.first = r.first
  last : r'.last = r.last
  text : r'.text = insertedAt r.first done ++ r.text
  clear : ∀ d ∈ kept, d.Clear (.replace r)
  elsewhere : ∀ i, ¬(replace r).Touches i → ∀ s : Spot,
    kept.foldl (Spot.edit i) s = done.foldl (Spot.edit i) s

/-- An edit that is dropped concerns tokens of the replacement only. -/
theorem Absorbed.drop {done kept : List Edit} {r r' : Replacement} {d : Edit}
    (h : Absorbed done r kept r') (hd : ∀ i, d.Touches i → (replace r).Touches i)
    (hi : insertedAt r.first (d :: done) = insertedAt r.first done) :
    Absorbed (d :: done) r kept r' where
  sublist := h.sublist.cons d
  first := h.first
  last := h.last
  text := by rw [hi, h.text]
  clear := h.clear
  elsewhere := by
    intro i hr s
    rw [List.foldl_cons, Spot.edit_of_not_touches fun ht => hr (hd i ht), h.elsewhere i hr]

/-- An edit outside the range of the replacement stays. -/
theorem Absorbed.keep {done kept : List Edit} {r r' : Replacement} {d : Edit}
    (h : Absorbed done r kept r') (hd : d.Clear (.replace r))
    (hi : insertedAt r.first (d :: done) = insertedAt r.first done) :
    Absorbed (d :: done) r (d :: kept) r' where
  sublist := h.sublist.cons_cons d
  first := h.first
  last := h.last
  text := by rw [hi, h.text]
  clear := List.forall_mem_cons.mpr ⟨hd, h.clear⟩
  elsewhere := by
    intro i hr s
    rw [List.foldl_cons, List.foldl_cons, h.elsewhere i hr]

theorem absorb_spec {start : Int} {done : List Edit} {r : Replacement}
    (hr : (replace r).Proper start) (hp : ∀ d ∈ done, d.Proper start)
    (hn : ∀ d ∈ done, d.Nests (.replace r)) :
    ∃ kept r', absorb r done = .ok (kept, r') ∧ Absorbed done r kept r' := by
  induction done generalizing r with
  | nil => exact ⟨[], r, rfl, .slnil, rfl, rfl, rfl, by simp, fun _ _ _ => rfl⟩
  | cons d done ih =>
    rw [List.forall_mem_cons] at hp hn
    obtain ⟨hd, hp⟩ := hp
    obtain ⟨hdn, hn⟩ := hn
    simp only [Proper] at hr
    cases d with
    | insert i text =>
      by_cases hf : i = r.first
      · -- The replacement goes on with the inserted text in front of its own.
        obtain ⟨kept, r', heq, h⟩ :=
          ih (r := { r with text := text ++ r.text, removal := false }) hr hp
            (fun e he => by cases e <;> exact hn _ he)
        refine ⟨kept, r', by rw [absorb, if_pos hf, heq], h.sublist.cons _, h.first, h.last, ?_,
          fun e he => ?_, fun j hj s => ?_⟩
        · rw [h.text, insertedAt, if_pos hf, List.append_assoc]
        · have := h.clear e he
          cases e <;> exact this
        · rw [List.foldl_cons, Spot.edit_of_not_touches, h.elsewhere j hj]
          exact fun ht => hj (.inl (hf.symm.trans ht))
      · obtain ⟨kept, r', heq, h⟩ := ih hr hp hn
        by_cases hin : r.first < i ∧ i ≤ r.last
        · refine ⟨kept, r', by rw [absorb, if_neg hf, if_pos hin, heq],
            h.drop (fun j hj => ?_) (by simp [insertedAt, hf])⟩
          rw [← show i = j from hj]
          exact .inr hin
        · refine ⟨insert i text :: kept, r', by simp [absorb, hf, hin, heq],
            h.keep ?_ (by simp [insertedAt, hf])⟩
          simp only [Clear]
          omega
    | replace e =>
      obtain ⟨kept, r', heq, h⟩ := ih hr hp hn
      by_cases hin : r.first ≤ e.first ∧ e.last ≤ r.last
      · refine ⟨kept, r', by rw [absorb, if_pos hin, heq], h.drop (fun j hj => ?_) rfl⟩
        simp only [Proper] at hd
        simp only [Touches] at hj ⊢
        omega
      · have hout := hdn.resolve_left hin
        refine ⟨replace e :: kept, r', by simp [absorb, hin, hout, heq], h.keep hout rfl⟩

/-- The replacement does the same after what it leaves as the recorded one did after all. -/
theorem Absorbed.of_concat {start : Int} {done kept : List Edit} {r r' : Replacement}
    (h : Absorbed done r kept r') (hr : (replace r).Proper start) (hc : done.Pairwise Clear)
    (hp : ∀ d ∈ done, d.Proper start) (i : Int) :
    Spot.of (kept ++ [Edit.replace r']) i = Spot.of (done ++ [Edit.replace r]) i := by
  rw [Spot.of_concat, Spot.of_concat]
  by_cases hf : r.first = i
  · subst hf
    have hnone : ∀ d ∈ kept, ¬d.Touches r.first := fun d hd =>
      (h.clear d hd).not_touches (hp d (h.sublist.subset hd)) (Int.le_refl _) hr.2
    have h₁ : (Spot.of kept r.first).edit r.first (.replace r') =
        ⟨[], .replaced ((Spot.of kept r.first).inserted ++ r'.text)⟩ := by
      rw [← h.first]
      exact Spot.edit_first r' _
    rw [h₁, Spot.edit_first, Spot.of_of_not_touches hnone, inserted_of_clear hc hp, h.text]
    rfl
  · by_cases hl : r.first < i ∧ i ≤ r.last
    · rw [Spot.edit_of_covers hl.1 hl.2,
        Spot.edit_of_covers (by rw [h.first]; exact hl.1) (by rw [h.last]; exact hl.2)]
    · have hout : ¬(replace r).Touches i := fun ht => ht.elim hf hl
      have hout' : ¬(replace r').Touches i := by
        simp only [Touches, h.first, h.last]
        exact hout
      rw [Spot.edit_of_not_touches hout, Spot.edit_of_not_touches hout']
      exact h.elsewhere i hout {}

/-- Resolving the replacements keeps the effect on every token, and then no replacement touches what
an edit before it touches. -/
theorem reduceReplacements_spec {start : Int} {done edits : List Edit}
    (hp : ∀ d ∈ done ++ edits, d.Proper start) (hc : done.Pairwise Clear)
    (hd : ∀ d ∈ done, ∀ e ∈ edits, d.Nests e) (hn : edits.Pairwise Nests) :
    ∃ out, reduceReplacements done edits = .ok out ∧ out.Pairwise Clear ∧
      (∀ d ∈ out, d.Proper start) ∧ ∀ i, Spot.of out i = Spot.of (done ++ edits) i := by
  induction edits generalizing done with
  | nil =>
    rw [List.append_nil] at hp
    exact ⟨done, rfl, hc, hp, fun i => by rw [List.append_nil]⟩
  | cons e edits ih =>
    obtain ⟨he, hedits⟩ := List.pairwise_cons.mp hn
    rw [List.forall_mem_append, List.forall_mem_cons] at hp
    obtain ⟨hpd, hpe, hp⟩ := hp
    have hlater : ∀ d ∈ done, ∀ e' ∈ edits, d.Nests e' :=
      fun d hdone e' he' => hd d hdone e' (List.mem_cons_of_mem _ he')
    cases e with
    | insert i text =>
      obtain ⟨out, heq, hout⟩ := @ih (done ++ [insert i text])
        (by simp only [List.forall_mem_append, List.forall_mem_singleton]; exact ⟨⟨hpd, hpe⟩, hp⟩)
        (List.pairwise_append.mpr ⟨hc, List.pairwise_singleton _ _, fun d _ e' he' => by
          rw [List.mem_singleton.mp he']
          cases d <;> trivial⟩)
        (List.forall_mem_append.mpr ⟨hlater, List.forall_mem_singleton.mpr he⟩) hedits
      refine ⟨out, heq, ?_⟩
      simpa using hout
    | replace r =>
      have hdr : ∀ d ∈ done, d.Nests (.replace r) := fun d hdone => hd d hdone _ List.mem_cons_self
      obtain ⟨kept, r', heq, h⟩ := absorb_spec hpe hpd hdr
      have hpr' : (replace r').Proper start := by
        simp only [Proper, h.first, h.last]
        exact hpe
      have hclear' : ∀ d ∈ kept, d.Clear (.replace r') := by
        intro d hk
        have := h.clear d hk
        cases d <;> simp only [Clear, h.first, h.last] <;> exact this
      have hnests' : ∀ e' ∈ edits, (replace r').Nests e' := by
        intro e' he'
        have := he e' he'
        cases e' with
        | insert i text => trivial
        | replace e' => simpa only [Nests, h.first, h.last] using this
      obtain ⟨out, hout, houtc, houtp, hspot⟩ := @ih (kept ++ [replace r'])
        (by
          simp only [List.forall_mem_append, List.forall_mem_singleton]
          exact ⟨⟨fun d hk => hpd d (h.sublist.subset hk), hpr'⟩, hp⟩)
        (List.pairwise_append.mpr ⟨hc.sublist h.sublist, List.pairwise_singleton _ _,
          fun d hk e' he' => List.mem_singleton.mp he' ▸ hclear' d hk⟩)
        (List.forall_mem_append.mpr ⟨fun d hk => hlater d (h.sublist.subset hk),
          List.forall_mem_singleton.mpr hnests'⟩) hedits
      refine ⟨out, by simp [reduceReplacements, heq, hout], houtc, houtp, fun i => ?_⟩
      rw [hspot, Spot.of_append, h.of_concat hpe hc hpd, ← Spot.of_append, List.append_assoc,
        List.singleton_append]

/-! ## Insertions -/

/-- Two edits have no token number in common. -/
def Separate (d e : Edit) : Prop := ∀ i, d.Touches i → ¬e.Touches i

section
variable {i : Int} {text : Text} {before after : List Edit}

theorem settle_append (h : ∀ d ∈ before, ¬d.Touches i) (text : Text) (after : List Edit) :
    settle i text (before ++ after) = before ++ settle i text after := by
  induction before with
  | nil => rfl
  | cons d before ih =>
    rw [List.forall_mem_cons] at h
    have ih := ih h.2
    cases d with
    | insert j earlier =>
      have hj : ¬j = i := h.1
      simp [settle, hj, ih]
    | replace r =>
      have hf : ¬i = r.first := fun hf => h.1 (.inl hf.symm)
      have hl : ¬(r.first < i ∧ i ≤ r.last) := fun hl => h.1 (.inr hl)
      rw [List.cons_append, settle, if_neg hf, if_neg hl, ih, List.cons_append]

theorem settle_of_not_touches (h : ∀ d ∈ before, ¬d.Touches i) (text : Text) :
    settle i text before = before ++ [insert i text] := by
  have := settle_append h text []
  rwa [List.append_nil] at this

/-- What settling an insertion after the edits that concern no common token does to them and to the
one that does. -/
inductive Settles (i : Int) (text : Text) : List Edit → List Edit → Prop where
  | fresh {done : List Edit} (h : ∀ d ∈ done, ¬d.Touches i) :
    Settles i text done (done ++ [insert i text])
  | insert {before after : List Edit} (earlier : Text) (hb : ∀ d ∈ before, ¬d.Touches i)
    (ha : ∀ d ∈ after, ¬d.Touches i) :
    Settles i text (before ++ insert i earlier :: after)
      (before ++ (after ++ [Edit.insert i (text ++ earlier)]))
  | first {before after : List Edit} {r : Replacement} (hr : r.first = i)
    (hb : ∀ d ∈ before, ¬d.Touches i) (ha : ∀ d ∈ after, ¬d.Touches i) :
    Settles i text (before ++ replace r :: after)
      (before ++ replace { r with text := text ++ r.text, removal := false } :: after)
  | covered {before after : List Edit} {r : Replacement} (hr : r.first < i ∧ i ≤ r.last)
    (hb : ∀ d ∈ before, ¬d.Touches i) (ha : ∀ d ∈ after, ¬d.Touches i) :
    Settles i text (before ++ replace r :: after) (before ++ replace r :: after)

end

theorem settles (i : Int) (text : Text) {done : List Edit} (h : done.Pairwise Separate) :
    Settles i text done (settle i text done) := by
  by_cases hsome : ∃ d ∈ done, d.Touches i
  · obtain ⟨d, hd, ht⟩ := hsome
    obtain ⟨before, after, rfl⟩ := List.append_of_mem hd
    obtain ⟨-, hafter, hbefore⟩ := List.pairwise_append.mp h
    obtain ⟨hafter, -⟩ := List.pairwise_cons.mp hafter
    have ha : ∀ e ∈ after, ¬e.Touches i := fun e he => hafter e he i ht
    have hb : ∀ e ∈ before, ¬e.Touches i := fun e he h =>
      hbefore e he d List.mem_cons_self i h ht
    rw [settle_append hb]
    cases d with
    | insert j earlier =>
      obtain rfl : j = i := ht
      rw [settle, if_pos rfl, settle_of_not_touches ha]
      exact .insert earlier hb ha
    | replace r =>
      by_cases hf : r.first = i
      · rw [settle, if_pos hf.symm]
        exact .first hf hb ha
      · have hl := ht.resolve_left hf
        rw [settle, if_neg (Ne.symm hf), if_pos hl]
        exact .covered hl hb ha
  · have hnone : ∀ d ∈ done, ¬d.Touches i := fun d hd ht => hsome ⟨d, hd, ht⟩
    rw [settle_of_not_touches hnone]
    exact .fresh hnone

namespace Settles
variable {i : Int} {text : Text} {done out : List Edit}

/-- Nothing but the token of the insertion is concerned that was not so before. -/
theorem touches (h : Settles i text done out) {e : Edit} (he : e ∈ out) {j : Int}
    (ht : e.Touches j) : j = i ∨ ∃ d ∈ done, d.Touches j := by
  cases h with
  | fresh h =>
    rcases List.mem_append.mp he with he | he
    · exact .inr ⟨e, he, ht⟩
    · rw [List.mem_singleton.mp he] at ht
      exact .inl (Eq.symm ht)
  | insert earlier hb ha =>
    simp only [List.mem_append, List.mem_singleton] at he
    rcases he with he | he | rfl
    · exact .inr ⟨e, by simp [he], ht⟩
    · exact .inr ⟨e, by simp [he], ht⟩
    · exact .inl (Eq.symm ht)
  | @first before after r hr hb ha =>
    simp only [List.mem_append, List.mem_cons] at he
    rcases he with he | rfl | he
    · exact .inr ⟨e, by simp [he], ht⟩
    · exact .inr ⟨replace r, by simp, ht⟩
    · exact .inr ⟨e, by simp [he], ht⟩
  | covered hr hb ha => exact .inr ⟨e, he, ht⟩

theorem proper (h : Settles i text done out) {start : Int} (hp : ∀ d ∈ done, d.Proper start) :
    ∀ d ∈ out, d.Proper start := by
  cases h with
  | fresh _ => exact List.forall_mem_append.mpr ⟨hp, List.forall_mem_singleton.mpr trivial⟩
  | insert earlier _ _ =>
    rw [List.forall_mem_append, List.forall_mem_cons] at hp
    simp only [List.forall_mem_append, List.forall_mem_singleton]
    exact ⟨hp.1, hp.2.2, trivial⟩
  | first _ _ _ =>
    rw [List.forall_mem_append, List.forall_mem_cons] at hp ⊢
    exact hp
  | covered _ _ _ => exact hp

theorem separate (h : Settles i text done out) (hs : done.Pairwise Separate) :
    out.Pairwise Separate := by
  have hnew : ∀ {edits : List Edit} {t : Text}, edits.Pairwise Separate →
      (∀ d ∈ edits, ¬d.Touches i) → (edits ++ [Edit.insert i t]).Pairwise Separate := by
    intro edits t hedits hnone
    refine List.pairwise_append.mpr ⟨hedits, List.pairwise_singleton _ _, fun d hd e he j hj => ?_⟩
    rw [List.mem_singleton.mp he]
    rintro rfl
    exact hnone d hd hj
  cases h with
  | fresh hnone => exact hnew hs hnone
  | insert earlier hb ha =>
    rw [← List.append_assoc]
    refine hnew (hs.sublist ?_) (List.forall_mem_append.mpr ⟨hb, ha⟩)
    exact (List.Sublist.refl _).append (List.sublist_cons_self _ _)
  | first hr hb ha =>
    -- The replacement has kept its range.
    simp only [List.pairwise_append, List.pairwise_cons, List.forall_mem_cons] at hs ⊢
    exact hs
  | covered hr hb ha => exact hs

/-- The insertion has the effect that it would have after the others. -/
theorem merged (h : Settles i text done out) (j : Int) :
    (Spot.of out j).merged = (Spot.of (done ++ [Edit.insert i text]) j).merged := by
  cases h with
  | fresh hnone => rfl
  | @insert before after earlier hb ha =>
    by_cases hj : i = j
    · subst hj
      rw [Spot.of_concat, Spot.of_between hb ha, ← List.append_assoc,
        Spot.of_append_of_not_touches_left (List.forall_mem_append.mpr ⟨hb, ha⟩)]
      simp [Spot.of, Spot.edit]
    · simp [Spot.of, Spot.edit, hj]
  | @first before after r hr hb ha =>
    by_cases hj : r.first = j
    · subst hj hr
      rw [Spot.of_concat, Spot.of_between hb ha, Spot.of_between hb ha]
      simp [Spot.edit, Spot.merged]
    · have hi : ¬i = j := hr ▸ hj
      simp [Spot.of, Spot.edit, hj, hi]
  | @covered before after r hr hb ha =>
    by_cases hj : i = j
    · subst hj
      rw [Spot.of_concat, Spot.of_between hb ha, Spot.edit_of_covers hr.1 hr.2]
      simp [Spot.edit, Spot.merged]
    · simp [Spot.of, Spot.edit, hj]

end Settles

/-- Resolving the insertions keeps the effect on every token, and then no two edits concern the same
one. -/
theorem reduceInsertions_spec {start : Int} {done edits : List Edit}
    (hp : ∀ d ∈ done ++ edits, d.Proper start) (hs : done.Pairwise Separate)
    (hd : ∀ d ∈ done, ∀ r, replace r ∈ edits → Separate d (replace r))
    (hc : edits.Pairwise Clear) :
    (reduceInsertions done edits).Pairwise Separate ∧
      (∀ d ∈ reduceInsertions done edits, d.Proper start) ∧
      ∀ j, (Spot.of (reduceInsertions done edits) j).merged =
        (Spot.of (done ++ edits) j).merged := by
  induction edits generalizing done with
  | nil =>
    rw [List.append_nil] at hp ⊢
    exact ⟨hs, hp, fun _ => rfl⟩
  | cons e edits ih =>
    obtain ⟨he, hedits⟩ := List.pairwise_cons.mp hc
    rw [List.forall_mem_append, List.forall_mem_cons] at hp
    obtain ⟨hpd, hpe, hp⟩ := hp
    -- What an edit touches, no later replacement does.
    have hlater : ∀ r, replace r ∈ edits → ∀ j, e.Touches j → ¬(replace r).Touches j := by
      intro r hr j ht hrj
      have hpr := hp _ hr
      simp only [Proper] at hpr
      simp only [Touches] at hrj
      exact (he _ hr).not_touches hpe (i := j) (by omega) (by omega) ht
    cases e with
    | insert i text =>
      have h := settles i text hs
      have hd' : ∀ d ∈ settle i text done, ∀ r, replace r ∈ edits → Separate d (replace r) := by
        intro d hdone r hr j ht
        rcases h.touches hdone ht with rfl | ⟨d', hd', ht'⟩
        · exact hlater r hr j rfl
        · exact hd d' hd' r (List.mem_cons_of_mem _ hr) j ht'
      obtain ⟨hs', hp', hmerged⟩ := @ih (settle i text done)
        (List.forall_mem_append.mpr ⟨h.proper hpd, hp⟩) (h.separate hs) hd' hedits
      refine ⟨hs', hp', fun j => (hmerged j).trans ?_⟩
      have hall : done ++ insert i text :: edits = done ++ [insert i text] ++ edits := by simp
      rw [hall, Spot.of_append, Spot.of_append]
      by_cases hr : ∃ r, replace r ∈ edits ∧ (replace r).Touches j
      · -- Nothing before the replacement has touched the number.
        obtain ⟨r, hr, hrj⟩ := hr
        have hnone : ∀ d ∈ settle i text done, ¬d.Touches j := fun d hdone ht =>
          hd' d hdone r hr j ht hrj
        have hnone' : ∀ d ∈ done ++ [insert i text], ¬d.Touches j := by
          simp only [List.forall_mem_append, List.forall_mem_singleton]
          exact ⟨fun d hdone ht => hd d hdone r (List.mem_cons_of_mem _ hr) j ht hrj,
            fun ht => hlater r hr j ht hrj⟩
        rw [Spot.of_of_not_touches hnone, Spot.of_of_not_touches hnone']
      · exact Spot.merged_foldl_edit (fun r hmem ht => hr ⟨r, hmem, ht⟩) (h.merged j)
    | replace r =>
      have hs' : (done ++ [replace r]).Pairwise Separate :=
        List.pairwise_append.mpr ⟨hs, List.pairwise_singleton _ _, fun d hdone e he' =>
          List.mem_singleton.mp he' ▸ hd d hdone r List.mem_cons_self⟩
      have hd' : ∀ d ∈ done ++ [replace r], ∀ r', replace r' ∈ edits →
          Separate d (replace r') := by
        simp only [List.forall_mem_append, List.forall_mem_singleton]
        exact ⟨fun d hdone r' hr' => hd d hdone r' (List.mem_cons_of_mem _ hr'),
          fun r' hr' j => hlater r' hr' j⟩
      have hrest := @ih (done ++ [replace r])
        (by simp only [List.forall_mem_append, List.forall_mem_singleton]; exact ⟨⟨hpd, hpe⟩, hp⟩)
        hs' hd' hedits
      rwa [List.append_assoc, List.singleton_append] at hrest

/-! ## Rendering -/

theorem spot_of_mem {edits : List Edit} (hs : edits.Pairwise Separate) {d : Edit} (hd : d ∈ edits)
    {i : Int} (ht : d.Touches i) : Spot.of edits i = Spot.edit i {} d := by
  obtain ⟨before, after, rfl⟩ := List.append_of_mem hd
  obtain ⟨-, hafter, hbefore⟩ := List.pairwise_append.mp hs
  obtain ⟨hafter, -⟩ := List.pairwise_cons.mp hafter
  exact Spot.of_between (fun e he h => hbefore e he d List.mem_cons_self i h ht)
    (fun e he => hafter e he i ht) d

theorem eq_of_touches {edits : List Edit} (hs : edits.Pairwise Separate) {d e : Edit}
    (hd : d ∈ edits) (he : e ∈ edits) {i : Int} (hti : d.Touches i) (hte : e.Touches i) :
    d = e := by
  obtain ⟨before, after, rfl⟩ := List.append_of_mem hd
  obtain ⟨-, hafter, hbefore⟩ := List.pairwise_append.mp hs
  obtain ⟨hafter, -⟩ := List.pairwise_cons.mp hafter
  rcases List.mem_append.mp he with he | he
  · exact absurd hti (hbefore e he d List.mem_cons_self i hte)
  · rcases List.mem_cons.mp he with rfl | he
    · rfl
    · exact absurd hte (hafter e he i hti)

theorem touches_index (d : Edit) : d.Touches d.index := by
  cases d with
  | insert i text => exact rfl
  | replace r => exact .inl rfl

/-- The texts that stand where some tokens stood: so many of them, from a number on. -/
def shown (tokens : List Token) (edits : List Edit) : Nat → Int → Text
  | 0, _ => []
  | n + 1, i => (Spot.of edits i).text (tokenText tokens i) ++ shown tokens edits n (i + 1)

/-- Nothing stands where tokens are covered. -/
theorem shown_of_covered {tokens : List Token} {edits : List Edit} {i k : Int} {n : Nat}
    (h : ∀ j, i ≤ j → j < k → (Spot.of edits j).body = .covered) (hi : i ≤ k) :
    shown tokens edits n i = shown tokens edits (n - (k - i).toNat) k := by
  induction n generalizing i with
  | zero => simp [shown]
  | succ n ih =>
    by_cases hk : i = k
    · simp [hk]
    · have hnone : (Spot.of edits i).text (tokenText tokens i) = [] := by
        rw [Spot.text, h i (Int.le_refl _) (by omega)]
      have hn : n + 1 - (k - i).toNat = n - (k - (i + 1)).toNat := by omega
      rw [shown, hnone, List.nil_append, hn]
      exact ih (fun j hj hlt => h j (by omega) hlt) (by omega)

/-- A replacement shows its text, and nothing where the tokens that it covers stood. -/
theorem shown_replaced {edits : List Edit} (hs : edits.Pairwise Separate) {r : Replacement}
    (hr : replace r ∈ edits) (hle : r.first ≤ r.last) (tokens : List Token) (n : Nat) :
    shown tokens edits (n + 1) r.first =
      r.text ++ shown tokens edits (n - (r.last - r.first).toNat) (r.last + 1) := by
  have hcovered : ∀ j, r.first + 1 ≤ j → j < r.last + 1 →
      (Spot.of edits j).body = .covered := by
    intro j hj hlt
    rw [spot_of_mem hs hr (i := j) (.inr (by omega)), Spot.edit_of_covers (by omega) (by omega)]
  have hcount : r.last + 1 - (r.first + 1) = r.last - r.first := by omega
  rw [shown, shown_of_covered hcovered (by omega), hcount, spot_of_mem hs hr (.inl rfl),
    Spot.edit_first]
  rfl

/-- No replacement goes on from the token in front of a number to the number itself. -/
def Between (ops : List Edit) (i : Int) : Prop :=
  ∀ r, replace r ∈ ops → ¬(r.first < i ∧ i ≤ r.last)

section
variable {ops : List Edit} {start : Int}

/-- Where all edits begin, no replacement goes on. -/
theorem between_of_proper (hp : ∀ d ∈ ops, d.Proper start) : Between ops start := fun _ hr hcov =>
  Int.not_lt.mpr (hp _ hr).1 hcov.1

/-- Behind a token that no replacement goes on from stands another one of this kind. -/
theorem Between.succ {i : Int} (hb : Between ops i) (hnone : ∀ r, replace r ∈ ops → r.first ≠ i) :
    Between ops (i + 1) := by
  intro r hr hcov
  have hout := hb r hr
  have hne := hnone r hr
  omega

/-- No other replacement goes on from the last token of one. -/
theorem between_last (hs : ops.Pairwise Separate) (hp : ∀ d ∈ ops, d.Proper start)
    {r : Replacement} (hr : replace r ∈ ops) : Between ops (r.last + 1) := by
  intro r' hr' hcov
  have hproper := hp _ hr
  simp only [Proper] at hproper
  -- The other one would meet this one where the later of both begins.
  have hboth : (replace r').Touches (max r.first r'.first) := by
    simp only [Touches]
    omega
  have hthis : (replace r).Touches (max r.first r'.first) := by
    simp only [Touches]
    omega
  cases eq_of_touches hs hr hr' hthis hboth
  omega

/-- A token that no replacement goes on to is concerned only by edits that are filed under it. -/
theorem Between.not_touches {i : Int} (hb : Between ops i) (hindex : ∀ d ∈ ops, d.index ≠ i) :
    ∀ d ∈ ops, ¬d.Touches i := by
  intro d hd ht
  cases d with
  | insert j text => exact hindex _ hd ht
  | replace r => exact ht.elim (hindex _ hd) (hb r hd)

end

theorem mem_of_find? {ops : List Edit} {i : Int} {d : Edit} (h : find? ops i = some d) :
    d ∈ ops ∧ d.index = i :=
  ⟨List.mem_reverse.mp (List.mem_of_find?_eq_some h), by simpa using List.find?_some h⟩

theorem index_ne_of_find? {ops : List Edit} {i : Int} (h : find? ops i = none) :
    ∀ d ∈ ops, d.index ≠ i := by
  intro d hd
  simpa using List.find?_eq_none.mp h d (List.mem_reverse.mpr hd)

/-- Writing the tokens from left to right puts the effects together, unless it begins inside a
replacement. -/
theorem renderFrom_eq {start : Int} {tokens : List Token} {edits : List Edit}
    (hs : edits.Pairwise Separate) (hp : ∀ d ∈ edits, d.Proper start) {last i : Int} {fuel : Nat}
    (hf : (last + 1 - i).toNat ≤ fuel) (hb : Between edits i) :
    renderFrom tokens edits last fuel i = shown tokens edits (last + 1 - i).toNat i := by
  induction fuel generalizing i with
  | zero =>
    have hn : (last + 1 - i).toNat = 0 := by omega
    rw [hn]
    rfl
  | succ fuel ih =>
    by_cases hlast : last < i
    · have hn : (last + 1 - i).toNat = 0 := by omega
      rw [hn, renderFrom, if_pos hlast]
      rfl
    · obtain ⟨n, hn⟩ : ∃ n, (last + 1 - i).toNat = n + 1 :=
        Nat.exists_eq_succ_of_ne_zero (by omega)
      have hn' : n = (last + 1 - (i + 1)).toNat := by omega
      rw [hn, renderFrom, if_neg hlast]
      cases hfind : find? edits i with
      | none =>
        have hindex := index_ne_of_find? hfind
        have hrest := ih (i := i + 1) (by omega) (hb.succ fun r hr => hindex _ hr)
        rw [shown, Spot.of_of_not_touches (hb.not_touches hindex), hn', ← hrest]
        rfl
      | some d =>
        obtain ⟨hmem, hindex⟩ := mem_of_find? hfind
        have ht : d.Touches i := hindex ▸ d.touches_index
        cases d with
        | insert j text =>
          obtain rfl : j = i := hindex
          have hnone : ∀ r, replace r ∈ edits → r.first ≠ j := by
            intro r hr hfirst
            cases eq_of_touches hs hmem hr ht (.inl hfirst)
          have hrest := ih (i := j + 1) (by omega) (hb.succ hnone)
          rw [shown, spot_of_mem hs hmem ht, hn', ← hrest]
          simp [Spot.edit, Spot.text]
        | replace r =>
          obtain rfl : r.first = i := hindex
          have hle : r.first ≤ r.last := (hp _ hmem).2
          have hrest := ih (i := r.last + 1) (by omega) (between_last hs hp hmem)
          have hcount : n - (r.last - r.first).toNat = (last + 1 - (r.last + 1)).toNat := by
            omega
          have hmax : max (r.first + 1) (r.last + 1) = r.last + 1 := by omega
          rw [shown_replaced hs hmem hle, hcount, ← hrest]
          simp only [hmax]

theorem shown_congr {tokens : List Token} {edits edits' : List Edit}
    (h : ∀ i, (Spot.of edits i).merged = (Spot.of edits' i).merged) (n : Nat) (i : Int) :
    shown tokens edits n i = shown tokens edits' n i := by
  induction n generalizing i with
  | zero => rfl
  | succ n ih => rw [shown, shown, ih, ← Spot.text_merged, h, Spot.text_merged]

/-- If no replacement touches what an edit before it touches, the text is that of the effects on the
tokens. -/
theorem renderFrom_reduceInsertions {edits : List Edit} {first : Int}
    (hc : edits.Pairwise Clear) (hp : ∀ d ∈ edits, d.Proper first) (tokens : List Token)
    (last : Int) :
    renderFrom tokens (reduceInsertions [] edits) last (last + 1 - first).toNat first =
      shown tokens edits (last + 1 - first).toNat first := by
  obtain ⟨hs, hproper, hmerged⟩ := @reduceInsertions_spec first [] edits hp .nil (by simp) hc
  rw [renderFrom_eq hs hproper (Nat.le_refl _) (between_of_proper hproper), shown_congr hmerged,
    List.nil_append]

/-- Edits that nest are resolved, and the text is that of their effects on the tokens. -/
theorem render_eq {edits : List Edit} {first : Int} (hp : ∀ d ∈ edits, d.Proper first)
    (hn : edits.Pairwise Nests) (tokens : List Token) (last : Int) :
    render tokens edits first last =
      .ok (shown tokens edits (last + 1 - first).toNat first) := by
  obtain ⟨out, hout, hclear, hproper, hspot⟩ :=
    @reduceReplacements_spec first [] edits hp .nil (by simp) hn
  have hall : ∀ i, (Spot.of out i).merged = (Spot.of edits i).merged := by
    intro i
    rw [hspot, List.nil_append]
  simp only [render, reduce, hout, Effect.ok_bind, Effect.pure_eq_ok]
  rw [renderFrom_reduceInsertions hclear hproper, shown_congr hall]

end Edit

/-! ## Tokens in a row -/

/-- The tokens have consecutive numbers, from a given one on. -/
def Token.Numbered : Nat → List Token → Prop
  | _, [] => True
  | n, t :: ts => t.index = n ∧ Numbered (n + 1) ts

theorem Token.numbered_append {n : Nat} {ts us : List Token} :
    Numbered n (ts ++ us) ↔ Numbered n ts ∧ Numbered (n + ts.length) us := by
  induction ts generalizing n with
  | nil => simp [Numbered]
  | cons t ts ih =>
    have hlen : n + (t :: ts).length = n + 1 + ts.length := by
      rw [List.length_cons]
      omega
    rw [List.cons_append, Numbered, Numbered, ih, hlen, and_assoc]

theorem Token.index_of_numbered {n k : Nat} {ts : List Token} {t : Token} (h : Numbered n ts)
    (hk : ts[k]? = some t) : t.index = n + k := by
  induction ts generalizing n k with
  | nil => simp at hk
  | cons u ts ih =>
    obtain ⟨hu, hts⟩ := h
    cases k with
    | zero =>
      obtain rfl : u = t := by simpa using hk
      exact hu
    | succ k =>
      have := ih hts (by simpa using hk)
      omega

namespace Edit

/-- The texts that stand where some tokens stood. -/
def written (edits : List Edit) (ts : List Token) : Text :=
  ts.flatMap fun t => (Spot.of edits t.index).text t.text

theorem shown_eq_written {tokens ts : List Token} {n : Nat} (edits : List Edit)
    (hn : Token.Numbered n ts) (ht : ∀ t ∈ ts, tokens[t.index]? = some t) :
    shown tokens edits ts.length n = written edits ts := by
  induction ts generalizing n with
  | nil => rfl
  | cons t ts ih =>
    obtain ⟨rfl, hts⟩ := hn
    rw [List.forall_mem_cons] at ht
    have hown : tokenText tokens (t.index : Int) = t.text := by
      simp [tokenText, ht.1]
    have hnext : ((t.index : Int) + 1) = ((t.index + 1 : Nat) : Int) := by omega
    rw [List.length_cons, shown, hown, hnext, ih hts ht.2]
    rfl

end Edit
end Reckoner
