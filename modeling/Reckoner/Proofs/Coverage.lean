import Reckoner.Proofs.Rendering

/-!
# Which tokens edits leave

Resolving edits drops replacements, lets removals grow and changes the order of what is left. None
of this changes which tokens are covered, whatever edits are recorded in whatever order, as long as
they can be resolved at all. So the text of a source with edits applied keeps those of its tokens
that no recorded replacement covers, each once and in order: `Edit.render_spares_uncovered`.

A removal grows after earlier edits were found to be clear of it. They stay clear, since it only
grows by later edits that they were clear of already: `Edit.Clear.of_covers`.
-/
namespace Reckoner
namespace Edit

/-! ## Coverage -/

section
variable {i j : Int} {text : Text} {d : Edit} {r : Replacement} {edits edits' : List Edit}

@[simp] theorem covers_insert : ¬(insert j text).Covers i := id

@[simp] theorem not_covered_nil : ¬Covered [] i := by simp [Covered]

@[simp] theorem covered_cons : Covered (d :: edits) i ↔ d.Covers i ∨ Covered edits i := by
  simp [Covered]

@[simp] theorem covered_append :
    Covered (edits ++ edits') i ↔ Covered edits i ∨ Covered edits' i := by
  simp [Covered, or_and_right, exists_or]

theorem exists_replace_of_covered (h : Covered edits i) :
    ∃ r, replace r ∈ edits ∧ r.first ≤ i ∧ i ≤ r.last := by
  obtain ⟨d, hd, hcov⟩ := h
  cases d with
  | insert j text => exact absurd hcov covers_insert
  | replace r => exact ⟨r, hd, hcov⟩

end

/-! ## Replacements -/

section
variable {start : Int} {done edits : List Edit} {r r' : Replacement}

/-- An edit is clear of a replacement that covers no more than another replacement and later edits
that it is clear of. -/
theorem Clear.of_covers {d : Edit} (h : d.Clear (.replace r)) (hd : d.Proper start)
    (hr' : (replace r').Proper start) (hdone : ∀ e ∈ done, d.Clear e)
    (hcov : ∀ i, (replace r').Covers i → (replace r).Covers i ∨ Covered done i) :
    d.Clear (.replace r') := by
  simp only [Proper] at hr'
  simp only [Covers] at hcov
  cases d with
  | insert j text =>
    intro hin
    rcases hcov j hin with hj | hj
    · exact h hj
    · obtain ⟨e, he, hj⟩ := exists_replace_of_covered hj
      exact hdone _ he hj
  | replace e =>
    by_contra hmeet
    simp only [Clear] at h hmeet
    simp only [Proper] at hd
    -- They would meet where the later of both begins.
    rcases hcov (max e.first r'.first) (by omega) with hmax | hmax
    · omega
    · obtain ⟨e', he', hmax⟩ := exists_replace_of_covered hmax
      have hclear := hdone _ he'
      simp only [Clear] at hclear
      omega

/-- What a replacement leaves of the edits before it, and what becomes of it: it is clear of what it
leaves, and the same tokens are covered as before. -/
structure Gathered (start : Int) (done : List Edit) (r : Replacement) (kept : List Edit)
    (r' : Replacement) : Prop where
  sublist : kept.Sublist done
  proper : (replace r').Proper start
  clear : ∀ d ∈ kept, d.Clear (.replace r')
  covered : ∀ i, Covered kept i ∨ (replace r').Covers i ↔ Covered done i ∨ (replace r).Covers i

/-- An edit in the range of the replacement goes. -/
theorem Gathered.drop {kept : List Edit} {d : Edit} (h : Gathered start done r kept r')
    (hd : ∀ i, d.Covers i → (replace r).Covers i) : Gathered start (d :: done) r kept r' where
  sublist := h.sublist.cons d
  proper := h.proper
  clear := h.clear
  covered := by
    intro i
    rw [h.covered, covered_cons, or_assoc]
    exact (or_iff_right_of_imp fun hi => .inr (hd i hi)).symm

/-- An edit outside the range of the replacement stays, and is clear of what the replacement grows
to. -/
theorem Gathered.keep {kept : List Edit} {d : Edit} (h : Gathered start done r kept r')
    (hd : d.Proper start) (hclear : d.Clear (.replace r)) (hdone : ∀ e ∈ done, d.Clear e) :
    Gathered start (d :: done) r (d :: kept) r' where
  sublist := h.sublist.cons_cons d
  proper := h.proper
  clear := by
    refine List.forall_mem_cons.mpr ⟨hclear.of_covers hd h.proper hdone fun i hi => ?_, h.clear⟩
    exact ((h.covered i).mp (.inr hi)).symm
  covered := by
    intro i
    rw [covered_cons, covered_cons, or_assoc, or_assoc, h.covered]

/-- A removal grows by another one that it overlaps. -/
theorem Gathered.grow {kept : List Edit} {e : Replacement}
    (h : Gathered start done { r with first := min r.first e.first, last := max r.last e.last }
      kept r')
    (hmeet : ¬(e.last < r.first ∨ r.last < e.first)) :
    Gathered start (replace e :: done) r kept r' where
  sublist := h.sublist.cons _
  proper := h.proper
  clear := h.clear
  covered := by
    intro i
    have hunion : min r.first e.first ≤ i ∧ i ≤ max r.last e.last ↔
        (replace e).Covers i ∨ (replace r).Covers i := by
      simp only [Covers]
      omega
    have hi : Covered kept i ∨ (replace r').Covers i ↔
        Covered done i ∨ min r.first e.first ≤ i ∧ i ≤ max r.last e.last := h.covered i
    rw [hi, hunion, covered_cons, or_left_comm, or_assoc]

/-- Whatever the edits are that a replacement is resolved against, the result covers the same tokens
as they and the replacement do. -/
theorem gathered_of_absorb {kept : List Edit} (hr : (replace r).Proper start)
    (hp : ∀ d ∈ done, d.Proper start) (hc : done.Pairwise Clear)
    (h : absorb r done = .ok (kept, r')) : Gathered start done r kept r' := by
  -- The replacement may change with every edit that it is resolved against.
  induction done generalizing r kept r' with
  | nil =>
    cases h
    exact ⟨.slnil, hr, by simp, fun i => Iff.rfl⟩
  | cons d done ih =>
    obtain ⟨hd, hdone⟩ := List.pairwise_cons.mp hc
    rw [List.forall_mem_cons] at hp
    cases d with
    | insert j text =>
      rw [absorb] at h
      split at h
      · -- The replacement goes on with another text in the same range.
        have hrest := ih (r := { r with text := text ++ r.text, removal := false }) hr hp.2 hdone h
        exact Gathered.drop ⟨hrest.sublist, hrest.proper, hrest.clear, hrest.covered⟩
          fun i hi => absurd hi covers_insert
      · split at h
        · exact (ih hr hp.2 hdone h).drop fun i hi => absurd hi covers_insert
        · obtain ⟨⟨kept, r₀⟩, habsorb, hok⟩ := Effect.bind_eq_ok_iff.mp h
          cases hok
          refine (ih hr hp.2 hdone habsorb).keep trivial ?_ hd
          simp only [Clear]
          omega
    | replace e =>
      have hpe := hp.1
      simp only [Proper] at hr hpe
      rw [absorb] at h
      split at h
      · refine (ih hr hp.2 hdone h).drop fun i hi => ?_
        simp only [Covers] at hi ⊢
        omega
      · split at h
        · next hout =>
          obtain ⟨⟨kept, r₀⟩, habsorb, hok⟩ := Effect.bind_eq_ok_iff.mp h
          cases hok
          exact (ih hr hp.2 hdone habsorb).keep hp.1 hout hd
        · next hmeet =>
          split at h
          · refine (ih ?_ hp.2 hdone h).grow hmeet
            simp only [Proper]
            omega
          · cases h

/-- Resolving the replacements, if it succeeds, leaves the same tokens covered, and no replacement
touches what an edit before it touches. -/
theorem reduceReplacements_covered {out : List Edit} (hp : ∀ d ∈ done ++ edits, d.Proper start)
    (hc : done.Pairwise Clear) (h : reduceReplacements done edits = .ok out) :
    out.Pairwise Clear ∧ (∀ d ∈ out, d.Proper start) ∧
      ∀ i, Covered out i ↔ Covered (done ++ edits) i := by
  induction edits generalizing done with
  | nil =>
    cases h
    rw [List.append_nil] at hp ⊢
    exact ⟨hc, hp, fun i => Iff.rfl⟩
  | cons e edits ih =>
    rw [List.forall_mem_append, List.forall_mem_cons] at hp
    obtain ⟨hpd, hpe, hp⟩ := hp
    cases e with
    | insert j text =>
      have hclear : (done ++ [insert j text]).Pairwise Clear :=
        List.pairwise_append.mpr ⟨hc, List.pairwise_singleton _ _, fun d hd e he => by
          rw [List.mem_singleton.mp he]
          cases d <;> trivial⟩
      have hproper : ∀ d ∈ done ++ [insert j text] ++ edits, d.Proper start := by
        simp only [List.forall_mem_append, List.forall_mem_singleton]
        exact ⟨⟨hpd, hpe⟩, hp⟩
      obtain ⟨hout, houtp, hcov⟩ := ih hproper hclear h
      refine ⟨hout, houtp, fun i => ?_⟩
      rw [hcov, List.append_assoc, List.singleton_append]
    | replace r =>
      obtain ⟨⟨kept, r'⟩, habsorb, hrest⟩ := Effect.bind_eq_ok_iff.mp h
      have hgathered := gathered_of_absorb hpe hpd hc habsorb
      have hclear : (kept ++ [replace r']).Pairwise Clear :=
        List.pairwise_append.mpr ⟨hc.sublist hgathered.sublist, List.pairwise_singleton _ _,
          fun d hd e he => List.mem_singleton.mp he ▸ hgathered.clear d hd⟩
      have hproper : ∀ d ∈ kept ++ [replace r'] ++ edits, d.Proper start := by
        simp only [List.forall_mem_append, List.forall_mem_singleton]
        exact ⟨⟨fun d hd => hpd d (hgathered.sublist.subset hd), hgathered.proper⟩, hp⟩
      obtain ⟨hout, houtp, hcov⟩ := ih hproper hclear hrest
      refine ⟨hout, houtp, fun i => ?_⟩
      have hi := hgathered.covered i
      simp only [hcov, covered_append, covered_cons, not_covered_nil, or_false]
      rw [hi, or_assoc]

end

/-! ## Insertions -/

/-- An insertion that is resolved covers nothing and uncovers nothing. -/
theorem covered_settle (j : Int) (text : Text) (done : List Edit) (i : Int) :
    Covered (settle j text done) i ↔ Covered done i := by
  induction done generalizing text with
  | nil => simp [settle]
  | cons d done ih =>
    cases d with
    | insert k earlier =>
      rw [settle]
      split
      · simp [ih]
      · simp [ih]
    | replace r =>
      rw [settle]
      split
      · simp only [covered_cons]
        rfl
      · split
        · rfl
        · rw [covered_cons, covered_cons, ih]

theorem covered_reduceInsertions (done edits : List Edit) (i : Int) :
    Covered (reduceInsertions done edits) i ↔ Covered (done ++ edits) i := by
  induction edits generalizing done with
  | nil => rw [reduceInsertions, List.append_nil]
  | cons e edits ih =>
    cases e with
    | insert j text => simp [reduceInsertions, ih, covered_settle]
    | replace r => simp [reduceInsertions, ih]

/-- Resolving edits, if it succeeds, leaves the same tokens covered, and no two of the edits that
are left concern one token number. -/
theorem reduce_covered {start : Int} {edits ops : List Edit} (hp : ∀ d ∈ edits, d.Proper start)
    (h : reduce edits = .ok ops) :
    ops.Pairwise Separate ∧ (∀ d ∈ ops, d.Proper start) ∧ ∀ i, Covered ops i ↔ Covered edits i := by
  obtain ⟨out, hout, hops⟩ := Effect.bind_eq_ok_iff.mp h
  cases hops
  obtain ⟨hclear, hproper, hcov⟩ :=
    @reduceReplacements_covered start [] edits out (by rwa [List.nil_append]) .nil hout
  obtain ⟨hs, hproper', -⟩ := @reduceInsertions_spec start [] out hproper .nil (by simp) hclear
  refine ⟨hs, hproper', fun i => ?_⟩
  rw [covered_reduceInsertions, List.nil_append, hcov, List.nil_append]

/-! ## Rendering -/

/-- Edits of which no two concern one number are filed under different numbers. -/
theorem nodup_index {ops : List Edit} (hs : ops.Pairwise Separate) : (ops.map index).Nodup := by
  refine List.pairwise_map.mpr (hs.imp fun {d e} hde heq => ?_)
  exact hde d.index d.touches_index (heq ▸ e.touches_index)

/-- The text of a source with insertions, replacements and removals applied, in the order in which
they were recorded, if they can be resolved. There is at most one resolved edit for each token
number, the ranges of the resolved replacements have no token in common, and they cover what the
recorded ones cover. The loop over all tokens comes to an end in one way, and the tokens that it
writes are those that no recorded replacement covers, except for the end of input, each once and in
order. -/
theorem render_spares_uncovered (t : Text) {edits ops : List Edit} {last : Int}
    (hp : ∀ r, replace r ∈ edits → 0 ≤ r.first ∧ r.first ≤ r.last)
    (hreduce : reduce edits = .ok ops)
    (hlast : ((Lexed.ofText t).tokens.length : Int) ≤ last + 1) :
    (ops.map index).Nodup ∧
    ops.Pairwise (fun d e => ∀ i, d.Covers i → ¬e.Covers i) ∧
    (∀ i, Covered ops i ↔ Covered edits i) ∧
    ∃ pieces, (∀ written, Writes (Lexed.ofText t).tokens ops last 0 written ↔ written = pieces) ∧
      render (Lexed.ofText t).tokens edits 0 last = .ok (pieces.flatMap Piece.text) ∧
      pieces.filterMap Piece.token? = (Lexed.ofText t).tokens.filter (Spares edits) := by
  obtain ⟨hs, hops, hcov⟩ := reduce_covered (proper_of_replace hp) hreduce
  have hspares : ∀ u, Spares ops u ↔ Spares edits u := by
    intro u
    rw [Spares, Spares, hcov]
  obtain ⟨pieces, hwrites, htokens⟩ :=
    exists_writes hs hops (Lexed.numbered_ofText t) (Int.le_refl 0) (between_of_proper hops)
  refine ⟨nodup_index hs, ?_, hcov, pieces, fun _ => hwrites.iff_eq, ?_, ?_⟩
  · exact hs.imp fun hde i hd he => hde i hd.touches he.touches
  · exact render_of_writes (fun u hu hk => Lexed.text_eq_nil_of_eof hu hk) hops hreduce hwrites
  · rw [htokens, tokenRange_all _ hlast]
    simp only [hspares]

theorem render_spares_uncovered_grown :
    let t : Text := "a b c d e f g"
    let edits : List Edit := [insert 0 "y", remove 2 3, insert 3 "x", remove 8 9, remove 3 8,
      replace { first := 11, last := 12, text := "z" }, insertAfter 12 "w"]
    let ops : List Edit := [insert 0 "y", remove 2 9,
      replace { first := 11, last := 12, text := "z" }, insert 13 "w"]
    reduce edits = .ok ops ∧ (∀ i, Covered ops i ↔ Covered edits i) ∧
    ∃ pieces, Writes (Lexed.ofText t).tokens ops 13 0 pieces ∧
      pieces.flatMap Piece.text = "ya fzw" ∧
      (pieces.filterMap Piece.token?).map Token.index = [0, 1, 10] := by
  intro t edits ops
  have hproper : ∀ r, replace r ∈ edits → 0 ≤ r.first ∧ r.first ≤ r.last := by
    intro r hr
    simp only [edits, remove, insertAfter, List.mem_cons, List.not_mem_nil, replace.injEq,
      reduceCtorEq, false_or, or_false] at hr
    rcases hr with rfl | rfl | rfl | rfl <;> decide
  have hreduce : reduce edits = .ok ops := by decide +kernel
  have hlast : ((Lexed.ofText t).tokens.length : Int) ≤ 13 + 1 := by decide +kernel
  have hrender : render (Lexed.ofText t).tokens edits 0 13 = .ok "ya fzw" := by decide +kernel
  have hspared : ((Lexed.ofText t).tokens.filter (Spares edits)).map Token.index = [0, 1, 10] := by
    decide +kernel
  obtain ⟨-, -, hcov, pieces, hwrites, htext, htokens⟩ :=
    render_spares_uncovered t hproper hreduce hlast
  rw [htext] at hrender
  rw [← htokens] at hspared
  exact ⟨hreduce, hcov, pieces, (hwrites pieces).mpr rfl, by simpa using hrender, hspared⟩

end Edit
end Reckoner
