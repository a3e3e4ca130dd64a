import Mathlib.Data.List.Forall2
import Reckoner.Proofs.Soundness

/-!
# What a scope remembers

A scope keeps one value for each name in each of its frames, and the order of the names apart from
how often they were bound. This module keeps everything instead: a `Record` of all that was bound in
a frame, for each frame that is still open. `lawful_after` says that what is read in a scope follows
from these records, however binding, opening and closing came one after the other: a name has the
value that it was bound to last in the innermost frame that binds it, and the names stand in the
order in which they were first bound, from the innermost frame outwards.
-/
namespace Reckoner

/-! ## Lists without repetitions -/

section
variable {α : Type} [BEq α] [LawfulBEq α]

/-- What is left out does not change which occurrence comes first. -/
theorem filter_eraseDups (p : α → Bool) (as : List α) :
    as.eraseDups.filter p = (as.filter p).eraseDups := by
  match as with
  | [] => rfl
  | a :: as =>
    have hlt : (as.filter fun b => !b == a).length ≤ as.length := List.length_filter_le _ _
    have ih := filter_eraseDups p (as.filter fun b => !b == a)
    rw [List.eraseDups_cons]
    cases ha : p a with
    | true =>
      rw [List.filter_cons_of_pos ha, List.filter_cons_of_pos ha, List.eraseDups_cons, ih]
      simp only [List.filter_filter, Bool.and_comm]
    | false =>
      have hne : (as.filter p).filter (fun b => !b == a) = as.filter p := by
        refine List.filter_eq_self.mpr fun b hb => ?_
        have hp := (List.mem_filter.mp hb).2
        have hb : b ≠ a := fun h => by simp [h, ha] at hp
        simpa using hb
      have hno : ¬p a = true := by simp [ha]
      rw [List.filter_cons_of_neg hno, List.filter_cons_of_neg hno, ih, ← hne]
      simp only [List.filter_filter, Bool.and_comm]
termination_by as.length

theorem nodup_eraseDups (as : List α) : as.eraseDups.Nodup := by
  match as with
  | [] => simp
  | a :: as =>
    have hlt : (as.filter fun b => !b == a).length ≤ as.length := List.length_filter_le _ _
    rw [List.eraseDups_cons, List.nodup_cons]
    exact ⟨by simp, nodup_eraseDups (as.filter fun b => !b == a)⟩
termination_by as.length

/-- Leaving out one more element takes away the one occurrence that was left of it. -/
theorem eraseDups_removeAll_concat (as bs : List α) (a : α) :
    (as.removeAll (bs ++ [a])).eraseDups = (as.removeAll bs).eraseDups.erase a := by
  rw [(nodup_eraseDups _).erase_eq_filter, filter_eraseDups, List.removeAll, List.removeAll,
    List.filter_filter]
  congr 1
  refine List.filter_congr fun b _ => ?_
  by_cases hb : b = a <;> simp [hb]

end

/-- Everything that was bound in a frame, in the order in which it was. -/
abbrev Record (α : Type) := List (Text × α)

namespace Record
variable {α : Type}

/-- The names, as often as they were bound. -/
def names (r : Record α) : List Text := r.map Prod.fst

/-- The value that a name was bound to last. -/
def latest? (name : Text) (r : Record α) : Option α := r.reverse.lookup name

@[simp] theorem names_concat (r : Record α) (name : Text) (a : α) :
    names (r ++ [(name, a)]) = names r ++ [name] := by
  simp [names]

theorem latest?_concat (r : Record α) (name other : Text) (a : α) :
    latest? other (r ++ [(name, a)]) = if other = name then some a else latest? other r := by
  by_cases h : other = name
  · simp [latest?, h]
  · have hne : (other == name) = false := by simpa using h
    simp [latest?, List.lookup_cons, h, hne]

theorem latest?_eq_none_iff {r : Record α} {name : Text} :
    latest? name r = none ↔ name ∉ r.names := by
  simp only [latest?, List.lookup_eq_none_iff, List.mem_reverse, names, List.mem_map, not_exists,
    not_and]
  exact ⟨fun h p hp hname => by simpa [hname] using h p hp,
    fun h p hp => by simpa using fun hname => h p hp hname.symm⟩

end Record

/-! ## Frames -/

/-- A frame in which everything that a record holds was bound. -/
structure Frame.Keeps {α : Type} (f : Frame α) (r : Record α) : Prop where
  names : f.names = r.names.eraseDups
  get? : ∀ name, f.get? name = r.latest? name

namespace Frame.Keeps
variable {α : Type} {f : Frame α} {r : Record α}

theorem empty : Frame.Keeps ([] : Frame α) [] := ⟨rfl, fun _ => rfl⟩

theorem mem_names (h : f.Keeps r) {name : Text} : name ∈ f.names ↔ name ∈ r.names := by
  rw [h.names, List.mem_eraseDups]

theorem set (h : f.Keeps r) (name : Text) (a : α) : (f.set name a).Keeps (r ++ [(name, a)]) where
  names := by
    rw [Frame.names_set, Record.names_concat, List.eraseDups_append, ← h.names]
    by_cases hn : name ∈ f.names
    · simp [hn, List.removeAll, h.mem_names.mp hn]
    · simp [hn, List.removeAll, mt h.mem_names.mpr hn, List.eraseDups_cons]
  get? other := by
    rw [Record.latest?_concat]
    by_cases ho : other = name
    · rw [if_pos ho, ho, Frame.get?_set_self]
    · rw [if_neg ho, Frame.get?_set_of_ne f a ho, h.get?]

end Frame.Keeps

/-! ## Scopes -/

namespace Scope
variable {α : Type}

/-- The innermost frame, in which names are bound. -/
def current (s : Scope α) : Frame α := s.inner.head?.getD s.outermost

theorem frames_eq_cons (s : Scope α) : s.frames = s.current :: s.frames.tail := by
  obtain ⟨_ | ⟨f, fs⟩, o⟩ := s <;> rfl

theorem frames_set (s : Scope α) (name : Text) (a : α) :
    (s.set name a).frames = s.current.set name a :: s.frames.tail := by
  obtain ⟨_ | ⟨f, fs⟩, o⟩ := s <;> rfl

/-- Something that is done to a scope. -/
inductive Action (α : Type) where
  | set (name : Text) (a : α)
  | push
  | pop

namespace Action

/-- What becomes of a scope. Its outermost frame is not closed. -/
def apply (s : Scope α) : Action α → Scope α
  | set name a => s.set name a
  | push => s.push
  | pop => s.pop?.getD s

/-- What becomes of the records of the open frames, the innermost first. -/
def note (rs : List (Record α)) : Action α → List (Record α)
  | set name a =>
    match rs with
    | r :: rs => (r ++ [(name, a)]) :: rs
    | [] => []
  | push => [] :: rs
  | pop =>
    match rs with
    | _ :: r :: rs => r :: rs
    | rs => rs

/-- Actions that close the frames that they open, and no others. -/
inductive Balanced : List (Action α) → Prop where
  | nil : Balanced []
  | set (name : Text) (a : α) {rest : List (Action α)} (h : Balanced rest) :
      Balanced (set name a :: rest)
  | frame {inside rest : List (Action α)} (hinside : Balanced inside) (hrest : Balanced rest) :
      Balanced (push :: inside ++ pop :: rest)

end Action

/-- A scope after some actions. -/
def after (as : List (Action α)) (s : Scope α) : Scope α := as.foldl Action.apply s

/-- The records of the frames that are open after some actions, the innermost first. -/
def records (as : List (Action α)) : List (Record α) := as.foldl Action.note [[]]

theorem after_append (as bs : List (Action α)) (s : Scope α) :
    after (as ++ bs) s = after bs (after as s) := List.foldl_append

/-- A scope whose frames are those of some records. -/
def Keeps (s : Scope α) (rs : List (Record α)) : Prop := List.Forall₂ Frame.Keeps s.frames rs

namespace Keeps
variable {s : Scope α} {rs : List (Record α)}

theorem exists_cons (h : s.Keeps rs) :
    ∃ r rs', rs = r :: rs' ∧ s.current.Keeps r ∧ List.Forall₂ Frame.Keeps s.frames.tail rs' := by
  rw [Keeps, frames_eq_cons, List.forall₂_cons_left_iff] at h
  obtain ⟨r, rs', hr, hrs, rfl⟩ := h
  exact ⟨r, rs', rfl, hr, hrs⟩

theorem apply (h : s.Keeps rs) (a : Action α) : (a.apply s).Keeps (a.note rs) := by
  obtain ⟨r, rs, rfl, hcurrent, houter⟩ := h.exists_cons
  cases a with
  | set name a =>
    rw [Action.apply, Keeps, frames_set]
    exact .cons (hcurrent.set name a) houter
  | push => exact .cons .empty h
  | pop =>
    obtain ⟨_ | ⟨f, fs⟩, o⟩ := s
    · -- The outermost frame is the only one, and so is its record.
      obtain rfl : rs = [] := List.forall₂_nil_left_iff.mp houter
      exact h
    · have houter : List.Forall₂ Frame.Keeps (fs ++ [o]) rs := houter
      cases rs with
      | nil => simp at houter
      | cons r' rs => exact houter

/-- What one action keeps, all of them keep. -/
theorem after (h : s.Keeps rs) (as : List (Action α)) :
    (after as s).Keeps (as.foldl Action.note rs) := by
  induction as generalizing s rs with
  | nil => exact h
  | cons a as ih => exact ih (h.apply a)

/-- A name is looked up in the records as in the frames. -/
theorem get?_eq (h : s.Keeps rs) (name : Text) :
    s.get? name = rs.findSome? (·.latest? name) := by
  rw [Keeps] at h
  rw [get?]
  generalize s.frames = fs at h ⊢
  induction h with
  | nil => rfl
  | cons hf _ ih => rw [List.findSome?_cons, List.findSome?_cons, hf.get?, ih]

/-- The visible names are those of the records, each where it comes first. -/
theorem keys_eq (h : s.Keeps rs) : s.keys = (rs.flatMap Record.names).eraseDups := by
  -- Behind some names that were listed before, each frame adds those that are new.
  suffices hfold : ∀ (fs : List (Frame α)) (rs : List (Record α)) (before : List Text),
      List.Forall₂ Frame.Keeps fs rs →
      fs.foldl (fun seen f => seen ++ f.names.filter (!seen.contains ·)) before.eraseDups =
        (before ++ rs.flatMap Record.names).eraseDups from hfold s.frames rs [] h
  intro fs rs before hkeeps
  induction hkeeps generalizing before with
  | nil => simp
  | @cons f r fs rs hf _ ih =>
    have hnew : before.eraseDups ++ f.names.filter (!before.eraseDups.contains ·) =
        (before ++ r.names).eraseDups := by
      rw [List.eraseDups_append, hf.names, List.removeAll, ← filter_eraseDups]
      simp
    rw [List.foldl_cons, hnew, ih, List.flatMap_cons, List.append_assoc]

theorem nodup_keys (h : s.Keeps rs) : s.keys.Nodup := h.keys_eq ▸ nodup_eraseDups _

/-- What is listed is what can be read. -/
theorem mem_keys_iff (h : s.Keeps rs) (name : Text) :
    name ∈ s.keys ↔ ∃ a, s.get? name = some a := by
  rw [h.keys_eq, List.mem_eraseDups, h.get?_eq, ← Option.isSome_iff_exists,
    ← Option.ne_none_iff_isSome, ne_eq, List.findSome?_eq_none_iff]
  simp [Record.latest?_eq_none_iff]

/-- Binding a name adds it behind the names of the current frame, unless it is one of them, and
takes it away from where an outer frame had it. -/
theorem keys_set (h : s.Keeps rs) (name : Text) (a : α) :
    ∃ outer, s.keys = s.current.names ++ outer ∧
      (s.set name a).keys =
        if name ∈ s.current.names then s.keys
        else s.current.names ++ name :: outer.erase name := by
  obtain ⟨r, rs, rfl, hcurrent, -⟩ := h.exists_cons
  have hset : (s.set name a).Keeps ((r ++ [(name, a)]) :: rs) := h.apply (.set name a)
  have hkeys := h.keys_eq
  have hkeys' := hset.keys_eq
  rw [List.flatMap_cons, List.eraseDups_append, ← hcurrent.names] at hkeys
  rw [List.flatMap_cons, List.eraseDups_append, ← (hcurrent.set name a).names, Frame.names_set,
    Record.names_concat] at hkeys'
  generalize rs.flatMap Record.names = behind at hkeys hkeys'
  rw [eraseDups_removeAll_concat] at hkeys'
  refine ⟨_, hkeys, ?_⟩
  by_cases hn : name ∈ s.current.names
  · have hout : name ∉ (behind.removeAll r.names).eraseDups := by
      simp [List.removeAll, hcurrent.mem_names.mp hn]
    rw [if_pos hn, hkeys', if_pos hn, hkeys, List.erase_of_not_mem hout]
  · rw [if_neg hn, hkeys', if_neg hn, List.append_assoc, List.singleton_append]

end Keeps

theorem keeps_empty : (empty : Scope α).Keeps [[]] := .cons .empty .nil

theorem keeps_records (as : List (Action α)) : (after as empty).Keeps (records as) :=
  keeps_empty.after as

/-- Frames that are opened are closed again, and only the current one is not what it was. -/
theorem after_balanced {as : List (Action α)} (h : Action.Balanced as) (f : Frame α)
    (fs : List (Frame α)) (o : Frame α) :
    ∃ f', after as ⟨f :: fs, o⟩ = ⟨f' :: fs, o⟩ := by
  induction h generalizing f fs with
  | nil => exact ⟨f, rfl⟩
  | set name a _ ih => exact ih (f.set name a) fs
  | @frame inside rest _ _ ihinside ihrest =>
    obtain ⟨f', hinside⟩ := ihinside [] (f :: fs)
    obtain ⟨f'', hrest⟩ := ihrest f fs
    refine ⟨f'', ?_⟩
    rw [after_append]
    exact (congrArg (after (.pop :: rest)) hinside).trans hrest

/-- A frame that is opened and closed again leaves nothing behind. -/
theorem after_frame {inside : List (Action α)} (h : Action.Balanced inside) (s : Scope α) :
    after (.push :: inside ++ [.pop]) s = s := by
  obtain ⟨f, hinside⟩ := after_balanced h [] s.inner s.outermost
  rw [after_append]
  exact congrArg (after [.pop]) hinside

/-! ## The main statement -/

/-- What can be read in a scope follows from what was bound in each of its frames. -/
structure Lawful (s : Scope α) (rs : List (Record α)) : Prop where
  /-- What is listed is what can be read. -/
  mem_keys_iff : ∀ name, name ∈ s.keys ↔ ∃ a, s.get? name = some a
  /-- A name stands for what it was bound to last in the innermost frame that binds it. -/
  get?_eq : ∀ name, s.get? name = rs.findSome? (·.latest? name)
  nodup_keys : s.keys.Nodup
  /-- Names are listed from the innermost frame outwards, in a frame in the order in which they were
  first bound, and a name that several frames bind where the innermost of them has it. -/
  keys_eq : s.keys = (rs.flatMap Record.names).eraseDups
  /-- Binding a name changes no other one. -/
  get?_set_of_ne : ∀ name other a, other ≠ name → (s.set name a).get? other = s.get? other
  /-- The names of the current frame stay where they are, whatever is bound in it; a name that is
  new there comes behind them. -/
  keys_set : ∀ name a, ∃ outer, s.keys = s.current.names ++ outer ∧
    (s.set name a).keys =
      if name ∈ s.current.names then s.keys
      else s.current.names ++ name :: outer.erase name
  /-- A frame that is opened and closed again leaves nothing behind, whatever was done inside. -/
  after_frame : ∀ inside, Action.Balanced inside → after (.push :: inside ++ [.pop]) s = s

/-- However binding names, opening frames and closing them came one after the other, the scope obeys
the records of the frames that are open. -/
theorem lawful_after (as : List (Action α)) : (after as empty).Lawful (records as) :=
  have h := keeps_records as
  { mem_keys_iff := h.mem_keys_iff
    get?_eq := h.get?_eq
    nodup_keys := h.nodup_keys
    keys_eq := h.keys_eq
    get?_set_of_ne := fun _ _ a hne => Scope.get?_set_of_ne _ a hne
    keys_set := h.keys_set
    after_frame := fun _ hinside => Scope.after_frame hinside _ }

example :
    let s := after [.set "a" 1, .set "b" 2, .push, .set "c" 3, .set "b" 4, .set "c" 5] empty
    s.keys = ["c", "b", "a"] ∧ s.get? "b" = some 4 ∧ (s.set "a" 6).keys = ["c", "b", "a"] ∧
      (after [.pop] s).keys = ["a", "b"] ∧ (after [.pop] s).get? "b" = some 2 := by
  decide

end Scope
end Reckoner
