import Mathlib.Order.Compare
import Mathlib.Tactic.Tauto
import Reckoner.Machine
import Reckoner.Proofs.Magnitudes

/-!
# Order and equality belong together

Values are ordered in one way, and tested for equality in another: an order goes through a
comparison of contents with three outcomes, or none if something is not a number, and equality looks
at the contents itself. Here both become statements about contents. Strings are below each other as
dictionaries have it, byte by byte (`Text.Precedes`), and numbers as their values are.

`comparisons_consistent` puts the laws together: where values can be ordered at all, exactly one of
below, equal and above holds of them, the other relations follow from these, and an order is refused
if and only if the types differ or there are truth values.
-/
namespace Reckoner

/-- A text comes before another one in a dictionary: it is the beginning of the other one, or has the
smaller byte where the two first differ. -/
def Text.Precedes (s t : Text) : Prop :=
  (∃ u, u ≠ [] ∧ t = s ++ u) ∨ ∃ p b c u v, s = p ++ b :: u ∧ t = p ++ c :: v ∧ b < c

theorem Text.precedes_cons_iff {b c : UInt8} {s t : Text} :
    Precedes (b :: s) (c :: t) ↔ b < c ∨ b = c ∧ Precedes s t := by
  constructor
  · rintro (⟨u, hu, h⟩ | ⟨p, d, e, u, v, hs, ht, hlt⟩)
    · obtain ⟨rfl, rfl⟩ := List.cons.inj h
      exact .inr ⟨rfl, .inl ⟨u, hu, rfl⟩⟩
    · cases p with
      | nil =>
        cases hs
        cases ht
        exact .inl hlt
      | cons a p =>
        obtain ⟨rfl, rfl⟩ := List.cons.inj hs
        obtain ⟨rfl, rfl⟩ := List.cons.inj ht
        exact .inr ⟨rfl, .inr ⟨p, d, e, u, v, rfl, rfl, hlt⟩⟩
  · rintro (hlt | ⟨rfl, ⟨u, hu, rfl⟩ | ⟨p, d, e, u, v, rfl, rfl, hlt⟩⟩)
    · exact .inr ⟨[], b, c, s, t, rfl, rfl, hlt⟩
    · exact .inl ⟨u, hu, rfl⟩
    · exact .inr ⟨b :: p, d, e, u, v, rfl, rfl, hlt⟩

/-- The order of texts is that of a dictionary. -/
theorem Text.lt_iff_precedes {s t : Text} : s < t ↔ Precedes s t := by
  induction s generalizing t with
  | nil =>
    cases t with
    | nil => simp [Precedes]
    | cons c t => simpa using .inl ⟨c :: t, by simp⟩
  | cons b s ih =>
    cases t with
    | nil => simp [Precedes]
    | cons c t => rw [precedes_cons_iff, List.cons_lt_cons_iff, ih]

namespace Text
variable {s t u : Text}

theorem order_eq_lt_iff : order s t = .lt ↔ s < t := by
  unfold order
  split_ifs <;> simp_all

theorem order_swap (s t : Text) : (order s t).swap = order t s := by
  unfold order
  by_cases h : s < t
  · simp [h, List.lt_asymm h]
  · by_cases h' : t < s <;> simp [h, h']

theorem order_eq_eq_iff : order s t = .eq ↔ s = t := by
  unfold order
  constructor
  · intro h
    split_ifs at h with hlt hgt
    exact List.le_antisymm (List.not_lt.mp hgt) (List.not_lt.mp hlt)
  · rintro rfl
    simp [List.lt_irrefl]

end Text

/-- Numbers are ordered as their values are, and what is not a number has no place in the order. -/
theorem Number.order?_eq_some_iff {x y : Number} {o : Ordering} :
    x.order? y = some o ↔ (x.isNaN = false ∧ y.isNaN = false) ∧ o.Compares x.value y.value := by
  unfold order?
  cases hx : x.isNaN <;> cases hy : y.isNaN <;> simp [lt_iff, eq_iff, hx, hy]
  rcases lt_trichotomy x.value y.value with h | h | h
  · cases o <;> simp [h, h.ne, h.not_gt]
  · cases o <;> simp [h]
  · cases o <;> simp [h, h.ne', h.not_gt]

namespace Datum

/-- How two contents are ordered, if they are. -/
def order? : Datum → Datum → Option Ordering
  | number x, number y => x.order? y
  | string s, string t => some (Text.order s t)
  | _, _ => none

/-- Two contents are both strings, or both numbers that are numbers indeed. -/
def Ranked : Datum → Datum → Prop
  | number x, number y => x.isNaN = false ∧ y.isNaN = false
  | string _, string _ => True
  | _, _ => False

variable {d e f : Datum}

/-- The ranked contents are those that are ordered. -/
theorem exists_order?_eq_some_iff : (∃ o, d.order? e = some o) ↔ Ranked d e := by
  cases d <;> cases e <;> simp [order?, Ranked, Number.order?_eq_some_iff]
  case number.number x y => exact fun _ _ => ⟨_, cmp_compares x.value y.value⟩

theorem order?_swap (d e : Datum) : (d.order? e).map Ordering.swap = e.order? d := by
  cases d <;> cases e <;> simp [order?, Text.order_swap]
  case number.number x y =>
    refine Option.ext fun o => ?_
    have hswap (o' : Ordering) : o'.swap = o ↔ o' = o.swap := Ordering.swap_eq_iff_eq_swap
    simp only [Option.map_eq_some_iff, hswap, exists_eq_right, Number.order?_eq_some_iff,
      Ordering.compares_swap]
    tauto

/-- Ranked contents are in the middle case of the order if and only if they are equal. -/
theorem order?_eq_eq_iff (h : Ranked d e) : d.order? e = some .eq ↔ d.eq e = true := by
  cases d <;> cases e <;> simp [Ranked] at h
  case number.number x y => simp [order?, eq, Number.order?_eq_some_iff, Number.eq_iff, h]
  case string.string s t => simp [order?, eq, Text.order_eq_eq_iff]

theorem eq_comm (d e : Datum) : d.eq e = e.eq d := by
  cases d <;> cases e <;> simp only [eq]
  case number.number x y =>
    rw [Bool.eq_iff_iff, Number.eq_iff, Number.eq_iff]
    tauto
  case string.string s t => exact BEq.comm
  case boolean.boolean b c => exact BEq.comm

theorem ty_eq_of_eq (h : d.eq e = true) : d.ty = e.ty := by
  cases d <;> cases e <;> simp [eq] at h <;> rfl

theorem order?_lt_trans (h : d.order? e = some .lt) (h' : e.order? f = some .lt) :
    d.order? f = some .lt := by
  cases d <;> cases e <;> cases f <;> simp [order?] at h h' ⊢
  case number.number.number x y z =>
    rw [Number.order?_eq_some_iff] at *
    exact ⟨⟨h.1.1, h'.1.2⟩, lt_trans h.2 h'.2⟩
  case string.string.string s t u =>
    rw [Text.order_eq_lt_iff] at *
    exact List.lt_trans h h'

end Datum

namespace Value

/-- A relation holds between two values. -/
def Holds (r : Relation) (a b : Value) : Prop := r.apply a b = .ok ⟨.boolean true, a.place⟩

variable {a b c : Value}

/-- An ordering relation holds if it admits the order of the contents. -/
theorem holds_iff {r : Relation} (hr : r.isEquality = false) :
    Holds r a b ↔ ∃ o, a.datum.order? b.datum = some o ∧ r.admits o = true := by
  obtain ⟨d, p⟩ := a
  obtain ⟨e, q⟩ := b
  rw [Holds, Relation.apply, if_neg (by simp [hr])]
  cases r <;> simp [Relation.isEquality] at hr <;> cases d <;> cases e <;>
    simp [compare, Datum.order?, Relation.admitsOf, Option.any_eq_true]

theorem holds_eq_iff : Holds .eq a b ↔ a.datum.eq b.datum = true := by
  simp [Holds, Relation.apply, Relation.isEquality, equals]

/-- An order is refused in two cases only, each with a complaint of its own. -/
theorem compare_cases {r : Coded Relation} (hr : Relation.isEqualityOf r = false) (a b : Value) :
    (a.ty ≠ b.ty ∧ compare r a b = .error (.runtime ⟨a.place, .incomparable a.ty b.ty⟩)) ∨
    (a.ty = .boolean ∧ b.ty = .boolean ∧
      compare r a b = .error (.runtime ⟨a.place, .unordered r⟩)) ∨
    (a.ty = b.ty ∧ a.ty ≠ .boolean ∧ ∃ v, compare r a b = .ok ⟨.boolean v, a.place⟩) := by
  obtain ⟨d, p⟩ := a
  obtain ⟨e, q⟩ := b
  rcases r with (_ | _ | _ | _ | _ | _) | _ <;>
    simp [Relation.isEqualityOf, Relation.isEquality] at hr <;>
    cases d <;> cases e <;> simp [compare, ty, Datum.ty]

/-- An ordering relation that admits one order only holds if that is the order of the contents. -/
theorem holds_iff_order?_eq {r : Relation} {o : Ordering} (hr : r.isEquality = false)
    (h : ∀ o', r.admits o' = true ↔ o' = o) : Holds r a b ↔ a.datum.order? b.datum = some o := by
  simp [holds_iff hr, h]

theorem holds_lt_iff : Holds .lt a b ↔ a.datum.order? b.datum = some .lt :=
  holds_iff_order?_eq rfl fun o => by cases o <;> decide

theorem holds_gt_iff : Holds .gt a b ↔ a.datum.order? b.datum = some .gt :=
  holds_iff_order?_eq rfl fun o => by cases o <;> decide

/-- One order is the converse of the other. -/
theorem holds_gt_comm : Holds .gt b a ↔ Holds .lt a b := by
  rw [holds_gt_iff, holds_lt_iff, ← Datum.order?_swap, Option.map_eq_some_iff]
  constructor
  · rintro ⟨o, ho, hswap⟩
    cases o <;> simp at hswap
    exact ho
  · intro h
    exact ⟨.lt, h, rfl⟩

/-- Where two values are ranked, an order and its converse have the same result. -/
theorem compare_lt_gt (h : a.datum.Ranked b.datum) :
    ∃ v, compare (Relation.lt : Coded Relation) a b = .ok ⟨.boolean v, a.place⟩ ∧
      compare (Relation.gt : Coded Relation) b a = .ok ⟨.boolean v, b.place⟩ := by
  have hsame : a.ty = b.ty ∧ a.ty ≠ .boolean := by
    obtain ⟨d, p⟩ := a
    obtain ⟨e, q⟩ := b
    cases d <;> cases e <;> simp [Datum.Ranked, ty, Datum.ty] at h ⊢
  have hresult {r : Relation} (hr : r.isEquality = false) {u v : Value} (hty : u.ty = v.ty)
      (hne : u.ty ≠ .boolean) : ∃ w, compare (r : Coded Relation) u v = .ok ⟨.boolean w, u.place⟩ ∧
        (w = true ↔ Holds r u v) := by
    rcases compare_cases (r := .known r) hr u v with ⟨hdiffer, -⟩ | ⟨hboolean, -⟩ | ⟨-, -, w, hw⟩
    · exact absurd hty hdiffer
    · exact absurd hboolean hne
    · exact ⟨w, hw, by simp [Holds, Relation.apply, hr, hw]⟩
  obtain ⟨v, hv, hlt⟩ := hresult (r := .lt) rfl hsame.1 hsame.2
  obtain ⟨w, hw, hgt⟩ := hresult (r := .gt) rfl hsame.1.symm (hsame.1 ▸ hsame.2)
  obtain rfl : v = w := by rw [Bool.eq_iff_iff, hlt, hgt, holds_gt_comm]
  exact ⟨v, hv, hw⟩

section
variable (h : a.datum.Ranked b.datum)
include h

theorem holds_eq_iff_order : Holds .eq a b ↔ a.datum.order? b.datum = some .eq := by
  rw [holds_eq_iff, Datum.order?_eq_eq_iff h]

/-- Exactly one of below, equal and above holds of two values that are ranked. -/
theorem existsUnique_holds : ∃! r, r ∈ [Relation.lt, .eq, .gt] ∧ Holds r a b := by
  obtain ⟨o, ho⟩ := Datum.exists_order?_eq_some_iff.mpr h
  have hlt := holds_lt_iff (a := a) (b := b)
  have heq := holds_eq_iff_order h
  have hgt := holds_gt_iff (a := a) (b := b)
  rw [ho, Option.some_inj] at hlt heq hgt
  cases o with
  | lt => exact ⟨.lt, by simp [hlt], by simp [heq, hgt]⟩
  | eq => exact ⟨.eq, by simp [heq], by simp [hlt, hgt]⟩
  | gt => exact ⟨.gt, by simp [hgt], by simp [hlt, heq]⟩

theorem holds_le_iff : Holds .le a b ↔ Holds .lt a b ∨ Holds .eq a b := by
  obtain ⟨o, ho⟩ := Datum.exists_order?_eq_some_iff.mpr h
  rw [holds_iff rfl, holds_lt_iff, holds_eq_iff_order h, ho]
  cases o <;> simp [Relation.admits]

theorem holds_ge_iff : Holds .ge a b ↔ Holds .gt a b ∨ Holds .eq a b := by
  obtain ⟨o, ho⟩ := Datum.exists_order?_eq_some_iff.mpr h
  rw [holds_iff rfl, holds_gt_iff, holds_eq_iff_order h, ho]
  cases o <;> simp [Relation.admits]

end

/-- Order and equality are one order. An order is refused if and only if the types differ, which is
a type error, or both values are truth values, for which the operator is not supported. Equality is
symmetric, holds within a type only, and has a negation. Of two strings, and of two numbers that are
numbers indeed, exactly one is below, or they are equal; the other relations follow, one order is the
converse of the other, and both are transitive. Strings are ordered as in a dictionary, numbers by
their values, and no relation but the negation of equality holds of what is not a number. -/
theorem comparisons_consistent (a b c : Value) :
    (∀ r : Coded Relation, Relation.isEqualityOf r = false →
      ((∃ f, compare r a b = .error f) ↔ a.ty ≠ b.ty ∨ a.ty = .boolean ∧ b.ty = .boolean) ∧
      ((∃ e, compare r a b = .error (.runtime e) ∧ e.cause.kind = .type) ↔ a.ty ≠ b.ty) ∧
      ((∃ e, compare r a b = .error (.runtime e) ∧ e.cause.kind = .unsupported) ↔
        a.ty = .boolean ∧ b.ty = .boolean)) ∧
    ((Holds .eq a b ↔ Holds .eq b a) ∧ (Holds .eq a b → a.ty = b.ty) ∧
      ∃ v, equals (Relation.eq : Coded Relation) a b = .ok ⟨.boolean v, a.place⟩ ∧
        equals (Relation.ne : Coded Relation) a b = .ok ⟨.boolean !v, a.place⟩) ∧
    (a.datum.Ranked b.datum →
      (∃! r, r ∈ [Relation.lt, .eq, .gt] ∧ Holds r a b) ∧
      (Holds .le a b ↔ Holds .lt a b ∨ Holds .eq a b) ∧
      (Holds .ge a b ↔ Holds .gt a b ∨ Holds .eq a b) ∧
      ∃ v, compare (Relation.lt : Coded Relation) a b = .ok ⟨.boolean v, a.place⟩ ∧
        compare (Relation.gt : Coded Relation) b a = .ok ⟨.boolean v, b.place⟩) ∧
    (Holds .lt a b → Holds .lt b c → Holds .lt a c) ∧
    (∀ s t, a.datum = .string s → b.datum = .string t → (Holds .lt a b ↔ Text.Precedes s t)) ∧
    ∀ x y, a.datum = .number x → b.datum = .number y →
      (Holds .lt a b ↔ x.isNaN = false ∧ y.isNaN = false ∧ x.value < y.value) ∧
      (Holds .eq a b ↔ x.isNaN = false ∧ y.isNaN = false ∧ x.value = y.value) ∧
      (x.isNaN = true ∨ y.isNaN = true → ∀ r, Holds r a b → r = .ne) := by
  refine ⟨?refused, ?equality, ?ranked, ?transitive, ?strings, ?numbers⟩
  case refused =>
    intro r hr
    rcases compare_cases hr a b with ⟨hne, h⟩ | ⟨ha, hb, h⟩ | ⟨heq, hne, v, h⟩
    · have hboth : ¬(a.ty = .boolean ∧ b.ty = .boolean) := fun hab => hne (hab.1.trans hab.2.symm)
      simp [h, hne, hboth, RuntimeCause.kind]
    · simp [h, ha, hb, RuntimeCause.kind]
    · rw [← heq]
      simp [h, hne]
  case equality =>
    refine ⟨?_, fun h => Datum.ty_eq_of_eq (holds_eq_iff.mp h), _, rfl, rfl⟩
    rw [holds_eq_iff, holds_eq_iff, Datum.eq_comm]
  case ranked =>
    intro h
    exact ⟨existsUnique_holds h, holds_le_iff h, holds_ge_iff h, compare_lt_gt h⟩
  case transitive =>
    rw [holds_lt_iff, holds_lt_iff, holds_lt_iff]
    exact Datum.order?_lt_trans
  case strings =>
    intro s t ha hb
    rw [holds_lt_iff, ha, hb, ← Text.lt_iff_precedes, ← Text.order_eq_lt_iff]
    exact Option.some_inj
  case numbers =>
    intro x y ha hb
    refine ⟨?_, ?_, ?_⟩
    · rw [holds_lt_iff, ha, hb, Datum.order?, Number.order?_eq_some_iff, and_assoc]
      rfl
    · rw [holds_eq_iff, ha, hb, Datum.eq, Number.eq_iff]
    · intro hnan r hr
      cases r with
      | ne => rfl
      | eq =>
        rw [holds_eq_iff, ha, hb, Datum.eq, Number.eq_iff] at hr
        simp [hr] at hnan
      | lt | le | gt | ge =>
        obtain ⟨o, ho, -⟩ := (holds_iff rfl).mp hr
        have hranked := Datum.exists_order?_eq_some_iff.mp ⟨o, ho⟩
        rw [ha, hb] at hranked
        simp [hranked.1, hranked.2] at hnan

end Value
end Reckoner
