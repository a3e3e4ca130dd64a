import Mathlib.Algebra.Order.Field.Power
import Mathlib.Algebra.Order.Floor.Semifield
import Mathlib.Data.Rat.Floor
import Mathlib.Order.Monotone.Basic
import Mathlib.Tactic.FieldSimp
import Mathlib.Tactic.Linarith
import Mathlib.Tactic.Ring
import Reckoner.Number.Rounding

/-!
# The values of numbers

A number stands for a rational number, unless it is not a number at all; `Number.value` says which.
Infinity stands here for the power of two that would come next, as it does when a quotient is
rounded. The values grow with the magnitude, so that the order of the numbers, which looks at their
bits only, is the order of their values: `lt_iff` and `eq_iff`.

`Nearest` says without any arithmetic of bits which magnitude a quotient is rounded to: the one whose
value lies nearest, and of two that are equally near the even one. There is exactly one, it depends on
the value of the quotient only, and it is the one that `magnitudeOfRatio` computes.
-/
namespace Reckoner
namespace Number

/-! ## Values -/

/-- The absolute value of the numbers with a given magnitude. -/
def valueOf (m : ℕ) : ℚ :=
  if m / exponentUnit = 0 then ((m % exponentUnit : ℕ) : ℚ) * 2 ^ (-1074 : ℤ)
  else ((exponentUnit + m % exponentUnit : ℕ) : ℚ) * 2 ^ ((m / exponentUnit : ℕ) - 1075 : ℤ)

/-- The value of a number. -/
def value (x : Number) : ℚ := if x.negative then -valueOf x.magnitude else valueOf x.magnitude

/-- A significand may have 53 bits, and one more if it is a power of two. -/
theorem valueOf_eq {k s : ℕ} (hs : s ≤ 2 * exponentUnit) (hk : exponentUnit ≤ s ∨ k = 0) :
    valueOf (k * exponentUnit + s) = s * 2 ^ (k - 1074 : ℤ) := by
  unfold valueOf exponentUnit at *
  rcases Nat.lt_or_ge s 0x10000000000000 with hlt | hge
  · obtain rfl : k = 0 := by omega
    rw [if_pos (by omega), Nat.mod_eq_of_lt (by omega)]
    norm_num
  rw [if_neg (by omega)]
  rcases Nat.lt_or_eq_of_le hs with hlt | rfl
  · have hdiv : (k * 0x10000000000000 + s) / 0x10000000000000 = k + 1 := by omega
    have hmod : 0x10000000000000 + (k * 0x10000000000000 + s) % 0x10000000000000 = s := by omega
    rw [hdiv, hmod]
    congr 2
    push_cast
    ring
  · have hdiv : (k * 0x10000000000000 + 2 * 0x10000000000000) / 0x10000000000000 = k + 2 := by omega
    have hmod : 0x10000000000000 + (k * 0x10000000000000 + 2 * 0x10000000000000) % 0x10000000000000 =
        0x10000000000000 := by omega
    have hexp : ((k + 2 : ℕ) - 1075 : ℤ) = (k - 1074 : ℤ) + 1 := by push_cast; ring
    rw [hdiv, hmod, hexp, zpow_add_one₀ two_ne_zero]
    push_cast
    ring

/-- Every magnitude is made up of an exponent and a significand. -/
theorem exists_parts (m : ℕ) : ∃ k s, m = k * exponentUnit + s ∧ s < 2 * exponentUnit ∧
    (exponentUnit ≤ s ∨ k = 0) := by
  unfold exponentUnit
  rcases Nat.lt_or_ge m 0x10000000000000 with hlt | hge
  · exact ⟨0, m, by omega, by omega, .inr rfl⟩
  · exact ⟨m / 0x10000000000000 - 1, 0x10000000000000 + m % 0x10000000000000,
      by omega, by omega, .inl (by omega)⟩

@[simp] theorem valueOf_zero : valueOf 0 = 0 := by
  simp [valueOf, exponentUnit]

theorem strictMono_valueOf : StrictMono valueOf := by
  refine strictMono_nat_of_lt_succ fun m => ?_
  obtain ⟨k, s, rfl, hs, hk⟩ := exists_parts m
  rw [Nat.add_assoc, valueOf_eq hs.le hk, valueOf_eq (by omega) (by omega)]
  have hpos : (0 : ℚ) < 2 ^ (k - 1074 : ℤ) := zpow_pos two_pos _
  push_cast
  linarith

theorem valueOf_nonneg (m : ℕ) : 0 ≤ valueOf m := by
  rw [← valueOf_zero]
  exact strictMono_valueOf.monotone (Nat.zero_le m)

/-! ## The nearest magnitude -/

/-- The point halfway between a magnitude and the next one. -/
def halfway (m : ℕ) : ℚ := (valueOf m + valueOf (m + 1)) / 2

theorem strictMono_halfway : StrictMono halfway := fun l m h => by
  have hvalue := strictMono_valueOf h
  have hsucc := strictMono_valueOf (Nat.succ_lt_succ h)
  unfold halfway
  linarith

theorem valueOf_lt_halfway (m : ℕ) : valueOf m < halfway m := by
  have := strictMono_valueOf (Nat.lt_succ_self m)
  unfold halfway
  linarith

theorem halfway_lt_valueOf (m : ℕ) : halfway m < valueOf (m + 1) := by
  have := strictMono_valueOf (Nat.lt_succ_self m)
  unfold halfway
  linarith

/-- A magnitude is the nearest one to a quotient: the quotient lies between the points halfway to
the magnitudes around it, and it is one of these points only if the magnitude is even. Nothing is
beyond infinity. -/
structure Nearest (r : ℚ) (m : ℕ) : Prop where
  le_infinity : m ≤ infinityMagnitude
  above : ∀ l, l + 1 = m → halfway l ≤ r ∧ (halfway l = r → m % 2 = 0)
  below : m < infinityMagnitude → r ≤ halfway m ∧ (r = halfway m → m % 2 = 0)

namespace Nearest
variable {r r' : ℚ} {m m' : ℕ}

theorem of_lt_of_lt (hm : m ≤ infinityMagnitude) (hl : ∀ l, l + 1 = m → halfway l < r)
    (hr : r < halfway m) : Nearest r m where
  le_infinity := hm
  above l h := ⟨(hl l h).le, fun he => absurd he (hl l h).ne⟩
  below _ := ⟨hr.le, fun he => absurd he hr.ne⟩

/-- The value of a magnitude is nearest to the magnitude itself. -/
theorem valueOf (hm : m ≤ infinityMagnitude) : Nearest (valueOf m) m :=
  .of_lt_of_lt hm (fun l h => h ▸ halfway_lt_valueOf l) (valueOf_lt_halfway m)

/-- Rounding keeps the order. -/
theorem mono (h : Nearest r m) (h' : Nearest r' m') (hr : r ≤ r') : m ≤ m' := by
  by_contra hlt
  obtain ⟨l, rfl⟩ : ∃ l, m = l + 1 := Nat.exists_eq_succ_of_ne_zero (by omega)
  obtain ⟨habove, hodd⟩ := h.above l rfl
  obtain ⟨hbelow, hodd'⟩ := h'.below (by have := h.le_infinity; omega)
  have hle : halfway m' ≤ halfway l := strictMono_halfway.monotone (by omega)
  -- The two quotients coincide, halfway between neighbours of which only one is even.
  obtain rfl : m' = l := strictMono_halfway.injective (by linarith)
  have := hodd (by linarith)
  have := hodd' (by linarith)
  omega

/-- Only one magnitude is the nearest. -/
theorem unique (h : Nearest r m) (h' : Nearest r m') : m = m' :=
  Nat.le_antisymm (h.mono h' le_rfl) (h'.mono h le_rfl)

end Nearest

/-! ## Rounding a quotient -/

section
variable {num den : ℕ}

theorem div_lt_iff (hden : 0 < den) (c : ℕ) : num / den < c ↔ (num : ℚ) / den < c := by
  rw [← Nat.floor_div_eq_div (K := ℚ), Nat.floor_lt (by positivity)]

theorem le_div_iff (hden : 0 < den) (c : ℕ) : c ≤ num / den ↔ (c : ℚ) ≤ num / den := by
  rw [← Nat.floor_div_eq_div (K := ℚ), Nat.le_floor_iff (by positivity)]

/-- A quotient and its remainder. -/
theorem div_eq_add_mod_div (hden : 0 < den) :
    (num : ℚ) / den = (num / den : ℕ) + (num % den : ℕ) / den := by
  have hpos : (den : ℚ) ≠ 0 := Nat.cast_ne_zero.mpr hden.ne'
  rw [div_eq_iff hpos, add_mul, div_mul_cancel₀ _ hpos]
  exact_mod_cast (Nat.div_add_mod' num den).symm

/-- A quotient is rounded to an integer at most one half away, and to an even one if it lies halfway
between two. -/
theorem roundDiv_spec (num : ℕ) (hden : 0 < den) :
    ((roundDiv num den : ℚ) - 1 / 2 ≤ num / den ∧
      ((roundDiv num den : ℚ) - 1 / 2 = num / den → roundDiv num den % 2 = 0)) ∧
    ((num : ℚ) / den ≤ roundDiv num den + 1 / 2 ∧
      ((num : ℚ) / den = roundDiv num den + 1 / 2 → roundDiv num den % 2 = 0)) := by
  have hpos : (0 : ℚ) < den := Nat.cast_pos.mpr hden
  rw [div_eq_add_mod_div hden]
  have hlt : 2 * (num % den) < den ↔ ((num % den : ℕ) : ℚ) / den < 1 / 2 := by
    rw [div_lt_div_iff₀ hpos two_pos, one_mul, mul_comm]
    exact_mod_cast Iff.rfl
  have hgt : den < 2 * (num % den) ↔ 1 / 2 < ((num % den : ℕ) : ℚ) / den := by
    rw [div_lt_div_iff₀ two_pos hpos, one_mul, mul_comm ((num % den : ℕ) : ℚ)]
    exact_mod_cast Iff.rfl
  have hnonneg : (0 : ℚ) ≤ ((num % den : ℕ) : ℚ) / den := by positivity
  have hone : ((num % den : ℕ) : ℚ) / den < 1 :=
    (div_lt_one hpos).mpr (Nat.cast_lt.mpr (Nat.mod_lt _ hden))
  unfold roundDiv
  simp only [hlt, hgt]
  generalize ((num % den : ℕ) : ℚ) / den = f at hnonneg hone ⊢
  split_ifs with hbelow habove heven
  · exact ⟨⟨by linarith, fun h => by linarith⟩, by linarith, fun h => by linarith⟩
  · push_cast
    exact ⟨⟨by linarith, fun h => by linarith⟩, by linarith, fun h => by linarith⟩
  · exact ⟨⟨by linarith, fun _ => heven⟩, by linarith, fun _ => heven⟩
  · have hodd : (num / den + 1) % 2 = 0 := by omega
    push_cast
    exact ⟨⟨by linarith, fun _ => hodd⟩, by linarith, fun _ => hodd⟩

/-- Rounding to an integer stays below a bound that holds, and above one. -/
theorem roundDiv_bounds (num den : ℕ) : num / den ≤ roundDiv num den ∧
    roundDiv num den ≤ num / den + 1 := by
  unfold roundDiv
  simp only
  split_ifs <;> omega

theorem scaled_den_pos (num : ℕ) (hden : 0 < den) (e : ℤ) : 0 < (scaled num den e).2 := by
  unfold scaled
  split
  · exact Nat.mul_pos hden (Nat.pow_pos two_pos)
  · exact hden

/-- Scaling divides by a power of two. -/
theorem scaled_div (e : ℤ) :
    ((scaled num den e).1 : ℚ) / (scaled num den e).2 = num / den / 2 ^ e := by
  unfold scaled
  split
  · next e =>
    rw [show Nat.pow 2 e = 2 ^ e from rfl, Int.ofNat_eq_natCast, zpow_natCast, div_div]
    push_cast
    rfl
  · next e =>
    rw [show Nat.pow 2 (e + 1) = 2 ^ (e + 1) from rfl, zpow_negSucc, div_inv_eq_mul,
      div_mul_eq_mul_div]
    push_cast
    rfl

/-- A quotient lies between the powers of two that the widths of its terms tell. -/
theorem div_between (hnum : 0 < num) (hden : 0 < den) :
    (2 : ℚ) ^ ((num.log2 : ℤ) - den.log2 - 1) < num / den ∧
      (num : ℚ) / den < 2 ^ ((num.log2 : ℤ) - den.log2 + 1) := by
  have hposn : (0 : ℚ) < num := Nat.cast_pos.mpr hnum
  have hposd : (0 : ℚ) < den := Nat.cast_pos.mpr hden
  have hn : (2 : ℚ) ^ (num.log2 : ℤ) ≤ num := by
    rw [zpow_natCast]
    exact_mod_cast Nat.log2_self_le hnum.ne'
  have hn' : (num : ℚ) < 2 ^ ((num.log2 : ℤ) + 1) := by
    rw [← Nat.cast_succ, zpow_natCast]
    exact_mod_cast Nat.lt_log2_self
  have hd : (2 : ℚ) ^ (den.log2 : ℤ) ≤ den := by
    rw [zpow_natCast]
    exact_mod_cast Nat.log2_self_le hden.ne'
  have hd' : (den : ℚ) < 2 ^ ((den.log2 : ℤ) + 1) := by
    rw [← Nat.cast_succ, zpow_natCast]
    exact_mod_cast Nat.lt_log2_self
  rw [lt_div_iff₀ hposd, div_lt_iff₀ hposd]
  constructor
  · calc (2 : ℚ) ^ ((num.log2 : ℤ) - den.log2 - 1) * den
        < 2 ^ ((num.log2 : ℤ) - den.log2 - 1) * 2 ^ ((den.log2 : ℤ) + 1) := by gcongr
      _ = 2 ^ (num.log2 : ℤ) := by rw [← zpow_add₀ two_ne_zero]; congr 1; ring
      _ ≤ num := hn
  · calc (num : ℚ) < 2 ^ ((num.log2 : ℤ) + 1) := hn'
      _ = 2 ^ ((num.log2 : ℤ) - den.log2 + 1) * 2 ^ (den.log2 : ℤ) := by
        rw [← zpow_add₀ two_ne_zero]; congr 1; ring
      _ ≤ 2 ^ ((num.log2 : ℤ) - den.log2 + 1) * den := by gcongr

/-- The exponent of the last bit leaves a significand of 53 bits, or of fewer if it is the smallest
one. -/
theorem unitExponent_spec (hnum : 0 < num) (hden : 0 < den) :
    -1074 ≤ unitExponent num den ∧
      (num : ℚ) / den / 2 ^ unitExponent num den < (2 * exponentUnit : ℕ) ∧
      (unitExponent num den = -1074 ∨
        (exponentUnit : ℚ) ≤ num / den / 2 ^ unitExponent num den) := by
  obtain ⟨hlow, hhigh⟩ := div_between hnum hden
  have hpow (e : ℤ) : (0 : ℚ) < 2 ^ e := zpow_pos two_pos _
  set guess : ℤ := max (-1074) ((num.log2 : ℤ) - den.log2 - 53) with hguess
  have hfits : (scaled num den guess).1 / (scaled num den guess).2 < 2 * exponentUnit ↔
      (num : ℚ) / den / 2 ^ guess < (2 * exponentUnit : ℕ) := by
    rw [div_lt_iff (scaled_den_pos num hden _), scaled_div]
  -- The guess is at most one bit too low.
  have hwide : (num : ℚ) / den / 2 ^ guess < 4 * exponentUnit := by
    rw [div_lt_iff₀ (hpow _)]
    calc (num : ℚ) / den < 2 ^ ((num.log2 : ℤ) - den.log2 + 1) := hhigh
      _ ≤ 2 ^ (54 + guess) := zpow_le_zpow_right₀ one_le_two (by omega)
      _ = 4 * exponentUnit * 2 ^ guess := by rw [zpow_add₀ two_ne_zero]; norm_num
  have hunit : unitExponent num den =
      if (num : ℚ) / den / 2 ^ guess < (2 * exponentUnit : ℕ) then guess else guess + 1 := by
    simp only [unitExponent, ← hguess, hfits]
  rw [hunit]
  split_ifs with h
  · refine ⟨le_max_left _ _, h, ?_⟩
    rcases le_total ((num.log2 : ℤ) - den.log2 - 53) (-1074) with hle | hle
    · exact .inl (by omega)
    · refine .inr ((le_div_iff₀ (hpow _)).mpr ?_)
      calc (exponentUnit : ℚ) * 2 ^ guess = 2 ^ (52 + guess) := by
            rw [zpow_add₀ two_ne_zero]; norm_num
        _ = 2 ^ ((num.log2 : ℤ) - den.log2 - 1) := by congr 1; omega
        _ ≤ num / den := hlow.le
  · have hhalf : (num : ℚ) / den / 2 ^ (guess + 1) = num / den / 2 ^ guess / 2 := by
      rw [zpow_add_one₀ two_ne_zero, div_div, div_div, div_div]
    rw [hhalf]
    push_cast at h ⊢
    exact ⟨by omega, by linarith, .inr (by linarith)⟩

/-- The point halfway to the next magnitude is half a unit in the last place further, or more where
the exponent changes. -/
theorem le_halfway {k s : ℕ} (hs : s ≤ 2 * exponentUnit) (hk : exponentUnit ≤ s ∨ k = 0) :
    (s + 1 / 2) * 2 ^ (k - 1074 : ℤ) ≤ halfway (k * exponentUnit + s) := by
  have hpos : (0 : ℚ) < 2 ^ (k - 1074 : ℤ) := zpow_pos two_pos _
  have hnext : ((s + 1 : ℕ) : ℚ) * 2 ^ (k - 1074 : ℤ) ≤ valueOf (k * exponentUnit + s + 1) := by
    rcases Nat.lt_or_eq_of_le hs with hlt | rfl
    · rw [Nat.add_assoc, valueOf_eq (by omega) (by omega)]
    · have hparts : k * exponentUnit + 2 * exponentUnit + 1 =
          (k + 1) * exponentUnit + (exponentUnit + 1) := by ring
      have hexp : ((k + 1 : ℕ) - 1074 : ℤ) = (k - 1074 : ℤ) + 1 := by push_cast; ring
      rw [hparts, valueOf_eq (by simp [exponentUnit]) (by simp), hexp, zpow_add_one₀ two_ne_zero]
      push_cast
      linarith
  rw [halfway, valueOf_eq hs hk]
  push_cast at hnext
  linarith

/-- The point halfway from the magnitude before is half a unit in the last place below, where the
exponent does not change. -/
theorem halfway_eq {k s : ℕ} (hs : s < 2 * exponentUnit) (hk : exponentUnit ≤ s ∨ k = 0) :
    halfway (k * exponentUnit + s) = (s + 1 / 2) * 2 ^ (k - 1074 : ℤ) := by
  rw [halfway, Nat.add_assoc, valueOf_eq hs.le hk, valueOf_eq (by omega) (by omega)]
  push_cast
  ring

/-- The magnitude of a significand and an exponent is the nearest one to what the significand was
rounded from. -/
theorem nearest_of_parts {r : ℚ} {k s : ℕ} (hs : s ≤ 2 * exponentUnit)
    (hk : (exponentUnit : ℚ) ≤ r / 2 ^ (k - 1074 : ℤ) ∧ exponentUnit ≤ s ∨ k = 0)
    (habove : (s : ℚ) - 1 / 2 ≤ r / 2 ^ (k - 1074 : ℤ) ∧
      ((s : ℚ) - 1 / 2 = r / 2 ^ (k - 1074 : ℤ) → s % 2 = 0))
    (hbelow : r / 2 ^ (k - 1074 : ℤ) ≤ s + 1 / 2 ∧
      (r / 2 ^ (k - 1074 : ℤ) = s + 1 / 2 → s % 2 = 0)) :
    Nearest r (min infinityMagnitude (k * exponentUnit + s)) := by
  have hpos : (0 : ℚ) < 2 ^ (k - 1074 : ℤ) := zpow_pos two_pos _
  have hk' : exponentUnit ≤ s ∨ k = 0 := hk.imp_left And.right
  have heven : (k * exponentUnit + s) % 2 = s % 2 := by unfold exponentUnit; omega
  rw [le_div_iff₀ hpos, eq_div_iff hpos.ne'] at habove
  rw [div_le_iff₀ hpos, div_eq_iff hpos.ne'] at hbelow
  have hlower (l : ℕ) (hl : l + 1 = k * exponentUnit + s) :
      halfway l ≤ r ∧ (halfway l = r → s % 2 = 0) := by
    by_cases hsame : ∃ s', s = s' + 1 ∧ (exponentUnit ≤ s' ∨ k = 0)
    · obtain ⟨s', rfl, hk''⟩ := hsame
      obtain rfl : l = k * exponentUnit + s' := by omega
      rw [halfway_eq (by omega) hk'']
      push_cast at habove
      rw [show (s' : ℚ) + 1 - 1 / 2 = s' + 1 / 2 by ring] at habove
      exact habove
    · -- The significand is the smallest one of its exponent, which the quotient does not go below.
      obtain ⟨hr, hge⟩ : (exponentUnit : ℚ) ≤ r / 2 ^ (k - 1074 : ℤ) ∧ exponentUnit ≤ s := by
        refine hk.resolve_right fun h0 => hsame ⟨s - 1, ?_, .inr h0⟩
        subst h0
        omega
      obtain rfl : s = exponentUnit := by
        by_contra hne
        exact hsame ⟨s - 1, by omega, .inl (by omega)⟩
      rw [le_div_iff₀ hpos, ← valueOf_eq hs hk', ← hl] at hr
      have hlt := halfway_lt_valueOf l
      exact ⟨by linarith, fun h => by linarith⟩
  have hupper : r ≤ halfway (k * exponentUnit + s) ∧
      (r = halfway (k * exponentUnit + s) → s % 2 = 0) := by
    have hle := le_halfway hs hk'
    exact ⟨by linarith, fun h => hbelow.2 (by linarith)⟩
  rcases Nat.le_total (k * exponentUnit + s) infinityMagnitude with hle | hle
  · rw [Nat.min_eq_right hle]
    exact ⟨hle, fun l hl => heven ▸ hlower l hl, fun _ => heven ▸ hupper⟩
  · rw [Nat.min_eq_left hle]
    refine ⟨le_rfl, fun l hl => ⟨?_, fun _ => by decide⟩, fun h => absurd h (Nat.lt_irrefl _)⟩
    obtain ⟨l', hl'⟩ : ∃ l', l' + 1 = k * exponentUnit + s :=
      ⟨k * exponentUnit + s - 1, by simp only [infinityMagnitude] at hl hle; omega⟩
    exact (strictMono_halfway.monotone (by omega)).trans (hlower l' hl').1

/-- Quotients are rounded to the nearest magnitude. -/
theorem nearest_magnitudeOfRatio (hden : 0 < den) :
    Nearest (num / den) (magnitudeOfRatio num den) := by
  unfold magnitudeOfRatio
  split_ifs with hnum
  · simpa [hnum] using Nearest.valueOf (Nat.zero_le infinityMagnitude)
  obtain ⟨hmin, hhigh, hlow⟩ := unitExponent_spec (Nat.pos_of_ne_zero hnum) hden
  obtain ⟨k, hk⟩ : ∃ k : ℕ, unitExponent num den = (k - 1074 : ℤ) :=
    ⟨(unitExponent num den + 1074).toNat, by omega⟩
  simp only [hk] at hhigh hlow ⊢
  have hden' := scaled_den_pos num hden (k - 1074)
  obtain ⟨habove, hbelow⟩ := roundDiv_spec (scaled num den (k - 1074)).1 hden'
  obtain ⟨hfloor, hceil⟩ :=
    roundDiv_bounds (scaled num den (k - 1074)).1 (scaled num den (k - 1074)).2
  rw [scaled_div] at habove hbelow
  rw [← scaled_div, ← div_lt_iff hden'] at hhigh
  have hexp : ((k : ℤ) - 1074 + 1074).toNat = k := by omega
  rw [hexp]
  refine nearest_of_parts (by omega) (hlow.symm.imp (fun h => ⟨h, ?_⟩) (by omega)) habove hbelow
  rw [← scaled_div, ← le_div_iff hden'] at h
  omega

theorem magnitudeOfRatio_eq_iff (hden : 0 < den) {m : ℕ} :
    magnitudeOfRatio num den = m ↔ Nearest (num / den) m :=
  ⟨fun h => h ▸ nearest_magnitudeOfRatio hden, (nearest_magnitudeOfRatio hden).unique⟩

end

/-! ## Numbers -/

section
variable (x y : Number)

theorem toNat_bits : x.bits.toNat = (if x.negative then signUnit else 0) + x.magnitude := by
  have := x.bits.toNat_lt
  simp only [negative, magnitude, signUnit, decide_eq_true_eq]
  split_ifs <;> omega

/-- A number is its sign and its magnitude. -/
theorem ofMagnitude_magnitude : ofMagnitude x.negative x.magnitude = x := by
  rw [ofMagnitude, ← toNat_bits]
  simp

variable {x y}

theorem eq_of_magnitude_eq (hs : x.negative = y.negative) (hm : x.magnitude = y.magnitude) : x = y := by
  rw [← ofMagnitude_magnitude x, ← ofMagnitude_magnitude y, hs, hm]

theorem decompose_value (x : Number) :
    (x.decompose.1 : ℚ) * 2 ^ x.decompose.2 = valueOf x.magnitude := by
  unfold decompose valueOf
  simp only
  split_ifs <;> rfl

/-- The place in the order is that of the value. -/
theorem rank_lt_iff : x.rank < y.rank ↔ x.value < y.value := by
  have hx := valueOf_nonneg x.magnitude
  have hy := valueOf_nonneg y.magnitude
  have hpos (m : ℕ) : 0 < valueOf m ↔ 0 < m := by
    rw [← valueOf_zero, strictMono_valueOf.lt_iff_lt]
  unfold rank value
  split_ifs
  · rw [neg_lt_neg_iff, neg_lt_neg_iff, strictMono_valueOf.lt_iff_lt, Nat.cast_lt]
  · -- Only if both are zero is what has a minus sign not below.
    rw [← not_le, ← not_le, not_iff_not]
    constructor
    · intro h
      have hxz : x.magnitude = 0 := by omega
      have hyz : y.magnitude = 0 := by omega
      simp [hxz, hyz]
    · intro h
      have hxz := mt (hpos x.magnitude).mpr (by linarith)
      have hyz := mt (hpos y.magnitude).mpr (by linarith)
      omega
  · exact ⟨fun h => by omega, fun h => by linarith⟩
  · rw [strictMono_valueOf.lt_iff_lt, Nat.cast_lt]

theorem rank_eq_iff : x.rank = y.rank ↔ x.value = y.value := by
  rw [le_antisymm_iff, le_antisymm_iff, ← not_lt, ← not_lt, rank_lt_iff, rank_lt_iff, not_lt, not_lt]

/-- Numbers are in the order of their values, and what is not a number is in no order. -/
theorem lt_iff : x.lt y = true ↔ x.isNaN = false ∧ y.isNaN = false ∧ x.value < y.value := by
  simp [lt, rank_lt_iff, and_assoc]

/-- Numbers are equal if their values are, so that both zeros are, and what is not a number equals
nothing. -/
theorem eq_iff : x.eq y = true ↔ x.isNaN = false ∧ y.isNaN = false ∧ x.value = y.value := by
  simp [eq, rank_eq_iff, and_assoc]

end
end Number
end Reckoner
