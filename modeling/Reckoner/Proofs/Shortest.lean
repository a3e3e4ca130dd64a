import Reckoner.Number.Decimal
import Reckoner.Proofs.Magnitudes

/-!
# The shortest decimal

A decimal stands for a rational number, and it is read as the magnitude nearest to that. A number is
written with the shortest decimal that is read as it. The search for that decimal tries one number of
digits after the other, and for each the two decimals around the number.

It never fails: with seventeen digits the decimals are closer together than the magnitudes, so that one
of the two is read back (`Decimal.hits_of_seventeen_le`). And it finds the shortest one of all, because
reading keeps the order: no decimal with the same number of digits lies nearer on its side. So the
decimal that is written is the shortest one that reads back: `Decimal.isShortest_ofNumber`.
-/
namespace Reckoner

open Number (Nearest valueOf halfway)

/-! ## Digits -/

namespace Text

theorem length_ofNat_pos (n : ℕ) : 0 < (ofNat n).length := by
  rw [ofNat, List.length_map]
  exact Nat.length_toDigits_pos

/-- How many digits a natural number has. -/
theorem length_ofNat_le_iff {n k : ℕ} (hk : 0 < k) : (ofNat n).length ≤ k ↔ n < 10 ^ k := by
  rw [ofNat, List.length_map, Nat.length_toDigits_le_iff (by decide) hk]

theorem lt_pow_length_ofNat (n : ℕ) : n < 10 ^ (ofNat n).length :=
  (length_ofNat_le_iff (length_ofNat_pos n)).mp le_rfl

theorem pow_length_ofNat_le {n : ℕ} (hn : 0 < n) : 10 ^ ((ofNat n).length - 1) ≤ n := by
  by_contra hlt
  have hpos := length_ofNat_pos n
  rcases Nat.lt_or_ge 1 (ofNat n).length with h | h
  · have := (length_ofNat_le_iff (by omega)).mpr (not_le.mp hlt)
    omega
  · obtain hone : (ofNat n).length = 1 := by omega
    rw [hone] at hlt
    omega

end Text

namespace Decimal

/-! ## The value of a decimal -/

/-- What a decimal stands for. -/
def value (d : Decimal) : ℚ := d.digits * 10 ^ d.exponent

theorem ten_zpow_pos (e : ℤ) : (0 : ℚ) < 10 ^ e := zpow_pos (by norm_num) e

theorem ratio_den_pos (d : Decimal) : 0 < d.ratio.2 := by
  unfold ratio
  split
  · exact one_pos
  · exact Nat.pow_pos (by decide)

theorem ratio_div (d : Decimal) : (d.ratio.1 : ℚ) / d.ratio.2 = d.value := by
  unfold ratio value
  split
  · next e he =>
    rw [he, show Nat.pow 10 e = 10 ^ e from rfl, Int.ofNat_eq_natCast, zpow_natCast]
    push_cast
    exact div_one _
  · next e he =>
    rw [he, show Nat.pow 10 (e + 1) = 10 ^ (e + 1) from rfl, zpow_negSucc, div_eq_mul_inv]
    push_cast
    rfl

/-- A decimal is read as the nearest magnitude. -/
theorem magnitude_eq_iff {d : Decimal} {m : ℕ} : d.magnitude = m ↔ Nearest d.value m := by
  rw [← ratio_div]
  exact Number.magnitudeOfRatio_eq_iff d.ratio_den_pos

theorem nearest_magnitude (d : Decimal) : Nearest d.value d.magnitude := magnitude_eq_iff.mp rfl

/-- A decimal with `count` digits is a whole number of units of that many places, or it is too small to
have a digit in the first one. -/
theorem value_cases {d : Decimal} {count : ℕ} (hd : d.digits < 10 ^ count) (point : ℤ) :
    (∃ n : ℕ, d.value = n * 10 ^ (point - count)) ∨ d.value < 10 ^ (point - 1) := by
  rcases le_or_gt (point - count) d.exponent with hle | hlt
  · left
    obtain ⟨k, hk⟩ := Int.eq_ofNat_of_zero_le (sub_nonneg.mpr hle)
    refine ⟨d.digits * 10 ^ k, ?_⟩
    rw [value, show d.exponent = k + (point - count) by omega, zpow_add₀ (by norm_num), zpow_natCast]
    push_cast
    ring
  · right
    have hdigits : (d.digits : ℚ) < 10 ^ (count : ℤ) := by
      rw [zpow_natCast]
      exact_mod_cast hd
    calc d.value < 10 ^ (count : ℤ) * 10 ^ d.exponent :=
          mul_lt_mul_of_pos_right hdigits (ten_zpow_pos _)
      _ = 10 ^ (count + d.exponent) := (zpow_add₀ (by norm_num) _ _).symm
      _ ≤ 10 ^ (point - 1) := zpow_le_zpow_right₀ (by norm_num) (by omega)

/-! ## Trailing zeros -/

theorem value_trimWithin (fuel : ℕ) (d : Decimal) : (trimWithin fuel d).value = d.value := by
  induction fuel generalizing d with
  | zero => rfl
  | succ fuel ih =>
    rw [trimWithin]
    split_ifs with h
    · rfl
    · have hdigits : d.digits = 10 * (d.digits / 10) := by omega
      rw [ih, value, value, zpow_add_one₀ (by norm_num)]
      conv_rhs => rw [hdigits]
      push_cast
      ring

@[simp] theorem value_trim (d : Decimal) : d.trim.value = d.value := value_trimWithin _ d

theorem digits_trimWithin_le (fuel : ℕ) (d : Decimal) : (trimWithin fuel d).digits ≤ d.digits := by
  induction fuel generalizing d with
  | zero => exact le_rfl
  | succ fuel ih =>
    rw [trimWithin]
    split_ifs with h
    · exact le_rfl
    · exact (ih _).trans (Nat.div_le_self _ _)

/-- What is rounded up to one digit more ends in a zero. -/
theorem digits_trim_lt {d : Decimal} {count : ℕ} (hcount : 0 < count) (hd : d.digits ≤ 10 ^ count) :
    d.trim.digits < 10 ^ count := by
  obtain ⟨k, rfl⟩ : ∃ k, count = k + 1 := ⟨count - 1, by omega⟩
  have hpos : 0 < 10 ^ k := Nat.pow_pos (by decide)
  rw [pow_succ] at hd ⊢
  rw [trim, trimWithin]
  split_ifs with h
  · have hne : d.digits ≠ 10 ^ k * 10 := by omega
    omega
  · have hle := digits_trimWithin_le d.digits.log2 ⟨d.digits / 10, d.exponent + 1⟩
    have hdiv : d.digits / 10 ≤ 10 ^ k := Nat.div_le_of_le_mul (by omega)
    simp only at hle
    omega

/-! ## The decimals around a quotient -/

section
variable {num den : ℕ} {point : ℤ} {count m : ℕ}

/-- Where the point stands. -/
theorem pointOf_spec (hnum : 0 < num) (hden : 0 < den) :
    (10 : ℚ) ^ (pointOf num den - 1) ≤ num / den ∧ (num : ℚ) / den < 10 ^ pointOf num den := by
  have hposn : (0 : ℚ) < num := Nat.cast_pos.mpr hnum
  have hposd : (0 : ℚ) < den := Nat.cast_pos.mpr hden
  unfold pointOf
  split_ifs with hle
  · have hq : 0 < num / den := Nat.div_pos hle hden
    have hlow := Text.pow_length_ofNat_le hq
    have hhigh := Text.lt_pow_length_ofNat (num / den)
    rw [Number.le_div_iff hden] at hlow
    rw [Number.div_lt_iff hden] at hhigh
    have hlength := Text.length_ofNat_pos (num / den)
    refine ⟨?_, by rw [zpow_natCast]; exact_mod_cast hhigh⟩
    rw [show ((Text.ofNat (num / den)).length : ℤ) - 1 = ((Text.ofNat (num / den)).length - 1 : ℕ) by
      omega, zpow_natCast]
    exact_mod_cast hlow
  · -- One less than the inverse, rounded up, has as many digits as there are zeros, and one more.
    set k := (num + den - 1) / num - 1 with hk
    have hdiv := Nat.div_add_mod (num + den - 1) num
    have hmod := Nat.mod_lt (num + den - 1) hnum
    have htwo : 2 ≤ (num + den - 1) / num := (Nat.le_div_iff_mul_le hnum).mpr (by omega)
    obtain ⟨hkpos, hc⟩ : 0 < k ∧ (num + den - 1) / num = k + 1 := by omega
    rw [hc, Nat.mul_succ] at hdiv
    have hlow : 10 ^ ((Text.ofNat k).length - 1) * num < den := by
      have := Nat.mul_le_mul_left num (Text.pow_length_ofNat_le hkpos)
      rw [Nat.mul_comm]
      omega
    have hhigh : den ≤ 10 ^ (Text.ofNat k).length * num := by
      have := Nat.mul_le_mul_left num (Text.lt_pow_length_ofNat k)
      rw [Nat.mul_comm]
      rw [Nat.mul_succ] at this
      omega
    have hlength := Text.length_ofNat_pos k
    rw [show (1 : ℤ) - (Text.ofNat k).length - 1 = -((Text.ofNat k).length : ℤ) by ring,
      show (1 : ℤ) - (Text.ofNat k).length = -(((Text.ofNat k).length - 1 : ℕ) : ℤ) by omega,
      zpow_neg, zpow_neg, zpow_natCast, zpow_natCast, inv_le_comm₀ (by positivity) (by positivity),
      lt_inv_comm₀ (by positivity) (by positivity), inv_div, div_le_iff₀ hposn, lt_div_iff₀ hposn]
    exact ⟨by exact_mod_cast hhigh, by exact_mod_cast hlow⟩

/-- The whole number of units in a quotient. -/
theorem value_of_units {n d : ℕ} (hd : 0 < d) {e : ℤ} (h : (n : ℚ) / d = num / den / 10 ^ e) :
    (Decimal.mk (n / d) e).value ≤ num / den ∧
      (num : ℚ) / den < (Decimal.mk (n / d + 1) e).value := by
  have hlow : ((n / d : ℕ) : ℚ) ≤ n / d := (Number.le_div_iff hd _).mp le_rfl
  have hhigh : (n : ℚ) / d < (n / d + 1 : ℕ) := (Number.div_lt_iff hd _).mp (Nat.lt_succ_self _)
  rw [h] at hlow hhigh
  exact ⟨(le_div_iff₀ (ten_zpow_pos e)).mp hlow, (div_lt_iff₀ (ten_zpow_pos e)).mp hhigh⟩

/-- The decimals below and above a quotient, of which the lower one may be the quotient itself. -/
theorem neighbours_spec (hden : 0 < den) (num : ℕ) (point : ℤ) (count : ℕ) :
    ∃ below nearer, neighbours num den point count =
        (⟨below, point - count⟩, ⟨below + 1, point - count⟩, nearer) ∧
      (Decimal.mk below (point - count)).value ≤ num / den ∧
      (num : ℚ) / den < (Decimal.mk (below + 1) (point - count)).value := by
  unfold neighbours
  rcases point - count with e | e
  · refine ⟨_, _, rfl, value_of_units (Nat.mul_pos hden (Nat.pow_pos (by decide))) ?_⟩
    rw [Int.ofNat_eq_natCast, zpow_natCast, div_div]
    push_cast
    rfl
  · refine ⟨_, _, rfl, value_of_units hden ?_⟩
    rw [show Nat.pow 10 (e + 1) = 10 ^ (e + 1) from rfl, zpow_negSucc, div_inv_eq_mul,
      div_mul_eq_mul_div]
    push_cast
    rfl

/-! ## The search -/

/-- One of the decimals of a number of digits around a quotient is read as a magnitude. -/
def Hits (num den : ℕ) (point : ℤ) (m count : ℕ) : Prop :=
  (neighbours num den point count).1.magnitude = m ∨
    (neighbours num den point count).2.1.magnitude = m

theorem shortestFrom_of_hits (h : Hits num den point m count) (more : ℕ) :
    (shortestFrom num den point m count more).magnitude = m ∧
      (shortestFrom num den point m count more = (neighbours num den point count).1 ∨
        shortestFrom num den point m count more = (neighbours num den point count).2.1) := by
  unfold Hits at h
  rw [shortestFrom]
  generalize neighbours num den point count = around at h ⊢
  obtain ⟨lower, upper, nearer⟩ := around
  by_cases hl : lower.magnitude = m
  · by_cases hu : upper.magnitude = m
    · cases nearer <;> simp [hl, hu]
    · simp [hl, beq_eq_false_iff_ne.mpr hu]
  · have hu : upper.magnitude = m := h.resolve_left hl
    simp [hu, beq_eq_false_iff_ne.mpr hl]

theorem shortestFrom_of_not_hits (h : ¬Hits num den point m count) (more : ℕ) :
    shortestFrom num den point m count (more + 1) =
      shortestFrom num den point m (count + 1) more := by
  unfold Hits at h
  rw [shortestFrom]
  generalize neighbours num den point count = around at h ⊢
  obtain ⟨lower, upper, nearer⟩ := around
  rw [not_or] at h
  simp [beq_eq_false_iff_ne.mpr h.1, beq_eq_false_iff_ne.mpr h.2]

/-- If some number of digits is enough, then the search stops at the smallest one that is. -/
theorem exists_shortestFrom {more : ℕ} (hn : Hits num den point m (count + more)) :
    ∃ n, count ≤ n ∧ (∀ k, count ≤ k → Hits num den point m k → n ≤ k) ∧
      (shortestFrom num den point m count more).magnitude = m ∧
      (shortestFrom num den point m count more = (neighbours num den point n).1 ∨
        shortestFrom num den point m count more = (neighbours num den point n).2.1) := by
  induction more generalizing count with
  | zero => exact ⟨count, le_rfl, fun k hk _ => hk, shortestFrom_of_hits hn 0⟩
  | succ more ih =>
    by_cases hhits : Hits num den point m count
    · exact ⟨count, le_rfl, fun k hk _ => hk, shortestFrom_of_hits hhits _⟩
    · obtain ⟨n, hle, hleast, hfound⟩ :=
        ih (by rwa [Nat.add_right_comm] : Hits _ _ _ _ (count + 1 + more))
      rw [shortestFrom_of_not_hits hhits]
      refine ⟨n, by omega, fun k hk hkhits => hleast k ?_ hkhits, hfound⟩
      rcases Nat.lt_or_eq_of_le hk with hlt | rfl
      · exact hlt
      · exact absurd hkhits hhits

/-- If a decimal of a number of digits is read as the magnitude of a quotient, then so is one of those
around it: the decimal lies no nearer to the quotient. -/
theorem hits_of_magnitude_eq (hden : 0 < den) (hr : Nearest (num / den) m)
    (hpoint : (10 : ℚ) ^ (point - 1) ≤ num / den) (hcount : 0 < count) {d : Decimal}
    (hd : d.magnitude = m) (hdigits : d.digits < 10 ^ count) : Hits num den point m count := by
  obtain ⟨below, nearer, hneighbours, hlow, hhigh⟩ :=
    neighbours_spec hden num point count
  have hunit := ten_zpow_pos (point - count)
  -- Whole numbers of units lie outside the two neighbours or on them.
  have hgrid (n : ℕ) : (n : ℚ) * 10 ^ (point - count : ℤ) ≤ num / den →
      (n : ℚ) * 10 ^ (point - count : ℤ) ≤ (Decimal.mk below (point - count)).value := by
    intro hle
    have hlt := lt_of_mul_lt_mul_right (hle.trans_lt hhigh) hunit.le
    have hn : n ≤ below := Nat.lt_succ_iff.mp (by exact_mod_cast hlt)
    exact mul_le_mul_of_nonneg_right (by exact_mod_cast hn) hunit.le
  have hgrid' (n : ℕ) : (num : ℚ) / den < n * 10 ^ (point - count : ℤ) →
      (Decimal.mk (below + 1) (point - count)).value ≤ n * 10 ^ (point - count : ℤ) := by
    intro hlt
    have hlt := lt_of_mul_lt_mul_right (hlow.trans_lt hlt) hunit.le
    have hn : below + 1 ≤ n := by exact_mod_cast hlt
    exact mul_le_mul_of_nonneg_right (by exact_mod_cast hn) hunit.le
  have hnearest := magnitude_eq_iff.mp hd
  rw [Hits, hneighbours]
  rcases le_or_gt d.value (num / den) with hle | hlt
  · left
    have hbelow : d.value ≤ (Decimal.mk below (point - count)).value := by
      rcases value_cases hdigits point with ⟨n, hn⟩ | hsmall
      · rw [hn] at hle ⊢
        exact hgrid n hle
      · have hone : (10 : ℚ) ^ (point - 1) = (10 ^ (count - 1) : ℕ) * 10 ^ (point - count : ℤ) := by
          push_cast
          rw [← zpow_natCast, ← zpow_add₀ (by norm_num)]
          congr 1
          omega
        rw [hone] at hsmall hpoint
        exact hsmall.le.trans (hgrid _ hpoint)
    exact Nat.le_antisymm ((nearest_magnitude _).mono hr hlow)
      (hnearest.mono (nearest_magnitude _) hbelow)
  · right
    have habove : (Decimal.mk (below + 1) (point - count)).value ≤ d.value := by
      rcases value_cases hdigits point with ⟨n, hn⟩ | hsmall
      · rw [hn] at hlt ⊢
        exact hgrid' n hlt
      · exact absurd (hsmall.trans_le hpoint) (not_lt.mpr hlt.le)
    exact Nat.le_antisymm ((nearest_magnitude _).mono hnearest habove)
      (hr.mono (nearest_magnitude _) hhigh.le)

end

end Decimal

/-! ## Seventeen digits -/

namespace Number

/-- A magnitude has at most 53 bits, so that the gap below it is not much smaller than it. -/
theorem valueOf_succ_le (m : ℕ) :
    valueOf (m + 1) ≤ 2 ^ 53 * (valueOf (m + 1) - valueOf m) := by
  obtain ⟨k, s, rfl, hs, hk⟩ := exists_parts m
  have hpos : (0 : ℚ) < 2 ^ (k - 1074 : ℤ) := zpow_pos two_pos _
  have hs' : ((s + 1 : ℕ) : ℚ) ≤ 2 ^ 53 := by
    unfold exponentUnit at hs
    exact_mod_cast (by omega : s + 1 ≤ 2 ^ 53)
  rw [Nat.add_assoc, valueOf_eq hs.le hk, valueOf_eq (by omega) (by omega), ← sub_mul]
  push_cast at hs' ⊢
  rw [add_sub_cancel_left, one_mul]
  exact mul_le_mul_of_nonneg_right hs' hpos.le

/-- The gaps grow with the magnitude. -/
theorem valueOf_succ_sub_le (m : ℕ) :
    valueOf (m + 1) - valueOf m ≤ valueOf (m + 2) - valueOf (m + 1) := by
  obtain ⟨k, s, rfl, hs, hk⟩ := exists_parts m
  have hle := le_halfway (s := s + 1) (by omega) (by omega : exponentUnit ≤ s + 1 ∨ k = 0)
  rw [halfway, ← Nat.add_assoc] at hle
  have hsucc : valueOf (k * exponentUnit + s + 1) = (s + 1 : ℕ) * 2 ^ (k - 1074 : ℤ) := by
    rw [Nat.add_assoc, valueOf_eq (by omega) (by omega)]
  rw [hsucc, valueOf_eq hs.le hk]
  rw [hsucc] at hle
  push_cast at hle ⊢
  linarith

/-- What lies within half the gap below a magnitude, on either side, is read as that magnitude. -/
theorem nearest_of_near {m : ℕ} (hm : m + 1 ≤ infinityMagnitude) {r : ℚ}
    (hlow : valueOf (m + 1) - (valueOf (m + 1) - valueOf m) / 2 < r)
    (hhigh : r < valueOf (m + 1) + (valueOf (m + 1) - valueOf m) / 2) : Nearest r (m + 1) := by
  have hgap := valueOf_succ_sub_le m
  refine .of_lt_of_lt hm (fun l hl => ?_) ?_
  · obtain rfl : l = m := by omega
    unfold halfway
    linarith
  · unfold halfway
    linarith

theorem isZero_iff {x : Number} : x.isZero = true ↔ x.magnitude = 0 := beq_iff_eq

end Number

namespace Decimal

/-- With seventeen digits one of the decimals around a number is read back. -/
theorem hits_of_seventeen_le {num den m count : ℕ} {point : ℤ} (hden : 0 < den)
    (hr : (num : ℚ) / den = valueOf (m + 1)) (hm : m + 1 < Number.infinityMagnitude)
    (hpoint : (10 : ℚ) ^ (point - 1) ≤ num / den) (hcount : 17 ≤ count) :
    Hits num den point (m + 1) count := by
  obtain ⟨below, nearer, hneighbours, hlow, hhigh⟩ :=
    neighbours_spec hden num point count
  rw [Hits, hneighbours, magnitude_eq_iff, magnitude_eq_iff]
  rw [hr] at hlow hhigh hpoint
  have hstep : (Decimal.mk (below + 1) (point - count)).value =
      (Decimal.mk below (point - count)).value + 10 ^ (point - count : ℤ) := by
    simp only [value]
    push_cast
    ring
  rw [hstep] at hhigh ⊢
  -- The two decimals are closer together than the magnitudes.
  have hunit : (10 : ℚ) ^ (point - count : ℤ) < valueOf (m + 1) - valueOf m := by
    have hbits := Number.valueOf_succ_le m
    have hpos := ten_zpow_pos (point - count)
    have hten : (10 : ℚ) ^ 16 * 10 ^ (point - count : ℤ) ≤ 10 ^ (point - 1) := by
      rw [← zpow_natCast, ← zpow_add₀ (by norm_num)]
      exact zpow_le_zpow_right₀ (by norm_num) (by push_cast; omega)
    norm_num only at hten hbits
    linarith
  generalize (Decimal.mk below (point - count)).value = lower at *
  generalize (10 : ℚ) ^ (point - count : ℤ) = unit at *
  rcases le_or_gt (valueOf (m + 1) - lower) (unit / 2) with hle | hlt
  · exact .inl (Number.nearest_of_near hm.le (by linarith) (by linarith))
  · exact .inr (Number.nearest_of_near hm.le (by linarith) (by linarith))

/-! ## Numbers -/

section
variable {x : Number}

/-- The quotient that a number is written from. -/
theorem exists_quotient (hzero : x.magnitude ≠ 0) :
    ∃ num den : ℕ, 0 < num ∧ 0 < den ∧ (num : ℚ) / den = valueOf x.magnitude ∧
      ofNumber x = (shortestFrom num den (pointOf num den) x.magnitude 1 16).trim := by
  have hden := Number.scaled_den_pos x.decompose.1 one_pos (-x.decompose.2)
  have hvalue : ((Number.scaled x.decompose.1 1 (-x.decompose.2)).1 : ℚ) /
      (Number.scaled x.decompose.1 1 (-x.decompose.2)).2 = valueOf x.magnitude := by
    rw [Number.scaled_div, zpow_neg, div_inv_eq_mul, Nat.cast_one, div_one, Number.decompose_value]
  refine ⟨_, _, ?_, hden, hvalue, ?_⟩
  · by_contra hnum
    rw [Nat.eq_zero_of_not_pos hnum, Nat.cast_zero, zero_div, ← Number.valueOf_zero] at hvalue
    exact hzero (Number.strictMono_valueOf.injective hvalue).symm
  · rw [ofNumber, if_neg (mt Number.isZero_iff.mp hzero)]

/-- What the search finds for a number is one of the decimals around it, which has no more digits
than any decimal that is read as the number. -/
theorem exists_ofNumber (hx : x.magnitude < Number.infinityMagnitude) (hzero : x.magnitude ≠ 0) :
    ∃ d : Decimal, ofNumber x = d.trim ∧ d.magnitude = x.magnitude ∧
      ∃ count, 0 < count ∧ d.digits ≤ 10 ^ count ∧
        ∀ d' : Decimal, d'.magnitude = x.magnitude → count ≤ (Text.ofNat d'.digits).length := by
  obtain ⟨num, den, hnum, hden, hvalue, hof⟩ := exists_quotient hzero
  obtain ⟨m, hm⟩ := Nat.exists_eq_succ_of_ne_zero hzero
  obtain ⟨hpoint, hpoint'⟩ := pointOf_spec hnum hden
  have hnearest : Nearest (num / den) x.magnitude := hvalue ▸ Nearest.valueOf hx.le
  have hhits : Hits num den (pointOf num den) x.magnitude (1 + 16) := by
    rw [hm] at hvalue hx ⊢
    exact hits_of_seventeen_le hden hvalue hx hpoint le_rfl
  obtain ⟨n, hn, hleast, hreads, hfound⟩ := exists_shortestFrom hhits
  refine ⟨_, hof, hreads, n, hn, ?_, fun d' hd' => ?_⟩
  · obtain ⟨below, nearer, hneighbours, hlow, -⟩ :=
      neighbours_spec hden num (pointOf num den) n
    have hbelow : below < 10 ^ n := by
      have hlt := hlow.trans_lt hpoint'
      rw [value, ← lt_div_iff₀ (ten_zpow_pos _), ← zpow_sub₀ (by norm_num), sub_sub_cancel,
        zpow_natCast] at hlt
      exact_mod_cast hlt
    rw [hneighbours] at hfound
    rcases hfound with h | h <;> rw [h] <;> simp only <;> omega
  · refine hleast _ (Text.length_ofNat_pos _) ?_
    exact hits_of_magnitude_eq hden hnearest hpoint (Text.length_ofNat_pos _) hd'
      (Text.lt_pow_length_ofNat _)

/-- A decimal is read as a number, and none with fewer digits is. -/
structure IsShortest (d : Decimal) (x : Number) : Prop where
  magnitude : d.magnitude = x.magnitude
  least : ∀ d' : Decimal, d'.magnitude = x.magnitude →
    (Text.ofNat d.digits).length ≤ (Text.ofNat d'.digits).length

/-- The decimal that is written for a number is the shortest one that is read as the number. -/
theorem isShortest_ofNumber (hx : x.magnitude < Number.infinityMagnitude) :
    (ofNumber x).IsShortest x := by
  by_cases hzero : x.magnitude = 0
  · have hof : ofNumber x = ⟨0, 0⟩ := by rw [ofNumber, if_pos (Number.isZero_iff.mpr hzero)]
    have hnearest := Nearest.valueOf (Nat.zero_le Number.infinityMagnitude)
    rw [Number.valueOf_zero] at hnearest
    rw [hof]
    refine ⟨?_, fun d' _ => Text.length_ofNat_pos d'.digits⟩
    rw [hzero, magnitude_eq_iff, value]
    simpa using hnearest
  · obtain ⟨d, hof, hreads, count, hcount, hdigits, hleast⟩ := exists_ofNumber hx hzero
    rw [hof]
    refine ⟨?_, fun d' hd' => le_trans ?_ (hleast d' hd')⟩
    · rw [magnitude_eq_iff, value_trim]
      exact magnitude_eq_iff.mp hreads
    · exact (Text.length_ofNat_le_iff hcount).mpr (digits_trim_lt hcount hdigits)

theorem nearest_ofNumber (hx : x.magnitude < Number.infinityMagnitude) :
    Nearest (ofNumber x).value x.magnitude :=
  magnitude_eq_iff.mp (isShortest_ofNumber hx).magnitude

end

end Decimal
end Reckoner
