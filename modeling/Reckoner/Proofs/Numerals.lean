import Reckoner.Proofs.Completeness
import Reckoner.Proofs.Listening
import Reckoner.Proofs.Shortest

/-!
# Numbers in writing

A finite number is written with digits around a point and, unless its absolute value lies between a
thousandth and ten million, with an exponent of ten. What is written denotes the shortest decimal that
reads back as the number, so that no two numbers are written alike: `Number.text_faithful`. Without an
exponent and without a sign it is a single token of the language, and the literal that the parser makes
of it is the number.
-/
namespace Reckoner

open Number (Nearest valueOf digitsValue)

/-! ## Digits -/

namespace Text
variable {s t : Text} {n : ℕ}

/-- One decimal digit or more. -/
structure IsDigits (t : Text) : Prop where
  ne_nil : t ≠ []
  isDigit : ∀ b ∈ t, isDigit b = true

theorem IsDigits.append (hs : s.IsDigits) (ht : ∀ b ∈ t, Text.isDigit b = true) :
    IsDigits (s ++ t) where
  ne_nil := by simp [hs.ne_nil]
  isDigit := List.forall_mem_append.mpr ⟨hs.isDigit, ht⟩

theorem toNat_byte_digitChar (hn : n < 10) : (byte n.digitChar).toNat = 48 + n := by
  have hchar := Nat.toNat_digitChar_of_lt_ten hn
  simp only [byte, hchar, Nat.toUInt8_eq, UInt8.toNat_ofNat']
  omega

theorem isDigit_byte_digitChar (hn : n < 10) : isDigit (byte n.digitChar) = true := by
  have htoNat := toNat_byte_digitChar hn
  simp only [isDigit, Bool.and_eq_true, decide_eq_true_eq, UInt8.le_iff_toNat_le, htoNat]
  simp
  omega

theorem ofNat_of_lt (hn : n < 10) : ofNat n = [byte n.digitChar] := by
  rw [ofNat, Nat.toDigits_of_lt_base hn, List.map_singleton]

theorem ofNat_of_le (hn : 10 ≤ n) : ofNat n = ofNat (n / 10) ++ [byte (n % 10).digitChar] := by
  rw [ofNat, Nat.toDigits_of_base_le (by decide) hn, List.map_append, List.map_singleton, ofNat]

theorem isDigits_ofNat (n : ℕ) : (ofNat n).IsDigits := by
  induction n using Nat.strong_induction_on with
  | _ n ih =>
    rcases Nat.lt_or_ge n 10 with hlt | hge
    · rw [ofNat_of_lt hlt]
      exact ⟨by simp, by simpa using isDigit_byte_digitChar hlt⟩
    · rw [ofNat_of_le hge]
      refine (ih (n / 10) (by omega)).append ?_
      simpa using isDigit_byte_digitChar (Nat.mod_lt n (by decide))

/-- Only zero is written with a zero in front. -/
theorem head?_ofNat_ne (hn : 0 < n) : (ofNat n).head? ≠ some (byte '0') := by
  induction n using Nat.strong_induction_on with
  | _ n ih =>
    rcases Nat.lt_or_ge n 10 with hlt | hge
    · rw [ofNat_of_lt hlt, List.head?_cons]
      intro heq
      have htoNat := congrArg UInt8.toNat (Option.some.inj heq)
      rw [toNat_byte_digitChar hlt] at htoNat
      simp at htoNat
      omega
    · rw [ofNat_of_le hge, List.head?_append_of_ne_nil _ (isDigits_ofNat _).ne_nil]
      exact ih (n / 10) (by omega) (by omega)

/-- An integer without a plus sign and without leading zeros. -/
def IsInteger (t : Text) : Prop :=
  ∃ digits : Text, (t = digits ∨ t = byte '-' :: digits) ∧ digits.IsDigits ∧
    (digits.head? = some (byte '0') → t = [byte '0'])

/-- The integer that a text denotes. -/
def integerValue : Text → ℤ
  | [] => 0
  | b :: bs => if b = byte '-' then -(digitsValue bs : ℤ) else digitsValue (b :: bs)

theorem isInteger_ofInt (e : ℤ) : (ofInt e).IsInteger := by
  cases e with
  | ofNat n =>
    refine ⟨ofNat n, .inl rfl, isDigits_ofNat n, fun hzero => ?_⟩
    obtain rfl : n = 0 := by
      by_contra hne
      exact head?_ofNat_ne (Nat.pos_of_ne_zero hne) hzero
    rfl
  | negSucc n =>
    exact ⟨ofNat (n + 1), .inr rfl, isDigits_ofNat _,
      fun hzero => absurd hzero (head?_ofNat_ne n.succ_pos)⟩

end Text

namespace Number

theorem foldl_digits (t : Text) (n : ℕ) :
    t.foldl (fun n b => 10 * n + (b.toNat - 48)) n = n * 10 ^ t.length + digitsValue t := by
  induction t generalizing n with
  | nil => simp [digitsValue]
  | cons b bs ih =>
    rw [digitsValue, List.foldl_cons, List.foldl_cons, ih, ih, List.length_cons, pow_succ]
    ring

theorem digitsValue_append (s t : Text) :
    digitsValue (s ++ t) = digitsValue s * 10 ^ t.length + digitsValue t := by
  rw [digitsValue, List.foldl_append, foldl_digits]
  rfl

@[simp] theorem digitsValue_replicate_zero (k : ℕ) :
    digitsValue (List.replicate k (Text.byte '0')) = 0 := by
  induction k with
  | zero => rfl
  | succ k ih =>
    rw [List.replicate_succ', digitsValue_append, ih]
    rfl

theorem digitsValue_singleton {d : ℕ} (hd : d < 10) :
    digitsValue [Text.byte d.digitChar] = d := by
  simp [digitsValue, Text.toNat_byte_digitChar hd]

/-- Writing a natural number and reading it again. -/
@[simp] theorem digitsValue_ofNat (n : ℕ) : digitsValue (Text.ofNat n) = n := by
  induction n using Nat.strong_induction_on with
  | _ n ih =>
    rcases Nat.lt_or_ge n 10 with hlt | hge
    · rw [Text.ofNat_of_lt hlt, digitsValue_singleton hlt]
    · rw [Text.ofNat_of_le hge, digitsValue_append, ih (n / 10) (by omega),
        digitsValue_singleton (Nat.mod_lt n (by decide)), List.length_singleton]
      omega

end Number

/-- Writing an integer and reading it again. -/
@[simp] theorem Text.integerValue_ofInt (e : ℤ) : (ofInt e).integerValue = e := by
  cases e with
  | ofNat n =>
    obtain ⟨hne, hdigits⟩ := isDigits_ofNat n
    obtain ⟨b, bs, hcons⟩ := List.exists_cons_of_ne_nil hne
    rw [hcons] at hdigits
    have hb : b ≠ byte '-' := by
      rintro rfl
      exact absurd (hdigits _ List.mem_cons_self) (by decide)
    rw [ofInt, hcons, integerValue, if_neg hb, ← hcons, Number.digitsValue_ofNat]
    rfl
  | negSucc n =>
    rw [ofInt, integerValue, if_pos rfl, Number.digitsValue_ofNat]
    rfl

/-! ## Numerals -/

/-- A number in writing, taken apart. -/
structure Numeral where
  negative : Bool
  /-- The digits before the point. -/
  whole : Text
  /-- The digits after the point. -/
  fraction : Text
  /-- The exponent of ten, if one is written. -/
  exponent : Option Text

namespace Numeral

/-- The exponent with its mark. -/
def suffix (n : Numeral) : Text := n.exponent.elim [] (Text.byte 'E' :: ·)

/-- The numeral without its sign. -/
def body (n : Numeral) : Text := n.whole ++ Text.byte '.' :: (n.fraction ++ n.suffix)

def text (n : Numeral) : Text := if n.negative then Text.byte '-' :: n.body else n.body

/-- There are digits on both sides of the point, and the exponent is an integer. -/
structure Proper (n : Numeral) : Prop where
  whole : n.whole.IsDigits
  fraction : n.fraction.IsDigits
  exponent : ∀ t ∈ n.exponent, t.IsInteger

/-- What a numeral denotes, but for the sign. -/
def value (n : Numeral) : ℚ :=
  digitsValue (n.whole ++ n.fraction) *
    10 ^ (n.exponent.elim 0 Text.integerValue - n.fraction.length : ℤ)

variable {n n' : Numeral}

theorem suffix_eq_iff : n.suffix = n'.suffix ↔ n.exponent = n'.exponent := by
  unfold suffix
  cases n.exponent <;> cases n'.exponent <;> simp

/-- Neither the point nor the mark of the exponent is a digit. -/
theorem isDigit_head?_suffix (n : Numeral) : ∀ b ∈ n.suffix.head?, Text.isDigit b = false := by
  unfold suffix
  cases n.exponent with
  | none => simp
  | some t =>
    intro b hb
    obtain rfl := Option.some.inj hb
    decide

theorem Proper.head?_body (h : n.Proper) : ∃ b, n.body.head? = some b ∧ Text.isDigit b = true := by
  obtain ⟨b, bs, hcons⟩ := List.exists_cons_of_ne_nil h.whole.ne_nil
  refine ⟨b, by simp [body, hcons], h.whole.isDigit b ?_⟩
  rw [hcons]
  exact List.mem_cons_self

theorem Proper.negative_iff (h : n.Proper) :
    n.negative = true ↔ n.text.head? = some (Text.byte '-') := by
  rw [text]
  cases n.negative with
  | true => simp
  | false =>
    obtain ⟨b, hb, hdigit⟩ := h.head?_body
    simp only [Bool.false_eq_true, if_false, false_iff, hb]
    rintro ⟨⟩
    exact absurd hdigit (by decide)

/-- A numeral is known by its text. -/
theorem eq_of_text_eq (h : n.Proper) (h' : n'.Proper) (htext : n.text = n'.text) : n = n' := by
  have hnegative : n.negative = n'.negative := by
    rw [Bool.eq_iff_iff, h.negative_iff, h'.negative_iff, htext]
  have hbody : n.body = n'.body := by
    rw [text, text, hnegative] at htext
    split at htext
    · exact (List.cons.inj htext).2
    · exact htext
  have hpoint (rest : Text) : ∀ b ∈ (Text.byte '.' :: rest).head?, Text.isDigit b = false := by
    rintro b ⟨⟩
    decide
  have hwhole : n.whole = n'.whole := by
    have htake := congrArg (List.takeWhile Text.isDigit) hbody
    rwa [body, body, Lexeme.takeWhile_append_of_head h.whole.isDigit (hpoint _),
      Lexeme.takeWhile_append_of_head h'.whole.isDigit (hpoint _)] at htake
  rw [body, body, hwhole] at hbody
  have hrest := (List.cons.inj (List.append_cancel_left hbody)).2
  have hfraction : n.fraction = n'.fraction := by
    have htake := congrArg (List.takeWhile Text.isDigit) hrest
    rwa [Lexeme.takeWhile_append_of_head h.fraction.isDigit n.isDigit_head?_suffix,
      Lexeme.takeWhile_append_of_head h'.fraction.isDigit n'.isDigit_head?_suffix] at htake
  rw [hfraction] at hrest
  have hexponent := suffix_eq_iff.mp (List.append_cancel_left hrest)
  cases n
  cases n'
  simp_all

/-- A numeral is not the word for infinity. -/
theorem Proper.not_mem_body (h : n.Proper) : Text.byte 'I' ∉ n.body := by
  have hdigits {t : Text} (ht : ∀ b ∈ t, Text.isDigit b = true) : Text.byte 'I' ∉ t :=
    fun hmem => absurd (ht _ hmem) (by decide)
  have hsuffix : Text.byte 'I' ∉ n.suffix := by
    unfold suffix
    cases he : n.exponent with
    | none => simp
    | some t =>
      obtain ⟨digits, ht, hd, -⟩ := h.exponent t he
      have hnot := hdigits hd.isDigit
      rcases ht with rfl | rfl <;> simpa using hnot
  simpa [body] using ⟨hdigits h.whole.isDigit, hdigits h.fraction.isDigit, hsuffix⟩

end Numeral

/-! ## Decimals in writing -/

namespace Decimal
variable (d : Decimal)

theorem isDigit_zero : Text.isDigit (Text.byte '0') = true := by decide

theorem isDigits_replicate_append {k : ℕ} {t : Text} (ht : t.IsDigits) :
    Text.IsDigits (List.replicate k (Text.byte '0') ++ t) where
  ne_nil := by simp [ht.ne_nil]
  isDigit := by
    refine List.forall_mem_append.mpr ⟨fun b hb => ?_, ht.isDigit⟩
    rw [List.eq_of_mem_replicate hb]
    exact isDigit_zero

/-- Digits are cut into two parts with some in each. -/
theorem isDigits_cut {t : Text} (ht : t.IsDigits) {k : ℕ} (hk : 0 < k) (hlt : k < t.length) :
    Text.IsDigits (t.take k) ∧ Text.IsDigits (t.drop k) := by
  refine ⟨⟨?_, fun b hb => ht.isDigit b (List.mem_of_mem_take hb)⟩,
    ⟨?_, fun b hb => ht.isDigit b (List.mem_of_mem_drop hb)⟩⟩
  · exact List.ne_nil_of_length_pos (by rw [List.length_take]; omega)
  · exact List.ne_nil_of_length_pos (by rw [List.length_drop]; omega)

/-- Digits around a point denote the decimal. -/
theorem exists_positional :
    ∃ whole fraction : Text, whole.IsDigits ∧ fraction.IsDigits ∧
      d.positional = whole ++ Text.byte '.' :: fraction ∧
      (digitsValue (whole ++ fraction) : ℚ) * 10 ^ (0 - fraction.length : ℤ) = d.value := by
  have hdigits := Text.isDigits_ofNat d.digits
  have hzero : digitsValue [Text.byte '0'] = 0 := by decide
  unfold positional value
  cases d.exponent with
  | ofNat e =>
    refine ⟨Text.ofNat d.digits ++ List.replicate e (Text.byte '0'), [Text.byte '0'],
      hdigits.append fun b hb => ?_, ⟨by simp, by simpa using isDigit_zero⟩, rfl, ?_⟩
    · rw [List.eq_of_mem_replicate hb]
      exact isDigit_zero
    · rw [Number.digitsValue_append, Number.digitsValue_append, Number.digitsValue_ofNat,
        Number.digitsValue_replicate_zero, hzero, List.length_replicate, List.length_singleton,
        Int.ofNat_eq_natCast, zpow_natCast]
      norm_num
      ring
  | negSucc e =>
    -- There are so many zeros in front that a digit is left before the point.
    simp only
    generalize hpadded : List.replicate (e + 1 + 1 - (Text.ofNat d.digits).length) (Text.byte '0') ++
      Text.ofNat d.digits = padded
    have hall : Text.IsDigits padded := hpadded ▸ isDigits_replicate_append hdigits
    have hvalue : digitsValue padded = d.digits := by
      rw [← hpadded, Number.digitsValue_append, Number.digitsValue_replicate_zero,
        Number.digitsValue_ofNat, Nat.zero_mul, Nat.zero_add]
    have hlength : e + 1 < padded.length := by
      rw [← hpadded, List.length_append, List.length_replicate]
      omega
    obtain ⟨hwhole, hfraction⟩ :=
      isDigits_cut hall (k := padded.length - (e + 1)) (by omega) (by omega)
    refine ⟨_, _, hwhole, hfraction, by rw [List.append_assoc]; rfl, ?_⟩
    rw [List.take_append_drop, hvalue, List.length_drop, Int.negSucc_eq]
    congr 2
    omega

/-- One digit before the point, the others behind it, and an exponent denote the decimal. -/
theorem exists_scientific :
    ∃ whole fraction exponent : Text, whole.IsDigits ∧ fraction.IsDigits ∧ exponent.IsInteger ∧
      d.scientific = whole ++ Text.byte '.' :: (fraction ++ Text.byte 'E' :: exponent) ∧
      (digitsValue (whole ++ fraction) : ℚ) *
        10 ^ (exponent.integerValue - fraction.length : ℤ) = d.value := by
  have hdigits := Text.isDigits_ofNat d.digits
  have hpos := Text.length_ofNat_pos d.digits
  have hinteger := Text.isInteger_ofInt (d.exponent + ((Text.ofNat d.digits).length - 1 : ℕ))
  have htext (fraction : Text) : (Text.ofNat d.digits).take 1 ++ Text.ofString "." ++ fraction ++
      Text.ofString "E" ++ Text.ofInt (d.exponent + ((Text.ofNat d.digits).length - 1 : ℕ)) =
      (Text.ofNat d.digits).take 1 ++ Text.byte '.' :: (fraction ++ Text.byte 'E' ::
        Text.ofInt (d.exponent + ((Text.ofNat d.digits).length - 1 : ℕ))) := by
    simp only [List.append_assoc]
    rfl
  unfold scientific value
  by_cases hone : (Text.ofNat d.digits).length ≤ 1
  · have htake : (Text.ofNat d.digits).take 1 = Text.ofNat d.digits := List.take_of_length_le hone
    have hzero : digitsValue [Text.byte '0'] = 0 := by decide
    refine ⟨(Text.ofNat d.digits).take 1, [Text.byte '0'], _, by rwa [htake],
      ⟨by simp, by simpa using isDigit_zero⟩, hinteger, ?_, ?_⟩
    · simp only [if_pos hone]
      exact htext _
    · rw [htake, Number.digitsValue_append, Number.digitsValue_ofNat, hzero, Text.integerValue_ofInt,
        List.length_singleton, show (Text.ofNat d.digits).length - 1 = 0 by omega]
      rw [Nat.cast_one, Nat.cast_zero, Int.add_zero, zpow_sub_one₀ (by norm_num)]
      push_cast
      ring
  · obtain ⟨hwhole, hfraction⟩ := isDigits_cut hdigits one_pos (not_le.mp hone)
    refine ⟨_, _, _, hwhole, hfraction, hinteger, ?_, ?_⟩
    · simp only [if_neg hone]
      exact htext _
    · rw [List.take_append_drop, Number.digitsValue_ofNat, Text.integerValue_ofInt, List.length_drop,
        add_sub_cancel_right]

end Decimal

/-! ## Numbers in writing -/

namespace Number
variable {x y : Number}

/-- Neither infinite nor something that is not a number. -/
def isFinite (x : Number) : Bool := x.magnitude < infinityMagnitude

theorem isFinite_iff : x.isFinite = true ↔ x.magnitude < infinityMagnitude := decide_eq_true_iff

/-- A finite number is written as a numeral that denotes its decimal. -/
theorem exists_numeral (hx : x.isFinite = true) :
    ∃ n : Numeral, n.Proper ∧ n.text = x.text ∧ n.negative = x.negative ∧
      (n.exponent = none ↔ x.isPositional = true) ∧ n.value = (Decimal.ofNumber x).value := by
  have hlt := isFinite_iff.mp hx
  have hnan : x.isNaN = false := by simpa [isNaN] using hlt.le
  have hinf : x.isInfinite = false := by simpa [isInfinite] using hlt.ne
  have htext (body : Text) : (if x.negative then Text.byte '-' :: body else body) =
      (if x.negative then Text.ofString "-" else Text.ofString "") ++ body := by
    cases x.negative <;> rfl
  rw [text, hnan, hinf]
  simp only [Bool.false_eq_true, if_false]
  cases hpositional : x.isPositional with
  | true =>
    obtain ⟨whole, fraction, hwhole, hfraction, hform, hvalue⟩ :=
      (Decimal.ofNumber x).exists_positional
    refine ⟨⟨x.negative, whole, fraction, none⟩, ⟨hwhole, hfraction, by simp⟩, ?_, rfl, by simp,
      hvalue⟩
    simp only [if_true, hform, ← htext, Numeral.text, Numeral.body, Numeral.suffix, Option.elim_none,
      List.append_nil]
  | false =>
    obtain ⟨whole, fraction, exponent, hwhole, hfraction, hexponent, hform, hvalue⟩ :=
      (Decimal.ofNumber x).exists_scientific
    refine ⟨⟨x.negative, whole, fraction, some exponent⟩,
      ⟨hwhole, hfraction, by simpa using hexponent⟩, ?_, rfl, by simp, hvalue⟩
    simp only [Bool.false_eq_true, if_false, hform, ← htext, Numeral.text, Numeral.body,
      Numeral.suffix, Option.elim_some]

theorem abs_value (x : Number) : |x.value| = valueOf x.magnitude := by
  have hnonneg := valueOf_nonneg x.magnitude
  unfold value
  split_ifs
  · rw [abs_neg, abs_of_nonneg hnonneg]
  · exact abs_of_nonneg hnonneg

theorem valueOf_eq_zero_iff {m : ℕ} : valueOf m = 0 ↔ m = 0 := by
  rw [← valueOf_zero, strictMono_valueOf.injective.eq_iff]

/-- A thousandth is rounded up. -/
theorem thousandth_le_iff {m : ℕ} (hm : m ≤ infinityMagnitude) :
    magnitudeOfRatio 1 1000 ≤ m ↔ 1 / 1000 ≤ valueOf m := by
  constructor
  · intro hle
    have hmagnitude : magnitudeOfRatio 1 1000 = 0x3f50624dd2f1a9fc := by decide +kernel
    have hup : (1 : ℚ) / 1000 ≤ valueOf (magnitudeOfRatio 1 1000) := by
      rw [hmagnitude]
      norm_num [valueOf, exponentUnit]
    exact hup.trans (strictMono_valueOf.monotone hle)
  · intro hle
    have hnearest : Nearest ((1 : ℕ) / (1000 : ℕ)) (magnitudeOfRatio 1 1000) :=
      nearest_magnitudeOfRatio (by decide)
    exact hnearest.mono (Nearest.valueOf hm) (by exact_mod_cast hle)

/-- Ten million is a number. -/
theorem lt_ten_million_iff {m : ℕ} :
    m < magnitudeOfRatio 10000000 1 ↔ valueOf m < 10000000 := by
  have hmagnitude : magnitudeOfRatio 10000000 1 = 0x416312d000000000 := by decide +kernel
  have hexact : valueOf (magnitudeOfRatio 10000000 1) = 10000000 := by
    rw [hmagnitude]
    norm_num [valueOf, exponentUnit]
  rw [← strictMono_valueOf.lt_iff_lt, hexact]

/-- Which numbers are written without an exponent. -/
theorem isPositional_iff (hx : x.isFinite = true) :
    x.isPositional = true ↔ x.value = 0 ∨ 1 / 1000 ≤ |x.value| ∧ |x.value| < 10000000 := by
  have hlt := isFinite_iff.mp hx
  rw [← abs_eq_zero, abs_value, valueOf_eq_zero_iff, ← thousandth_le_iff hlt.le,
    ← lt_ten_million_iff]
  simp [isPositional, isZero]

/-! ## Literals -/

/-- The literal of digits around a point. -/
theorem ofLiteral_digits {whole fraction : Text} (hw : whole.IsDigits) (hf : fraction.IsDigits) :
    ofLiteral (whole ++ Text.byte '.' :: fraction) =
      ofRatio (digitsValue (whole ++ fraction)) (10 ^ fraction.length) := by
  have hne {c : UInt8} (hc : Text.isDigit c = false) {t : Text}
      (ht : ∀ b ∈ t, Text.isDigit b = true) : ∀ b ∈ t, (b != c) = true := by
    intro b hb
    refine bne_iff_ne.mpr fun heq => ?_
    have hdigit := ht b hb
    rw [heq, hc] at hdigit
    cases hdigit
  have hplain : (whole ++ Text.byte '.' :: fraction).filter (· != Text.byte '_') =
      whole ++ Text.byte '.' :: fraction := by
    refine List.filter_eq_self.mpr (List.forall_mem_append.mpr ⟨hne (by decide) hw.isDigit, ?_⟩)
    exact List.forall_mem_cons.mpr ⟨by decide, hne (by decide) hf.isDigit⟩
  have hwhole := hne (c := Text.byte '.') (by decide) hw.isDigit
  have hpoint : ∀ b ∈ (Text.byte '.' :: fraction).head?, (b != Text.byte '.') = false := by
    rintro b ⟨⟩
    decide
  rw [ofLiteral, hplain, Lexeme.takeWhile_append_of_head hwhole hpoint,
    Lexeme.dropWhile_append_of_head hwhole hpoint]
  rfl

end Number

/-- A number token of a text at its very start. -/
def Token.ofNumeral (t : Text) : Token := { kind := .number, text := t, pos := {}, index := 0 }

section
variable {t : Text} (ht : Lexeme.IsNumber t)
include ht

/-- What is spelled like a number is one token. -/
theorem Lexed.ofText_of_isNumber :
    ofText t = ⟨[⟨[], .ofNumeral t⟩],
      ⟨[], { kind := .eof, pos := ({} : Position).advance t, index := 1 }⟩⟩ := by
  obtain ⟨b, bs, rfl, hscan⟩ : ∃ b bs, t = b :: bs ∧
      Lexeme.scan b (bs ++ []) = ({ kind := some .number, text := b :: bs }, []) :=
    ht.exists_scan (by simp)
  rw [List.append_nil] at hscan
  rw [ofText, lexemes_cons hscan]
  rfl

/-- What is spelled like a number is read as a single literal. -/
theorem Parser.readSource_of_isNumber (rule : Rule) (hooks : TraceFlags) :
    ((ofText t).readSource rule hooks).1.errors = [] ∧
      ((ofText t).readSource rule hooks).1.program.stmts = [.expr (.literal (.ofNumeral t))] := by
  have hspelled : (Token.ofNumeral t).Spelled := ⟨ht, rfl⟩
  have hsplits : t.Splits [Token.ofNumeral t] := by
    have hone := Text.Splits.nil.token hspelled (Token.endsBefore_nil _)
    rwa [List.append_nil] at hone
  have hformed : Stmt.FormedAll [.expr (.literal (.ofNumeral t))] := by
    simp [Stmt.FormedAll, Stmt.Formed, Expr.Formed, TokenKind.IsLiteral, Token.ofNumeral]
  have hread : ((ofText t).readSource rule).1.errors = [] ∧ _ :=
    readSource_of_splits hformed (by simp [Stmt.SeparatedAll, Stmt.Separated]) hsplits rfl (by simp)
  obtain ⟨herrors, hstmts⟩ := hread
  have hsublist := tokensOf_readSource_sublist rule t
  rw [Lexed.visible, Lexed.ofText_of_isNumber ht] at hsublist
  rw [readSource_heard]
  refine ⟨herrors, ?_⟩
  -- The form of the statement is known, and its token is one of the source.
  generalize ((ofText t).readSource rule).1.program.stmts = ss at hstmts hsublist
  cases ss with
  | nil => simp [Stmt.unplacedAll] at hstmts
  | cons s ss =>
    obtain ⟨hs, hss⟩ := List.cons.inj hstmts
    obtain rfl : ss = [] := by
      cases ss with
      | nil => rfl
      | cons _ _ => simp [Stmt.unplacedAll] at hss
    cases s with
    | expr e =>
      cases e with
      | literal u =>
        have hu : u ∈ [Token.ofNumeral t] := hsublist.subset List.mem_cons_self
        rw [List.mem_singleton.mp hu]
      | _ => simp [Stmt.unplaced, Expr.unplaced] at hs
    | _ => simp [Stmt.unplaced] at hs

end

namespace Number
variable {x y : Number}

/-- A text is a number token and nothing else, and whoever listens, the parser reads it as a literal
that is the number. -/
structure IsReadFrom (x : Number) (t : Text) : Prop where
  lexed : ∃ stop, (Lexed.ofText t).tokens = [.ofNumeral t, stop] ∧ stop.kind = .eof
  faultless : (Lexed.ofText t).faults = []
  parsed : ∀ rule hooks, ((Parser.ofText t).readSource rule hooks).1.errors = [] ∧
    ((Parser.ofText t).readSource rule hooks).1.program.stmts = [.expr (.literal (.ofNumeral t))]
  literal : (Token.ofNumeral t).datum = .number x

/-- A number that is not negative and is written without an exponent is read from what is written. -/
theorem isReadFrom_text (hx : x.isFinite = true) (hnegative : x.negative = false)
    (hpositional : x.isPositional = true) : x.IsReadFrom x.text := by
  obtain ⟨n, hn, htext, hsign, hexponent, hvalue⟩ := exists_numeral hx
  have hform : x.text = n.whole ++ Text.byte '.' :: n.fraction := by
    rw [← htext, Numeral.text, hsign, hnegative, Numeral.body, Numeral.suffix,
      hexponent.mpr hpositional]
    simp
  have hnumerals {t : Text} (ht : t.IsDigits) : Lexeme.IsDigits t := by
    refine ⟨?_, fun b hb => by simp [Lexeme.isNumeral, ht.isDigit b hb]⟩
    obtain ⟨b, bs, rfl⟩ := List.exists_cons_of_ne_nil ht.ne_nil
    exact ht.isDigit b List.mem_cons_self
  have hnumber : Lexeme.IsNumber x.text :=
    .inr ⟨_, _, hform, .inr (hnumerals hn.whole), hnumerals hn.fraction⟩
  have hread : ofLiteral x.text = x := by
    have hnearest := Decimal.nearest_ofNumber (isFinite_iff.mp hx)
    rw [← hvalue, Numeral.value, hexponent.mpr hpositional, Option.elim_none, zero_sub, zpow_neg,
      zpow_natCast, ← div_eq_mul_inv] at hnearest
    have hmagnitude : magnitudeOfRatio (digitsValue (n.whole ++ n.fraction))
        (10 ^ n.fraction.length) = x.magnitude :=
      (magnitudeOfRatio_eq_iff (Nat.pow_pos (by decide))).mpr (by exact_mod_cast hnearest)
    rw [hform, ofLiteral_digits hn.whole hn.fraction, ofRatio, hmagnitude]
    exact hnegative ▸ ofMagnitude_magnitude x
  refine ⟨?_, ?_, fun rule hooks => Parser.readSource_of_isNumber hnumber rule hooks, ?_⟩
  · exact ⟨_, by rw [Lexed.ofText_of_isNumber hnumber]; rfl, rfl⟩
  · rw [Lexed.ofText_of_isNumber hnumber]
    rfl
  · rw [Token.datum]
    exact congrArg Datum.number hread

/-! ## Telling numbers apart -/

theorem magnitude_of_not_finite (hx : x.isNaN = false) (h : x.isFinite = false) :
    x.magnitude = infinityMagnitude := by
  simp only [isNaN, isFinite, decide_eq_false_iff_not, not_lt] at hx h
  exact Nat.le_antisymm hx h

theorem text_of_not_finite (hx : x.isNaN = false) (h : x.isFinite = false) :
    x.text = if x.negative then Text.ofString "-Inf" else Text.ofString "Inf" := by
  have hinfinite : x.isInfinite = true := by simp [isInfinite, magnitude_of_not_finite hx h]
  rw [text, hx, hinfinite]
  cases x.negative <;> rfl

/-- What is infinite is written with a word. -/
theorem mem_text_iff (hx : x.isNaN = false) : Text.byte 'I' ∈ x.text ↔ x.isFinite = false := by
  cases hfinite : x.isFinite with
  | false =>
    rw [text_of_not_finite hx hfinite]
    cases x.negative <;> decide
  | true =>
    obtain ⟨n, hn, htext, -⟩ := exists_numeral hfinite
    have hbody := hn.not_mem_body
    rw [← htext, Numeral.text]
    cases n.negative <;> simpa using hbody

/-- Two numbers are not written alike. -/
theorem eq_of_text_eq (hx : x.isNaN = false) (hy : y.isNaN = false) (h : x.text = y.text) :
    x = y := by
  have hfinite : x.isFinite = y.isFinite := by
    rw [← Bool.not_inj_iff, Bool.eq_iff_iff, Bool.not_eq_true', Bool.not_eq_true', ← mem_text_iff hx,
      ← mem_text_iff hy, h]
  cases hfx : x.isFinite with
  | false =>
    have hfy := hfinite.symm.trans hfx
    rw [text_of_not_finite hx hfx, text_of_not_finite hy hfy] at h
    refine eq_of_magnitude_eq ?_ ?_
    · cases hsx : x.negative <;> cases hsy : y.negative <;> simp_all <;> revert h <;> decide
    · rw [magnitude_of_not_finite hx hfx, magnitude_of_not_finite hy hfy]
  | true =>
    have hfy := hfinite.symm.trans hfx
    obtain ⟨n, hn, htext, hsign, -, hvalue⟩ := exists_numeral hfx
    obtain ⟨n', hn', htext', hsign', -, hvalue'⟩ := exists_numeral hfy
    obtain rfl := Numeral.eq_of_text_eq hn hn' (htext.trans (h.trans htext'.symm))
    have hnearest := Decimal.nearest_ofNumber (isFinite_iff.mp hfx)
    have hnearest' := Decimal.nearest_ofNumber (isFinite_iff.mp hfy)
    rw [← hvalue] at hnearest
    rw [← hvalue'] at hnearest'
    exact eq_of_magnitude_eq (hsign.symm.trans hsign') (hnearest.unique hnearest')

/-- What is written for a number tells the number. A finite number is written as digits around a point,
behind a minus sign if it is negative and before an exponent if its absolute value is not between a
thousandth and ten million, and denotes the shortest decimal that reads back as it. Where no sign and
no exponent is written, the lexer and the parser read it back. -/
theorem text_faithful (x y : Number) :
    (x.isFinite = true →
      ∃ n : Numeral, n.Proper ∧ n.text = x.text ∧ n.negative = x.negative ∧
        (n.exponent = none ↔ x.value = 0 ∨ 1 / 1000 ≤ |x.value| ∧ |x.value| < 10000000) ∧
        n.value = (Decimal.ofNumber x).value ∧ (Decimal.ofNumber x).IsShortest x) ∧
      (x.isFinite = true → x.negative = false →
        x.value = 0 ∨ 1 / 1000 ≤ x.value ∧ x.value < 10000000 → x.IsReadFrom x.text) ∧
      (x.isNaN = false → y.isNaN = false → x.text = y.text → x = y) := by
  refine ⟨fun hx => ?_, fun hx hnegative hrange => ?_, eq_of_text_eq⟩
  · obtain ⟨n, hn, htext, hsign, hexponent, hvalue⟩ := exists_numeral hx
    have hshortest := Decimal.isShortest_ofNumber (isFinite_iff.mp hx)
    exact ⟨n, hn, htext, hsign, hexponent.trans (isPositional_iff hx), hvalue, hshortest⟩
  · have habs : |x.value| = x.value := by
      rw [abs_value, value, hnegative]
      rfl
    refine isReadFrom_text hx hnegative ((isPositional_iff hx).mpr ?_)
    rwa [habs]

example : (⟨0x7e37e43c8800759c⟩ : Number).text = Text.ofString "1.0E300" := by decide +kernel

end Number
end Reckoner
