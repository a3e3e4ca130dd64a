import Reckoner.Number.Rounding

/-!
# Numbers in decimal

A number is written with the fewest decimal digits that read back as the same number, and of
those with the ones nearest to it. Magnitudes from a thousandth to ten million are written
positionally, all others with an exponent; a point always stands between two digits.
-/
namespace Reckoner

/-- The decimal `digits * 10 ^ exponent`. -/
structure Decimal where
  digits : Nat
  exponent : Int
deriving DecidableEq, Repr, Inhabited

namespace Decimal

/-- A decimal as a quotient. -/
def ratio (d : Decimal) : Nat × Nat :=
  match d.exponent with
  | .ofNat e => (d.digits * Nat.pow 10 e, 1)
  | .negSucc e => (d.digits, Nat.pow 10 (e + 1))

/-- The magnitude that a decimal is read as. -/
def magnitude (d : Decimal) : Nat :=
  let (num, den) := d.ratio
  Number.magnitudeOfRatio num den

/-- Moves trailing zeros into the exponent; a number has fewer of them than bits. -/
def trimWithin : Nat → Decimal → Decimal
  | 0, d => d
  | fuel + 1, d =>
    if d.digits = 0 ∨ d.digits % 10 ≠ 0 then d
    else trimWithin fuel ⟨d.digits / 10, d.exponent + 1⟩

/-- The same decimal without trailing zeros in its digits. -/
def trim (d : Decimal) : Decimal := trimWithin (d.digits.log2 + 1) d

/-- Digits around a point, with at least one on either side. -/
def positional (d : Decimal) : Text :=
  let digits := Text.ofNat d.digits
  match d.exponent with
  | .ofNat e => digits ++ List.replicate e (Text.byte '0') ++ ".0"
  | .negSucc e =>
    let places := e + 1
    let padded := List.replicate (places + 1 - digits.length) (Text.byte '0') ++ digits
    padded.take (padded.length - places) ++ "." ++ padded.drop (padded.length - places)

/-- One digit, a point, the other digits or a zero, and the exponent of ten. -/
def scientific (d : Decimal) : Text :=
  let digits := Text.ofNat d.digits
  let fraction := if digits.length ≤ 1 then Text.ofString "0" else digits.drop 1
  digits.take 1 ++ "." ++ fraction ++ "E" ++ Text.ofInt (d.exponent + (digits.length - 1 : Nat))

/-- The number of digits before the point of a positive quotient; for a quotient below one tenth,
minus the number of zeros after the point. -/
def pointOf (num den : Nat) : Int :=
  if den ≤ num then (Text.ofNat (num / den)).length
  else 1 - ((Text.ofNat ((num + den - 1) / num - 1)).length : Int)

/-- The decimals of a given number of digits just below and just above a positive quotient, and
whether the lower one is the nearer: halfway between them, the one with an even last digit is. -/
def neighbours (num den : Nat) (point : Int) (digits : Nat) : Decimal × Decimal × Bool :=
  let exponent := point - digits
  let (n, d) := match exponent with
    | .ofNat e => (num, den * Nat.pow 10 e)
    | .negSucc e => (num * Nat.pow 10 (e + 1), den)
  let below := n / d
  let twice := 2 * (n % d)
  (⟨below, exponent⟩, ⟨below + 1, exponent⟩,
    decide (twice < d) || (decide (twice = d) && below % 2 == 0))

/-- The nearest decimal of at least `digits` digits, and of as few as possible, that reads back as
the magnitude of a positive quotient; `more` bounds how many further digits are tried. -/
def shortestFrom (num den : Nat) (point : Int) (magnitude : Nat) : Nat → Nat → Decimal
  | digits, more =>
    let (lower, upper, lowerNearer) := neighbours num den point digits
    let reads (d : Decimal) : Bool := d.magnitude == magnitude
    match reads lower, reads upper with
    | true, true => if lowerNearer then lower else upper
    | true, false => lower
    | false, true => upper
    | false, false =>
      match more with
      | 0 => lower
      | more + 1 => shortestFrom num den point magnitude (digits + 1) more

/-- The shortest decimal that reads back as the absolute value of a finite number; seventeen
digits always do. -/
def ofNumber (x : Number) : Decimal :=
  if x.isZero then ⟨0, 0⟩
  else
    let (significand, exponent) := x.decompose
    let (num, den) := Number.scaled significand 1 (-exponent)
    (shortestFrom num den (pointOf num den) x.magnitude 1 16).trim

end Decimal

namespace Number

/-- Whether a finite number is written without an exponent: zero, and the absolute values from a
thousandth up to, and without, ten million. -/
def isPositional (x : Number) : Bool :=
  x.isZero ||
    (magnitudeOfRatio 1 1000 ≤ x.magnitude && x.magnitude < magnitudeOfRatio 10000000 1)

/-- The written form of a number. -/
def text (x : Number) : Text :=
  if x.isNaN then "NaN"
  else
    let sign : Text := if x.negative then "-" else ""
    if x.isInfinite then sign ++ "Inf"
    else
      let decimal := Decimal.ofNumber x
      sign ++ (if x.isPositional then decimal.positional else decimal.scientific)

/-- The value of a run of digits. -/
def digitsValue (t : Text) : Nat := t.foldl (fun n b => 10 * n + (b.toNat - 48)) 0

/-- The number that a numeric token stands for: underscores are left out, and the digits before
and after the point are rounded to the nearest double. -/
def ofLiteral (t : Text) : Number :=
  let plain := t.filter (· != Text.byte '_')
  let whole := plain.takeWhile (· != Text.byte '.')
  let fraction := (plain.dropWhile (· != Text.byte '.')).drop 1
  ofRatio (digitsValue (whole ++ fraction)) (Nat.pow 10 fraction.length)

end Number
end Reckoner
