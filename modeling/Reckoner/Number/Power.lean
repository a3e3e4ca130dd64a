import Reckoner.Number.Rounding

/-!
# Powers

A power with a whole exponent is a product of repeated squares. The product is kept as a
significand and a separate exponent of two, and brought together with one rounding at the end,
so that no intermediate square overflows.
-/
namespace Reckoner
namespace Number

/-- The two factors of a finite nonzero number: a significand whose absolute value is at least a
half and below one, and the exponent of two. -/
def normalized (x : Number) : Number × Int :=
  let (significand, exponent) := x.decompose
  let width := significand.log2 + 1
  (ofMagnitude x.negative (magnitudeOfRatio significand (Nat.pow 2 width)), exponent + width)

/-- The whole part of the absolute value of a finite number, and what is left of it. -/
def wholeAndFraction (x : Number) : Nat × Number :=
  let (significand, exponent) := x.decompose
  match exponent with
  | .ofNat e => (significand * Nat.pow 2 e, zero)
  | .negSucc e =>
    let unit := Nat.pow 2 (e + 1)
    (significand / unit, ofRatio (significand % unit) unit)

/-- Whether a number is an odd integer. From two to the power of 53 on every double is even. -/
def isOdd (x : Number) : Bool :=
  let (whole, fraction) := x.wholeAndFraction
  !x.isNaN && !x.isInfinite && whole < 2 * exponentUnit && fraction.isZero && whole % 2 == 1

/-- Multiplies into the product `significand * 2 ^ exponent` the power of a base, itself given as
`base * 2 ^ baseExponent`, by going through the bits of the power from the lowest; a base whose
exponent has left the range of doubles decides the result at once. -/
def powerLoop (fuel : Nat) (power : Nat) (base : Number) (baseExponent : Int)
    (significand : Number) (exponent : Int) : Number × Int :=
  match fuel with
  | 0 => (significand, exponent)
  | fuel + 1 =>
    if power = 0 then (significand, exponent)
    else if baseExponent < -4096 || 4096 < baseExponent then
      (significand, exponent + baseExponent)
    else
      let (significand, exponent) :=
        if power % 2 = 1 then (significand.mul base, exponent + baseExponent)
        else (significand, exponent)
      let square := base.mul base
      if square.lt half then
        powerLoop fuel (power / 2) (square.add square) (2 * baseExponent - 1) significand exponent
      else
        powerLoop fuel (power / 2) square (2 * baseExponent) significand exponent

/-- The power of a finite nonzero base to a finite exponent, given by the whole part and the
fraction of its absolute value and by its sign. Fractions are taken through logarithms, after
replacing one above a half by its distance to the next whole exponent. -/
def powerBySquares (x : Number) (whole : Nat) (fraction : Number) (inverse : Bool) : Number :=
  let (whole, start) :=
    if fraction.isZero then (whole, one)
    else if half.lt fraction then
      (whole + 1, lift Float.exp ((fraction.sub one).mul (lift Float.log x)))
    else (whole, lift Float.exp (fraction.mul (lift Float.log x)))
  let (base, baseExponent) := x.normalized
  let (significand, exponent) := powerLoop 64 whole base baseExponent start 0
  if inverse then (one.div significand).scale (-exponent) else significand.scale exponent

/-- A power of zero. -/
def powerOfZero (x y : Number) : Number :=
  let sign := x.negative && y.isOdd
  if y.negative then infinity sign else if sign then x else zero

/-- The limit of a power whose exponent grows beyond all bounds, upwards or downwards. -/
def powerLimit (x : Number) (downwards : Bool) : Number :=
  if x.eq one.neg then one
  else if x.abs.lt one == !downwards then zero
  else infinity false

/-- Exponentiation. A power to zero and a power of one are one, whatever the other operand. -/
def pow (x y : Number) : Number :=
  if y.isZero || x.eq one then one
  else if y.eq one then x
  else if x.isNaN || y.isNaN then nan
  else if x.isZero then powerOfZero x y
  else if y.isInfinite then powerLimit x y.negative
  else if x.isInfinite then
    if x.negative then powerOfZero zero.neg y.neg
    else if y.negative then zero else infinity false
  else if y.eq half then lift Float.sqrt x
  else if y.eq half.neg then one.div (lift Float.sqrt x)
  else
    let (whole, fraction) := y.wholeAndFraction
    if !fraction.isZero && x.negative then nan
    else if signUnit ≤ whole then powerLimit x y.negative
    else powerBySquares x whole fraction y.negative

end Number
end Reckoner
