import Reckoner.Number

/-!
# Rounding quotients to doubles

`magnitudeOfRatio` gives the double nearest to a quotient of natural numbers, and of two that
are equally near the one whose last bit is zero. Reading decimals and scaling by powers of two
both go through it.
-/
namespace Reckoner
namespace Number

/-- The natural number nearest to a quotient; halfway between two it is the even one. -/
def roundDiv (num den : Nat) : Nat :=
  let quotient := num / den
  let twice := 2 * (num % den)
  if twice < den then quotient
  else if den < twice then quotient + 1
  else if quotient % 2 = 0 then quotient else quotient + 1

/-- The quotient of `num` and `den * 2 ^ exponent`, as numerator and denominator. -/
def scaled (num den : Nat) (exponent : Int) : Nat × Nat :=
  match exponent with
  | .ofNat e => (num, den * Nat.pow 2 e)
  | .negSucc e => (num * Nat.pow 2 (e + 1), den)

/-- The exponent of the last bit of the double nearest to a quotient: a significand has 53 bits,
unless the exponent would pass below its smallest value. -/
def unitExponent (num den : Nat) : Int :=
  let guess := max (-1074) ((num.log2 : Int) - den.log2 - 53)
  let (n, d) := scaled num den guess
  if n / d < 2 * exponentUnit then guess else guess + 1

/-- The magnitude of the double nearest to a quotient. Significand and exponent are added, so that
a significand that rounds up to 54 bits carries into the exponent; what passes the largest
finite double is infinite. -/
def magnitudeOfRatio (num den : Nat) : Nat :=
  if num = 0 then 0
  else
    let exponent := unitExponent num den
    let (n, d) := scaled num den exponent
    min infinityMagnitude ((exponent + 1074).toNat * exponentUnit + roundDiv n d)

/-- The double nearest to a quotient. -/
def ofRatio (num den : Nat) : Number := ofMagnitude false (magnitudeOfRatio num den)

/-- The double nearest to `x * 2 ^ exponent`, rounded once. -/
def scale (x : Number) (exponent : Int) : Number :=
  if x.isNaN || x.isInfinite || x.isZero then x
  else
    let (significand, e) := x.decompose
    let (num, den) := scaled significand 1 (-(e + exponent))
    ofMagnitude x.negative (magnitudeOfRatio num den)

end Number
end Reckoner
