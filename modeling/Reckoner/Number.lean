import Reckoner.Text

/-!
# Numbers

Numbers are IEEE 754 doubles, kept as their 64 bits. The sign is the top bit and the magnitude
the other 63; read as a natural number, the magnitude grows with the absolute value, so that
order and equality need no arithmetic. Magnitudes above that of infinity are not numbers.
-/
namespace Reckoner

/-- A double-precision number. -/
structure Number where
  bits : UInt64
deriving DecidableEq, Repr, Inhabited

namespace Number

/-- The magnitude of infinity: all exponent bits and no other. -/
def infinityMagnitude : Nat := 0x7ff0000000000000

/-- The weight of the sign bit, two to the power of 63. -/
abbrev signUnit : Nat := 0x8000000000000000

/-- The weight of the lowest exponent bit, two to the power of 52. -/
abbrev exponentUnit : Nat := 0x10000000000000

/-- Whether the sign bit is set. -/
def negative (x : Number) : Bool := signUnit ≤ x.bits.toNat

/-- All bits but the sign. -/
def magnitude (x : Number) : Nat := x.bits.toNat % signUnit

/-- The number of a sign and a magnitude. -/
def ofMagnitude (negative : Bool) (magnitude : Nat) : Number :=
  ⟨((if negative then signUnit else 0) + magnitude).toUInt64⟩

def isNaN (x : Number) : Bool := infinityMagnitude < x.magnitude

def isInfinite (x : Number) : Bool := x.magnitude == infinityMagnitude

def isZero (x : Number) : Bool := x.magnitude == 0

/-- The place of a number in the order; both zeros have the same. -/
def rank (x : Number) : Int := if x.negative then -(x.magnitude : Int) else x.magnitude

/-- The order of numbers, in which nothing is below or above what is not a number. -/
def lt (x y : Number) : Bool := !x.isNaN && !y.isNaN && x.rank < y.rank

/-- Numeric equality: the zeros are equal, and what is not a number equals nothing. -/
def eq (x y : Number) : Bool := !x.isNaN && !y.isNaN && x.rank == y.rank

def zero : Number := ⟨0⟩

def one : Number := ⟨0x3ff0000000000000⟩

def half : Number := ⟨0x3fe0000000000000⟩

def nan : Number := ⟨0x7ff8000000000001⟩

/-- The infinity of a given sign. -/
def infinity (negative : Bool) : Number := ofMagnitude negative infinityMagnitude

/-- Flips the sign. -/
def neg (x : Number) : Number := ⟨x.bits ^^^ 0x8000000000000000⟩

/-- Clears the sign. -/
def abs (x : Number) : Number := ofMagnitude false x.magnitude

/-- Applies an operation of the machine. -/
def lift₂ (f : Float → Float → Float) (x y : Number) : Number :=
  ⟨(f (Float.ofBits x.bits) (Float.ofBits y.bits)).toBits⟩

/-- Applies a function of the machine. -/
def lift (f : Float → Float) (x : Number) : Number := ⟨(f (Float.ofBits x.bits)).toBits⟩

def add : Number → Number → Number := lift₂ (· + ·)

def sub : Number → Number → Number := lift₂ (· - ·)

def mul : Number → Number → Number := lift₂ (· * ·)

/-- Division, by zero as well: the quotient is then an infinity or not a number. -/
def div : Number → Number → Number := lift₂ (· / ·)

/-- The significand and the exponent of two of a finite number: its absolute value is
`significand * 2 ^ exponent`. -/
def decompose (x : Number) : Nat × Int :=
  let field : Nat := x.magnitude / exponentUnit
  let fraction : Nat := x.magnitude % exponentUnit
  if field = 0 then (fraction, -1074) else (exponentUnit + fraction, (field : Int) - 1075)

end Number
end Reckoner
