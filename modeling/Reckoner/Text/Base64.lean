import Reckoner.Text

/-!
# Base 64

Four characters stand for three bytes. The last group is filled up with equals signs, and line ends
may stand anywhere.
-/
namespace Reckoner
namespace Text

/-- The value of a character. -/
def sextet? (b : UInt8) : Option Nat :=
  if 65 ≤ b && b ≤ 90 then some (b.toNat - 65)
  else if 97 ≤ b && b ≤ 122 then some (b.toNat - 71)
  else if isDigit b then some (b.toNat + 4)
  else if b = byte '+' then some 62
  else if b = byte '/' then some 63
  else none

/-- The bytes that groups of four characters stand for. Bits that belong to no byte are ignored. -/
def ofSextets? : Text → Option Text
  | [] => some []
  | a :: b :: c :: d :: rest => do
    let high := (← sextet? a) * 64 + (← sextet? b)
    let filler := byte '='
    if rest.isEmpty && d == filler then
      if c = filler then return [(high / 16).toUInt8]
      let value := high * 64 + (← sextet? c)
      return [(value / 1024).toUInt8, (value / 4 % 256).toUInt8]
    else
      let value := (high * 64 + (← sextet? c)) * 64 + (← sextet? d)
      let bytes ← ofSextets? rest
      return (value / 65536).toUInt8 :: (value / 256 % 256).toUInt8 :: (value % 256).toUInt8 :: bytes
  | _ => none

/-- The bytes that a text in base 64 stands for. -/
def ofBase64? (t : Text) : Option Text := ofSextets? (t.filter fun b => b != 10 && b != 13)

end Text
end Reckoner
