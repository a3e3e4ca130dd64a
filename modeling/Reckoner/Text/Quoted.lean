import Reckoner.Text.Shown

/-!
# Quoted texts

A quoted text stands between double quotes. Quotes, backslashes and everything that does not
show are written as escapes; all other code points stand for themselves.
-/
namespace Reckoner
namespace Text

/-- The length of the UTF-8 sequence that a byte begins, if it begins one. -/
def sequenceLength? (b : UInt8) : Option Nat :=
  if b < 0x80 then some 1
  else if b < 0xc2 then none
  else if b < 0xe0 then some 2
  else if b < 0xf0 then some 3
  else if b < 0xf5 then some 4
  else none

/-- The code point at the front of a text and the number of its bytes, if they are well-formed. -/
def decodeFront? (t : Text) : Option (Char × Nat) := do
  let b ← t.head?
  let n ← sequenceLength? b
  let part := t.take n
  let lead := if n = 1 then b.toNat else b.toNat % Nat.pow 2 (7 - n)
  let c := Char.ofNat (part.tail.foldl (fun acc b => acc * 64 + b.toNat % 64) lead)
  if String.utf8EncodeChar c = part then some (c, n) else none

/-- Cuts a text into code points; a byte that belongs to none is a part of its own. At most `fuel`
parts are cut. -/
def runesWithin : Nat → Text → List (Option Char × Text)
  | 0, _ => []
  | fuel + 1, t =>
    match t with
    | [] => []
    | b :: bs =>
      match decodeFront? t with
      | some (c, n) => (some c, t.take n) :: runesWithin fuel (t.drop n)
      | none => (none, [b]) :: runesWithin fuel bs

/-- The code points of a text, each with its bytes. -/
def runes (t : Text) : List (Option Char × Text) := runesWithin t.length t

/-- A number in hexadecimal with a given number of digits. -/
def ofHex (digits n : Nat) : Text :=
  let text := (Nat.toDigits 16 n).map byte
  List.replicate (digits - text.length) (byte '0') ++ text

/-- The escapes that have a letter. -/
def escapeLetter? (n : Nat) : Option Char :=
  [(7, 'a'), (8, 'b'), (9, 't'), (10, 'n'), (11, 'v'), (12, 'f'), (13, 'r'), (34, '"'),
    (92, '\\')].lookup n

/-- A code point, or a stray byte, as it is written between quotes. -/
def quoteRune (rune : Option Char × Text) : Text :=
  match rune with
  | (none, bytes) => bytes.flatMap fun b => "\\x" ++ ofHex 2 b.toNat
  | (some c, bytes) =>
    match escapeLetter? c.toNat with
    | some letter => [byte '\\', byte letter]
    | none =>
      if isShown c then bytes
      else if c.toNat < 0x80 then "\\x" ++ ofHex 2 c.toNat
      else if c.toNat < 0x10000 then "\\u" ++ ofHex 4 c.toNat
      else "\\U" ++ ofHex 8 c.toNat

/-- The text between quotes. -/
def quote (t : Text) : Text := "\"" ++ t.runes.flatMap quoteRune ++ "\""

end Text
end Reckoner
