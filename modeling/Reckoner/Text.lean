/-!
# Byte strings

Sources, outputs and messages are sequences of bytes. Nothing here assumes that they are
well-formed UTF-8: columns, offsets and comparisons all count bytes. The literals of the
program enter through `Text.ofString`, which is also a coercion.
-/
namespace Reckoner

/-- A byte string. -/
abbrev Text := List UInt8

namespace Text

/-- The UTF-8 bytes of a string. -/
def ofString (s : String) : Text := s.toList.flatMap String.utf8EncodeChar

instance : Coe String Text := ⟨ofString⟩

/-- The byte of an ASCII character. -/
abbrev byte (c : Char) : UInt8 := c.toNat.toUInt8

/-- The line terminator. -/
abbrev newline : UInt8 := 10

/-- The decimal digits of a natural number, without leading zeros. -/
def ofNat (n : Nat) : Text := (Nat.toDigits 10 n).map byte

/-- The decimal digits of an integer, with a minus sign if it is negative. -/
def ofInt : Int → Text
  | .ofNat n => ofNat n
  | .negSucc n => byte '-' :: ofNat (n + 1)

/-- A line of output: the text and its terminator. -/
def line (t : Text) : Text := t ++ [newline]

/-- Puts the separator between consecutive parts. -/
def join (sep : Text) : List Text → Text
  | [] => []
  | [t] => t
  | t :: ts => t ++ sep ++ join sep ts

/-- Cuts at every occurrence of a byte, so that there is one part more than occurrences. -/
def splitOn (sep : UInt8) : Text → List Text
  | [] => [[]]
  | b :: bs =>
    match splitOn sep bs with
    | [] => [[b]]
    | part :: parts => if b = sep then [] :: part :: parts else (b :: part) :: parts

/-- Whether the text occurs inside another one. -/
def occursIn (part : Text) : Text → Bool
  | [] => part.isEmpty
  | b :: bs => part.isPrefixOf (b :: bs) || occursIn part bs

/-- The text without a given ending, or none if it ends otherwise. -/
def dropSuffix? (ending t : Text) : Option Text :=
  if ending.isSuffixOf t then some (t.take (t.length - ending.length)) else none

/-- The text without its longest ending whose bytes all satisfy the test. -/
def trimEndWhile (p : UInt8 → Bool) (t : Text) : Text :=
  (t.reverse.dropWhile p).reverse

/-- The blanks of the expression language: space, tab, line feed and carriage return. -/
def isBlank (b : UInt8) : Bool := b == 32 || b == 9 || b == 10 || b == 13

/-- The text without blanks at its end. -/
def trimBlankEnd (t : Text) : Text := trimEndWhile isBlank t

/-- An ASCII decimal digit. -/
def isDigit (b : UInt8) : Bool := 48 ≤ b && b ≤ 57

/-- An ASCII letter or the underscore. -/
def isLetter (b : UInt8) : Bool := (97 ≤ b && b ≤ 122) || (65 ≤ b && b ≤ 90) || b == 95

/-- Maps the ASCII capital letters to small ones. -/
def lowerByte (b : UInt8) : UInt8 := if 65 ≤ b && b ≤ 90 then b + 32 else b

/-- Shows line feeds, carriage returns and tabs by their escapes. -/
def showControls (t : Text) : Text :=
  t.flatMap fun b =>
    if b = 10 then "\\n" else if b = 13 then "\\r" else if b = 9 then "\\t" else [b]

/-- The byte as a code point, in UTF-8. -/
def ofLatin (b : UInt8) : Text := String.utf8EncodeChar (Char.ofNat b.toNat)

end Text
end Reckoner
