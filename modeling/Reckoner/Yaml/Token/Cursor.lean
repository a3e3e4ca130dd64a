import Reckoner.Yaml.Token

/-!
# Reading characters

A cursor stands before a character of a document and knows its place. Reading may fail because of
what is found, or because the bytes that come next stand for no characters.
-/
namespace Reckoner
namespace Yaml

/-- What stands after the last character; it stands nowhere inside a document. -/
abbrev finish : Char := '\x00'

/-- A blank inside a line. -/
def isBlank (c : Char) : Bool := c == ' ' || c == '\t'

/-- A character that ends a line. -/
def isBreak (c : Char) : Bool :=
  c == '\n' || c == '\r' || c == '\u0085' || c == '\u2028' || c == '\u2029'

/-- Whether a line ends before a character. -/
def endsLine (c : Char) : Bool := isBreak c || c == finish

/-- Whether a word ends before a character. -/
def isGap (c : Char) : Bool := isBlank c || endsLine c

/-- A character of the names of anchors, handles and directives. -/
def isWordChar (c : Char) : Bool := c.isAlphanum || c == '_' || c == '-'

/-- The value of a hexadecimal digit. -/
def hexDigit? (c : Char) : Option Nat :=
  if c.isDigit then some (c.toNat - 48)
  else if 'a' ≤ c && c ≤ 'f' then some (c.toNat - 87)
  else if 'A' ≤ c && c ≤ 'F' then some (c.toNat - 55)
  else none

/-- The UTF-8 bytes of some characters. -/
def encode (cs : List Char) : Text := cs.flatMap String.utf8EncodeChar

/-- A place in a document with what comes after it. -/
structure Cursor where
  rest : List Char
  /-- What is wrong with the bytes after the rest. -/
  fault : Option EncodingFault
  /-- The number of characters of the document. -/
  size : Nat
  mark : Mark := {}
  /-- Whether only blanks have been read since the last line break that was read. -/
  fresh : Bool := false

/-- The beginning of a document. -/
def Cursor.ofSource (s : Source) : Cursor :=
  { rest := s.chars, fault := s.fault, size := s.chars.length }

/-- A reader of characters. -/
abbrev Scan := StateT Cursor (Except Malformed)

namespace Scan

/-- Makes sure that so many characters, or the end of the document, are known. -/
def need (n : Nat) : Scan Unit := do
  let c ← get
  match c.fault with
  | some fault => if c.rest.length < n then throw (.encoding fault)
  | none => return

/-- The character that so many others come before. -/
def peek (n : Nat) : Scan Char := return (← get).rest[n]?.getD finish

/-- The next character. -/
def current : Scan Char := peek 0

def mark : Scan Mark := return (← get).mark

/-- Fails because of a construct that begins at a given place. -/
def fail {α : Type} (context : Mark) (problem : LexicalProblem) : Scan α := do
  throw (.lexical context.line (← mark).line problem)

/-- Passes over so many characters of a line. -/
def skip (n : Nat) : Scan Unit := modify fun c =>
  { c with
    rest := c.rest.drop n
    mark := { c.mark with index := c.mark.index + n, column := c.mark.column + n }
    fresh := c.fresh && (c.rest.take n).all isBlank }

/-- Reads characters of a line as long as they satisfy a test. -/
def takeWhile (p : Char → Bool) : Scan (List Char) := do
  let run := (← get).rest.takeWhile p
  skip run.length
  need 1
  return run

/-- Reads a line break, if there is one. The separators of Unicode are kept, and all others become
a line feed. -/
def takeBreak : Scan (List Char) := do
  need 2
  let c ← current
  let width := if c = '\r' ∧ (← peek 1) = '\n' then 2 else if isBreak c then 1 else 0
  modify fun s => { s with
    rest := s.rest.drop width
    mark := if width = 0 then s.mark
      else { index := s.mark.index + width, line := s.mark.line + 1, column := 0 }
    fresh := true }
  return if width = 0 then [] else if c = '\u2028' ∨ c = '\u2029' then [c] else ['\n']

/-- Passes over a comment to the end of its line. -/
def skipComment : Scan Unit := do
  let _ ← takeWhile fun c => !endsLine c

/-- Whether a line begins here with three of one character before a gap. -/
def atTriple (c : Char) : Scan Bool := do
  let s ← get
  return s.mark.column == 0 && s.rest.take 3 == [c, c, c] && isGap (s.rest[3]?.getD finish)

/-- Whether a mark that separates documents stands here. -/
def atDocumentMark : Scan Bool := return (← atTriple '-') || (← atTriple '.')

/-- A bound for the number of steps of a loop that reads a character in each. -/
def bound : Scan Nat := return (← get).size + 1

end Scan
end Yaml
end Reckoner
