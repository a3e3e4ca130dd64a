import Reckoner.Text

/-!
# The characters of a document

A document is written in UTF-8, or in UTF-16 if it begins with a byte order mark that says so. Its
bytes are decoded block by block, and a block with a fault in it yields no characters at all: the
fault shows as soon as a character of that block, or a later one, is asked for.
-/
namespace Reckoner
namespace Yaml

/-- How bytes stand for characters. -/
inductive Encoding where
  | utf8
  | utf16 (bigEndian : Bool)
deriving DecidableEq, Repr

/-- Why some bytes stand for no character. -/
inductive EncodingFault where
  | leadingOctet | trailingOctet | incompleteSequence | sequenceLength | notCharacter
  | incompleteUnit | unexpectedLow | incompletePair | expectedLow
  /-- A character that no document may contain. -/
  | control
deriving DecidableEq, Repr

def EncodingFault.message : EncodingFault → String
  | leadingOctet => "invalid leading UTF-8 octet"
  | trailingOctet => "invalid trailing UTF-8 octet"
  | incompleteSequence => "incomplete UTF-8 octet sequence"
  | sequenceLength => "invalid length of a UTF-8 sequence"
  | notCharacter => "invalid Unicode character"
  | incompleteUnit => "incomplete UTF-16 character"
  | unexpectedLow => "unexpected low surrogate area"
  | incompletePair => "incomplete UTF-16 surrogate pair"
  | expectedLow => "expected low surrogate area"
  | control => "control characters are not allowed"

/-- What some bytes begin with. -/
inductive Front where
  /-- A code point, and the number of its bytes. -/
  | point (value width : Nat)
  /-- The beginning of a code point, which is a fault if nothing follows. -/
  | cut (fault : EncodingFault)
  | bad (fault : EncodingFault)

/-- Whether a code point may stand in a document. -/
def isAllowed (n : Nat) : Bool :=
  n == 0x09 || n == 0x0a || n == 0x0d || (0x20 ≤ n && n ≤ 0x7e) || n == 0x85
    || (0xa0 ≤ n && n ≤ 0xd7ff) || (0xe000 ≤ n && n ≤ 0xfffd && n != 0xfeff)
    || (0x10000 ≤ n && n ≤ 0x10ffff)

/-- The length of the UTF-8 sequence that an octet begins, by its highest bits. -/
def sequenceWidth? (b : UInt8) : Option Nat :=
  if b < 0x80 then some 1
  else if b < 0xc0 then none
  else if b < 0xe0 then some 2
  else if b < 0xf0 then some 3
  else if b < 0xf8 then some 4
  else none

/-- The least code point that needs a UTF-8 sequence of a given length. -/
def leastOfWidth : Nat → Nat
  | 2 => 0x80
  | 3 => 0x800
  | 4 => 0x10000
  | _ => 0

/-- What some bytes begin with in UTF-8, the first of which is given apart. -/
def utf8Front (b : UInt8) (bytes : Text) : Front :=
  match sequenceWidth? b with
  | none => .bad .leadingOctet
  | some width =>
    let tail := bytes.take (width - 1)
    if tail.length < width - 1 then .cut .incompleteSequence
    else if tail.any fun t => t < 0x80 || 0xc0 ≤ t then .bad .trailingOctet
    else
      let lead := if width = 1 then b.toNat else b.toNat % Nat.pow 2 (7 - width)
      let value := tail.foldl (fun acc t => 64 * acc + t.toNat % 64) lead
      if value < leastOfWidth width then .bad .sequenceLength
      else if (0xd800 ≤ value ∧ value ≤ 0xdfff) ∨ 0x10ffff < value then .bad .notCharacter
      else .point value width

/-- The units of UTF-16 that some bytes consist of; an odd byte at the end is left out. -/
def units (bigEndian : Bool) : Text → List Nat
  | a :: b :: rest =>
    (if bigEndian then 256 * a.toNat + b.toNat else a.toNat + 256 * b.toNat)
      :: units bigEndian rest
  | _ => []

/-- What some bytes begin with in UTF-16. -/
def utf16Front (bigEndian : Bool) (bytes : Text) : Front :=
  match units bigEndian (bytes.take 4) with
  | [] => .cut .incompleteUnit
  | first :: rest =>
    if 0xdc00 ≤ first ∧ first ≤ 0xdfff then .bad .unexpectedLow
    else if first < 0xd800 ∨ 0xdfff < first then .point first 2
    else
      match rest with
      | [] => .cut .incompletePair
      | second :: _ =>
        if second < 0xdc00 ∨ 0xdfff < second then .bad .expectedLow
        else .point (0x10000 + 1024 * (first % 1024) + second % 1024) 4

/-- Decodes a block of bytes: its characters, and the beginning of a character at its end unless
nothing follows the block. At most `fuel` characters are decoded. -/
def decodeBlock (encoding : Encoding) (isLast : Bool) :
    Nat → Text → Except EncodingFault (List Char × Text)
  | 0, bytes => .ok ([], bytes)
  | _, [] => .ok ([], [])
  | fuel + 1, b :: bytes =>
    let front := match encoding with
      | .utf8 => utf8Front b bytes
      | .utf16 bigEndian => utf16Front bigEndian (b :: bytes)
    match front with
    | .bad fault => .error fault
    | .cut fault => if isLast then .error fault else .ok ([], b :: bytes)
    | .point value width =>
      if !isAllowed value then .error .control
      else do
        let (chars, rest) ← decodeBlock encoding isLast fuel (bytes.drop (width - 1))
        return (Char.ofNat value :: chars, rest)

/-- The characters of a document as far as they are known, and what is wrong with the bytes after
them, if anything is. -/
structure Source where
  chars : List Char
  fault : Option EncodingFault := none

namespace Source

/-- The number of bytes that are decoded together. -/
def blockSize : Nat := 512

/-- Decodes bytes block by block, the first of which has a given size. What is left of one block is
put before the next; after the last bytes, what is left over is a fault. -/
def decodeWithin (encoding : Encoding) : Nat → Nat → Text → Text → Source
  | 0, _, _, _ => { chars := [] }
  | fuel + 1, size, left, bytes =>
    let block := left ++ bytes.take size
    match decodeBlock encoding bytes.isEmpty block.length block with
    | .error fault => { chars := [], fault }
    | .ok (chars, left) =>
      if bytes.isEmpty then { chars }
      else
        let next := decodeWithin encoding fuel (blockSize - left.length) left (bytes.drop size)
        { next with chars := chars ++ next.chars }

/-- The encoding that the first bytes of a document tell, and how many of them do nothing else. -/
def encodingOf : Text → Encoding × Nat
  | 0xff :: 0xfe :: _ => (.utf16 false, 2)
  | 0xfe :: 0xff :: _ => (.utf16 true, 2)
  | 0xef :: 0xbb :: 0xbf :: _ => (.utf8, 3)
  | _ => (.utf8, 0)

/-- The characters of a document. -/
def ofText (t : Text) : Source :=
  let (encoding, mark) := encodingOf t
  decodeWithin encoding (t.length + 1) (blockSize - mark) [] (t.drop mark)

end Source
end Yaml
end Reckoner
