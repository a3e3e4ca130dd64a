import Reckoner.Yaml.Token.Scalar

/-!
# Anchors, tags and directives

A node may have an anchor, by which it can be repeated, and a tag, which says what it is to be
taken for. Before a document, directives name its version and give meanings to handles of tags.
-/
namespace Reckoner
namespace Yaml
namespace Scan

/-- Reads the name of an anchor after its mark. -/
def anchorName : Scan Text := do
  let start ← mark
  skip 1
  need 1
  let name ← takeWhile isWordChar
  let c ← current
  if name.isEmpty || !(isGap c || ['?', ':', ',', ']', '\x7d', '%', '@', '\x60'].contains c) then
    fail start .anchorName
  return encode name

/-- Reads an octet written by two hexadecimal digits after a percent sign. -/
def uriOctet (start : Mark) : Scan UInt8 := do
  need 3
  match (← current) == '%', hexDigit? (← peek 1), hexDigit? (← peek 2) with
  | true, some high, some low =>
    skip 3
    need 1
    return (16 * high + low).toUInt8
  | _, _, _ => fail start .uriOctet

/-- Reads so many octets that go on with a character. -/
def uriTail (start : Mark) : Nat → Scan Text
  | 0 => return []
  | n + 1 => do
    let octet ← uriOctet start
    if octet < 0x80 ∨ 0xc0 ≤ octet then fail start .uriTrailing
    return octet :: (← uriTail start n)

/-- Reads a character written by the octets of its UTF-8 sequence. -/
def uriEscape (start : Mark) : Scan Text := do
  let octet ← uriOctet start
  match sequenceWidth? octet with
  | none => fail start .uriLeading
  | some width => return octet :: (← uriTail start (width - 1))

/-- A character of a tag, other than the percent sign. -/
def isUriChar (c : Char) : Bool :=
  isWordChar c || [';', '/', '?', ':', '@', '&', '=', '+', '$', ',', '.', '!', '~', '*', '\'', '(',
    ')', '[', ']'].contains c

/-- Reads as much of a tag as there is, in at most `fuel` steps. -/
def uriWithin (start : Mark) : Nat → Scan Text
  | 0 => return []
  | fuel + 1 => do
    let c ← current
    if c = '%' then
      let octets ← uriEscape start
      return octets ++ (← uriWithin start fuel)
    else if isUriChar c then
      let run ← takeWhile isUriChar
      return encode run ++ (← uriWithin start fuel)
    else return []

/-- Reads a tag, which must not be empty. -/
def uri (start : Mark) : Scan Text := do
  let t ← uriWithin start (← bound)
  if t.isEmpty then fail start .tagUri
  return t

/-- Reads a handle: a word between exclamation marks, the last of which may be missing. -/
def tagHandle (start : Mark) : Scan (List Char) := do
  if (← current) ≠ '!' then fail start .tagMark
  skip 1
  need 1
  let word ← takeWhile isWordChar
  if (← current) = '!' then
    skip 1
    need 1
    return '!' :: word ++ ['!']
  else return '!' :: word

/-- Reads a tag: its handle, which is empty if the tag is given in full, and the rest. -/
def tagName : Scan (Text × Text) := do
  let start ← mark
  need 2
  let (handle, suffix) ← do
    if (← peek 1) = '<' then
      skip 2
      need 1
      let suffix ← uri start
      if (← current) ≠ '>' then fail start .tagClose
      skip 1
      pure (([], suffix) : Text × Text)
    else
      let handle ← tagHandle start
      if 1 < handle.length ∧ handle.getLast? = some '!' then
        let suffix ← uri start
        pure (encode handle, suffix)
      else
        let more ← uriWithin start (← bound)
        let suffix := encode handle.tail ++ more
        pure (if suffix.isEmpty then ([], encode handle) else (encode ['!'], suffix))
  need 1
  if !isGap (← current) then fail start .tagSpaceOrBreak
  return (handle, suffix)

/-- Reads a number of a version, which has one or two digits. -/
def versionNumber (start : Mark) : Scan Nat := do
  let digits := (← get).rest.takeWhile Char.isDigit
  if 2 < digits.length then
    skip 2
    fail start .versionLength
  skip digits.length
  need 1
  if digits.isEmpty then fail start .versionNumber
  return digits.foldl (fun n c => 10 * n + (c.toNat - 48)) 0

/-- Reads the version that a document asks for. -/
def version (start : Mark) : Scan Sign := do
  let _ ← takeWhile isBlank
  let major ← versionNumber start
  if (← current) ≠ '.' then fail start .versionDot
  skip 1
  need 1
  return .version major (← versionNumber start)

/-- Reads a handle and what it stands for. -/
def handleMeaning (start : Mark) : Scan Sign := do
  let _ ← takeWhile isBlank
  let handle ← tagHandle start
  if 1 < handle.length ∧ handle.getLast? ≠ some '!' then fail start .tagMark
  if !isBlank (← current) then fail start .tagSpace
  let _ ← takeWhile isBlank
  let meaning ← uri start
  if !isGap (← current) then fail start .tagSpaceOrBreak
  return .handle (encode handle) meaning

/-- Reads a directive. -/
def directive : Scan Sign := do
  let start ← mark
  skip 1
  need 1
  let name ← takeWhile isWordChar
  if name.isEmpty then fail start .directiveName
  if !isGap (← current) then fail start .directiveCharacter
  let sign ←
    if name = "YAML".toList then version start
    else if name = "TAG".toList then handleMeaning start
    else fail start .unknownDirective
  restOfLine start
  return sign

end Scan
end Yaml
end Reckoner
