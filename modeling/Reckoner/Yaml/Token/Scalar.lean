import Reckoner.Yaml.Token.Cursor

/-!
# Scalars

A scalar is plain, in quotes, or a block of lines. Plain and quoted scalars may go on over several
lines, which are then folded: one line break becomes a space, and each further one stays. A block
keeps its lines, or folds those that begin with no blank.
-/
namespace Reckoner
namespace Yaml

/-- Folds the line breaks between two words: the first one and all others. -/
def fold (first more : List Char) : List Char :=
  if first = ['\n'] then (if more.isEmpty then [' '] else more) else first ++ more

/-- What stands between two words of a scalar. -/
inductive Gap where
  /-- Blanks of one line. -/
  | blanks (run : List Char)
  /-- The line breaks of several lines. -/
  | lines (first more : List Char)

namespace Gap

/-- What a gap contributes to the value of a scalar. -/
def text : Gap → List Char
  | blanks run => run
  | lines first more => fold first more

def hasLines : Gap → Bool
  | blanks _ => false
  | lines _ _ => true

/-- A gap that goes on with more blanks; those at the beginning of a line do not count. -/
def addBlanks (run : List Char) : Gap → Gap
  | blanks before => blanks (before ++ run)
  | lines first more => lines first more

/-- A gap that goes on with a line break. -/
def addBreak (lineBreak : List Char) : Gap → Gap
  | blanks _ => lines lineBreak []
  | lines first more => lines first (more ++ lineBreak)

end Gap

namespace Scan

/-- Reads the rest of a gap, in at most `fuel` steps. In the indentation of a plain scalar, which
begins at a given place, a tab is refused. -/
def gapWithin (plain : Option (Mark × Int)) : Nat → Gap → Scan Gap
  | 0, gap => return gap
  | fuel + 1, gap => do
    let c ← current
    if isBlank c then
      let before ← mark
      let run := (← get).rest.takeWhile isBlank
      let spaces := (run.takeWhile (· == ' ')).length
      match plain with
      | some (start, indent) =>
        if gap.hasLines ∧ spaces < run.length ∧ ((before.column + spaces : Nat) : Int) < indent then
          fail start .tabIndentation
      | none => pure ()
      let _ ← takeWhile isBlank
      gapWithin plain fuel (gap.addBlanks run)
    else if isBreak c then
      let lineBreak ← takeBreak
      need 1
      gapWithin plain fuel (gap.addBreak lineBreak)
    else return gap

/-! ## Plain scalars -/

/-- Whether a plain scalar ends before a character, given the one after it. -/
def endsPlain (inFlow : Bool) (c next : Char) : Bool :=
  isGap c || (c == ':' && isGap next) || (inFlow && [',', '?', '[', ']', '\x7b', '\x7d'].contains c)

/-- The first word of a plain scalar. -/
def plainWord (inFlow : Bool) : List Char → List Char
  | [] => []
  | c :: cs => if endsPlain inFlow c (cs.headD finish) then [] else c :: plainWord inFlow cs

/-- Reads the rest of a plain scalar, whose lines are indented at least by `indent` outside
brackets, after what is known of its value and the gap after that, in at most `fuel` steps: the
value, and whether line breaks follow it. The value is kept from its end to its beginning. -/
def plainWithin (inFlow : Bool) (indent : Int) (start : Mark) :
    Nat → Gap → List Char → Scan (List Char × Bool)
  | 0, gap, value => return (value, gap.hasLines)
  | fuel + 1, gap, value => do
    need 4
    if (← atDocumentMark) || (← current) == '#' then return (value, gap.hasLines)
    let word := plainWord inFlow (← get).rest
    skip word.length
    if !word.isEmpty then need 2
    let value := if word.isEmpty then value else (gap.text ++ word).reverseAux value
    let gap := if word.isEmpty then gap else .blanks []
    let c ← current
    if !(isBlank c || isBreak c) then return (value, gap.hasLines)
    let gap ← gapWithin (some (start, indent)) (← bound) gap
    if !inFlow && ((← mark).column : Int) < indent then return (value, gap.hasLines)
    plainWithin inFlow indent start fuel gap value

/-- Reads a plain scalar. -/
def plainScalar (inFlow : Bool) (indent : Int) : Scan (Text × Bool) := do
  let (value, broken) ← plainWithin inFlow indent (← mark) (← bound) (.blanks []) []
  return (encode value.reverse, broken)

/-! ## Quoted scalars -/

/-- The escapes that stand for one character. -/
def escapes : List (Char × Char) :=
  [('0', '\x00'), ('a', '\x07'), ('b', '\x08'), ('t', '\t'), ('\t', '\t'), ('n', '\n'),
    ('v', '\x0b'), ('f', '\x0c'), ('r', '\r'), ('e', '\x1b'), (' ', ' '), ('"', '"'),
    ('\'', '\''), ('\\', '\\'), ('N', '\u0085'), ('_', '\u00a0'), ('L', '\u2028'), ('P', '\u2029')]

/-- The escapes that stand before a code point, with the number of its hexadecimal digits. -/
def pointEscapes : List (Char × Nat) := [('x', 2), ('u', 4), ('U', 8)]

/-- Reads an escape of a scalar that begins at a given place. -/
def escape (start : Mark) : Scan Char := do
  let letter ← peek 1
  match escapes.lookup letter, pointEscapes.lookup letter with
  | some c, _ =>
    skip 2
    return c
  | none, none => fail start .unknownEscape
  | none, some width =>
    skip 2
    need width
    match ((← get).rest.take width).mapM hexDigit? with
    | none => fail start .hexDigit
    | some digits =>
      if digits.length < width then fail start .hexDigit
      else
        let value := digits.foldl (fun acc d => 16 * acc + d) 0
        if (0xd800 ≤ value ∧ value ≤ 0xdfff) ∨ 0x10ffff < value then fail start .escapedPoint
        else
          skip width
          return Char.ofNat value

/-- Reads a word of a quoted scalar after what is known of the value, in at most `fuel` steps: the
value, and whether it ends with a line break that is escaped. The value is kept from its end to its
beginning. -/
def quotedWord (quote : Char) (start : Mark) : Nat → List Char → Scan (List Char × Bool)
  | 0, value => return (value, false)
  | fuel + 1, value => do
    let c ← current
    let next ← peek 1
    if isGap c then return (value, false)
    else if quote = '\'' ∧ c = quote ∧ next = quote then
      skip 2
      need 2
      quotedWord quote start fuel (quote :: value)
    else if c = quote then return (value, false)
    else if quote = '"' ∧ c = '\\' then
      if isBreak next then
        need 3
        skip 1
        let _ ← takeBreak
        return (value, true)
      else
        let c ← escape start
        need 2
        quotedWord quote start fuel (c :: value)
    else
      skip 1
      need 2
      quotedWord quote start fuel (c :: value)

/-- Reads the rest of a quoted scalar after what is known of its value, in at most `fuel` steps. The
value is kept from its end to its beginning. -/
def quotedWithin (quote : Char) (start : Mark) : Nat → List Char → Scan (List Char)
  | 0, value => return value
  | fuel + 1, value => do
    need 4
    if ← atDocumentMark then fail start .documentMark
    if (← current) = finish then fail start .endOfStream
    let (value, joined) ← quotedWord quote start (← bound) value
    need 1
    if (← current) = quote then
      skip 1
      return value
    let gap ← gapWithin none (← bound) (if joined then .lines [] [] else .blanks [])
    quotedWithin quote start fuel (gap.text.reverseAux value)

/-- Reads a scalar between quotes. -/
def quotedScalar (quote : Char) : Scan Text := do
  let start ← mark
  skip 1
  return encode (← quotedWithin quote start (← bound) []).reverse

/-! ## Blocks -/

/-- How the line breaks at the end of a block are kept. -/
inductive Chomping where
  | strip | clip | keep
deriving DecidableEq, Repr

/-- Reads how the end of a block is kept, if that is said. -/
def chomping? : Scan (Option Chomping) := do
  let c ← current
  if c = '+' ∨ c = '-' then
    skip 1
    need 1
    return some (if c = '+' then .keep else .strip)
  else return none

/-- Reads how far a block is indented, if that is said. -/
def increment? (start : Mark) : Scan (Option Nat) := do
  let c ← current
  if c = '0' then fail start .blockIndentation
  else if c.isDigit then
    skip 1
    need 1
    return some (c.toNat - 48)
  else return none

/-- Reads the header of a block: its two marks come in any order. -/
def blockHeader (start : Mark) : Scan (Chomping × Option Nat) := do
  match ← chomping? with
  | some chomping => return (chomping, ← increment? start)
  | none =>
    match ← increment? start with
    | none => return (.clip, none)
    | some n => return ((← chomping?).getD .clip, some n)

/-- Reads the rest of a line that holds nothing but a comment, and its end. -/
def restOfLine (start : Mark) : Scan Unit := do
  let _ ← takeWhile isBlank
  if (← current) = '#' then skipComment
  if !endsLine (← current) then fail start .lineEnd
  if isBreak (← current) then
    let _ ← takeBreak
    need 1

/-- Reads the indentation of a block and its empty lines up to a line that is not empty: the line
breaks, and the largest column reached. An indentation that is not known yet goes on as far as
there are spaces. -/
def blockBreaks (start : Mark) (indent : Option Nat) :
    Nat → List Char → Nat → Scan (List Char × Nat)
  | 0, breaks, widest => return (breaks, widest)
  | fuel + 1, breaks, widest => do
    need 1
    let c ← get
    let spaces := (c.rest.takeWhile (· == ' ')).length
    skip (match indent with
      | none => spaces
      | some n => min spaces (n - c.mark.column))
    need 1
    let column := (← mark).column
    let inside : Bool := match indent with
      | none => true
      | some n => column < n
    if inside && (← current) == '\t' then fail start .blockTab
    let widest := max widest column
    if !isBreak (← current) then return (breaks, widest)
    let lineBreak ← takeBreak
    blockBreaks start indent fuel (breaks ++ lineBreak) widest

/-- What has been read of a block. -/
structure Block where
  /-- The value up to the last line, from its end to its beginning. -/
  value : List Char := []
  /-- The end of the last line. -/
  first : List Char := []
  /-- The line breaks after that. -/
  more : List Char := []
  /-- Whether the last line begins with a blank. -/
  blank : Bool := false

/-- Goes on with a line and the line breaks after it. Lines that begin with a blank are not
folded. -/
def Block.add (b : Block) (literal : Bool) (line first more : List Char) : Block :=
  let blank := isBlank (line.headD finish)
  let between :=
    if !literal && !b.blank && !blank && b.first == ['\n'] then
      (if b.more.isEmpty then [' '] else b.more)
    else b.first ++ b.more
  { value := (between ++ line).reverseAux b.value, first, more, blank }

/-- The value of a block. -/
def Block.text (b : Block) (chomping : Chomping) : List Char :=
  b.value.reverse ++ match chomping with
    | .strip => []
    | .clip => b.first
    | .keep => b.first ++ b.more

/-- Reads the lines of a block, which all begin in one column. -/
def blockLines (literal : Bool) (start : Mark) (indent : Nat) : Nat → Block → Scan Block
  | 0, b => return b
  | fuel + 1, b => do
    if (← mark).column ≠ indent ∨ (← current) = finish then return b
    let line ← takeWhile fun c => !endsLine c
    let first ← takeBreak
    let (more, _) ← blockBreaks start (some indent) (← bound) [] 0
    blockLines literal start indent fuel (b.add literal line first more)

/-- Reads a block inside another one that is indented by `indent`, which is -1 if there is none. -/
def blockScalar (literal : Bool) (indent : Int) : Scan Text := do
  let start ← mark
  skip 1
  need 1
  let (chomping, increment) ← blockHeader start
  restOfLine start
  let given := increment.map fun n => if 0 ≤ indent then indent.toNat + n else n
  let (more, widest) ← blockBreaks start given (← bound) [] 0
  let column := given.getD (max widest (max (indent + 1).toNat 1))
  let b ← blockLines literal start column (← bound) { more }
  return encode (b.text chomping)

end Scan
end Yaml
end Reckoner
