import Reckoner.Yaml.Token.Property

/-!
# Finding tokens

A key need not be marked as such: only the colon after it tells that it was one. The lexer therefore
remembers, for every level of brackets, the last token that may have begun a key, and puts the
tokens that mark it in front of that token when the colon comes. Such a key stays on its line and
is at most 1024 characters long.

Tokens wait in a queue until no more can be put before them. At least three are always read ahead,
so that a problem may show before the tokens in front of it have been used.
-/
namespace Reckoner
namespace Yaml

/-- A token that may have begun a key. -/
structure Candidate where
  /-- Whether a colon may still come. -/
  possible : Bool := false
  /-- Whether a colon has to come. -/
  required : Bool := false
  /-- The number of the token. -/
  number : Nat := 0
  mark : Mark := {}
deriving Inhabited

/-- The state of a lexer. -/
structure Lexer where
  cursor : Cursor
  started : Bool := false
  /-- The column of the innermost block; -1 outside all blocks. -/
  indent : Int := -1
  /-- The columns of the blocks around it. -/
  indents : List Int := []
  /-- Whether a key may begin here. -/
  keyAllowed : Bool := false
  /-- The number of brackets that are open. -/
  level : Nat := 0
  /-- The candidates, one for each level of brackets and one outside of all, the innermost first. -/
  candidates : List Candidate := []
  /-- The numbers of the tokens that may turn out to be keys, each with the level of its
  candidate. -/
  watched : List (Nat × Nat) := []
  /-- The tokens that have been found and not been taken. -/
  queue : List Token := []
  /-- How many tokens have been taken. -/
  taken : Nat := 0

/-- A step of a lexer. -/
abbrev Lex := StateT Lexer (Except Malformed)

namespace Lexer

def ofSource (s : Source) : Lexer := { cursor := .ofSource s }

/-- Whether a bracket is open. -/
def inFlow (l : Lexer) : Bool := 0 < l.level

/-- The number of the next token. -/
def nextNumber (l : Lexer) : Nat := l.taken + l.queue.length

end Lexer

namespace Lex

/-- Reads characters. -/
def scan {α : Type} (reader : Scan α) : Lex α := do
  let l ← get
  let (a, cursor) ← reader.run l.cursor
  set { l with cursor }
  return a

/-- Fails because of a construct that begins at a given place. -/
def fail {α : Type} (context : Mark) (problem : LexicalProblem) : Lex α :=
  scan (Scan.fail context problem)

/-- Adds a token to the queue. -/
def push (t : Token) : Lex Unit := modify fun l => { l with queue := l.queue ++ [t] }

/-- Puts a token in front of the one with a given number, or at the end if that has been taken. -/
def insert (number : Nat) (t : Token) : Lex Unit := modify fun l =>
  if number < l.taken then { l with queue := l.queue ++ [t] }
  else
    let place := number - l.taken
    { l with queue := l.queue.take place ++ t :: l.queue.drop place }

/-- Says whether a key may begin at the next token. -/
def allowKey (on : Bool) : Lex Unit := modify fun l => { l with keyAllowed := on }

/-! ## Candidates for keys -/

/-- Changes the candidate of the innermost level. -/
def setCandidate (c : Candidate) : Lex Unit := modify fun l =>
  { l with candidates := c :: l.candidates.drop 1 }

/-- Stops watching a token. -/
def unwatch (number : Nat) : Lex Unit := modify fun l =>
  { l with watched := l.watched.filter (·.1 != number) }

/-- Drops the candidate of the innermost level; one that needs a colon is a failure. -/
def dropCandidate : Lex Unit := do
  let c := (← get).candidates.headD {}
  if c.possible then
    if c.required then fail c.mark .missingColon
    setCandidate { c with possible := false }
    unwatch c.number

/-- Makes the next token a candidate, if a key may begin here. In the column of a block it has to
be one. -/
def saveCandidate : Lex Unit := do
  let l ← get
  if l.keyAllowed then
    let mark := l.cursor.mark
    let c : Candidate :=
      { possible := true, required := !l.inFlow && l.indent == mark.column, number := l.nextNumber,
        mark }
    dropCandidate
    setCandidate c
    modify fun l => { l with watched := (c.number, l.level) :: l.watched.filter (·.1 != c.number) }

/-- Whether the candidate of a level may still be a key; if not, it is given up. -/
def isValid (level : Nat) : Lex Bool := do
  let l ← get
  let place := l.level - level
  match if l.level < level then none else l.candidates[place]? with
  | none => return false
  | some c =>
    if !c.possible then return false
    else if c.mark.line < l.cursor.mark.line ∨ c.mark.index + 1024 < l.cursor.mark.index then
      if c.required then fail c.mark .missingColon
      set { l with candidates := l.candidates.set place { c with possible := false } }
      return false
    else return true

/-! ## Levels -/

/-- Opens a bracket. -/
def openLevel : Lex Unit := do
  let l ← get
  let mark := l.cursor.mark
  set { l with
    level := l.level + 1
    candidates := { number := l.nextNumber, mark } :: l.candidates }
  if maxDepth < l.level + 1 then fail mark .depth

/-- Closes a bracket, if one is open. -/
def closeLevel : Lex Unit := do
  let l ← get
  if l.inFlow then
    unwatch (l.candidates.headD {}).number
    modify fun l => { l with level := l.level - 1, candidates := l.candidates.drop 1 }

/-- Begins a block in a column, if the block around it begins further left; its token is put in
front of the one with a given number, or at the end. -/
def openBlock (column : Nat) (number : Option Nat) (sign : Sign) (mark : Mark) : Lex Unit := do
  let l ← get
  if !l.inFlow && l.indent < column then
    set { l with indents := l.indent :: l.indents, indent := column }
    if maxDepth < l.indents.length + 1 then fail (l.candidates.headD {}).mark .depth
    match number with
    | some number => insert number ⟨sign, mark⟩
    | none => push ⟨sign, mark⟩

/-- Ends the blocks that begin right of a column. -/
def closeBlocks (column : Int) (mark : Mark) : Lex Unit := modify fun l =>
  if l.inFlow then l
  else
    let columns := l.indent :: l.indents
    let closed := columns.takeWhile (column < ·)
    let kept := columns.drop closed.length
    { l with
      queue := l.queue ++ closed.map fun _ => ⟨.blockEnd, mark⟩
      indent := kept.headD (-1)
      indents := kept.drop 1 }

/-! ## Between tokens -/

/-- Passes over a comment and the comments on the lines after it, as long as there are no more than
511 characters between them. -/
def skipComments : Nat → Scan Unit
  | 0 => return
  | fuel + 1 => do
    Scan.skipComment
    let c ← get
    match c.rest with
    | first :: rest =>
      let between := rest.takeWhile fun c => isBlank c || c == '\n' || c == '\r'
      if (first = '\n' ∨ first = '\r') ∧ between.length + 1 < 512
          ∧ rest[between.length]? = some '#' then
        skipLines (between.length + 1) (between.length + 1)
        skipComments fuel
    | [] => return
where
  /-- Passes over so many characters, which are blanks and line breaks, in at most `fuel` steps. -/
  skipLines : Nat → Nat → Scan Unit
    | 0, _ => return
    | fuel + 1, n => do
      if n = 0 then return
      if isBlank (← Scan.current) then
        Scan.skip 1
        skipLines fuel (n - 1)
      else
        let before := (← get).mark.index
        let _ ← Scan.takeBreak
        skipLines fuel (n - ((← get).mark.index - before))

/-- Passes over blanks, comments and line breaks, in at most `fuel` lines. Tabs count as blanks where
no key may begin. -/
def toNextToken : Nat → Lex Unit
  | 0 => return
  | fuel + 1 => do
    scan (Scan.need 1)
    let l ← get
    let tabs := l.inFlow || !l.keyAllowed
    let _ ← scan (Scan.takeWhile fun c => c == ' ' || (tabs && c == '\t'))
    if (← scan Scan.current) = '#' then scan (do skipComments (← Scan.bound))
    if isBreak (← scan Scan.current) then
      let _ ← scan Scan.takeBreak
      if !l.inFlow then allowKey true
      toNextToken fuel

/-- Passes over a comment that stands on the line of the token just found. -/
def skipLineComment : Scan Unit := do
  let c ← get
  let blanks := (c.rest.takeWhile isBlank).length
  if !c.fresh ∧ blanks < 512 ∧ c.rest[blanks]? = some '#' then Scan.skipComment

/-! ## Tokens -/

/-- Reads a token of so many characters. -/
def pushMark (sign : Sign) (width : Nat) : Lex Unit := do
  let start ← scan Scan.mark
  scan (Scan.skip width)
  push ⟨sign, start⟩

/-- Reads a token whose sign is found by reading it. -/
def pushRead (reader : Scan Sign) : Lex Unit := do
  let start ← scan Scan.mark
  let sign ← scan reader
  push ⟨sign, start⟩

/-- The end of the document: a last line that is not ended is ended here. -/
def readStreamEnd : Lex Unit := do
  modify fun l =>
    let mark := l.cursor.mark
    if mark.column = 0 then l
    else { l with cursor := { l.cursor with
      mark := { mark with line := mark.line + 1, column := 0 } } }
  let mark ← scan Scan.mark
  closeBlocks (-1) mark
  dropCandidate
  allowKey false
  push ⟨.streamEnd, mark⟩

/-- Reads a token that stands between documents. -/
def readBetween (reader : Lex Unit) : Lex Unit := do
  closeBlocks (-1) (← scan Scan.mark)
  dropCandidate
  allowKey false
  reader

def readOpening (sign : Sign) : Lex Unit := do
  saveCandidate
  openLevel
  allowKey true
  pushMark sign 1

def readClosing (sign : Sign) : Lex Unit := do
  dropCandidate
  closeLevel
  allowKey false
  pushMark sign 1

def readFlowEntry : Lex Unit := do
  dropCandidate
  allowKey true
  pushMark .flowEntry 1

/-- Begins a block at a mark that stands on its own; it may only stand where a key may begin. -/
def openAtMark (sign : Sign) (problem : LexicalProblem) : Lex Unit := do
  let l ← get
  if !l.inFlow then
    let mark := l.cursor.mark
    if !l.keyAllowed then fail mark problem
    openBlock mark.column none sign mark

def readBlockEntry : Lex Unit := do
  openAtMark .blockSequenceStart .entryContext
  dropCandidate
  allowKey true
  pushMark .blockEntry 1

def readKey : Lex Unit := do
  openAtMark .blockMappingStart .keyContext
  dropCandidate
  allowKey (!(← get).inFlow)
  pushMark .key 1

/-- Reads the colon after a key. If the candidate is the key, it is marked as such only now. -/
def readValue : Lex Unit := do
  let valid ← isValid (← get).level
  let c := (← get).candidates.headD {}
  if valid then
    insert c.number ⟨.key, c.mark⟩
    openBlock c.mark.column (some c.number) .blockMappingStart c.mark
    setCandidate { c with possible := false }
    unwatch c.number
    allowKey false
  else
    openAtMark .blockMappingStart .valueContext
    allowKey (!(← get).inFlow)
  pushMark .value 1

/-- Reads a token that may begin a key. -/
def readNodePart (reader : Scan Sign) : Lex Unit := do
  saveCandidate
  allowKey false
  pushRead reader

def readBlockScalar (literal : Bool) : Lex Unit := do
  dropCandidate
  allowKey true
  let indent := (← get).indent
  pushRead (return .scalar (← Scan.blockScalar literal indent) false)

/-- Reads a plain scalar. A key may begin after it if it ends with its line. -/
def readPlain : Lex Unit := do
  saveCandidate
  allowKey false
  let l ← get
  let start ← scan Scan.mark
  let (value, broken) ← scan (Scan.plainScalar l.inFlow (l.indent + 1))
  push ⟨.scalar value true, start⟩
  if broken then allowKey true

/-- The characters that begin no plain scalar, or only before certain others. -/
def indicators : List Char :=
  ['-', '?', ':', ',', '[', ']', '\x7b', '\x7d', '#', '&', '*', '!', '|', '>', '\'', '"', '%', '@',
    '\x60']

/-- Whether a plain scalar begins with a character before another one. -/
def beginsPlain (inFlow : Bool) (c next : Char) : Bool :=
  !(isGap c || indicators.contains c) || (c == '-' && !isBlank next)
    || (!inFlow && (c == '?' || c == ':') && !isGap next)

/-- Reads the token that begins with a character before another one. -/
def readToken (inFlow : Bool) (c next : Char) : Lex Unit := do
  if c = '[' then readOpening .flowSequenceStart
  else if c = '\x7b' then readOpening .flowMappingStart
  else if c = ']' then readClosing .flowSequenceEnd
  else if c = '\x7d' then readClosing .flowMappingEnd
  else if c = ',' then readFlowEntry
  else if c = '-' ∧ isGap next then readBlockEntry
  else if c = '?' ∧ (inFlow ∨ isGap next) then readKey
  else if c = ':' ∧ (inFlow ∨ isGap next) then readValue
  else if c = '*' then readNodePart (return .reference (← Scan.anchorName))
  else if c = '&' then readNodePart (return .anchor (← Scan.anchorName))
  else if c = '!' then readNodePart (do
    let (handle, suffix) ← Scan.tagName
    return .tag handle suffix)
  else if (c = '|' ∨ c = '>') ∧ !inFlow then readBlockScalar (c == '|')
  else if c = '\'' ∨ c = '"' then readNodePart (return .scalar (← Scan.quotedScalar c) false)
  else if beginsPlain inFlow c next then readPlain
  else fail (← scan Scan.mark) .startOfToken

/-- Finds one more token, and those that go before it. -/
def advance : Lex Unit := do
  scan (Scan.need 1)
  if !(← get).started then
    modify fun l => { l with started := true, keyAllowed := true, candidates := [{}] }
    push ⟨.streamStart, ← scan Scan.mark⟩
  else
    let before ← scan Scan.mark
    toNextToken (← scan Scan.bound)
    closeBlocks (← scan Scan.mark).column before
    scan (Scan.need 4)
    let c ← scan Scan.current
    let atMargin := (← scan Scan.mark).column == 0
    if c = finish then readStreamEnd
    else if atMargin && c == '%' then readBetween (pushRead Scan.directive)
    else if ← scan (Scan.atTriple '-') then readBetween (pushMark .documentStart 3)
    else if ← scan (Scan.atTriple '.') then readBetween (pushMark .documentEnd 3)
    else
      readToken (← get).inFlow c (← scan (Scan.peek 1))
      if (← get).queue.getLast?.map Token.sign ≠ some .blockEntry then scan skipLineComment

/-- Finds tokens until nothing can be put before the first one, in at most `fuel` steps. -/
def fill : Nat → Lex Unit
  | 0 => return
  | fuel + 1 => do
    let l ← get
    let waiting ← match l.watched.lookup l.taken with
      | some level => if l.queue.length < 3 then pure true else isValid level
      | none => pure (l.queue.length < 3)
    if waiting then
      advance
      fill fuel

/-- The next token. -/
def peek : Lex Token := do
  fill ((← scan Scan.bound) + 4)
  return (← get).queue.headD default

/-- Takes the next token. -/
def take : Lex Unit := modify fun l => { l with queue := l.queue.drop 1, taken := l.taken + 1 }

end Lex
end Yaml
end Reckoner
