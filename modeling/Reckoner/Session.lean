import Reckoner.Interpreter
import Reckoner.Text.Space

/-!
# Interactive sessions

A session collects lines until they make a complete entry, which is then checked and run. A line
that ends with the continuation mark asks for another one whatever it says, and so does input
that only lacks its end. Input that can no longer become right is reported and forgotten.
-/
namespace Reckoner

/-- The texts that a session shows and looks for. -/
structure SessionOptions where
  prompt : Text := "> "
  /-- The prompt while an entry is being continued. -/
  continuePrompt : Text := "| "
  /-- The end of a line that asks for another one. -/
  continuation : Text := "\\"

/-- Options with empty texts replaced by the default ones. -/
def SessionOptions.orDefault (o : SessionOptions) : SessionOptions :=
  let orElse (t default : Text) : Text := if t.isEmpty then default else t
  let default : SessionOptions := {}
  ⟨orElse o.prompt default.prompt, orElse o.continuePrompt default.continuePrompt,
    orElse o.continuation default.continuation⟩

/-- A session: its interpreter, and the lines of an entry that is not complete. -/
structure Session where
  options : SessionOptions := {}
  interpreter : Interpreter := {}
  buffer : Text := []
  /-- Whether the session logs what it does. -/
  logging : Bool := false

namespace Session

/-- Whether an entry is being continued. -/
def pending (s : Session) : Bool := !s.buffer.isEmpty

/-- The prompt for the next line. -/
def prompt (s : Session) : Text :=
  if s.pending then s.options.continuePrompt else s.options.prompt

def transcript (s : Session) : Transcript := s.interpreter.machine.transcript

/-- Adds an entry to the transcript. -/
def write (origin : Origin) (text : Text) (s : Session) : Session :=
  { s with interpreter := s.interpreter.write origin text }

/-- Writes a message to the log. -/
def log (message : Text) (s : Session) : Session :=
  if s.logging then s.write .log (debugLine message) else s

/-- Whether a program has nothing but blanks and comments. -/
def isBlankProgram (p : Program) : Bool := p.tokens.all fun t => t.hidden || t.kind == .eof

/-- Reads a text as an entry and, if it is complete, runs it. The parser notes only what the session
traces. -/
def enter (text : Text) (s : Session) : Session :=
  let parsed := parseEntry text s.interpreter.machine.tracing.toTraceFlags
  let s := { s with interpreter := s.interpreter.trace parsed.log }
  if parsed.errors.isEmpty then
    let (_, interpreter) := s.interpreter.run parsed.program
    { s with buffer := [], interpreter := interpreter.reset }
  else if SyntaxError.incomplete parsed.errors then
    if isBlankProgram parsed.program then { s with buffer := [] }
    else
      { s with buffer := text }.log
        ("incomplete input, " ++ Text.ofNat parsed.errors.length ++ " syntax errors")
  else
    { s with buffer := [],
             interpreter := s.interpreter.reportAll (parsed.errors.map SyntaxError.text) }

/-- Takes one line, and says whether the session is to end. -/
def feed (line : Text) (s : Session) : Bool × Session :=
  if Text.trimSpace line = Text.ofString "quit" then
    (true, s.write .program (Text.line "Exiting..."))
  else
    let text := s.buffer ++ line.line
    match Text.dropSuffix? s.options.continuation text.trimBlankEnd with
    | some start => (false, { s with buffer := start })
    | none =>
      if Text.trimSpace text = [] then (false, { s with buffer := [] })
      else (false, s.enter text)

/-- What a reader answers to a prompt; after its last answer comes the end of input. -/
inductive Reading where
  | line (text : Text)
  /-- The line being typed was given up. -/
  | aborted
  | failed (message : Text)

/-- Whether prompts are written to the output, and the lines read after them. -/
structure Display where
  prompts : Bool := false
  echo : Bool := false

/-- A session from its start to its end. -/
structure Course where
  /-- The session at each prompt. -/
  prompted : List Session
  /-- The session at its end. -/
  final : Session
  /-- Why reading failed, if it did. -/
  failure : Option Text := none

/-- Writes to the output if prompts are written. -/
def display (d : Display) (text : Text) (s : Session) : Session :=
  if d.prompts then s.write .prompt text else s

/-- Prompts for lines and takes them, until the session is to end or there are no more. -/
def run (d : Display) : List Reading → Session → Course
  | [], s => ⟨[s], (s.display d s.prompt).display d [Text.newline], none⟩
  | r :: rs, s =>
    let shown := s.display d s.prompt
    match r with
    | .aborted => continued s (run d rs { shown with buffer := [] })
    | .failed message => ⟨[s], shown, some ("reading input: " ++ message)⟩
    | .line text =>
      let (quit, next) := (if d.echo then shown.display d text.line else shown).feed text
      if quit then ⟨[s], next, none⟩ else continued s (run d rs next)
where
  /-- Puts a prompt in front of a course. -/
  continued (s : Session) (c : Course) : Course := { c with prompted := s :: c.prompted }

end Session
end Reckoner
