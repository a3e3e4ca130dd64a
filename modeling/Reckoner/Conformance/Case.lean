import Reckoner.Conformance.Pattern
import Reckoner.Session.Lines

/-!
# Conformance cases

A case gives the input of a session, or of a program that is run as a whole, and says what is to
be printed. Each case runs in a session of its own.
-/
namespace Reckoner
namespace Conformance

/-- Whether a case is to be left out. -/
inductive Skip where
  | absent
  | flag (on : Bool)
  | reason (text : Text)
  /-- A value without meaning here. -/
  | other

/-- What a case has to print. -/
structure Expectation where
  /-- The whole output. -/
  output : Option Text := none
  /-- All diagnostics. -/
  errors : Option Text := none
  /-- Parts of the output. -/
  contains : List Text := []
  /-- Parts of the diagnostics. -/
  reports : List Text := []
  /-- A pattern for the output, unless empty. -/
  pattern : Text := []
  /-- Whether a program run as a whole fails. -/
  fails : Bool := false

/-- A case: its input is typed line by line, or run as a whole if its mode says so. -/
structure Case where
  name : Text := []
  skip : Skip := .absent
  mode : Text := []
  input : Text := []
  expect : Expectation := {}

/-- A case with the file and the suite that it comes from. -/
structure Located where
  file : Text := []
  suite : Text := []
  test : Case := {}

/-- Why a case did not pass. -/
inductive Discrepancy where
  | session (message : Text)
  | mode (mode : Text)
  | output (actual wanted : Text)
  | errors (actual wanted : Text)
  | missing (actual wanted : Text)
  | missingReport (actual wanted : Text)
  | badPattern (pattern : Text) (error : PatternError)
  | noMatch (actual pattern : Text)
  | ending (failure : Option Failure) (wanted : Bool)

def Discrepancy.text : Discrepancy → Text
  | session message => "session: " ++ message
  | mode m => "unknown mode " ++ m.quote
  | output actual wanted => "stdout = " ++ actual.quote ++ ", want " ++ wanted.quote
  | errors actual wanted => "stderr = " ++ actual.quote ++ ", want " ++ wanted.quote
  | missing actual wanted => "stdout " ++ actual.quote ++ " does not contain " ++ wanted.quote
  | missingReport actual wanted =>
    "stderr " ++ actual.quote ++ " does not contain " ++ wanted.quote
  | badPattern pattern error => "bad match pattern " ++ pattern.quote ++ ": " ++ error.text
  | noMatch actual pattern => "stdout " ++ actual.quote ++ " does not match " ++ pattern.quote
  | ending failure wanted =>
    let shown : Text := match failure with
      | none => "<nil>"
      | some f => f.text
    "run error = " ++ shown ++ ", want failure " ++ (if wanted then "true" else "false")

/-- The outcome of a case. -/
structure Result where
  located : Located
  passed : Bool := false
  skipped : Option Text := none
  discrepancy : Option Discrepancy := none
  output : Text := []
  errors : Text := []

/-- The reason why a case is left out, if it is. -/
def Case.skipped? (c : Case) : Option Text :=
  match c.skip with
  | .flag true => some "skipped"
  | .reason text => some text
  | .flag false | .absent | .other => none

namespace Expectation

/-- Whether nothing is expected. -/
def isEmpty (e : Expectation) : Bool :=
  e.output.isNone && e.errors.isNone && e.contains.isEmpty && e.reports.isEmpty
    && e.pattern.isEmpty && !e.fails

/-- The first respect in which what was printed is not as expected. -/
def discrepancy? (e : Expectation) (output errors : Text) (failure : Option Failure) :
    Option Discrepancy :=
  let differs (actual : Text) : Option Text → Option Text
    | some wanted => if actual = wanted then none else some wanted
    | none => none
  let absent (parts : List Text) (whole : Text) : Option Text :=
    parts.find? fun part => !Text.occursIn part whole
  let unmatched : Option Discrepancy :=
    if e.pattern = [] then none
    else
      match Pattern.ofText e.pattern with
      | .error err => some (.badPattern e.pattern err)
      | .ok p => if p.occursIn output then none else some (.noMatch output e.pattern)
  let unended : Option Discrepancy :=
    if e.fails = failure.isSome then none else some (.ending failure e.fails)
  ((differs output e.output).map (.output output))
    <|> ((differs errors e.errors).map (.errors errors))
    <|> ((absent e.contains output).map (.missing output))
    <|> ((absent e.reports errors).map (.missingReport errors))
    <|> unmatched <|> unended

end Expectation

/-- The outcome of a case from what it has printed. -/
def Located.judge (l : Located) (t : Transcript) (failure : Option Failure) : Result :=
  let discrepancy := l.test.expect.discrepancy? t.output t.diagnostics failure
  { located := l, passed := discrepancy.isNone, discrepancy, output := t.output,
    errors := t.diagnostics }

/-- Runs a case. With echo, prompts and input lines are part of the output of a session. -/
def Located.run (echo : Bool) (l : Located) : Result :=
  match l.test.skipped? with
  | some reason => { located := l, skipped := some reason }
  | none =>
    if l.test.mode = [] ∨ l.test.mode = Text.ofString "repl" then
      let course := Session.run ⟨echo, echo⟩ (Session.readings l.test.input) {}
      match course.failure with
      | some message => { located := l, discrepancy := some (.session message) }
      | none => l.judge course.final.transcript none
    else if l.test.mode = Text.ofString "file" then
      match Interpreter.runSource l.test.input {} with
      | (.ok (), i) => l.judge i.machine.transcript none
      | (.error f, i) => l.judge i.machine.transcript (some f)
    else { located := l, discrepancy := some (.mode l.test.mode) }

/-- How many cases passed, failed and were left out. -/
def summary (results : List Result) : Text :=
  let skipped := (results.filter (·.skipped.isSome)).length
  let passed := (results.filter fun r => r.skipped.isNone && r.passed).length
  let failed := (results.filter fun r => r.skipped.isNone && !r.passed).length
  Text.ofNat passed ++ " passed, " ++ Text.ofNat failed ++ " failed, " ++ Text.ofNat skipped
    ++ " skipped (" ++ Text.ofNat results.length ++ " total)"

end Conformance
end Reckoner
