import Reckoner.Checker
import Reckoner.Machine
import Reckoner.Parser

/-!
# The interpreter

A checker and a machine that share a session: what one program declares is known to the next.
Complaints, syntax errors and runtime errors all go to the stream of diagnostics.
-/
namespace Reckoner

/-- Why a program was not run to its end. -/
inductive Failure where
  | syntaxErrors (errors : List SyntaxError)
  /-- The checker has complained. -/
  | invalid
  | fault (fault : Fault)

/-- The message of a failure. -/
def Failure.text : Failure → Text
  | syntaxErrors errors => SyntaxError.texts errors
  | invalid => "program has semantic errors"
  | fault f => f.text

/-- A session's checker and machine. -/
structure Interpreter where
  checker : Checker := {}
  machine : Machine := {}
  /-- Whether diagnostics are shown in red. -/
  color : Bool := false
deriving Inhabited

namespace Interpreter

/-- A line of diagnostics. -/
def diagnosticLine (color : Bool) (message : Text) : Text :=
  (if color then "\x1b[31m" ++ message ++ "\x1b[0m" else message).line

/-- Adds an entry to the transcript. -/
def write (origin : Origin) (text : Text) (i : Interpreter) : Interpreter :=
  { i with machine := { i.machine with transcript := i.machine.transcript ++ [⟨origin, text⟩] } }

/-- Reports a diagnostic. -/
def report (message : Text) (i : Interpreter) : Interpreter :=
  i.write .diagnostic (diagnosticLine i.color message)

/-- Reports several diagnostics. -/
def reportAll (messages : List Text) (i : Interpreter) : Interpreter :=
  messages.foldl (fun i m => i.report m) i

/-- Checks a program and reports the new complaints. -/
def check (p : Program) (i : Interpreter) : Except Defect Bool × Interpreter :=
  let (outcome, checker) := p.check i.checker
  let fresh := checker.diagnostics.drop i.checker.diagnostics.length
  (outcome, { i with checker }.reportAll (fresh.map Diagnostic.text))

/-- Runs a program without checking it. -/
def exec (p : Program) (i : Interpreter) : Except Fault Unit × Interpreter :=
  let (outcome, machine) := p.exec i.machine
  (outcome, { i with machine })

/-- Forgets the complaints of the checker. -/
def reset (i : Interpreter) : Interpreter := { i with checker := i.checker.reset }

/-- Checks a program and, if there are no complaints, runs it. Runtime errors are reported. -/
def run (p : Program) (i : Interpreter) : Except Failure Unit × Interpreter :=
  match i.check p with
  | (.error d, i) => (.error (.fault (.defect d)), i)
  | (.ok false, i) => (.error .invalid, i)
  | (.ok true, i) =>
    match i.exec p with
    | (.ok (), i) => (.ok (), i)
    | (.error (.defect d), i) => (.error (.fault (.defect d)), i)
    | (.error f, i) => (.error (.fault f), i.report f.text)

/-- Writes the trace of a parse. -/
def trace (log : List Step) (i : Interpreter) : Interpreter :=
  i.write .trace (Step.traces i.machine.tracing.toTraceFlags log)

/-- Reads a text as a program and runs it. Nothing is run if there are syntax errors. -/
def runSource (source : Text) (i : Interpreter) : Except Failure Unit × Interpreter :=
  let parsed := parseProgram source i.machine.tracing.toTraceFlags
  let i := i.trace parsed.log
  if parsed.errors.isEmpty then
    let (outcome, i) := i.run parsed.program
    (outcome, i.reset)
  else
    (.error (.syntaxErrors parsed.errors), i.reportAll (parsed.errors.map SyntaxError.text))

end Interpreter
end Reckoner
