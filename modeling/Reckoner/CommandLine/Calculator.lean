import Reckoner.CommandLine.Options
import Reckoner.Session.Lines
import Reckoner.Settings

/-!
# The calculator

Runs a program from a file, or a session on the standard input. What the arguments ask for is
planned first, so that it is known which files are needed.
-/
namespace Reckoner
namespace CommandLine
namespace Calculator

def tool : Text := "littlecalc"

def usage : Text :=
  Text.ofString ("usage: littlecalc [-d] [-c config.yaml] [-f file | file]\n\n"
    ++ "  -c FILE  read settings from FILE (YAML)\n"
    ++ "  -d       print debug messages\n"
    ++ "  -f FILE  run FILE instead of starting the REPL\n"
    ++ "  -h       show this help\n")

/-- What the arguments ask for. -/
inductive Plan where
  /-- Nothing is left to do. -/
  | done (exit : Exit)
  /-- Run a program if a path is given, and a session otherwise. -/
  | run (settingsPath : Text) (debug : Bool) (program : Option Text)

/-- The value of the last option with a letter. -/
def lastValue (flags : List Flag) (letter : Char) : Text :=
  match (flags.filter (·.letter == Text.ofString letter.toString)).getLast? with
  | some f => f.value
  | none => []

/-- Whether an option with a letter was given. -/
def given (flags : List Flag) (letter : Char) : Bool :=
  flags.any (·.letter == Text.ofString letter.toString)

/-- What some arguments ask for. -/
def plan (args : List Text) : Plan :=
  match readOptions [⟨'c', true⟩, ⟨'d', false⟩, ⟨'f', true⟩, ⟨'h', false⟩] args with
  | .error e => .done (complaint tool (e.text tool))
  | .ok (flags, rest) =>
    if given flags 'h' then .done { output := usage }
    else
      let file := lastValue flags 'f'
      let (file, rest) := if file = [] then (rest.headD [], rest.tail) else (file, rest)
      if !rest.isEmpty then .done { errors := usage, code := 2 }
      else .run (lastValue flags 'c') (given flags 'd') (if file = [] then none else some file)

/-- The streams of a transcript; the log goes where the diagnostics go. -/
def exitOf (t : Transcript) (code : Nat) : Exit :=
  { output := t.output, errors := t.select [.diagnostic, .log], code }

/-- Runs a program. -/
def runProgram (machine : Machine) (debug : Bool) (path source : Text) : Exit :=
  let i : Interpreter := { machine }
  let i := if debug then
      i.write .log (debugLine ("running " ++ path ++ " (" ++ Text.ofNat source.length ++ " bytes)"))
    else i
  match i.runSource source with
  | (.ok (), i) => exitOf i.machine.transcript 0
  | (.error _, i) => exitOf i.machine.transcript 1

/-- Runs a session on some input, with prompts and echo. -/
def runSession (machine : Machine) (debug : Bool) (settings : Settings) (input : Text) : Exit :=
  let start : Session := { options := settings.sessionOptions, interpreter := { machine },
                           logging := debug }
  let course := start.run ⟨true, true⟩ (Session.readings input)
  match course.failure with
  | none => exitOf course.final.transcript 0
  | some message =>
    let exit := exitOf course.final.transcript 1
    { exit with errors := exit.errors ++ (complaint tool message).errors }

/-- Carries out a plan, given what stands at the paths of the settings and of the program. Nothing is
shown in color, since the streams are no terminals. -/
def execute (p : Plan) (settingsFile programFile : Except FileError Text) (input : Text) : Exit :=
  match p with
  | .done exit => exit
  | .run settingsPath debug program =>
    match Settings.load settingsPath settingsFile with
    | .error e => complaint tool e.text
    | .ok settings =>
      let debug := debug || settings.debug
      let machine : Machine := { tracing := { settings.tracing with debug } }
      match program, programFile with
      | none, _ => runSession machine debug settings input
      | some path, .error e => complaint tool (e.text path)
      | some path, .ok source => runProgram machine debug path source

/-- The paths that a plan needs: that of the settings and that of the program. Those that it does not
need are empty. -/
def needs : Plan → Text × Text
  | .done _ => ([], [])
  | .run settingsPath _ program => (settingsPath, program.getD [])

end Calculator
end CommandLine
end Reckoner
