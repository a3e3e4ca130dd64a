import Reckoner.CommandLine.Calculator
import Reckoner.CommandLine.Dump

/-!
# The program

Everything that touches the outside: arguments, files and the standard streams. The calculator
runs unless the first argument is `--dump`, which asks for the dump tool and is no option of the
calculator.
-/
namespace Reckoner
namespace CommandLine

/-- What a failure to read a file says about its path. -/
def fileError : IO.Error → FileError
  | .inappropriateType _ code _ => if code = 21 then .isDirectory else .notDirectory
  | .invalidArgument _ _ _ => .nameTooLong
  | _ => .missing

/-- What stands at a path. -/
def readFile (path : Text) : IO (Except FileError Text) := do
  match String.fromUTF8? (ByteArray.mk path.toArray) with
  | none | some "" => return .error .missing
  | some name =>
    match ← (IO.FS.readBinFile name).toBaseIO with
    | .ok bytes => return .ok bytes.toList
    | .error e => return .error (fileError e)

/-- All that is left of a stream, after what has been read of it. -/
partial def readRest (stream : IO.FS.Stream) (done : ByteArray) : IO ByteArray := do
  let bytes ← stream.read 65536
  if bytes.isEmpty then return done
  readRest stream (done ++ bytes)

/-- Writes the two streams of an exit and returns its code. -/
def finish (exit : Exit) : IO UInt32 := do
  (← IO.getStdout).write (ByteArray.mk exit.output.toArray)
  (← IO.getStderr).write (ByteArray.mk exit.errors.toArray)
  return exit.code.toUInt32

/-- Runs the dump tool. -/
def runDump (args : List Text) : IO UInt32 := do
  let plan := Dump.plan args
  finish (Dump.execute plan (← readFile (Dump.needs plan)))

/-- Runs the calculator. The standard input is read only for a session. -/
def runCalculator (args : List Text) : IO UInt32 := do
  let plan := Calculator.plan args
  let (settings, program) := Calculator.needs plan
  let input ← match plan with
    | .run _ _ none => readRest (← IO.getStdin) ByteArray.empty
    | _ => pure ByteArray.empty
  finish (Calculator.execute plan (← readFile settings) (← readFile program) input.toList)

/-- Runs the tool that the arguments ask for. -/
def runTool (args : List String) : IO UInt32 :=
  match args with
  | "--dump" :: rest => runDump (rest.map Text.ofString)
  | args => runCalculator (args.map Text.ofString)

end CommandLine
end Reckoner

/-- The entry point of the program. -/
def main (args : List String) : IO UInt32 := Reckoner.CommandLine.runTool args
