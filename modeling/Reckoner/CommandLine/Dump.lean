import Reckoner.CommandLine.Options
import Reckoner.Files
import Reckoner.Parser
import Reckoner.Tree

/-!
# The dump tool

Prints the tree of a program, or its tokens.
-/
namespace Reckoner
namespace CommandLine
namespace Dump

def tool : Text := "lcdump"

def usage : Text := "usage: lcdump [-t] file"

/-- What the arguments ask for. -/
inductive Plan where
  /-- Nothing is left to do. -/
  | done (exit : Exit)
  /-- Show the program at a path, by its tokens or by its tree. -/
  | dump (tokens : Bool) (path : Text)

/-- What some arguments ask for. -/
def plan (args : List Text) : Plan :=
  match readOptions [⟨'t', false⟩, ⟨'h', false⟩] args with
  | .error e => .done (complaint tool (e.text tool))
  | .ok (flags, rest) =>
    if flags.any (·.letter == Text.ofString "h") then .done { output := usage.line }
    else
      match rest with
      | [path] => .dump (flags.any (·.letter == Text.ofString "t")) path
      | _ => .done (complaint tool usage)

/-- Carries out a plan, given what stands at the path of the program. -/
def execute (p : Plan) (programFile : Except FileError Text) : Exit :=
  match p, programFile with
  | .done exit, _ => exit
  | .dump _ path, .error e => complaint tool (e.text path)
  | .dump tokens _, .ok source =>
    let parsed := parseProgram source
    if !parsed.errors.isEmpty then
      { errors := parsed.errors.flatMap (·.text.line), code := 1 }
    else if tokens then { output := parsed.program.tokens.flatMap (·.describe.line) }
    else { output := (Stmt.treeOf parsed.program.stmts).line }

/-- The path that a plan needs; it is empty if none is needed. -/
def needs : Plan → Text
  | .done _ => []
  | .dump _ path => path

end Dump
end CommandLine
end Reckoner
