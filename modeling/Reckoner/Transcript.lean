import Reckoner.Text

/-!
# What a session writes

Everything that is written is kept in order with its origin. Programs, traces and prompts share
the output stream, diagnostics have a stream of their own, and so has the log of the interpreter.
-/
namespace Reckoner

/-- Where a piece of text comes from. -/
inductive Origin where
  | program | trace | prompt | diagnostic | log
deriving DecidableEq, Repr

/-- A piece of text with its origin. -/
structure Entry where
  origin : Origin
  text : Text
deriving DecidableEq, Repr

/-- Everything written, in order. -/
abbrev Transcript := List Entry

namespace Transcript

/-- The text of the entries of some origins. -/
def select (origins : List Origin) (t : Transcript) : Text :=
  t.flatMap fun e => if e.origin ∈ origins then e.text else []

/-- The output stream. -/
def output (t : Transcript) : Text := t.select [.program, .trace, .prompt]

/-- The stream of diagnostics. -/
def diagnostics (t : Transcript) : Text := t.select [.diagnostic]

/-- The stream of the log. -/
def log (t : Transcript) : Text := t.select [.log]

end Transcript

/-- A line of a debugging log. -/
def debugLine (message : Text) : Text := ("[DEBUG] " ++ message).line

end Reckoner
