import Reckoner.Parser.Log
import Reckoner.Value

/-!
# Settings of a session

Three names are reserved. Assigning a truth value to one of them switches tracing on or off
instead of binding a variable, and reading it gives the current state.
-/
namespace Reckoner

/-- What a session traces: besides the parser's log, messages for debugging. -/
structure Tracing extends TraceFlags where
  debug : Bool := false
deriving DecidableEq, Repr, Inhabited

/-- The reserved names. -/
inductive Setting where
  | parserTracing | lexerTracing | fullTracing
deriving DecidableEq, Repr

namespace Setting

def all : List Setting := [parserTracing, lexerTracing, fullTracing]

def name : Setting → String
  | parserTracing => "parserTracing"
  | lexerTracing => "lexerTracing"
  | fullTracing => "fullTracing"

/-- What a setting is called in confirmations. -/
def label : Setting → String
  | parserTracing => "Parser Tracing"
  | lexerTracing => "Lexer Tracing"
  | fullTracing => "Full Tracing"

/-- The setting of a name. -/
def ofName? (name : Text) : Option Setting := all.find? (Text.ofString ·.name == name)

/-- Whether a setting is on. -/
def get (s : Setting) (t : Tracing) : Bool :=
  match s with
  | parserTracing => t.parser
  | lexerTracing => t.lexer
  | fullTracing => t.parser && t.lexer

/-- Switches a setting on or off. -/
def set (s : Setting) (on : Bool) (t : Tracing) : Tracing :=
  match s with
  | parserTracing => { t with parser := on }
  | lexerTracing => { t with lexer := on }
  | fullTracing => { t with parser := on, lexer := on }

/-- The line that confirms a switch. -/
def confirmation (s : Setting) (on : Bool) : Text :=
  (Text.ofString s.label ++ (if on then " On" else " Off")).line

/-- Assigns a value to a reserved name: the new tracing and the confirmation. -/
def assign (name : Text) (v : Value) (t : Tracing) : Except Fault (Tracing × Text) :=
  match ofName? name, v.datum with
  | none, _ => .error (.defect (.notASetting name))
  | some s, .boolean on => .ok (s.set on t, s.confirmation on)
  | some _, _ => .error (.runtime ⟨v.place, .setting name⟩)

/-- Reads a reserved name. -/
def read (name : Text) (place : Place) (t : Tracing) : Except Fault Value :=
  match ofName? name with
  | none => .error (.defect (.notASetting name))
  | some s => .ok ⟨.boolean (s.get t), place⟩

@[simp] theorem ofName?_name (s : Setting) : ofName? (Text.ofString s.name) = some s := by
  cases s <;> decide

/-- A setting reads back as it was switched. -/
@[simp] theorem get_set_self (s : Setting) (on : Bool) (t : Tracing) : s.get (s.set on t) = on := by
  cases s <;> simp [get, set]

end Setting

/-- Whether a name is reserved. -/
def isReserved (name : Text) : Bool := (Setting.ofName? name).isSome

end Reckoner
