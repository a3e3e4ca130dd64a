import Reckoner.Token.Lexer

/-!
# What a parser reports while it runs

A parse leaves a log of what happens, in order: tokens created, faults found, grammar rules entered
and left, tokens consumed. Faults are always noted, the other steps only if somebody listens. The
syntax errors of the parse and its trace are two views of the log.
-/
namespace Reckoner

/-- The grammar rules. -/
inductive Rule where
  | program | entry | stmt | inspect | expr | primary
deriving DecidableEq, Repr

/-- The name of a rule in traces. -/
def Rule.name : Rule → String
  | program => "calcIn"
  | entry => "replIn"
  | stmt => "stmt"
  | inspect => "metaStmt"
  | expr => "expr"
  | primary => "primary"

/-- Something that happens during a parse. -/
inductive Step where
  /-- The lexer has created a token. -/
  | create (token : Token)
  /-- The lexer or the parser has found a fault. -/
  | fault (error : SyntaxError)
  /-- The parser enters a rule, with a token ahead. -/
  | enter (rule : Rule) (ahead : Token)
  /-- The parser passes a token while in a rule. -/
  | consume (token : Token) (rule : Rule)
  /-- The parser leaves a rule, with a token ahead. -/
  | exit (rule : Rule) (ahead : Token)
deriving DecidableEq, Repr

/-- The fault that a step reports. -/
def Step.fault? : Step → Option SyntaxError
  | fault e => some e
  | _ => none

/-- The syntax errors of a log. -/
def Step.faults (log : List Step) : List SyntaxError := log.filterMap Step.fault?

/-- What creating an item leaves in the log. -/
def Item.steps (i : Item) : List Step := i.faults.map .fault ++ [.create i.token]

/-- Which steps of a parse are traced. -/
structure TraceFlags where
  /-- Shows tokens as they are created. -/
  lexer : Bool := false
  /-- Shows the rules that are entered and left, and the tokens consumed. -/
  parser : Bool := false
deriving DecidableEq, Repr, Inhabited

/-- Everything is traced. -/
def TraceFlags.all : TraceFlags := ⟨true, true⟩

@[simp] theorem TraceFlags.parser_all : all.parser = true := rfl

/-- Whether a step is noted when some steps are traced. -/
def Step.heard (flags : TraceFlags) : Step → Bool
  | create _ => flags.lexer
  | fault _ => true
  | enter _ _ | consume _ _ | exit _ _ => flags.parser

@[simp] theorem Step.heard_all (s : Step) : s.heard .all = true := by cases s <;> rfl

/-- The trace line of a step, if it is traced. -/
def Step.trace (flags : TraceFlags) : Step → Text
  | create t => if flags.lexer then (t.kind.display ++ " : " ++ t.describe).line else []
  | fault _ => []
  | enter rule ahead =>
    if flags.parser then ("enter   " ++ rule.name ++ ", LT(1)=" ++ ahead.shown).line else []
  | consume t rule =>
    if flags.parser then ("consume " ++ t.describe ++ " rule " ++ rule.name).line else []
  | exit rule ahead =>
    if flags.parser then ("exit    " ++ rule.name ++ ", LT(1)=" ++ ahead.shown).line else []

/-- The trace of a whole log. -/
def Step.traces (flags : TraceFlags) (log : List Step) : Text := log.flatMap (Step.trace flags)

end Reckoner
