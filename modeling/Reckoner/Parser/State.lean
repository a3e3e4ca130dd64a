import Reckoner.Parser.Log

/-!
# Reading tokens

The parser sees words: the tokens that are not hidden, each with the hidden tokens before it.
Tokens are created when the parser first looks at them, which shows in the log: their faults and
creations are interleaved with what the parser does. Who listens to the parser may make it look at a
token earlier than it would for itself.
-/
namespace Reckoner

/-- A token that the parser sees, and the hidden tokens before it. -/
structure Word where
  lead : List Item
  item : Item
deriving DecidableEq, Repr, Inhabited

namespace Word

def token (w : Word) : Token := w.item.token

/-- All items of a word, in source order. -/
def items (w : Word) : List Item := w.lead ++ [w.item]

/-- Groups items into words; hidden items at the end belong to no word and are returned. -/
def group (lead : List Item) : List Item → List Word × List Item
  | [] => ([], lead)
  | i :: is =>
    if i.token.hidden then group (lead ++ [i]) is
    else
      let (words, trailing) := group [] is
      (⟨lead, i⟩ :: words, trailing)

end Word

/-- What is left to read, and the log so far. -/
structure ParseState where
  /-- The words from the current one on, without the end of input. -/
  rest : List Word
  /-- The end of input. -/
  last : Word
  /-- How many tokens have been created. -/
  created : Nat
  /-- What has happened, the latest first. -/
  log : List Step := []

/-- A parser: it reads words, writes the log, and fails with a syntax error. -/
abbrev Parse := ExceptT SyntaxError (StateM ParseState)

namespace Parse

/-- Adds a step to the log. -/
def record (s : Step) : Parse Unit := modify fun st => { st with log := s :: st.log }

variable (hooks : TraceFlags)

/-- Adds a step to the log if somebody hears of it. -/
def note (s : Step) : Parse Unit := if s.heard hooks then record s else pure ()

/-- Creates the items of a word that have not been created yet. -/
def create (w : Word) : Parse Unit := modify fun st =>
  let fresh := w.items.filter (st.created ≤ ·.token.index)
  let steps := (fresh.flatMap Item.steps).filter (Step.heard hooks)
  { st with created := st.created + fresh.length, log := steps.reverse ++ st.log }

/-- The current token. -/
def current : Parse Token := do
  let st ← get
  let w := st.rest.head?.getD st.last
  create hooks w
  return w.token

/-- The token after the current one; at the end of input, the end of input. -/
def next : Parse Token := do
  let _ ← current hooks
  let st ← get
  let w := (st.rest.drop 1).head?.getD st.last
  create hooks w
  return w.token

/-- Passes the current token, unless it is the end of input, and returns it. -/
def consume (rule : Rule) : Parse Token := do
  let t ← current hooks
  note hooks (.consume t rule)
  modify fun st => { st with rest := st.rest.tail }
  let _ ← current hooks
  return t

/-- Passes a token of a given kind, or fails. -/
def expect (kind : TokenKind) (rule : Rule) : Parse Token := do
  let t ← current hooks
  if t.kind = kind then consume hooks rule
  else throw (.mismatched t (.kind kind))

/-- Fails because the current token cannot begin what is expected. -/
def mismatch {α : Type} (expected : Expected) : Parse α := do
  throw (.mismatched (← current hooks) expected)

/-- Runs a parser and returns its outcome instead of failing. -/
def outcomeOf {α : Type} (body : Parse α) : Parse (Except SyntaxError α) :=
  fun st => let (outcome, st) := body st; (.ok outcome, st)

/-- Tells a listener of a step and the current token, which is created for it if it has to be. -/
def tell (step : Token → Step) : Parse Unit := do
  if hooks.parser then record (step (← current hooks))

/-- Runs a parser inside a grammar rule, which is left whether it succeeds or fails. -/
def within {α : Type} (rule : Rule) (body : Parse α) : Parse α := do
  tell hooks (.enter rule)
  let outcome ← outcomeOf body
  tell hooks (.exit rule)
  match outcome with
  | .ok a => return a
  | .error e => throw e

end Parse
end Reckoner
