import Reckoner.Parser.Grammar

/-!
# Parsers

A parser holds a source and how far it has been read. Reading a program starts from the beginning
of the source each time, reading an expression from where the last call stopped. Tokens are
created once only: the faults found while creating them belong to the call that did. A parse notes
the steps that somebody listens to, which are all of them unless it is told otherwise.
-/
namespace Reckoner

/-- A source that is being parsed. -/
structure Parser where
  lexed : Lexed
  /-- What has not been read yet. -/
  rest : List Word
  /-- The end of input. -/
  last : Word
  /-- How many tokens have been created. -/
  created : Nat := 0
  /-- The syntax errors found since the last program was begun. -/
  errors : List SyntaxError := []

/-- The result of reading a program: its statements, which are only what could be recovered if
there are syntax errors, and the log. -/
structure Parsed where
  program : Program
  errors : List SyntaxError
  log : List Step

namespace Parser

/-- A parser at the beginning of a text. A hidden token there is not skipped. -/
def ofText (t : Text) : Parser :=
  let lexed := Lexed.ofText t
  match lexed.items with
  | [] => { lexed, rest := [], last := ⟨[], lexed.last⟩ }
  | i :: is =>
    let (words, trailing) := Word.group [] is
    { lexed, rest := ⟨[], i⟩ :: words, last := ⟨trailing, lexed.last⟩ }

/-- All tokens of the source, the end of input last. -/
def tokens (p : Parser) : List Token := p.lexed.tokens

/-- Reads a program, or an entry, from the beginning of the source. -/
def readSource (rule : Rule) (p : Parser) (hooks : TraceFlags := .all) : Parsed × Parser :=
  let (words, trailing) := Word.group [] p.lexed.items
  let last : Word := ⟨trailing, p.lexed.last⟩
  let (outcome, st) := Grammar.source hooks rule (Grammar.fuelFor words.length)
    { rest := words, last, created := p.created }
  let log := st.log.reverse
  let errors := Step.faults log
  let stmts := match outcome with
    | .ok ss => ss
    | .error _ => []
  ({ program := ⟨stmts, p.tokens⟩, errors, log },
    { p with rest := st.rest, last := st.last, created := st.created, errors })

/-- Reads a complete program: any number of statements. -/
def readProgram (p : Parser) (hooks : TraceFlags := .all) : Parsed × Parser :=
  p.readSource .program hooks

/-- Reads an interactive entry: at least one statement. -/
def readEntry (p : Parser) (hooks : TraceFlags := .all) : Parsed × Parser :=
  p.readSource .entry hooks

/-- Reads an expression from where the parser stands. -/
def readExpr (level : Nat) (p : Parser) : Except SyntaxError Expr × List Step × Parser :=
  let (outcome, st) := Grammar.expr .all (Grammar.fuelFor p.rest.length) level
    { rest := p.rest, last := p.last, created := p.created }
  let log := st.log.reverse
  (outcome, log, { p with rest := st.rest, last := st.last, created := st.created,
                          errors := p.errors ++ Step.faults log })

/-- Creates all tokens that have not been created yet. -/
def fill (p : Parser) : List Step × Parser :=
  let log := (p.lexed.all.drop p.created).flatMap Item.steps
  (log, { p with created := p.lexed.all.length, errors := p.errors ++ Step.faults log })

end Parser

/-- Reads a text as a program. -/
def parseProgram (t : Text) (hooks : TraceFlags := .all) : Parsed :=
  ((Parser.ofText t).readProgram hooks).1

/-- Reads a text as an interactive entry. -/
def parseEntry (t : Text) (hooks : TraceFlags := .all) : Parsed :=
  ((Parser.ofText t).readEntry hooks).1

end Reckoner
