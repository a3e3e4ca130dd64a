import Reckoner.Expr

/-!
# Statements and programs

Besides assignments, printing and bare expressions there are statements that inspect a piece of
program: they hold a block of statements, or another such statement, and never run it.
-/
namespace Reckoner

/-- A statement, with the tokens it was read from. -/
inductive Stmt where
  | assign (name equals : Token) (value : Expr)
  /-- Prints one expression and any number of others after it. -/
  | print (keyword : Token) (arg : Expr) (more : List Expr)
  | expr (e : Expr)
  | vars (keyword : Token)
  /-- Inspects the statements between two braces. -/
  | block (kind : Inspection) (keyword opening : Token) (body : List Stmt) (closing : Token)
  /-- Inspects another inspection. -/
  | wrap (kind : Inspection) (keyword : Token) (inner : Stmt)

namespace Stmt

/-- The first token of a statement. -/
def first : Stmt → Token
  | assign name _ _ => name
  | print keyword _ _ | vars keyword | block _ keyword _ _ _ | wrap _ keyword _ => keyword
  | expr e => e.first

/-- The last token of a statement. -/
def last : Stmt → Token
  | assign _ _ value => value.last
  | print _ arg more => (more.getLast?.getD arg).last
  | expr e => e.last
  | vars keyword => keyword
  | block _ _ _ _ closing => closing
  | wrap _ _ inner => inner.last

mutual

/-- All tokens of a statement, in order. -/
def tokens : Stmt → List Token
  | assign name equals value => name :: equals :: value.tokens
  | print keyword arg more => keyword :: arg.tokens ++ more.flatMap Expr.tokens
  | expr e => e.tokens
  | vars keyword => [keyword]
  | block _ keyword opening body closing => keyword :: opening :: tokensOf body ++ [closing]
  | wrap _ keyword inner => keyword :: inner.tokens

/-- All tokens of a list of statements, in order. -/
def tokensOf : List Stmt → List Token
  | [] => []
  | s :: ss => s.tokens ++ tokensOf ss

end

/-- Where a statement begins. -/
def place (s : Stmt) : Place := s.first.pos.place

/-- The numbers of the first and the last token of a statement. -/
def interval (s : Stmt) : Int × Int := (s.first.index, s.last.index)

/-- The first and the last token of what an inspection holds: for a block, everything strictly
between its braces. -/
def contentInterval : Stmt → Int × Int
  | block _ _ opening _ closing => (opening.index + 1, (closing.index : Int) - 1)
  | wrap _ _ inner => inner.interval
  | s => s.interval

/-- The first and the last token of the statements that an inspection holds, without the blanks
around them; for an empty block, an interval that ends before it begins. -/
def bodyInterval : Stmt → Int × Int
  | block _ _ opening body _ =>
    match body.head?, body.getLast? with
    | some s, some t => (s.first.index, t.last.index)
    | _, _ => (opening.index + 1, opening.index)
  | wrap _ _ inner => inner.interval
  | s => s.interval

end Stmt

/-- The tokens numbered `first` to `last`, as far as there are any. -/
def tokenRange (tokens : List Token) (first last : Int) : List Token :=
  (tokens.take (last + 1).toNat).drop first.toNat

/-- The source text of some tokens. -/
def sourceText (tokens : List Token) : Text := tokens.flatMap Token.text

/-- The text of some tokens without the hidden ones. -/
def plainText (tokens : List Token) : Text := sourceText (tokens.filter (!·.hidden))

/-- The text of an expression as messages quote it: all the tokens in its extent but the hidden
ones. -/
def Expr.plainText (tokens : List Token) (e : Expr) : Text :=
  Reckoner.plainText (tokenRange tokens e.first.index e.last.index)

/-- A parsed source: its statements and all its tokens, the end of input last. -/
structure Program where
  stmts : List Stmt
  tokens : List Token

end Reckoner
