import Reckoner.Parser.State
import Reckoner.Stmt

/-!
# The grammar

Recursive descent with precedence climbing. Every operator between two operands associates to
the left, the conditional operator to the right. A statement that cannot be read is reported and
skipped up to the next line that can begin one.

Each function takes a fuel that bounds the depth of the recursion. Between two calls that consume
no token there are at most four others, so that `fuelFor` gives more than any parse uses.
-/
namespace Reckoner
namespace Grammar
open Parse

/-- The level at which the conditional operator binds. -/
def ternaryLevel : Nat := 1

variable (hooks : TraceFlags)

mutual

/-- An expression all of whose operators outside brackets bind at least as tightly as `level`. -/
def expr (fuel : Nat) (level : Nat) : Parse Expr :=
  match fuel with
  | 0 => mismatch hooks .expression
  | fuel + 1 => within hooks .expr do
    let left ← unary fuel
    climb fuel level left

/-- Extends an expression to the right, operator by operator. -/
def climb (fuel : Nat) (level : Nat) (left : Expr) : Parse Expr :=
  match fuel with
  | 0 => return left
  | fuel + 1 => do
    let t ← current hooks
    if t.kind = .question ∧ level ≤ ternaryLevel then
      let question ← consume hooks .expr
      let thenExpr ← expr fuel 0
      let colon ← expect hooks .colon .expr
      let elseExpr ← expr fuel ternaryLevel
      climb fuel level (.ternary left question thenExpr colon elseExpr)
    else
      match BinaryOp.ofToken? t.kind with
      | none => return left
      | some op =>
        if op.precedence < level then return left
        let sign ← consume hooks .expr
        let right ← expr fuel (op.precedence + 1)
        climb fuel level (.binary op left sign right)

/-- A primary expression with any number of signs in front. -/
def unary (fuel : Nat) : Parse Expr :=
  match fuel with
  | 0 => mismatch hooks .expression
  | fuel + 1 => do
    let t ← current hooks
    match UnaryOp.ofToken? t.kind with
    | none => primary fuel
    | some op =>
      let sign ← consume hooks .expr
      let operand ← unary fuel
      return .unary op sign operand

/-- A literal, a name or an expression in parentheses. A token that is none of these is skipped if
the one after it can begin an expression. -/
def primary (fuel : Nat) : Parse Expr :=
  match fuel with
  | 0 => mismatch hooks .expression
  | fuel + 1 => within hooks .primary do
    let t ← current hooks
    match t.kind with
    | .number | .string | .yes | .no => return .literal (← consume hooks .primary)
    | .identifier => return .identifier (← consume hooks .primary)
    | .openParen =>
      let opening ← consume hooks .primary
      let inner ← expr fuel 0
      let closing ← expect hooks .closeParen .primary
      return .paren opening inner closing
    | .eof => mismatch hooks .expression
    | _ =>
      if (← next hooks).kind.startsExpr then
        record (.fault (.extraneous t .expression))
        let _ ← consume hooks .primary
        primary fuel
      else
        mismatch hooks .expression

end

/-- The expressions after the first one of a print statement. They go on as long as the next token
can begin an expression and does not begin an assignment. -/
def moreArgs (fuel : Nat) : Parse (List Expr) :=
  match fuel with
  | 0 => return []
  | fuel + 1 => do
    let t ← current hooks
    if !t.kind.startsExpr then return []
    if t.kind = .identifier then
      if (← next hooks).kind = .assign then return []
    let arg ← expr hooks fuel 0
    return arg :: (← moreArgs fuel)

/-- Skips to the token that ends the statements, or to one that can begin a statement on a line
after the given one. -/
def synchronize (fuel : Nat) (line : Nat) (closing : TokenKind) (rule : Rule) : Parse Unit :=
  match fuel with
  | 0 => return
  | fuel + 1 => do
    let t ← current hooks
    if t.kind = .eof ∨ t.kind = closing then return
    if line < t.pos.line ∧ t.kind.startsStmt then return
    let _ ← consume hooks rule
    synchronize fuel line closing rule

/-- An assignment. -/
def assignment (fuel : Nat) : Parse Stmt := do
  let name ← consume hooks .stmt
  let equals ← expect hooks .assign .stmt
  return .assign name equals (← expr hooks fuel 0)

/-- A print statement. -/
def printing (fuel : Nat) : Parse Stmt := do
  let keyword ← consume hooks .stmt
  let arg ← expr hooks fuel 0
  return .print keyword arg (← moreArgs hooks fuel)

mutual

/-- Statements up to a closing token or the end of input, with the faults recorded. -/
def stmts (fuel : Nat) (closing : TokenKind) (rule : Rule) : Parse (List Stmt) :=
  match fuel with
  | 0 => return []
  | fuel + 1 => do
    let t ← current hooks
    if t.kind = closing ∨ t.kind = .eof then return []
    if !t.kind.startsStmt then
      record (.fault (.extraneous t .statement))
      let _ ← consume hooks rule
      stmts fuel closing rule
    else
      match ← outcomeOf (stmt fuel) with
      | .ok s => return s :: (← stmts fuel closing rule)
      | .error e =>
        record (.fault e)
        synchronize hooks fuel e.pos.line closing rule
        stmts fuel closing rule

/-- One statement. -/
def stmt (fuel : Nat) : Parse Stmt :=
  match fuel with
  | 0 => mismatch hooks .statement
  | fuel + 1 => within hooks .stmt do
    let t ← current hooks
    match t.kind with
    | .identifier =>
      if (← next hooks).kind = .assign then assignment hooks fuel
      else return .expr (← expr hooks fuel 0)
    | .print => printing hooks fuel
    | .vars => return .vars (← consume hooks .stmt)
    | .inspect kind => inspection fuel kind
    | _ => return .expr (← expr hooks fuel 0)

/-- An inspection: a keyword and then a block, or, for all keywords but one, another inspection. -/
def inspection (fuel : Nat) (kind : Inspection) : Parse Stmt :=
  match fuel with
  | 0 => mismatch hooks .statement
  | fuel + 1 => within hooks .inspect do
    let keyword ← consume hooks .inspect
    let t ← current hooks
    match t.kind with
    | .openBrace =>
      let opening ← consume hooks .inspect
      let body ← stmts fuel .closeBrace .inspect
      let closing ← expect hooks .closeBrace .inspect
      return .block kind keyword opening body closing
    | .inspect inner =>
      if kind = .refactor then mismatch hooks (.kind .openBrace)
      else return .wrap kind keyword (← inspection fuel inner)
    | _ => mismatch hooks (.kind .openBrace)

end

/-- More fuel than a parse of a given number of words can use. -/
def fuelFor (words : Nat) : Nat := 4 * words + 8

/-- A whole source: statements up to the end of input. An entry has to hold at least one. -/
def source (rule : Rule) (fuel : Nat) : Parse (List Stmt) := within hooks rule do
  if rule = .entry then
    let t ← current hooks
    if t.kind = .eof then record (.fault (.mismatched t .statement))
  let ss ← stmts hooks fuel .eof rule
  let _ ← consume hooks rule
  return ss

end Grammar
end Reckoner
