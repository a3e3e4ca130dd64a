import Reckoner.Token
import Reckoner.Value

/-!
# Expressions

An expression keeps all the tokens it was read from, so that its extent in the source and the
source itself can be recovered. Parentheses are nodes of their own for the same reason.
-/
namespace Reckoner

inductive UnaryOp where
  | not | negate
deriving DecidableEq, Repr

inductive ArithOp where
  | add | sub | mul | div | pow
deriving DecidableEq, Repr

inductive LogicOp where
  | and | or
deriving DecidableEq, Repr

inductive BinaryOp where
  | arith (op : ArithOp)
  | relation (r : Relation)
  | logic (op : LogicOp)
deriving DecidableEq, Repr

namespace UnaryOp

/-- The operator that a token is in front of an operand. -/
def ofToken? : TokenKind → Option UnaryOp
  | .not => some not
  | .minus => some negate
  | _ => none

/-- The token of an operator. -/
def token : UnaryOp → TokenKind
  | not => .not
  | negate => .minus

theorem ofToken?_token (op : UnaryOp) : ofToken? op.token = some op := by
  cases op <;> rfl

end UnaryOp

namespace BinaryOp

/-- The operator that a token is between two operands. -/
def ofToken? : TokenKind → Option BinaryOp
  | .plus => some (arith .add)
  | .minus => some (arith .sub)
  | .star => some (arith .mul)
  | .slash => some (arith .div)
  | .caret => some (arith .pow)
  | .less => some (relation .lt)
  | .lessEqual => some (relation .le)
  | .greater => some (relation .gt)
  | .greaterEqual => some (relation .ge)
  | .equal => some (relation .eq)
  | .unequal => some (relation .ne)
  | .and => some (logic .and)
  | .or => some (logic .or)
  | _ => none

/-- The token of an operator. -/
def token : BinaryOp → TokenKind
  | arith .add => .plus
  | arith .sub => .minus
  | arith .mul => .star
  | arith .div => .slash
  | arith .pow => .caret
  | relation .lt => .less
  | relation .le => .lessEqual
  | relation .gt => .greater
  | relation .ge => .greaterEqual
  | relation .eq => .equal
  | relation .ne => .unequal
  | logic .and => .and
  | logic .or => .or

/-- How tightly an operator binds. The conditional operator binds at level 1, less tightly than
all of these. -/
def precedence : BinaryOp → Nat
  | logic .or => 2
  | logic .and => 3
  | relation .eq | relation .ne => 4
  | relation .lt | relation .le | relation .gt | relation .ge => 5
  | arith .add | arith .sub => 6
  | arith .mul | arith .div => 7
  | arith .pow => 8

theorem ofToken?_token (op : BinaryOp) : ofToken? op.token = some op := by
  rcases op with (_ | _ | _ | _ | _) | (_ | _ | _ | _ | _ | _) | (_ | _) <;> rfl

end BinaryOp

/-- An expression, with the tokens it was read from. -/
inductive Expr where
  | literal (token : Token)
  | identifier (token : Token)
  | paren (opening : Token) (inner : Expr) (closing : Token)
  | unary (op : UnaryOp) (sign : Token) (operand : Expr)
  | binary (op : BinaryOp) (left : Expr) (sign : Token) (right : Expr)
  | ternary (condition : Expr) (question : Token) (thenExpr : Expr) (colon : Token)
      (elseExpr : Expr)
deriving DecidableEq, Repr

/-- What a literal token stands for. -/
def Token.datum (t : Token) : Datum :=
  match t.kind with
  | .number => .number (Number.ofLiteral t.text)
  | .string => .string t.literal
  | .yes => .boolean true
  | _ => .boolean false

/-- The value of a literal token, which comes from where the token stands. -/
def Token.value (t : Token) : Value := ⟨t.datum, t.pos.place⟩

namespace Expr

/-- The first token of an expression. -/
def first : Expr → Token
  | literal t | identifier t => t
  | paren opening _ _ => opening
  | unary _ sign _ => sign
  | binary _ left _ _ => left.first
  | ternary condition _ _ _ _ => condition.first

/-- The last token of an expression. -/
def last : Expr → Token
  | literal t | identifier t => t
  | paren _ _ closing => closing
  | unary _ _ operand => operand.last
  | binary _ _ _ right => right.last
  | ternary _ _ _ _ elseExpr => elseExpr.last

/-- All tokens of an expression, in order. -/
def tokens : Expr → List Token
  | literal t | identifier t => [t]
  | paren opening inner closing => opening :: inner.tokens ++ [closing]
  | unary _ sign operand => sign :: operand.tokens
  | binary _ left sign right => left.tokens ++ sign :: right.tokens
  | ternary condition question thenExpr colon elseExpr =>
    condition.tokens ++ question :: thenExpr.tokens ++ colon :: elseExpr.tokens

/-- Where an expression begins. -/
def place (e : Expr) : Place := e.first.pos.place

end Expr
end Reckoner
