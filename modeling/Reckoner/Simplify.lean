import Reckoner.Edit

/-!
# Simplifying expressions

Comparisons with a truth value, and sums and products with a neutral or absorbing number, are
simplified by edits of the source: what is left keeps its spelling, its blanks and its comments.

* `X == true` and `X != false` become `X`
* `X != true` and `X == false` become `!X`
* `X + 0`, `0 + X`, `X * 1` and `1 * X` become `X`
* `X * 0` and `0 * X` become `0`
-/
namespace Reckoner
namespace Expr

/-- Whether an expression is a literal with a given truth value. -/
def isBoolean (b : Bool) : Expr → Bool
  | literal t => t.datum == .boolean b
  | _ => false

/-- Whether an expression is a literal that equals a given number. -/
def isNumber (x : Number) : Expr → Bool
  | literal t =>
    match t.datum with
    | .number y => y.eq x
    | _ => false
  | _ => false

/-- Whether an expression binds more tightly than the operators in front of it. -/
def isAtomic : Expr → Bool
  | literal _ | identifier _ | paren _ _ _ | unary _ _ _ => true
  | binary _ _ _ _ | ternary _ _ _ _ _ => false

/-- Puts a negation in front of an expression, with parentheses around it where they are needed. -/
def negation (e : Expr) : List Edit :=
  if e.isAtomic then [.insert e.first.index "!"]
  else [.insert e.first.index "!(", .insertAfter e.last.index ")"]

/-- Removes the operator and the right operand. -/
def dropRight (sign : Token) (right : Expr) : Edit := .remove sign.index right.last.index

/-- Removes the left operand, the operator and all up to the right operand. -/
def dropLeft (left right : Expr) : Edit := .remove left.first.index (right.first.index - 1)

/-- The edits that simplify an operator and its two operands, which are looked at as they stand in
the source. -/
def simplifyBinary (op : BinaryOp) (left : Expr) (sign : Token) (right : Expr) : List Edit :=
  match op with
  | .relation .eq =>
    if right.isBoolean true then [dropRight sign right]
    else if right.isBoolean false then left.negation ++ [dropRight sign right]
    else []
  | .relation .ne =>
    if right.isBoolean true then left.negation ++ [dropRight sign right]
    else if right.isBoolean false then [dropRight sign right]
    else []
  | .arith .add =>
    if right.isNumber .zero then [dropRight sign right]
    else if left.isNumber .zero then [dropLeft left right]
    else []
  | .arith .mul =>
    if right.isNumber .zero || left.isNumber .zero then
      [.replace { first := left.first.index, last := right.last.index, text := "0" }]
    else if right.isNumber .one then [dropRight sign right]
    else if left.isNumber .one then [dropLeft left right]
    else []
  | _ => []

/-- The edits that simplify an expression, those of the operands before those that span them. -/
def simplifications : Expr → List Edit
  | literal _ | identifier _ => []
  | paren _ inner _ => inner.simplifications
  | unary _ _ operand => operand.simplifications
  | binary op left sign right =>
    left.simplifications ++ right.simplifications ++ simplifyBinary op left sign right
  | ternary condition _ thenExpr _ elseExpr =>
    condition.simplifications ++ thenExpr.simplifications ++ elseExpr.simplifications

end Expr

namespace Stmt

mutual

/-- The edits that simplify all expressions of a statement. -/
def simplifications : Stmt → List Edit
  | assign _ _ value => value.simplifications
  | print _ arg more => arg.simplifications ++ more.flatMap Expr.simplifications
  | expr e => e.simplifications
  | vars _ => []
  | block _ _ _ body _ => simplificationsOf body
  | wrap _ _ inner => inner.simplifications

/-- The edits that simplify some statements. -/
def simplificationsOf : List Stmt → List Edit
  | [] => []
  | s :: ss => s.simplifications ++ simplificationsOf ss

end

/-- The text of what an inspection holds, with the statements of its block simplified. -/
def simplified (tokens : List Token) (s : Stmt) : Except Overlap Text :=
  let edits := match s with
    | block _ _ _ body _ => simplificationsOf body
    | _ => []
  let (first, last) := s.contentInterval
  Edit.render tokens edits first last

end Stmt
end Reckoner
