import Reckoner.Stmt

/-!
# Trees in text

Statements and expressions are shown in brackets, each with the name of its grammar rule in front
and with the source text of its tokens.
-/
namespace Reckoner

/-- A node: the rule and its children, separated by spaces. -/
def treeNode (rule : String) (children : List Text) : Text :=
  "(" ++ Text.ofString rule ++ " " ++ Text.join " " children ++ ")"

/-- The grammar rule of a literal. -/
def Token.literalRule (t : Token) : String :=
  match t.kind with
  | .number => "numberExpr"
  | .string => "stringExpr"
  | _ => "booleanExpr"

/-- The grammar rule of an operator between operands. -/
def BinaryOp.rule : BinaryOp → String
  | arith .pow => "expExpr"
  | arith .mul | arith .div => "mulDivExpr"
  | arith .add | arith .sub => "addSubExpr"
  | relation .lt | relation .le | relation .gt | relation .ge => "compareExpr"
  | relation .eq | relation .ne => "equalityExpr"
  | logic .and => "andExpr"
  | logic .or => "orExpr"

/-- The grammar rule of an inspection. -/
def Inspection.rule : Inspection → String
  | tree => "treeUtil"
  | tokens => "tokensUtil"
  | gui => "guiUtil"
  | refactor => "refactorUtil"

/-- The tree of an expression. -/
def Expr.tree : Expr → Text
  | literal t => treeNode t.literalRule [t.text]
  | identifier t => treeNode "idExpr" [t.text]
  | paren _ inner _ => treeNode "parenExpr" ["(", inner.tree, ")"]
  | unary .not _ operand => treeNode "notExpr" ["!", operand.tree]
  | unary .negate _ operand => treeNode "negateExpr" ["-", operand.tree]
  | binary op left sign right => treeNode op.rule [left.tree, sign.text, right.tree]
  | ternary condition _ thenExpr _ elseExpr =>
    treeNode "ternaryExpr" [condition.tree, "?", thenExpr.tree, ":", elseExpr.tree]

namespace Stmt

/-- The node of a list of statements, given their trees. -/
def listTree (trees : List Text) : Text :=
  "(" ++ Text.join " " (Text.ofString "stmts" :: trees) ++ ")"

mutual

/-- The tree of a statement. -/
def tree : Stmt → Text
  | assign name _ value => treeNode "assignmentStmt" [name.text, "=", value.tree]
  | print keyword arg more =>
    treeNode "printStmt" (keyword.text :: arg.tree :: more.map Expr.tree)
  | expr e => treeNode "implicitPrintStmt" [e.tree]
  | vars keyword => treeNode "varsStmt" [keyword.text]
  | block kind keyword _ body _ =>
    treeNode kind.rule [keyword.text, "\x7b", listTree (trees body), "\x7d"]
  | wrap kind keyword inner => treeNode kind.rule [keyword.text, inner.tree]

/-- The trees of some statements. -/
def trees : List Stmt → List Text
  | [] => []
  | s :: ss => s.tree :: trees ss

end

/-- The tree of a list of statements. -/
def treeOf (ss : List Stmt) : Text := listTree (trees ss)

end Stmt
end Reckoner
