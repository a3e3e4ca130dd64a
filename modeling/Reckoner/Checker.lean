import Reckoner.Fault
import Reckoner.Scope
import Reckoner.Setting
import Reckoner.Stmt

/-!
# Checking programs

A program is checked before it runs. The types of operands are kept on a stack, and all
complaints are collected rather than the first only. The declared types of variables persist, so
that a session can be checked piece by piece. What an inspection holds is checked without
complaints and in a scope of its own, since it never runs.
-/
namespace Reckoner

/-- What is wrong with an expression or a statement. -/
inductive Complaint where
  | operand (text : Text) (needed : OperandClass)
  | incomparable (left right : Ty)
  | unordered (symbol : Text)
  | branches (elseType thenType : Ty)
  | unassigned (name : Text)
  | setting (name : Text)
deriving DecidableEq, Repr

def Complaint.message : Complaint → Text
  | operand text needed => text ++ " is not " ++ Text.ofString needed.noun
  | incomparable left right =>
    "can not compare " ++ Text.ofString left.name ++ " to " ++ Text.ofString right.name
  | unordered symbol =>
    "comparison operator ('" ++ symbol ++ "') is not valid for BOOLEAN values"
  | branches elseType thenType =>
    "true and false branches must share the same type (" ++ Text.ofString elseType.name ++ ","
      ++ Text.ofString thenType.name ++ ")"
  | unassigned name => name ++ " has not been assigned a value"
  | setting name => name ++ " requires a BOOLEAN value"

/-- A complaint and the place that it is about. -/
structure Diagnostic where
  place : Place
  complaint : Complaint
deriving DecidableEq, Repr

def Diagnostic.text (d : Diagnostic) : Text := d.place.located d.complaint.message

/-- The state in which programs are checked. -/
structure Checker where
  types : Scope Ty := {}
  /-- The types of the operands, the top of the stack first. -/
  stack : List Ty := []
  /-- How many inspections the checker is inside of. -/
  depth : Nat := 0
  /-- The complaints since the last reset, in order. -/
  diagnostics : List Diagnostic := []
deriving Inhabited

/-- A computation on the checker. It only stops where the checker itself is at fault. -/
abbrev Check := ExceptT Defect (StateM Checker)

namespace Check

def push (t : Ty) : Check Unit := modify fun c => { c with stack := t :: c.stack }

/-- Takes the top type off the stack. -/
def pop : Check Ty := do
  match (← get).stack with
  | [] => throw .emptyStack
  | t :: ts =>
    modify fun c => { c with stack := ts }
    return t

/-- Records a complaint, unless inside an inspection. -/
def complain (place : Place) (complaint : Complaint) : Check Unit := modify fun c =>
  if c.depth = 0 then { c with diagnostics := c.diagnostics ++ [⟨place, complaint⟩] } else c

/-- Checks that an operand is of the type it has to be of. An unknown type has been complained
about where it arose. -/
def require (tokens : List Token) (operand : Expr) (t : Ty) (needed : OperandClass) :
    Check Unit :=
  if t = .unknown ∨ t = needed.ty then return
  else complain operand.place (.operand (operand.plainText tokens) needed)

/-- Checks the operands of an ordering relation. -/
def requireOrder (place : Place) (symbol : Text) (left right : Ty) : Check Unit := do
  if left = .unknown ∨ right = .unknown then return
  if left = .boolean then
    if right = .boolean then complain place (.unordered symbol)
    else complain place (.incomparable left right)
  else if !(← Ty.orderable left right) then
    complain place (.incomparable left right)

/-- Checks the operands of an equality relation. -/
def requireEquality (place : Place) (left right : Ty) : Check Unit := do
  if left = .unknown ∨ right = .unknown then return
  if !(← Ty.equatable left right) then complain place (.incomparable left right)

end Check

open Check

/-- Checks an expression and pushes its type. -/
def Expr.check (tokens : List Token) : Expr → Check Unit
  | literal t => push t.datum.ty
  | identifier t => do
    if isReserved t.text then push .boolean
    else
      match (← get).types.get? t.text with
      | some type => push type
      | none =>
        complain t.pos.place (.unassigned t.text)
        push .unknown
  | paren _ inner _ => inner.check tokens
  | unary op _ operand => do
    operand.check tokens
    match op with
    | .not =>
      require tokens operand (← pop) .boolean
      push .boolean
    | .negate =>
      require tokens operand (← pop) .numeric
      push .number
  | binary op left sign right => do
    left.check tokens
    right.check tokens
    let rightType ← pop
    let leftType ← pop
    match op with
    | .arith _ =>
      require tokens left leftType .numeric
      require tokens right rightType .numeric
      push .number
    | .logic _ =>
      require tokens left leftType .boolean
      require tokens right rightType .boolean
      push .boolean
    | .relation r =>
      if r.isEquality then requireEquality left.place leftType rightType
      else requireOrder left.place sign.text leftType rightType
      push .boolean
  | ternary condition _ thenExpr _ elseExpr => do
    condition.check tokens
    thenExpr.check tokens
    elseExpr.check tokens
    let elseType ← pop
    let thenType ← pop
    let conditionType ← pop
    require tokens condition conditionType .boolean
    if thenType ≠ .unknown ∧ elseType ≠ .unknown ∧ thenType ≠ elseType then
      complain condition.place (.branches elseType thenType)
    push (if thenType = .unknown then elseType else thenType)

namespace Stmt

/-- Checks expressions one after the other. -/
def checkArgs (tokens : List Token) : List Expr → Check Unit
  | [] => return
  | e :: es => do
    e.check tokens
    let _ ← pop
    checkArgs tokens es

/-- Checks what an inspection holds: without complaints, and in a scope of its own. -/
def quietly (body : Check Unit) : Check Unit := do
  let outer := (← get).types
  modify fun c => { c with depth := c.depth + 1, types := c.types.push }
  body
  modify fun c => { c with depth := c.depth - 1, types := outer }

mutual

/-- Checks a statement. -/
def check (tokens : List Token) : Stmt → Check Unit
  | assign name _ value => do
    value.check tokens
    let type ← pop
    if isReserved name.text then
      if type ≠ .boolean ∧ type ≠ .unknown then
        complain name.pos.place (.setting name.text)
    else
      modify fun c => { c with types := c.types.set name.text type }
  | print _ arg more => checkArgs tokens (arg :: more)
  | expr e => checkArgs tokens [e]
  | vars _ => return
  | block _ _ _ body _ => quietly (checkAll tokens body)
  | wrap _ _ inner => quietly (inner.check tokens)

/-- Checks some statements. -/
def checkAll (tokens : List Token) : List Stmt → Check Unit
  | [] => return
  | s :: ss => do
    s.check tokens
    checkAll tokens ss

end

end Stmt

/-- Checks a program, and says whether there are no complaints since the last reset. -/
def Program.check (p : Program) : Check Bool := do
  Stmt.checkAll p.tokens p.stmts
  let c ← get
  if c.stack.isEmpty then return c.diagnostics.isEmpty
  else throw (.leftoverTypes c.stack.length)

/-- Forgets all complaints; declared types are kept. -/
def Checker.reset (c : Checker) : Checker := { c with stack := [], depth := 0, diagnostics := [] }

end Reckoner
