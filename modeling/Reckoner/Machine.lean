import Reckoner.Number.Power
import Reckoner.Scope
import Reckoner.Setting
import Reckoner.Simplify
import Reckoner.Transcript
import Reckoner.Tree

/-!
# Running programs

Expressions are evaluated onto a stack of values: an operand is pushed and its operator pops it.
The logical operators and the conditional decide from a popped value which other operands to
evaluate at all. Statements change the variables, the tracing and the transcript.
-/
namespace Reckoner

/-- The state in which programs run. -/
structure Machine where
  /-- The operands, the top of the stack first. -/
  values : List Value := []
  vars : Scope Value := {}
  tracing : Tracing := {}
  transcript : Transcript := []
deriving Inhabited

/-- A computation on the machine, which may stop with a fault. -/
abbrev Run := ExceptT Fault (StateM Machine)

namespace Run

def push (v : Value) : Run Unit := modify fun m => { m with values := v :: m.values }

/-- Takes the top value off the stack. -/
def pop : Run Value := do
  match (← get).values with
  | [] => throw (.defect .emptyStack)
  | v :: vs =>
    modify fun m => { m with values := vs }
    return v

/-- Empties the stack. -/
def clear : Run Unit := modify fun m => { m with values := [] }

/-- Adds an entry to the transcript. -/
def write (origin : Origin) (text : Text) : Run Unit :=
  modify fun m => { m with transcript := m.transcript ++ [⟨origin, text⟩] }

/-- Writes a line of program output. -/
def printLine (text : Text) : Run Unit := write .program text.line

/-- Writes a message if debugging is on. -/
def debug (message : Text) : Run Unit := do
  if (← get).tracing.debug then write .trace (debugLine message)

/-- Stops with a runtime error. -/
def fail {α : Type} (place : Place) (cause : RuntimeCause) : Run α :=
  throw (.runtime ⟨place, cause⟩)

/-- The number that an operand has to be. -/
def requireNumber (tokens : List Token) (operand : Expr) (v : Value) : Run Number :=
  match v.datum with
  | .number x => return x
  | _ => fail operand.place (.operand (operand.plainText tokens) .numeric)

/-- The truth value that an operand has to be. -/
def requireBoolean (tokens : List Token) (operand : Expr) (v : Value) : Run Bool :=
  match v.datum with
  | .boolean b => return b
  | _ => fail operand.place (.operand (operand.plainText tokens) .boolean)

end Run

/-- The arithmetic operation of an operator. -/
def ArithOp.apply : ArithOp → Number → Number → Number
  | add => Number.add
  | sub => Number.sub
  | mul => Number.mul
  | div => Number.div
  | pow => Number.pow

/-- Whether the left operand alone decides the result. -/
def LogicOp.decidedBy : LogicOp → Bool → Bool
  | and, b => !b
  | or, b => b

def LogicOp.apply : LogicOp → Bool → Bool → Bool
  | and, b, c => b && c
  | or, b, c => b || c

/-- Applies a comparison, in whichever way the relation asks for. -/
def Relation.apply (r : Relation) (a b : Value) : Except Fault Value :=
  if r.isEquality then Value.equals r a b else Value.compare r a b

open Run

namespace Expr

/-- Evaluates an expression and pushes its value. The result of an operator comes from where the
expression begins. -/
def eval (tokens : List Token) : Expr → Run Unit
  | literal t => push t.value
  | identifier t => do
    if isReserved t.text then
      push (← Setting.read t.text t.pos.place (← get).tracing)
    else
      match (← get).vars.get? t.text with
      | some v => push v
      | none => fail t.pos.place (.unbound t.text)
  | paren _ inner _ => inner.eval tokens
  | unary op sign operand => do
    operand.eval tokens
    let v ← pop
    match op with
    | .not =>
      let b ← requireBoolean tokens operand v
      push ⟨.boolean !b, sign.pos.place⟩
    | .negate =>
      let x ← requireNumber tokens operand v
      push ⟨.number x.neg, sign.pos.place⟩
  | binary (.arith op) left _ right => do
    left.eval tokens
    right.eval tokens
    let v ← pop
    let u ← pop
    let x ← requireNumber tokens left u
    let y ← requireNumber tokens right v
    push ⟨.number (op.apply x y), left.place⟩
  | binary (.relation r) left _ right => do
    left.eval tokens
    right.eval tokens
    let v ← pop
    let u ← pop
    let result ← r.apply u v
    push { result with place := left.place }
  | binary (.logic op) left _ right => do
    left.eval tokens
    let b ← requireBoolean tokens left (← pop)
    if op.decidedBy b then
      push ⟨.boolean b, left.place⟩
    else
      right.eval tokens
      let c ← requireBoolean tokens right (← pop)
      push ⟨.boolean (op.apply b c), left.place⟩
  | ternary condition _ thenExpr _ elseExpr => do
    condition.eval tokens
    let b ← requireBoolean tokens condition (← pop)
    if b then thenExpr.eval tokens else elseExpr.eval tokens

/-- Evaluates an expression on an empty stack and returns its value. -/
def value (tokens : List Token) (e : Expr) : Run Value := do
  clear
  e.eval tokens
  pop

/-- Evaluates expressions one after the other and joins their texts. -/
def evalTexts (tokens : List Token) : List Expr → Run Text
  | [] => return []
  | e :: es => do
    e.eval tokens
    let text := (← pop).text
    return text ++ (← evalTexts tokens es)

end Expr

namespace Stmt

/-- Assigns a value to a name; a reserved name switches tracing instead. -/
def bind (name : Text) (v : Value) : Run Unit := do
  if isReserved name then
    let (tracing, confirmation) ← Setting.assign name v (← get).tracing
    modify fun m => { m with tracing }
    write .program confirmation
  else
    debug ("assignment to " ++ name)
    modify fun m => { m with vars := m.vars.set name v }

/-- The line that lists a variable. -/
def varLine (name : Text) (v : Value) : Text := ("\t" ++ name ++ " : " ++ v.text).line

/-- The tree that an inspection shows of what it holds. -/
def innerTree : Stmt → Text
  | block _ _ _ body _ => treeOf body
  | wrap _ _ inner => inner.tree
  | s => s.tree

/-- Shows what an inspection holds, without running it. -/
def inspect (tokens : List Token) (kind : Inspection) (s : Stmt) : Run Unit :=
  match kind with
  | .tree => printLine s.innerTree
  | .tokens =>
    let (first, last) := s.bodyInterval
    (tokenRange tokens first last).forM fun t => printLine t.describe
  | .gui => debug "gui: no tree viewer in this build, skipping"
  | .refactor =>
    match s.simplified tokens with
    | .ok text => printLine text
    | .error o => throw (.overlap o)

/-- Runs a statement. -/
def exec (tokens : List Token) (s : Stmt) : Run Unit :=
  match s with
  | assign name _ value => do
    value.eval tokens
    bind name.text (← pop)
  | print _ arg more => do printLine (← Expr.evalTexts tokens (arg :: more))
  | expr e => do
    e.eval tokens
    printLine (← pop).text
  | vars _ => do
    (← get).vars.bindings.forM fun (name, v) => write .program (varLine name v)
  | block kind _ _ _ _ | wrap kind _ _ => inspect tokens kind s

end Stmt

/-- Runs the statements of a program in order, up to the first that stops with a fault. -/
def Program.exec (p : Program) : Run Unit :=
  p.stmts.forM fun s => do
    clear
    s.exec p.tokens

end Reckoner
