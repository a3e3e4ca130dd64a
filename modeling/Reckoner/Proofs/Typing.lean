import Reckoner.Checker
import Reckoner.Proofs.Effect

/-!
# Static types without a stack

The checker keeps the types of operands on a stack and collects complaints as it walks. Here the
type of an expression and its complaints are functions of the declared types alone, and so is what
a statement declares. `Expr.check_eq` and `Stmt.check_eq` say that the checker computes exactly
these, that it never stops with a defect, and that it leaves everything else as it was.
-/
namespace Reckoner

namespace Checker

/-- The checker after some complaints, which are only kept outside inspections. -/
def noting (ds : List Diagnostic) (c : Checker) : Checker :=
  if c.depth = 0 then { c with diagnostics := c.diagnostics ++ ds } else c

@[simp] theorem noting_nil (c : Checker) : c.noting [] = c := by
  simp [noting]

@[simp] theorem noting_noting (ds ds' : List Diagnostic) (c : Checker) :
    (c.noting ds).noting ds' = c.noting (ds ++ ds') := by
  unfold noting
  by_cases h : c.depth = 0 <;> simp [h]

@[simp] theorem types_noting (ds : List Diagnostic) (c : Checker) :
    (c.noting ds).types = c.types := by
  unfold noting
  split <;> rfl

@[simp] theorem stack_noting (ds : List Diagnostic) (c : Checker) :
    (c.noting ds).stack = c.stack := by
  unfold noting
  split <;> rfl

@[simp] theorem depth_noting (ds : List Diagnostic) (c : Checker) :
    (c.noting ds).depth = c.depth := by
  unfold noting
  split <;> rfl

/-- The checker with one more operand on its stack. -/
def pushed (t : Ty) (c : Checker) : Checker := { c with stack := t :: c.stack }

@[simp] theorem types_pushed (t : Ty) (c : Checker) : (c.pushed t).types = c.types := rfl

/-- Complaints and the stack do not meet. -/
@[simp] theorem noting_pushed (ds : List Diagnostic) (t : Ty) (c : Checker) :
    (c.pushed t).noting ds = (c.noting ds).pushed t := by
  unfold noting pushed
  split <;> rfl

/-- The checker with other declared types. -/
def declaring (types : Scope Ty) (c : Checker) : Checker := { c with types }

@[simp] theorem types_declaring (types : Scope Ty) (c : Checker) :
    (c.declaring types).types = types := rfl

@[simp] theorem declaring_self (c : Checker) : c.declaring c.types = c := rfl

@[simp] theorem declaring_declaring (types types' : Scope Ty) (c : Checker) :
    (c.declaring types).declaring types' = c.declaring types' := rfl

@[simp] theorem declaring_noting_self (ds : List Diagnostic) (c : Checker) :
    (c.noting ds).declaring c.types = c.noting ds := by
  rw [← types_noting ds c]
  rfl

@[simp] theorem noting_declaring (ds : List Diagnostic) (types : Scope Ty) (c : Checker) :
    (c.declaring types).noting ds = (c.noting ds).declaring types := by
  unfold noting declaring
  split <;> rfl

end Checker

namespace Check

@[simp] theorem push_apply (t : Ty) (c : Checker) : push t c = (.ok (), c.pushed t) := rfl

/-- A type that was pushed is popped again. -/
@[simp] theorem pop_pushed (t : Ty) (c : Checker) : pop (c.pushed t) = (.ok t, c) := rfl

@[simp] theorem complain_apply (place : Place) (complaint : Complaint) (c : Checker) :
    complain place complaint c = (.ok (), c.noting [⟨place, complaint⟩]) := by
  simp only [complain, Effect.modify_apply]
  rfl

/-- The complaint about an operand that has to be of a fixed type. -/
def operandComplaints (tokens : List Token) (operand : Expr) (t : Ty) (needed : OperandClass) :
    List Diagnostic :=
  if t = .unknown ∨ t = needed.ty then []
  else [⟨operand.place, .operand (operand.plainText tokens) needed⟩]

/-- The complaint about the operands of an ordering relation. -/
def orderComplaints (place : Place) (symbol : Text) (left right : Ty) : List Diagnostic :=
  if left = .unknown ∨ right = .unknown then []
  else if left = .boolean ∧ right = .boolean then [⟨place, .unordered symbol⟩]
  else if left = right then [] else [⟨place, .incomparable left right⟩]

/-- The complaint about the operands of an equality relation. -/
def equalityComplaints (place : Place) (left right : Ty) : List Diagnostic :=
  if left = .unknown ∨ right = .unknown ∨ left = right then []
  else [⟨place, .incomparable left right⟩]

@[simp] theorem require_apply (tokens : List Token) (operand : Expr) (t : Ty)
    (needed : OperandClass) (c : Checker) :
    require tokens operand t needed c =
      (.ok (), c.noting (operandComplaints tokens operand t needed)) := by
  unfold require operandComplaints
  split <;> simp

/-- The order of types is only asked for where it is defined. -/
@[simp] theorem requireOrder_apply (place : Place) (symbol : Text) (left right : Ty)
    (c : Checker) :
    requireOrder place symbol left right c =
      (.ok (), c.noting (orderComplaints place symbol left right)) := by
  cases left <;> cases right <;> simp [requireOrder, orderComplaints, Ty.orderable]

/-- The equality of types is only asked for where it is defined. -/
@[simp] theorem requireEquality_apply (place : Place) (left right : Ty) (c : Checker) :
    requireEquality place left right c =
      (.ok (), c.noting (equalityComplaints place left right)) := by
  cases left <;> cases right <;> simp [requireEquality, equalityComplaints, Ty.equatable]

end Check

open Check

namespace Expr

/-- The type of an expression. -/
def type (types : Scope Ty) : Expr → Ty
  | literal t => t.datum.ty
  | identifier t => if isReserved t.text then .boolean else (types.get? t.text).getD .unknown
  | paren _ inner _ => inner.type types
  | unary .not _ _ | binary (.relation _) _ _ _ | binary (.logic _) _ _ _ => .boolean
  | unary .negate _ _ | binary (.arith _) _ _ _ => .number
  | ternary _ _ thenExpr _ elseExpr =>
    if thenExpr.type types = .unknown then elseExpr.type types else thenExpr.type types

/-- The complaints about an operator and its operands, those about the operands themselves left
out. -/
def signComplaints (tokens : List Token) (types : Scope Ty) (op : BinaryOp) (left : Expr)
    (sign : Token) (right : Expr) : List Diagnostic :=
  match op with
  | .arith _ =>
    operandComplaints tokens left (left.type types) .numeric
      ++ operandComplaints tokens right (right.type types) .numeric
  | .logic _ =>
    operandComplaints tokens left (left.type types) .boolean
      ++ operandComplaints tokens right (right.type types) .boolean
  | .relation r =>
    if r.isEquality then equalityComplaints left.place (left.type types) (right.type types)
    else orderComplaints left.place sign.text (left.type types) (right.type types)

/-- The complaint about the branches of a conditional. -/
def branchComplaints (place : Place) (thenType elseType : Ty) : List Diagnostic :=
  if thenType ≠ .unknown ∧ elseType ≠ .unknown ∧ thenType ≠ elseType then
    [⟨place, .branches elseType thenType⟩]
  else []

/-- All complaints about an expression, in the order in which they are made. -/
def complaints (tokens : List Token) (types : Scope Ty) : Expr → List Diagnostic
  | literal _ => []
  | identifier t =>
    if isReserved t.text ∨ (types.get? t.text).isSome then []
    else [⟨t.pos.place, .unassigned t.text⟩]
  | paren _ inner _ => inner.complaints tokens types
  | unary .not _ operand =>
    operand.complaints tokens types
      ++ operandComplaints tokens operand (operand.type types) .boolean
  | unary .negate _ operand =>
    operand.complaints tokens types
      ++ operandComplaints tokens operand (operand.type types) .numeric
  | binary op left sign right =>
    left.complaints tokens types ++ right.complaints tokens types
      ++ signComplaints tokens types op left sign right
  | ternary condition _ thenExpr _ elseExpr =>
    condition.complaints tokens types ++ thenExpr.complaints tokens types
      ++ elseExpr.complaints tokens types
      ++ operandComplaints tokens condition (condition.type types) .boolean
      ++ branchComplaints condition.place (thenExpr.type types) (elseExpr.type types)

/-- Checking an expression pushes its type, notes its complaints and does nothing else. -/
theorem check_eq (tokens : List Token) (e : Expr) (c : Checker) :
    e.check tokens c =
      (.ok (), (c.noting (e.complaints tokens c.types)).pushed (e.type c.types)) := by
  induction e generalizing c with
  | literal t => simp [check, type, complaints]
  | identifier t =>
    by_cases h : isReserved t.text
    · simp [check, type, complaints, h]
    · cases hg : c.types.get? t.text <;> simp [check, type, complaints, h, hg]
  | paren _ inner _ ih => exact ih c
  | unary op sign operand ih => cases op <;> simp [check, ih, type, complaints]
  | binary op left sign right ihl ihr =>
    rcases op with op | r | op
    · simp [check, ihl, ihr, type, complaints, signComplaints]
    · by_cases hr : r.isEquality <;>
        simp [check, ihl, ihr, type, complaints, signComplaints, hr]
    · simp [check, ihl, ihr, type, complaints, signComplaints]
  | ternary condition question thenExpr colon elseExpr ihc iht ihe =>
    by_cases hb : thenExpr.type c.types ≠ .unknown ∧ elseExpr.type c.types ≠ .unknown ∧
        thenExpr.type c.types ≠ elseExpr.type c.types <;>
      simp [check, ihc, iht, ihe, type, complaints, branchComplaints, hb]

end Expr

namespace Stmt

/-- The declared types after a statement. Only an assignment declares anything. -/
def declare (types : Scope Ty) : Stmt → Scope Ty
  | assign name _ value =>
    if isReserved name.text then types else types.set name.text (value.type types)
  | _ => types

/-- The complaint about a value that is assigned to a reserved name. -/
def settingComplaints (name : Token) (t : Ty) : List Diagnostic :=
  if isReserved name.text ∧ t ≠ .boolean ∧ t ≠ .unknown then
    [⟨name.pos.place, .setting name.text⟩]
  else []

/-- All complaints about a statement. There are none about what an inspection holds. -/
def complaints (tokens : List Token) (types : Scope Ty) : Stmt → List Diagnostic
  | assign name _ value =>
    value.complaints tokens types ++ settingComplaints name (value.type types)
  | print _ arg more => (arg :: more).flatMap (Expr.complaints tokens types)
  | expr e => e.complaints tokens types
  | vars _ | block _ _ _ _ _ | wrap _ _ _ => []

/-- The declared types after some statements. -/
def declareAll (types : Scope Ty) (ss : List Stmt) : Scope Ty := ss.foldl declare types

/-- All complaints about some statements, each in the types that those before it declare. -/
def complaintsAll (tokens : List Token) (types : Scope Ty) : List Stmt → List Diagnostic
  | [] => []
  | s :: ss => s.complaints tokens types ++ complaintsAll tokens (s.declare types) ss

theorem checkArgs_eq (tokens : List Token) (es : List Expr) (c : Checker) :
    checkArgs tokens es c =
      (.ok (), c.noting (es.flatMap (Expr.complaints tokens c.types))) := by
  induction es generalizing c with
  | nil => simp [checkArgs]
  | cons e es ih => simp [checkArgs, Expr.check_eq, ih]

/-- Inside an inspection no complaint is kept, and the declared types are put back. -/
theorem quietly_apply {body : Check Unit} {ds : Checker → List Diagnostic}
    {types : Checker → Scope Ty}
    (h : ∀ c, body c = (.ok (), (c.noting (ds c)).declaring (types c))) (c : Checker) :
    quietly body c = (.ok (), c) := by
  simp [quietly, h, Checker.noting, Checker.declaring]

mutual

/-- Checking a statement declares what it declares and notes its complaints. -/
theorem check_eq (tokens : List Token) (s : Stmt) (c : Checker) :
    s.check tokens c =
      (.ok (), (c.noting (s.complaints tokens c.types)).declaring (s.declare c.types)) := by
  match s with
  | assign name _ value =>
    by_cases h : isReserved name.text
    · by_cases ht : value.type c.types ≠ .boolean ∧ value.type c.types ≠ .unknown <;>
        simp [check, Expr.check_eq, complaints, settingComplaints, declare, h, ht]
    · simp [check, Expr.check_eq, complaints, settingComplaints, declare, h, Checker.declaring]
  | print _ arg more => simp [check, checkArgs_eq, complaints, declare]
  | expr e => simp [check, checkArgs_eq, complaints, declare]
  | vars _ => simp [check, complaints, declare]
  | block _ _ _ body _ =>
    rw [check, quietly_apply (checkAll_eq tokens body)]
    simp [complaints, declare]
  | wrap _ _ inner =>
    rw [check, quietly_apply (check_eq tokens inner)]
    simp [complaints, declare]

/-- Checking statements one after the other. -/
theorem checkAll_eq (tokens : List Token) (ss : List Stmt) (c : Checker) :
    checkAll tokens ss c =
      (.ok (), (c.noting (complaintsAll tokens c.types ss)).declaring
        (declareAll c.types ss)) := by
  match ss with
  | [] => simp [checkAll, complaintsAll, declareAll]
  | s :: ss =>
    simp [checkAll, check_eq tokens s, checkAll_eq tokens ss, complaintsAll, declareAll]

end

end Stmt

/-- The checker after a program. -/
def Program.checked (p : Program) (c : Checker) : Checker :=
  (c.noting (Stmt.complaintsAll p.tokens c.types p.stmts)).declaring
    (Stmt.declareAll c.types p.stmts)

/-- Between programs the stack is empty, and then a program is accepted if and only if there are
no complaints at all. -/
theorem Program.check_eq (p : Program) {c : Checker} (h : c.stack = []) :
    p.check c = (.ok (p.checked c).diagnostics.isEmpty, p.checked c) := by
  have hs : ((c.noting (Stmt.complaintsAll p.tokens c.types p.stmts)).declaring
      (Stmt.declareAll c.types p.stmts)).stack = [] := by
    simpa [Checker.declaring] using h
  simp [Program.check, Program.checked, Stmt.checkAll_eq, hs]

end Reckoner
