import Reckoner.Proofs.Moving

/-!
# One missing name

Checking a program is no use to its author if one missing variable floods the report. Here a
program is checked twice: in a table that declares some name, where nothing is wrong with it, and
in the table without that name. The types of the second check lie `Below` those of the first, as
nothing is known where the missing name was read. No operator complains about an operand of which
nothing is known, so that `Program.check_undeclared` finds exactly the references to the missing
name in the second report, up to the end of the first statement that assigns it.
-/
namespace Reckoner

/-! ## References -/

/-- The references to a name in an expression, from left to right. -/
def Expr.references (name : Text) : Expr → List Token
  | literal _ => []
  | identifier t => if t.text = name then [t] else []
  | paren _ inner _ => inner.references name
  | unary _ _ operand => operand.references name
  | binary _ left _ right => left.references name ++ right.references name
  | ternary condition _ thenExpr _ elseExpr =>
    condition.references name ++ thenExpr.references name ++ elseExpr.references name

namespace Stmt

/-- The references to a name in a statement. What an inspection holds is not counted. -/
def references (name : Text) : Stmt → List Token
  | assign _ _ value => value.references name
  | print _ arg more => (arg :: more).flatMap (Expr.references name)
  | expr e => e.references name
  | vars _ | block _ _ _ _ _ | wrap _ _ _ => []

/-- Whether a statement assigns a name. What an inspection holds does not. -/
def assigns (name : Text) : Stmt → Bool
  | assign target _ _ => target.text = name
  | _ => false

/-- The references to a name in some statements, up to the end of the first one that assigns it. -/
def unassignedReferences (name : Text) : List Stmt → List Token
  | [] => []
  | s :: ss => s.references name ++ if s.assigns name then [] else unassignedReferences name ss

end Stmt

/-- References stand in the order of the source. -/
theorem Expr.references_sublist (name : Text) (e : Expr) :
    (e.references name).Sublist e.tokens := by
  induction e with
  | literal t => exact List.nil_sublist _
  | identifier t =>
    rw [references]
    split
    · exact List.Sublist.refl _
    · exact List.nil_sublist _
  | paren opening inner closing ih =>
    exact (ih.trans (List.sublist_append_left _ _)).cons opening
  | unary op sign operand ih => exact ih.cons sign
  | binary op left sign right ihl ihr => exact ihl.append (ihr.cons sign)
  | ternary condition question thenExpr colon elseExpr ihc iht ihe =>
    rw [references, tokens, List.append_assoc, List.append_assoc]
    exact ihc.append ((iht.append (ihe.cons colon)).cons question)

namespace Stmt

theorem references_sublist (name : Text) (s : Stmt) :
    (s.references name).Sublist s.tokens := by
  have hargs : ∀ es : List Expr,
      (es.flatMap (Expr.references name)).Sublist (es.flatMap Expr.tokens) := by
    intro es
    induction es with
    | nil => exact List.Sublist.refl _
    | cons e es ih => exact (e.references_sublist name).append ih
  cases s with
  | assign target equals value =>
    exact ((value.references_sublist name).cons equals).cons target
  | print keyword arg more => exact (hargs (arg :: more)).cons keyword
  | expr e => exact e.references_sublist name
  | _ => exact List.nil_sublist _

theorem unassignedReferences_sublist (name : Text) (ss : List Stmt) :
    (unassignedReferences name ss).Sublist (tokensOf ss) := by
  induction ss with
  | nil => exact List.Sublist.refl _
  | cons s ss ih =>
    refine (s.references_sublist name).append ?_
    split
    · exact List.nil_sublist _
    · exact ih

end Stmt

/-! ## Types of which less is known -/

/-- A type lies below another one if it is the same or nothing is known of it. -/
def Ty.Below (t t' : Ty) : Prop := t = .unknown ∨ t = t'

theorem Ty.Below.refl (t : Ty) : t.Below t := .inr rfl

namespace Check

theorem operandComplaints_of_below {tokens : List Token} {operand : Expr} {t t' : Ty}
    {needed : OperandClass} (ht : t.Below t')
    (h : operandComplaints tokens operand t' needed = []) :
    operandComplaints tokens operand t needed = [] := by
  rw [operandComplaints_eq_nil_iff] at h ⊢
  rcases ht with ht | rfl
  · exact .inl ht
  · exact h

theorem orderComplaints_of_below {place : Place} {symbol : Text} {left right left' right' : Ty}
    (hl : left.Below left') (hr : right.Below right')
    (h : orderComplaints place symbol left' right' = []) :
    orderComplaints place symbol left right = [] := by
  rw [orderComplaints_eq_nil_iff] at h ⊢
  rcases hl with hl | rfl
  · exact .inl hl
  · rcases hr with hr | rfl
    · exact .inr (.inl hr)
    · exact h

theorem equalityComplaints_of_below {place : Place} {left right left' right' : Ty}
    (hl : left.Below left') (hr : right.Below right')
    (h : equalityComplaints place left' right' = []) :
    equalityComplaints place left right = [] := by
  rw [equalityComplaints_eq_nil_iff] at h ⊢
  rcases hl with hl | rfl
  · exact .inl hl
  · rcases hr with hr | rfl
    · exact .inr (.inl hr)
    · exact h

end Check

open Check

namespace Expr

theorem branchComplaints_eq_nil_iff {place : Place} {thenType elseType : Ty} :
    branchComplaints place thenType elseType = [] ↔
      thenType = .unknown ∨ elseType = .unknown ∨ thenType = elseType := by
  rw [branchComplaints]
  split <;> simp_all
  tauto

theorem branchComplaints_of_below {place : Place} {thenType elseType thenType' elseType' : Ty}
    (ht : thenType.Below thenType') (he : elseType.Below elseType')
    (h : branchComplaints place thenType' elseType' = []) :
    branchComplaints place thenType elseType = [] := by
  rw [branchComplaints_eq_nil_iff] at h ⊢
  rcases ht with ht | rfl
  · exact .inl ht
  · rcases he with he | rfl
    · exact .inr (.inl he)
    · exact h

/-- No operator that was content complains when less is known of its operands. -/
theorem signComplaints_of_below {tokens : List Token} {types types' : Scope Ty} {left right : Expr}
    (hl : (left.type types).Below (left.type types'))
    (hr : (right.type types).Below (right.type types')) {op : BinaryOp} {sign : Token}
    (h : signComplaints tokens types' op left sign right = []) :
    signComplaints tokens types op left sign right = [] := by
  rcases op with op | r | op
  · obtain ⟨hleft, hright⟩ := List.append_eq_nil_iff.mp h
    exact List.append_eq_nil_iff.mpr
      ⟨operandComplaints_of_below hl hleft, operandComplaints_of_below hr hright⟩
  · rw [signComplaints] at h ⊢
    by_cases he : r.isEquality
    · rw [if_pos he] at h ⊢
      exact equalityComplaints_of_below hl hr h
    · rw [if_neg he] at h ⊢
      exact orderComplaints_of_below hl hr h
  · obtain ⟨hleft, hright⟩ := List.append_eq_nil_iff.mp h
    exact List.append_eq_nil_iff.mpr
      ⟨operandComplaints_of_below hl hleft, operandComplaints_of_below hr hright⟩

end Expr

/-! ## A table with and without a name -/

/-- Two tables that declare the same names, except for one that only the second needs to declare.
The types of the first lie below those of the second, which are all known. -/
structure Scope.Lacks (types types' : Scope Ty) (name : Text) : Prop where
  known : ∀ other t, types'.get? other = some t → t ≠ .unknown
  declared : (types'.get? name).isSome
  isSome : ∀ other, other ≠ name → (types.get? other).isSome = (types'.get? other).isSome
  below : ∀ other, ((types.get? other).getD .unknown).Below ((types'.get? other).getD .unknown)

namespace Scope.Lacks
variable {types types' : Scope Ty} {name : Text}

/-- A table without a name, and that table with the name. -/
theorem of_set (hknown : ∀ other t, types.get? other = some t → t ≠ .unknown)
    (hnew : types.get? name = none) {t : Ty} (ht : t ≠ .unknown) :
    types.Lacks (types.set name t) name where
  known := by
    intro other u hu
    by_cases ho : other = name
    · rw [ho, get?_set_self, Option.some_inj] at hu
      exact hu ▸ ht
    · exact hknown other u (by rwa [get?_set_of_ne types t ho] at hu)
  declared := by simp
  isSome other ho := by rw [get?_set_of_ne types t ho]
  below other := by
    by_cases ho : other = name
    · subst ho
      exact .inl (by rw [hnew]; rfl)
    · rw [get?_set_of_ne types t ho]
      exact .refl _

/-- An assignment in both tables keeps them apart in that name only. -/
theorem set (h : types.Lacks types' name) (other : Text) {t t' : Ty} (ht : t.Below t')
    (hknown : t' ≠ .unknown) : (types.set other t).Lacks (types'.set other t') name where
  known := by
    intro n u hu
    by_cases hn : n = other
    · rw [hn, get?_set_self, Option.some_inj] at hu
      exact hu ▸ hknown
    · exact h.known n u (by rwa [get?_set_of_ne types' t' hn] at hu)
  declared := by
    by_cases hn : name = other
    · simp [hn]
    · rw [get?_set_of_ne types' t' hn]
      exact h.declared
  isSome := by
    intro n hname
    by_cases hn : n = other
    · simp [hn]
    · rw [get?_set_of_ne types t hn, get?_set_of_ne types' t' hn]
      exact h.isSome n hname
  below := by
    intro n
    by_cases hn : n = other
    · simpa [hn] using ht
    · rw [get?_set_of_ne types t hn, get?_set_of_ne types' t' hn]
      exact h.below n

end Scope.Lacks

/-- The complaint about a reference to a name that is not declared. -/
def Diagnostic.undeclared (name : Text) (t : Token) : Diagnostic :=
  ⟨t.pos.place, .unassigned name⟩

namespace Expr
variable {tokens : List Token} {types types' : Scope Ty} {name : Text}

/-- Where all declared types are known, so is the type of an expression without complaints. -/
theorem type_ne_unknown (hknown : ∀ n t, types'.get? n = some t → t ≠ .unknown) {e : Expr}
    (h : e.complaints tokens types' = []) : e.type types' ≠ .unknown := by
  induction e with
  | literal t => exact t.value.ty_ne_unknown
  | identifier t =>
    rw [type]
    by_cases hr : isReserved t.text
    · simp [hr]
    · rw [if_neg hr]
      cases hg : types'.get? t.text with
      | none => simp [complaints, hr, hg] at h
      | some u => exact hknown t.text u hg
  | paren _ inner _ ih => exact ih h
  | unary op _ _ _ => cases op <;> simp [type]
  | binary op _ _ _ _ _ => rcases op with _ | _ | _ <;> simp [type]
  | ternary condition _ thenExpr _ elseExpr _ iht ihe =>
    simp only [complaints, List.append_eq_nil_iff] at h
    have hthen := iht h.1.1.1.2
    rw [type, if_neg hthen]
    exact hthen

/-- Without the name, less is known of an expression. A conditional takes the type of its other
branch, which is the same. -/
theorem type_below (hlacks : types.Lacks types' name) {e : Expr}
    (h : e.complaints tokens types' = []) : (e.type types).Below (e.type types') := by
  induction e with
  | literal t => exact .refl _
  | identifier t =>
    rw [type, type]
    split
    · exact .refl _
    · exact hlacks.below t.text
  | paren _ inner _ ih => exact ih h
  | unary op _ _ _ => cases op <;> exact .refl _
  | binary op _ _ _ _ _ => rcases op with _ | _ | _ <;> exact .refl _
  | ternary condition _ thenExpr _ elseExpr _ iht ihe =>
    simp only [complaints, List.append_eq_nil_iff] at h
    obtain ⟨⟨⟨⟨-, hthen⟩, helse⟩, -⟩, hbranches⟩ := h
    have hthenKnown := type_ne_unknown hlacks.known hthen
    have helseKnown := type_ne_unknown hlacks.known helse
    rw [type, type, if_neg hthenKnown]
    by_cases hu : thenExpr.type types = .unknown
    · have hsame : thenExpr.type types' = elseExpr.type types' := by
        simpa [branchComplaints_eq_nil_iff, hthenKnown, helseKnown] using hbranches
      rw [if_pos hu, hsame]
      exact ihe helse
    · rw [if_neg hu]
      exact iht hthen

/-- Without the name, the complaints about an expression are its references to the name. -/
theorem complaints_of_lacks (hlacks : types.Lacks types' name) (hname : isReserved name = false)
    {e : Expr} (h : e.complaints tokens types' = []) :
    e.complaints tokens types =
      if types.get? name = none then (e.references name).map (.undeclared name) else [] := by
  -- Operators add nothing to the complaints about their operands: they had none when all types were
  -- known, and have none about types that are not.
  induction e with
  | literal t => simp [complaints, references]
  | identifier t =>
    by_cases hr : isReserved t.text
    · have hne : t.text ≠ name := by
        rintro rfl
        simp [hr] at hname
      simp [complaints, references, hr, hne]
    · by_cases ht : t.text = name
      · subst ht
        cases hg : types.get? t.text <;> simp [complaints, references, hr, hg, Diagnostic.undeclared]
      · have hsome : (types'.get? t.text).isSome := by
          by_contra hnone
          simp [complaints, hr, hnone] at h
        simp [complaints, references, ht, (hlacks.isSome t.text ht).trans hsome]
  | paren _ inner _ ih => exact ih h
  | unary op _ operand ih =>
    cases op <;>
    · simp only [complaints, List.append_eq_nil_iff] at h
      have hsign := operandComplaints_of_below (type_below hlacks h.1) h.2
      rw [complaints, ih h.1, hsign, List.append_nil]
      rfl
  | binary op left sign right ihl ihr =>
    simp only [complaints, List.append_eq_nil_iff] at h
    obtain ⟨⟨hleft, hright⟩, hsign⟩ := h
    have hsign := signComplaints_of_below (type_below hlacks hleft) (type_below hlacks hright) hsign
    rw [complaints, ihl hleft, ihr hright, hsign, references]
    split <;> simp
  | ternary condition question thenExpr colon elseExpr ihc iht ihe =>
    simp only [complaints, List.append_eq_nil_iff] at h
    obtain ⟨⟨⟨⟨hcondition, hthen⟩, helse⟩, hoperand⟩, hbranches⟩ := h
    have hoperand := operandComplaints_of_below (type_below hlacks hcondition) hoperand
    have hbranches :=
      branchComplaints_of_below (type_below hlacks hthen) (type_below hlacks helse) hbranches
    rw [complaints, ihc hcondition, iht hthen, ihe helse, hoperand, hbranches, references]
    split <;> simp

end Expr

namespace Stmt
variable {tokens : List Token} {types types' : Scope Ty} {name : Text}

/-- A value of which less is known is no worse for a reserved name. -/
theorem settingComplaints_of_below {target : Token} {t t' : Ty} (ht : t.Below t')
    (hknown : t' ≠ .unknown) (h : settingComplaints target t' = []) :
    settingComplaints target t = [] := by
  rcases ht with rfl | rfl
  · simp [settingComplaints]
  · exact h

/-- The step: a statement that is right with the name declares what keeps the tables apart in
that name only. -/
theorem declare_lacks (hlacks : types.Lacks types' name) {s : Stmt}
    (h : s.complaints tokens types' = []) :
    (s.declare types).Lacks (s.declare types') name := by
  cases s with
  | assign target _ value =>
    have hvalue := (List.append_eq_nil_iff.mp h).1
    rw [declare, declare]
    split
    · exact hlacks
    · exact hlacks.set target.text (Expr.type_below hlacks hvalue)
        (Expr.type_ne_unknown hlacks.known hvalue)
  | _ => exact hlacks

/-- A name stays undeclared until a statement assigns it. -/
theorem get?_declare_eq_none_iff (hname : isReserved name = false) (s : Stmt) :
    (s.declare types).get? name = none ↔ types.get? name = none ∧ s.assigns name = false := by
  cases s with
  | assign target _ value =>
    by_cases ht : target.text = name
    · simp [declare, assigns, ht, hname]
    · rw [declare]
      split
      · simp [assigns, ht]
      · simp [assigns, ht, Scope.get?_set_of_ne types _ (Ne.symm ht)]
  | _ => simp [declare, assigns]

/-- Without the name, the complaints about a statement are its references to the name. -/
theorem complaints_of_lacks (hlacks : types.Lacks types' name) (hname : isReserved name = false)
    {s : Stmt} (h : s.complaints tokens types' = []) :
    s.complaints tokens types =
      if types.get? name = none then (s.references name).map (.undeclared name) else [] := by
  have hargs : ∀ es : List Expr, es.flatMap (Expr.complaints tokens types') = [] →
      es.flatMap (Expr.complaints tokens types) =
        if types.get? name = none then (es.flatMap (Expr.references name)).map (.undeclared name)
        else [] := by
    intro es hes
    induction es with
    | nil => simp
    | cons e es ih =>
      obtain ⟨he, hes⟩ := List.append_eq_nil_iff.mp hes
      rw [List.flatMap_cons, List.flatMap_cons, ih hes, Expr.complaints_of_lacks hlacks hname he]
      split <;> simp
  cases s with
  | assign target _ value =>
    obtain ⟨hvalue, hsetting⟩ := List.append_eq_nil_iff.mp h
    have hsetting := settingComplaints_of_below (Expr.type_below hlacks hvalue)
      (Expr.type_ne_unknown hlacks.known hvalue) hsetting
    rw [complaints, hsetting, List.append_nil]
    exact Expr.complaints_of_lacks hlacks hname hvalue
  | print _ arg more => exact hargs (arg :: more) h
  | expr e => exact Expr.complaints_of_lacks hlacks hname h
  | _ => simp [complaints, references]

/-- The run: without the name, the complaints about some statements are the references to it that
stand before it is assigned. -/
theorem complaintsAll_of_lacks (hlacks : types.Lacks types' name)
    (hname : isReserved name = false) {ss : List Stmt}
    (h : complaintsAll tokens types' ss = []) :
    complaintsAll tokens types ss =
      if types.get? name = none then (unassignedReferences name ss).map (.undeclared name)
      else [] := by
  induction ss generalizing types types' with
  | nil => simp [complaintsAll, unassignedReferences]
  | cons s ss ih =>
    obtain ⟨hs, hss⟩ := List.append_eq_nil_iff.mp h
    rw [complaintsAll, complaints_of_lacks hlacks hname hs, ih (declare_lacks hlacks hs) hss]
    by_cases hn : types.get? name = none
    · cases ha : s.assigns name <;>
        simp [get?_declare_eq_none_iff hname, unassignedReferences, hn, ha]
    · simp [get?_declare_eq_none_iff hname, hn]

end Stmt

/-- If nothing is wrong with a program once a name is declared, then without the name exactly its
references are complained about, up to the end of the first assignment to it, once each and in the
order of the source. -/
theorem Program.check_undeclared (p : Program) {types : Scope Ty} {name : Text} {t : Ty}
    (hknown : ∀ other u, types.get? other = some u → u ≠ .unknown)
    (hname : isReserved name = false) (hnew : types.get? name = none) (ht : t ≠ .unknown)
    (hright : (p.check { types := types.set name t }).2.diagnostics = []) :
    (p.check { types }).1 = .ok (Stmt.unassignedReferences name p.stmts).isEmpty ∧
      (p.check { types }).2.diagnostics =
        (Stmt.unassignedReferences name p.stmts).map (fun r => ⟨r.pos.place, .unassigned name⟩) ∧
      (Stmt.unassignedReferences name p.stmts).Sublist (Stmt.tokensOf p.stmts) := by
  have hdiagnostics : ∀ g : Scope Ty, (p.checked { types := g }).diagnostics =
      Stmt.complaintsAll p.tokens g p.stmts := by
    intro g
    simp [Program.checked, Checker.noting, Checker.declaring]
  rw [p.check_eq rfl] at hright
  have hmissing := Stmt.complaintsAll_of_lacks (Scope.Lacks.of_set hknown hnew ht) hname
    ((hdiagnostics _).symm.trans hright)
  rw [if_pos hnew] at hmissing
  refine ⟨?_, ?_, Stmt.unassignedReferences_sublist name p.stmts⟩
  · rw [p.check_eq rfl, hdiagnostics, hmissing, List.isEmpty_map]
  · rw [p.check_eq rfl, hdiagnostics, hmissing]
    rfl

theorem Program.check_undeclared_conditional :
    let text : Text :=
      "b = a + 1\x0atree \x7b a \x7d\x0aprint b (x == 'k' ? a : b)\x0aa = a * b\x0aprint -a"
    let p := (parseProgram text).program
    let types : Scope Ty := Scope.set {} "x" .string
    (p.check { types := types.set "a" .number }).2.diagnostics = [] ∧
      (p.check { types }).2.diagnostics.map Diagnostic.text =
        [("line:1 col:5 -- a has not been assigned a value" : Text),
          "line:3 col:21 -- a has not been assigned a value",
          "line:4 col:5 -- a has not been assigned a value"] := by
  intro text p types
  have hknown : ∀ other u, types.get? other = some u → u ≠ .unknown := by
    intro other u hu
    by_cases ho : other = "x"
    · rw [ho, Scope.get?_set_self, Option.some_inj] at hu
      simp [← hu]
    · rw [Scope.get?_set_of_ne _ _ ho] at hu
      simp [Scope.get?, Scope.frames, Frame.get?] at hu
  have hright : (p.check { types := types.set "a" .number }).2.diagnostics = [] := by decide +kernel
  obtain ⟨-, hdiagnostics, -⟩ := p.check_undeclared hknown (by decide) (by decide +kernel)
    (by decide : Ty.number ≠ .unknown) hright
  refine ⟨hright, ?_⟩
  rw [hdiagnostics]
  decide +kernel

end Reckoner
