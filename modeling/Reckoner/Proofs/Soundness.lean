import Reckoner.Proofs.Meaning
import Reckoner.Proofs.Simplifying
import Reckoner.Proofs.Typing

/-!
# Checked programs do not go wrong

The checker and the machine walk the same trees with rules of their own. This module relates the
two: if the variables hold values of their declared types, an expression without complaints has a
value, of the type that the checker computes, and a statement without complaints runs to its end
and leaves variables of their declared types.
-/
namespace Reckoner

/-- A value always has a known type. -/
theorem Value.ty_ne_unknown (v : Value) : v.ty ≠ .unknown := by
  obtain ⟨d, _⟩ := v
  cases d <;> simp [Value.ty, Datum.ty]

theorem Value.exists_number {v : Value} (h : v.ty = .number) : ∃ x p, v = ⟨.number x, p⟩ := by
  obtain ⟨d, p⟩ := v
  cases d with
  | number x => exact ⟨x, p, rfl⟩
  | string _ | boolean _ => cases h

theorem Value.exists_boolean {v : Value} (h : v.ty = .boolean) : ∃ b p, v = ⟨.boolean b, p⟩ := by
  obtain ⟨d, p⟩ := v
  cases d with
  | boolean b => exact ⟨b, p, rfl⟩
  | string _ | number _ => cases h

/-- Values that may be compared by a relation have a truth value as the result. -/
theorem Relation.apply_eq_ok (r : Relation) {u v : Value}
    (h : r.isEquality ∨ u.ty = v.ty ∧ u.ty ≠ .boolean) :
    ∃ b place, r.apply u v = .ok ⟨.boolean b, place⟩ := by
  obtain ⟨d, p⟩ := u
  obtain ⟨d', p'⟩ := v
  cases r <;> cases d <;> cases d' <;>
    simp_all [Relation.apply, Relation.isEquality, Value.equals, Value.compare, Value.ty, Datum.ty]

namespace Frame
variable {α : Type}

theorem names_cons (n : Text) (b : α) (f : Frame α) : names ((n, b) :: f) = n :: f.names := rfl

/-- Binding a name again does not move it. -/
theorem names_set (f : Frame α) (name : Text) (a : α) :
    (f.set name a).names = if name ∈ f.names then f.names else f.names ++ [name] := by
  induction f with
  | nil => rfl
  | cons p f ih =>
    obtain ⟨n, b⟩ := p
    rw [set, names_cons]
    by_cases h : n = name
    · simp [h, names_cons]
    · rw [if_neg h, names_cons, ih]
      by_cases hm : name ∈ names f
      · simp [hm]
      · simp [hm, Ne.symm h]

end Frame

namespace Scope
variable {α : Type}

theorem keys_of_inner_eq_nil {s : Scope α} (h : s.inner = []) : s.keys = s.outermost.names := by
  simp [keys, frames, h]

theorem set_of_inner_eq_nil {s : Scope α} (h : s.inner = []) (name : Text) (a : α) :
    s.set name a = { s with outermost := s.outermost.set name a } := by
  simp [set, h]

theorem get?_set_of_ne (s : Scope α) {name other : Text} (a : α) (h : other ≠ name) :
    (s.set name a).get? other = s.get? other := by
  unfold set get? frames
  cases s.inner <;> simp [List.findSome?_cons, Frame.get?_set_of_ne _ a h]

end Scope

/-- The declared types and the variables of a session belong together: the same names stand in the
same order in both outermost frames, there are no other frames, and each name is declared with the
type of its value. -/
structure Agree (types : Scope Ty) (vars : Scope Value) : Prop where
  inner_types : types.inner = []
  inner_vars : vars.inner = []
  keys : types.keys = vars.keys
  typed : ∀ name t, types.get? name = some t →
    (t = .number ∨ t = .string ∨ t = .boolean) ∧ ∃ v, vars.get? name = some v ∧ v.ty = t

/-- A session begins with nothing declared and nothing bound. -/
theorem Agree.empty : Agree {} {} :=
  ⟨rfl, rfl, rfl, fun name t h => by simp [Scope.get?, Scope.frames, Frame.get?] at h⟩

/-- An assignment binds and declares alike. -/
theorem Agree.set {types : Scope Ty} {vars : Scope Value} (h : Agree types vars) (name : Text)
    (v : Value) : Agree (types.set name v.ty) (vars.set name v) where
  inner_types := by rw [Scope.set_of_inner_eq_nil h.inner_types]; exact h.inner_types
  inner_vars := by rw [Scope.set_of_inner_eq_nil h.inner_vars]; exact h.inner_vars
  keys := by
    have hkeys := h.keys
    rw [Scope.keys_of_inner_eq_nil h.inner_types, Scope.keys_of_inner_eq_nil h.inner_vars] at hkeys
    rw [Scope.set_of_inner_eq_nil h.inner_types, Scope.set_of_inner_eq_nil h.inner_vars,
      Scope.keys_of_inner_eq_nil (by exact h.inner_types),
      Scope.keys_of_inner_eq_nil (by exact h.inner_vars), Frame.names_set, Frame.names_set, hkeys]
  typed := by
    intro other t ht
    by_cases ho : other = name
    · subst ho
      simp only [Scope.get?_set_self, Option.some.injEq] at ht
      have hne := v.ty_ne_unknown
      refine ⟨?_, v, Scope.get?_set_self vars other v, ht⟩
      cases t <;> simp_all
    · rw [Scope.get?_set_of_ne types v.ty ho] at ht
      rw [Scope.get?_set_of_ne vars v ho]
      exact h.typed other t ht

/-- Every declared name is bound to a value of its type. -/
def Fits (types : Scope Ty) (vars : Scope Value) : Prop :=
  ∀ name t, types.get? name = some t → ∃ v, vars.get? name = some v ∧ v.ty = t

namespace Check

theorem eq_of_operandComplaints {tokens : List Token} {operand : Expr} {t : Ty}
    {needed : OperandClass} (h : operandComplaints tokens operand t needed = [])
    (ht : t ≠ .unknown) : t = needed.ty := by
  unfold operandComplaints at h
  split at h
  · next hor => exact hor.resolve_left ht
  · simp at h

/-- A numeric operand without complaints stands for a number. -/
theorem exists_numberOf {tokens : List Token} {operand : Expr} {v : Value} {t : Ty}
    (hty : v.ty = t) (h : operandComplaints tokens operand t .numeric = []) :
    ∃ x, Run.numberOf tokens operand v = .ok x := by
  obtain ⟨x, p, rfl⟩ :=
    Value.exists_number (hty.trans (eq_of_operandComplaints h (hty ▸ v.ty_ne_unknown)))
  exact ⟨x, rfl⟩

/-- A logical operand without complaints stands for a truth value. -/
theorem exists_booleanOf {tokens : List Token} {operand : Expr} {v : Value} {t : Ty}
    (hty : v.ty = t) (h : operandComplaints tokens operand t .boolean = []) :
    ∃ b, Run.booleanOf tokens operand v = .ok b := by
  obtain ⟨b, p, rfl⟩ :=
    Value.exists_boolean (hty.trans (eq_of_operandComplaints h (hty ▸ v.ty_ne_unknown)))
  exact ⟨b, rfl⟩

theorem eq_of_orderComplaints {place : Place} {symbol : Text} {left right : Ty}
    (h : orderComplaints place symbol left right = []) (hl : left ≠ .unknown)
    (hr : right ≠ .unknown) : left = right ∧ left ≠ .boolean := by
  cases left <;> cases right <;> simp_all [orderComplaints]

end Check

open Run Check

/-- An expression without complaints has a value, of the type that the checker computes. -/
theorem Expr.meaning_of_complaints_eq_nil {types : Scope Ty} {vars : Scope Value}
    (hfit : Fits types vars) (tokens : List Token) (tracing : Tracing) (e : Expr)
    (h : e.complaints tokens types = []) :
    ∃ v, e.meaning tokens vars tracing = .ok v ∧ v.ty = e.type types := by
  induction e with
  | literal t => exact ⟨t.value, rfl, rfl⟩
  | identifier t =>
    by_cases hr : isReserved t.text
    · obtain ⟨s, hs⟩ := Option.isSome_iff_exists.mp hr
      exact ⟨⟨.boolean (s.get tracing), t.pos.place⟩, by simp [meaning, hr, Setting.read, hs],
        by simp [type, hr, Value.ty, Datum.ty]⟩
    · cases hg : types.get? t.text with
      | none => simp [complaints, hr, hg] at h
      | some ty =>
        obtain ⟨v, hv, hty⟩ := hfit _ _ hg
        exact ⟨v, by simp [meaning, hr, hv], by simp [type, hr, hg, hty]⟩
  | paren _ inner _ ih => exact ih h
  | unary op sign operand ih =>
    cases op with
    | not =>
      simp only [complaints, List.append_eq_nil_iff] at h
      obtain ⟨v, hv, hty⟩ := ih h.1
      obtain ⟨b, hb⟩ := exists_booleanOf hty h.2
      exact ⟨⟨.boolean !b, sign.pos.place⟩, by simp [meaning, hv, hb], rfl⟩
    | negate =>
      simp only [complaints, List.append_eq_nil_iff] at h
      obtain ⟨v, hv, hty⟩ := ih h.1
      obtain ⟨x, hx⟩ := exists_numberOf hty h.2
      exact ⟨⟨.number x.neg, sign.pos.place⟩, by simp [meaning, hv, hx], rfl⟩
  | binary op left sign right ihl ihr =>
    simp only [complaints, List.append_eq_nil_iff] at h
    obtain ⟨u, hu, htu⟩ := ihl h.1.1
    obtain ⟨v, hv, htv⟩ := ihr h.1.2
    rcases op with op | r | op
    · simp only [signComplaints, List.append_eq_nil_iff] at h
      obtain ⟨x, hx⟩ := exists_numberOf htu h.2.1
      obtain ⟨y, hy⟩ := exists_numberOf htv h.2.2
      exact ⟨⟨.number (op.apply x y), left.place⟩, by simp [meaning, hu, hv, hx, hy], rfl⟩
    · have hcmp : r.isEquality ∨ u.ty = v.ty ∧ u.ty ≠ .boolean := by
        by_cases hr : r.isEquality
        · exact .inl hr
        · simp only [signComplaints, hr] at h
          rw [htu, htv]
          exact .inr (eq_of_orderComplaints h.2 (htu ▸ u.ty_ne_unknown) (htv ▸ v.ty_ne_unknown))
      obtain ⟨b, place, hb⟩ := r.apply_eq_ok hcmp
      exact ⟨⟨.boolean b, left.place⟩, by simp [meaning, hu, hv, hb], rfl⟩
    · simp only [signComplaints, List.append_eq_nil_iff] at h
      obtain ⟨b, hb⟩ := exists_booleanOf htu h.2.1
      obtain ⟨c, hc⟩ := exists_booleanOf htv h.2.2
      by_cases hd : op.decidedBy b
      · exact ⟨⟨.boolean b, left.place⟩, by simp [meaning, hu, hb, hd], rfl⟩
      · exact ⟨⟨.boolean (op.apply b c), left.place⟩, by simp [meaning, hu, hv, hb, hc, hd], rfl⟩
  | ternary condition question thenExpr colon elseExpr ihc iht ihe =>
    simp only [complaints, List.append_eq_nil_iff] at h
    obtain ⟨⟨⟨⟨hc, ht⟩, he⟩, hcond⟩, hbranch⟩ := h
    obtain ⟨u, hu, htu⟩ := ihc hc
    obtain ⟨v, hv, htv⟩ := iht ht
    obtain ⟨w, hw, htw⟩ := ihe he
    have hthen := htv ▸ v.ty_ne_unknown
    have helse := htw ▸ w.ty_ne_unknown
    obtain ⟨b, hb⟩ := exists_booleanOf htu hcond
    have hsame : thenExpr.type types = elseExpr.type types := by
      refine Decidable.byContradiction fun hne => ?_
      simp [branchComplaints, hthen, helse, hne] at hbranch
    cases b with
    | true => exact ⟨v, by simp [meaning, hu, hb, hv], by simp [type, hthen, htv]⟩
    | false => exact ⟨w, by simp [meaning, hu, hb, hw], by simp [type, htw, hsame]⟩

theorem Agree.fits {types : Scope Ty} {vars : Scope Value} (h : Agree types vars) :
    Fits types vars :=
  fun name t ht => (h.typed name t ht).2

/-! ## Statements -/

/-- An expression without complaints leaves its value on the stack of the machine. -/
theorem Expr.eval_of_complaints_eq_nil {types : Scope Ty} {m : Machine} (hfit : Fits types m.vars)
    {tokens : List Token} {e : Expr} (h : e.complaints tokens types = []) :
    ∃ v, e.eval tokens m = (.ok (), m.pushed v) ∧ v.ty = e.type types := by
  obtain ⟨v, hv, hty⟩ := e.meaning_of_complaints_eq_nil hfit tokens m.tracing h
  have hspec := e.eval_spec tokens m
  rw [hv] at hspec
  exact ⟨v, hspec, hty⟩

theorem Expr.evalTexts_of_complaints_eq_nil {types : Scope Ty} {m : Machine}
    (hfit : Fits types m.vars) {tokens : List Token} {es : List Expr}
    (h : es.flatMap (Expr.complaints tokens types) = []) :
    ∃ text, Expr.evalTexts tokens es m = (.ok text, m) := by
  induction es with
  | nil => exact ⟨[], rfl⟩
  | cons e es ih =>
    simp only [List.flatMap_cons, List.append_eq_nil_iff] at h
    obtain ⟨v, hv, -⟩ := Expr.eval_of_complaints_eq_nil hfit h.1
    obtain ⟨text, ht⟩ := ih h.2
    exact ⟨v.text ++ text, by simp [evalTexts, hv, ht]⟩

/-- A reserved name takes every truth value. -/
theorem Setting.assign_eq_ok {name : Text} {v : Value} (hr : isReserved name)
    (hv : v.ty = .boolean) (t : Tracing) :
    ∃ t' confirmation, Setting.assign name v t = .ok (t', confirmation) := by
  obtain ⟨s, hs⟩ := Option.isSome_iff_exists.mp hr
  obtain ⟨d, _⟩ := v
  cases d with
  | boolean on => exact ⟨s.set on t, s.confirmation on, by simp [Setting.assign, hs]⟩
  | number _ => simp [Value.ty, Datum.ty] at hv
  | string _ => simp [Value.ty, Datum.ty] at hv

namespace Stmt

/-- An inspection only writes. -/
theorem inspect_eq_ok {s : Stmt} (h : Token.Ordered s.tokens) (tokens : List Token)
    (kind : Inspection) (m : Machine) : ∃ es, inspect tokens kind s m = (.ok (), m.wrote es) := by
  cases kind with
  | tree => exact ⟨_, printLine_apply _ m⟩
  | tokens => exact ⟨_, forM_apply (fun t m => printLine_apply t.describe m) _ m⟩
  | gui => exact ⟨_, debug_apply _ m⟩
  | refactor =>
    obtain ⟨text, htext⟩ := simplified_eq_ok h tokens
    simp only [inspect, htext]
    exact ⟨_, printLine_apply text m⟩

/-- A statement without complaints runs to its end, and declares what it binds. -/
theorem exec_of_complaints_eq_nil {types : Scope Ty} {m : Machine} (hagree : Agree types m.vars)
    {tokens : List Token} {s : Stmt} (ho : Token.Ordered s.tokens)
    (h : s.complaints tokens types = []) :
    ∃ m', s.exec tokens m = (.ok (), m') ∧ Agree (s.declare types) m'.vars := by
  cases s with
  | assign name equals value =>
    simp only [complaints, List.append_eq_nil_iff] at h
    obtain ⟨v, hv, hty⟩ := Expr.eval_of_complaints_eq_nil hagree.fits h.1
    by_cases hr : isReserved name.text
    · have hb : v.ty = .boolean := by
        have hne := v.ty_ne_unknown
        refine Decidable.byContradiction fun hnb => ?_
        simp [settingComplaints, hr, ← hty, hnb, hne] at h
      obtain ⟨t, confirmation, ht⟩ := Setting.assign_eq_ok hr hb m.tracing
      exact ⟨{ m with tracing := t }.wrote [⟨.program, confirmation⟩],
        by simp [exec, hv, bind, hr, ht], by simpa [declare, hr] using hagree⟩
    · have hx : (assign name equals value).exec tokens m = bind name.text v m := by
        simp [exec, hv]
      exact ⟨_, hx.trans (bind_apply hr v m),
        by simpa [declare, hr, hty] using hagree.set name.text v⟩
  | print keyword arg more =>
    obtain ⟨text, ht⟩ := Expr.evalTexts_of_complaints_eq_nil hagree.fits h
    exact ⟨m.wrote [⟨.program, text.line⟩], by simp [exec, ht], hagree⟩
  | expr e =>
    obtain ⟨v, hv, -⟩ := Expr.eval_of_complaints_eq_nil hagree.fits h
    exact ⟨m.wrote [⟨.program, v.text.line⟩], by simp [exec, hv], hagree⟩
  | vars keyword =>
    have hw := forM_apply (fun p m => write_apply .program (varLine p.1 p.2) m) m.vars.bindings m
    exact ⟨m.wrote _, by simpa only [exec, Effect.bind_apply, Effect.get_apply] using hw, hagree⟩
  | block kind keyword opening body closing =>
    obtain ⟨es, hes⟩ := inspect_eq_ok ho tokens kind m
    exact ⟨m.wrote es, hes, hagree⟩
  | wrap kind keyword inner =>
    obtain ⟨es, hes⟩ := inspect_eq_ok ho tokens kind m
    exact ⟨m.wrote es, hes, hagree⟩

end Stmt

/-- A program without complaints runs to its end, and declares what it binds. -/
theorem Program.exec_of_complaintsAll_eq_nil {types : Scope Ty} {m : Machine}
    (hagree : Agree types m.vars) {p : Program} (ho : Token.Ordered (Stmt.tokensOf p.stmts))
    (h : Stmt.complaintsAll p.tokens types p.stmts = []) :
    ∃ m', p.exec m = (.ok (), m') ∧ Agree (Stmt.declareAll types p.stmts) m'.vars := by
  obtain ⟨ss, tokens⟩ := p
  induction ss generalizing types m with
  | nil => exact ⟨m, rfl, hagree⟩
  | cons s ss ih =>
    simp only [Stmt.complaintsAll, List.append_eq_nil_iff] at h
    obtain ⟨hs, hss, -⟩ := List.pairwise_append.mp ho
    have hclear : Agree types { m with values := [] }.vars := hagree
    obtain ⟨m₁, h₁, hagree₁⟩ := Stmt.exec_of_complaints_eq_nil hclear hs h.1
    obtain ⟨m₂, h₂, hagree₂⟩ := ih hagree₁ hss h.2
    exact ⟨m₂, by rw [exec_cons, h₁]; exact h₂, hagree₂⟩

end Reckoner
