import Reckoner.Proofs.Moving

/-!
# Simplifying keeps the meaning

Where an expression is compared with a truth value, it is one itself, or the checker would complain.
So the comparison says no more than the expression or its negation, and may be replaced by it: the
type stays, no complaint arises, and the value holds the same.

Sums and products are left out here. That a number times zero is zero, say, holds of finite numbers
only.
-/
namespace Reckoner

open Run Check

/-- Whether a truth value equals another one is the first of them or its negation. -/
theorem Relation.apply_boolean {r : Relation} {u v : Value} {b c : Bool}
    (hr : r.isEquality = true) (hu : u.datum = .boolean c) (hv : v.datum = .boolean b) :
    r.apply u v = .ok ⟨.boolean (if b = (r == .eq) then c else !c), u.place⟩ := by
  rw [Relation.apply, if_pos hr]
  cases r with
  | eq =>
    rw [Value.equals, hu, hv]
    cases b <;> cases c <;> rfl
  | ne =>
    rw [Value.equals, hu, hv]
    cases b <;> cases c <;> rfl
  | lt | le | gt | ge => simp [Relation.isEquality] at hr

namespace Expr

/-! ## Comparisons with a truth value -/

/-- Whether an expression is a literal that is zero or one. -/
def isNeutral (e : Expr) : Bool := e.isNumber .zero || e.isNumber .one

/-- Whether no sum and no product within an expression has a literal operand that is zero or one. -/
def neutralFree : Expr → Bool
  | literal _ | identifier _ => true
  | paren _ inner _ => inner.neutralFree
  | unary _ _ operand => operand.neutralFree
  | binary op left _ right =>
    left.neutralFree && right.neutralFree &&
      !((op == .arith .add || op == .arith .mul) && (left.isNeutral || right.isNeutral))
  | ternary condition _ thenExpr _ elseExpr =>
    condition.neutralFree && thenExpr.neutralFree && elseExpr.neutralFree

/-- Without neutral operands, only a comparison with a truth value is reduced. -/
theorem reduction_of_neutralFree {op : BinaryOp} {left right : Expr}
    (h : ((op == .arith .add || op == .arith .mul) &&
      (left.isNeutral || right.isNeutral)) = false) :
    reduction op left right = .keep ∨
      ∃ r b, op = .relation r ∧ r.isEquality = true ∧ right.isBoolean b = true ∧
        reduction op left right = if b = (r == .eq) then .left else .negatedLeft := by
  unfold reduction
  split
  · split_ifs with ht hf
    · exact .inr ⟨.eq, true, rfl, rfl, ht, rfl⟩
    · exact .inr ⟨.eq, false, rfl, rfl, hf, rfl⟩
    · exact .inl rfl
  · split_ifs with ht hf
    · exact .inr ⟨.ne, true, rfl, rfl, ht, rfl⟩
    · exact .inr ⟨.ne, false, rfl, rfl, hf, rfl⟩
    · exact .inl rfl
  · simp_all [isNeutral]
  · simp_all [isNeutral]
  · exact .inl rfl

theorem exists_literal_of_isBoolean {b : Bool} {e : Expr} (h : e.isBoolean b = true) :
    ∃ t, e = literal t ∧ t.datum = .boolean b := by
  cases e with
  | literal t => exact ⟨t, rfl, beq_iff_eq.mp h⟩
  | _ => simp [isBoolean] at h

section
variable {types : Scope Ty} {vars : Scope Value} {tokens : List Token} {tracing : Tracing}

/-- What is compared with a truth value is a truth value. -/
theorem type_of_comparison (hfit : Fits types vars) {r : Relation} {b : Bool} {left right : Expr}
    {sign : Token} (hr : r.isEquality = true) (hb : right.isBoolean b = true)
    (h : (binary (.relation r) left sign right).complaints tokens types = []) :
    left.type types = .boolean := by
  simp only [complaints, signComplaints, hr, if_true, List.append_eq_nil_iff,
    equalityComplaints_eq_nil_iff] at h
  obtain ⟨v, -, hv⟩ := left.meaning_of_complaints_eq_nil hfit tokens {} h.1.1
  obtain ⟨t, rfl, ht⟩ := exists_literal_of_isBoolean hb
  have hright : (literal t).type types = .boolean := by rw [type, ht, Datum.ty]
  rcases h.2 with hl | hr | hl
  · exact absurd (hv.trans hl) v.ty_ne_unknown
  · simp [hright] at hr
  · exact hl.trans hright

theorem meaning_comparison {r : Relation} {b c : Bool} {left right : Expr} {u : Value}
    (hr : r.isEquality = true) (hb : right.isBoolean b = true)
    (hu : left.meaning tokens vars tracing = .ok u) (hc : u.datum = .boolean c) (sign : Token) :
    (binary (.relation r) left sign right).meaning tokens vars tracing =
      .ok ⟨.boolean (if b = (r == .eq) then c else !c), left.place⟩ := by
  obtain ⟨t, rfl, ht⟩ := exists_literal_of_isBoolean hb
  have hvalue : t.value.datum = .boolean b := ht
  simp [meaning, hu, Relation.apply_boolean hr hc hvalue]

theorem complaints_negated {atomic : Bool} {e : Expr} (h : e.complaints tokens types = [])
    (ht : e.type types = .boolean) : (e.negated atomic).complaints tokens types = [] := by
  cases atomic <;> simp [negated, complaints, h, type, ht, operandComplaints, OperandClass.ty]

theorem meaning_negated {atomic : Bool} {e : Expr} {u : Value} {c : Bool}
    (hu : e.meaning tokens vars tracing = .ok u) (hc : u.datum = .boolean c) :
    ∃ v, (e.negated atomic).meaning tokens vars tracing = .ok v ∧ v.datum = .boolean !c := by
  cases atomic <;> exact ⟨⟨.boolean !c, _⟩, by simp [negated, meaning, hu, booleanOf, hc]; rfl, rfl⟩

end

/-! ## Expressions that keep the meaning of others -/

/-- An expression may stand for another one: it is of the same type, there are no complaints about
it, and its value holds the same. -/
structure Keeps (types : Scope Ty) (vars : Scope Value) (tracing : Tracing)
    (tokens tokens' : List Token) (e e' : Expr) : Prop where
  type : e'.type types = e.type types
  complaints : e'.complaints tokens' types = []
  follows : Follows (e.meaning tokens vars tracing) (e'.meaning tokens' vars tracing)

namespace Keeps
variable {types : Scope Ty} {vars : Scope Value} {tracing : Tracing} {tokens tokens' : List Token}

theorem unary {op : UnaryOp} {sign : Token} {operand operand' : Expr}
    (h : (unary op sign operand).complaints tokens types = [])
    (ho : Keeps types vars tracing tokens tokens' operand operand') :
    Keeps types vars tracing tokens tokens' (unary op sign operand) (unary op sign operand') where
  type := by cases op <;> rfl
  complaints := by
    cases op <;> simp_all [Expr.complaints, ho.complaints, ho.type, operandComplaints_eq_nil_iff]
  follows := ho.follows.unary op sign sign

theorem binary {op : BinaryOp} {sign : Token} {left right left' right' : Expr}
    (h : (binary op left sign right).complaints tokens types = [])
    (hl : Keeps types vars tracing tokens tokens' left left')
    (hr : Keeps types vars tracing tokens tokens' right right') :
    Keeps types vars tracing tokens tokens' (binary op left sign right)
      (binary op left' sign right') where
  type := by cases op <;> rfl
  complaints := by
    simp only [Expr.complaints, List.append_eq_nil_iff] at h ⊢
    exact ⟨⟨hl.complaints, hr.complaints⟩,
      (signComplaints_eq_nil_iff hl.type hr.type op sign sign tokens tokens').mpr h.2⟩
  follows := hl.follows.binary hr.follows op sign sign

theorem ternary {condition thenExpr elseExpr condition' thenExpr' elseExpr' : Expr}
    {question colon : Token}
    (h : (ternary condition question thenExpr colon elseExpr).complaints tokens types = [])
    (hc : Keeps types vars tracing tokens tokens' condition condition')
    (ht : Keeps types vars tracing tokens tokens' thenExpr thenExpr')
    (he : Keeps types vars tracing tokens tokens' elseExpr elseExpr') :
    Keeps types vars tracing tokens tokens' (ternary condition question thenExpr colon elseExpr)
      (ternary condition' question thenExpr' colon elseExpr') where
  type := by rw [Expr.type, Expr.type, ht.type, he.type]
  complaints := by
    simp_all [Expr.complaints, hc.complaints, ht.complaints, he.complaints, hc.type, ht.type,
      he.type, operandComplaints_eq_nil_iff, branchComplaints]
  follows := hc.follows.ternary ht.follows he.follows question colon question colon

/-- A comparison with a truth value may be replaced by what is compared, or by its negation. -/
theorem comparison (hfit : Fits types vars) {r : Relation} {b : Bool} {left right left' : Expr}
    {sign : Token} (hr : r.isEquality = true) (hb : right.isBoolean b = true)
    (h : (Expr.binary (.relation r) left sign right).complaints tokens types = [])
    (hl : Keeps types vars tracing tokens tokens' left left') (atomic : Bool) :
    Keeps types vars tracing tokens tokens' (Expr.binary (.relation r) left sign right)
      (if b = (r == .eq) then left' else left'.negated atomic) := by
  have htype := type_of_comparison hfit hr hb h
  simp only [Expr.complaints, List.append_eq_nil_iff] at h
  obtain ⟨u, hu, hty⟩ := left.meaning_of_complaints_eq_nil hfit tokens tracing h.1.1
  obtain ⟨c, place, rfl⟩ := Value.exists_boolean (hty.trans htype)
  obtain ⟨u', hu', hdatum⟩ := hl.follows _ hu
  have hvalue := meaning_comparison hr hb hu rfl sign
  split
  · next heq =>
    rw [if_pos heq] at hvalue
    refine ⟨hl.type.trans htype, hl.complaints, fun v hv => ⟨u', hu', ?_⟩⟩
    cases hvalue.symm.trans hv
    exact hdatum
  · next heq =>
    rw [if_neg heq] at hvalue
    refine ⟨rfl, complaints_negated hl.complaints (hl.type.trans htype), fun v hv => ?_⟩
    cases hvalue.symm.trans hv
    exact meaning_negated hu' hdatum

end Keeps

/-- A simplified expression keeps the meaning. -/
theorem keeps_simplify {types : Scope Ty} {vars : Scope Value} (hfit : Fits types vars)
    (tracing : Tracing) (tokens tokens' : List Token) {e : Expr} (hfree : e.neutralFree = true)
    (h : e.complaints tokens types = []) :
    Keeps types vars tracing tokens tokens' e e.simplify := by
  induction e with
  | literal t => exact ⟨rfl, rfl, fun v hv => ⟨v, hv, rfl⟩⟩
  | identifier t => exact ⟨rfl, h, fun v hv => ⟨v, hv, rfl⟩⟩
  | paren opening inner closing ih =>
    obtain ⟨htype, hcomplaints, hfollows⟩ := ih hfree h
    exact ⟨htype, hcomplaints, hfollows⟩
  | unary op sign operand ih =>
    refine Keeps.unary h (ih hfree ?_)
    cases op <;> exact (List.append_eq_nil_iff.mp h).1
  | binary op left sign right ihl ihr =>
    simp only [neutralFree, Bool.and_eq_true, Bool.not_eq_true'] at hfree
    obtain ⟨⟨hl, hr⟩, hop⟩ := hfree
    have hparts := (List.append_eq_nil_iff.mp h).1
    have hleft := ihl hl (List.append_eq_nil_iff.mp hparts).1
    have hright := ihr hr (List.append_eq_nil_iff.mp hparts).2
    rw [simplify]
    rcases reduction_of_neutralFree hop with hkeep | ⟨r, b, rfl, heq, hb, hreduction⟩
    · rw [hkeep]
      exact hleft.binary h hright
    · have hcomparison := hleft.comparison hfit heq hb h left.isAtomic
      rw [hreduction]
      split_ifs at hcomparison ⊢ <;> exact hcomparison
  | ternary condition question thenExpr colon elseExpr ihc iht ihe =>
    simp only [neutralFree, Bool.and_eq_true] at hfree
    have hall := h
    simp only [complaints, List.append_eq_nil_iff] at hall
    obtain ⟨⟨⟨⟨hc, ht⟩, he⟩, -⟩, -⟩ := hall
    exact Keeps.ternary h (ihc hfree.1.1 hc) (iht hfree.1.2 ht) (ihe hfree.2 he)

/-! ## Simplified blocks -/

theorem unplaced_eq_map (e : Expr) : e.unplaced = e.map Token.unplaced := by
  induction e <;> simp_all [unplaced, map]

/-- An expression that keeps the meaning does so wherever it stands. -/
theorem Keeps.moved {types : Scope Ty} {vars : Scope Value} {tracing : Tracing}
    {tokens tokens' : List Token} {e d d' : Expr} (hfit : Fits types vars)
    (h : Keeps types vars tracing tokens tokens' e d) (hd : d'.unplaced = d.unplaced) :
    Keeps types vars tracing tokens tokens' e d' := by
  have hmove : Token.IsMove Token.unplaced := fun _ => rfl
  have hsame : vars.SameData vars := ⟨rfl, fun _ => rfl⟩
  rw [unplaced_eq_map, unplaced_eq_map] at hd
  have hcomplaints : d'.complaints tokens' types = [] := by
    rw [← complaints_map hmove types d' tokens' tokens', hd, complaints_map hmove]
    exact h.complaints
  refine ⟨?_, hcomplaints, fun v hv => ?_⟩
  · rw [← type_map hmove types d', hd, type_map hmove, h.type]
  · obtain ⟨u, hu, hdu⟩ := h.follows v hv
    obtain ⟨w, hw, hdw⟩ := meaning_map hmove hsame tokens' tokens' tracing d u hu
    -- The moved expression has a value, which can only be the one that is looked for.
    obtain ⟨u', hu', -⟩ := d'.meaning_of_complaints_eq_nil hfit tokens' tracing hcomplaints
    obtain ⟨w', hw', hdw'⟩ := meaning_map hmove hsame tokens' tokens' tracing d' u' hu'
    rw [hd, hw, Except.ok.injEq] at hw'
    exact ⟨u', hu', by rw [← hdw', ← hw', hdw, hdu]⟩

theorem check_of_complaints_eq_nil {tokens : List Token} {e : Expr} {c : Checker}
    (h : e.complaints tokens c.types = []) :
    e.check tokens c = (.ok (), c.pushed (e.type c.types)) := by
  rw [check_eq, h, Checker.noting_nil]

/-- Outside of inspections, a check is silent only if there are no complaints. -/
theorem complaints_eq_nil_of_check {tokens : List Token} {e : Expr} {c : Checker}
    (hdepth : c.depth = 0) (h : (e.check tokens c).2.diagnostics = c.diagnostics) :
    e.complaints tokens c.types = [] := by
  simpa [check_eq, Checker.noting, Checker.pushed, hdepth] using h

theorem value_of_meaning {tokens : List Token} {e : Expr} {m : Machine} {v : Value}
    (h : e.meaning tokens m.vars m.tracing = .ok v) :
    e.value tokens m = (.ok v, { m with values := [] }) := by
  have hspec := e.eval_spec tokens { m with values := [] }
  rw [show e.meaning tokens m.vars m.tracing = .ok v from h] at hspec
  have heval : e.eval tokens { m with values := [] } =
    (.ok (), Machine.pushed v { m with values := [] }) := hspec
  simp [value, clear, heval]

end Expr

/-- Only an expression is the same as another one up to the places of the tokens. -/
theorem Stmt.exists_expr_of_unplacedAll {ss : List Stmt} {e : Expr}
    (h : unplacedAll ss = unplacedAll [expr e]) :
    ∃ e', ss = [expr e'] ∧ e'.unplaced = e.unplaced := by
  match ss with
  | [expr e'] => exact ⟨e', rfl, by simpa [unplacedAll, unplaced] using h⟩
  | [] | _ :: _ :: _ | [assign _ _ _] | [print _ _ _] | [vars _] | [block _ _ _ _ _]
  | [wrap _ _ _] => simp [unplacedAll, unplaced] at h

/-- The text of a block with a single expression is read as the simplified expression. -/
theorem Stmt.exists_parse_simplified {t : Text} (herrors : (parseProgram t).errors = [])
    {kind : Inspection} {keyword opening closing : Token} {e : Expr}
    (hblock : block kind keyword opening [expr e] closing ∈
      partsOf (parseProgram t).program.stmts) :
    ∃ text e', (block kind keyword opening [expr e] closing).simplified
        (parseProgram t).program.tokens = .ok text ∧
      (parseProgram text).errors = [] ∧ (parseProgram text).program.stmts = [expr e'] ∧
      e'.unplaced = e.simplify.unplaced := by
  have hlead : ∀ u, ∀ v ∈ Token.lead (parseProgram t).program.tokens u, v.hidden = true :=
    fun _ _ => Token.hidden_of_mem_lead
  obtain ⟨htext, hformed, hlegible⟩ := simplified_of_mem_partsOf herrors hblock
  obtain ⟨hread, hstmts⟩ := parse_sourceText_laidAll hlead hformed hlegible
    ⟨trivial, by simp, trivial⟩ ⟨trivial, by simp [simplifyAll], trivial⟩
  obtain ⟨e', he', hunplaced⟩ := exists_expr_of_unplacedAll hstmts
  exact ⟨_, e', htext, hread, he', hunplaced⟩

/-- The only statement, if that is an expression. -/
def Stmt.expr? : List Stmt → Option Expr
  | [expr e] => some e
  | _ => none

theorem Stmt.eq_of_expr? {ss : List Stmt} {e : Expr} (h : expr? ss = some e) : ss = [expr e] := by
  unfold expr? at h
  split at h
  · cases h
    rfl
  · cases h

/-- Simplifying a block with a single expression, in which no sum and no product has a literal zero
or one, gives a text that is read as an expression of the same type and with a value that holds the
same, in every state in which the variables fit their types and there are no complaints about the
expression. -/
theorem value_parse_simplified {t : Text} (herrors : (parseProgram t).errors = [])
    {kind : Inspection} {keyword opening closing : Token} {e : Expr}
    (hblock : .block kind keyword opening [.expr e] closing ∈
      Stmt.partsOf (parseProgram t).program.stmts)
    (hfree : e.neutralFree = true) {c : Checker} {m : Machine} (hdepth : c.depth = 0)
    (hfit : Fits c.types m.vars)
    (hcheck : (e.check (parseProgram t).program.tokens c).2.diagnostics = c.diagnostics) :
    ∃ text e', (Stmt.block kind keyword opening [.expr e] closing).simplified
        (parseProgram t).program.tokens = .ok text ∧
      (parseProgram text).errors = [] ∧ (parseProgram text).program.stmts = [.expr e'] ∧
      (∃ ty, e.check (parseProgram t).program.tokens c = (.ok (), c.pushed ty) ∧
        e'.check (parseProgram text).program.tokens c = (.ok (), c.pushed ty)) ∧
      ∃ v v', e.value (parseProgram t).program.tokens m = (.ok v, { m with values := [] }) ∧
        e'.value (parseProgram text).program.tokens m = (.ok v', { m with values := [] }) ∧
        v'.datum = v.datum := by
  have hcomplaints := Expr.complaints_eq_nil_of_check hdepth hcheck
  obtain ⟨text, e', htext, hread, he', hunplaced⟩ := Stmt.exists_parse_simplified herrors hblock
  have hkeeps := (Expr.keeps_simplify hfit m.tracing _ (parseProgram text).program.tokens hfree
    hcomplaints).moved hfit hunplaced
  obtain ⟨v, hv, -⟩ := e.meaning_of_complaints_eq_nil hfit _ m.tracing hcomplaints
  obtain ⟨v', hv', hdatum⟩ := hkeeps.follows v hv
  refine ⟨text, e', htext, hread, he', ⟨e.type c.types, ?_, ?_⟩, v, v', ?_, ?_, hdatum⟩
  · exact Expr.check_of_complaints_eq_nil hcomplaints
  · rw [← hkeeps.type]
    exact Expr.check_of_complaints_eq_nil hkeeps.complaints
  · exact Expr.value_of_meaning hv
  · exact Expr.value_of_meaning hv'

theorem value_parse_simplified_nested :
    let t : Text := "refactor\x7b(a==true?b!=false:'x'<c==false)!=true?d-1:-d//e\x0a\x7d"
    let types : Scope Ty :=
      (((Scope.set {} "a" .boolean).set "b" .boolean).set "c" .string).set "d" .number
    let vars : Scope Value := (((Scope.set {} "a" ⟨.boolean false, {}⟩).set "b"
      ⟨.boolean true, {}⟩).set "c" ⟨.string "y", {}⟩).set "d" ⟨.number .one, {}⟩
    let c : Checker := { types }
    let m : Machine := { vars }
    ∃ keyword opening closing e, ∃ text : Text, ∃ e',
      (parseProgram t).program.stmts = [.block .refactor keyword opening [.expr e] closing] ∧
      e.neutralFree = true ∧ Fits c.types m.vars ∧
      (Stmt.block .refactor keyword opening [.expr e] closing).simplified
        (parseProgram t).program.tokens = .ok text ∧
      text = "!(a?b:!('x'<c))?d-1:-d//e\x0a" ∧
      (parseProgram text).errors = [] ∧ (parseProgram text).program.stmts = [.expr e'] ∧
      (∃ ty, e.check (parseProgram t).program.tokens c = (.ok (), c.pushed ty) ∧
        e'.check (parseProgram text).program.tokens c = (.ok (), c.pushed ty)) ∧
      ∃ v v', e.value (parseProgram t).program.tokens m = (.ok v, { m with values := [] }) ∧
        e'.value (parseProgram text).program.tokens m = (.ok v', { m with values := [] }) ∧
        v'.datum = v.datum := by
  intro t types vars c m
  have herrors : (parseProgram t).errors = [] := by decide +kernel
  have hfit : Fits c.types m.vars :=
    ((((Agree.empty.set "a" ⟨.boolean false, {}⟩).set "b" ⟨.boolean true, {}⟩).set "c"
      ⟨.string "y", {}⟩).set "d" ⟨.number .one, {}⟩).fits
  have hshape : ∃ body ∈ Stmt.refactored? (parseProgram t).program.stmts,
      ∃ e ∈ Stmt.expr? body, e.neutralFree = true ∧
        (e.check (parseProgram t).program.tokens c).2.diagnostics = [] := by decide +kernel
  have htexts : (parseProgram t).program.stmts.map (·.simplified (parseProgram t).program.tokens) =
      [.ok "!(a?b:!('x'<c))?d-1:-d//e\x0a"] := by decide +kernel
  obtain ⟨body, hbody, e, he, hneutral, hsound⟩ := hshape
  obtain rfl := Stmt.eq_of_expr? he
  obtain ⟨keyword, opening, closing, hstmts⟩ := Stmt.exists_of_refactored? hbody
  have hblock : .block .refactor keyword opening [.expr e] closing ∈
      Stmt.partsOf (parseProgram t).program.stmts := by
    rw [hstmts]
    exact List.mem_cons_self
  obtain ⟨text, e', htext, hread⟩ :=
    value_parse_simplified herrors hblock hneutral rfl hfit hsound
  rw [hstmts, List.map_singleton, htext] at htexts
  exact ⟨keyword, opening, closing, e, text, e', hstmts, hneutral, hfit, htext,
    by simpa using htexts, hread⟩

end Reckoner
