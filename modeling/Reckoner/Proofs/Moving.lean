import Reckoner.Proofs.Refactoring
import Reckoner.Proofs.Soundness

/-!
# Moved trees

The same statements may stand in another source, or elsewhere in the same one: their tokens then
have other places and other numbers, and are the same otherwise. Types, complaints, trees in text
and the contents of values do not depend on any of this. What a refactored block shows depends on the
text between its tokens only, and not on how that text is divided into blanks and comments.
-/
namespace Reckoner

/-- Tokens go to other places and stay the same otherwise. -/
def Token.IsMove (f : Token → Token) : Prop := ∀ t, (f t).unplaced = t.unplaced

namespace Token.IsMove
variable {f : Token → Token} (h : IsMove f) (t : Token)
include h

theorem kind : (f t).kind = t.kind := kind_of_unplaced_eq (h t)

theorem text : (f t).text = t.text := by
  have := congrArg Token.text (h t)
  exact this

theorem literal : (f t).literal = t.literal := by
  have := congrArg Token.literal (h t)
  exact this

theorem datum : (f t).datum = t.datum := by
  rw [Token.datum, Token.datum, h.kind, h.text, h.literal]

theorem literalRule : (f t).literalRule = t.literalRule := by
  rw [Token.literalRule, Token.literalRule, h.kind]

end Token.IsMove

/-- Tokens can be moved to where others stand, if these differ from them in their places only. -/
theorem Token.exists_isMove {ts us : List Token} (hn : ts.Nodup)
    (h : us.map Token.unplaced = ts.map Token.unplaced) : ∃ f, IsMove f ∧ us = ts.map f := by
  induction ts generalizing us with
  | nil => exact ⟨id, fun _ => rfl, by simpa using h⟩
  | cons t ts ih =>
    rw [List.map_cons, List.map_eq_cons_iff] at h
    obtain ⟨u, us, rfl, hu, hus⟩ := h
    obtain ⟨hnot, hn⟩ := List.nodup_cons.mp hn
    obtain ⟨f, hf, rfl⟩ := ih hn hus
    refine ⟨Function.update f t u, fun v => ?_, ?_⟩
    · by_cases hv : v = t
      · rw [hv, Function.update_self, hu]
      · rw [Function.update_of_ne hv]
        exact hf v
    · rw [List.map_cons, Function.update_self, List.cons_inj_right]
      refine List.map_congr_left fun v hv => (Function.update_of_ne ?_ _ _).symm
      intro heq
      exact hnot (heq ▸ hv)

/-! ## Moving a tree -/

namespace Expr
variable (f : Token → Token)

/-- An expression with all its tokens replaced. -/
def map : Expr → Expr
  | literal t => literal (f t)
  | identifier t => identifier (f t)
  | paren opening inner closing => paren (f opening) inner.map (f closing)
  | unary op sign operand => unary op (f sign) operand.map
  | binary op left sign right => binary op left.map (f sign) right.map
  | ternary condition question thenExpr colon elseExpr =>
    ternary condition.map (f question) thenExpr.map (f colon) elseExpr.map

@[simp] theorem tokens_map (e : Expr) : (e.map f).tokens = e.tokens.map f := by
  induction e <;> simp_all [map, tokens]

@[simp] theorem first_map (e : Expr) : (e.map f).first = f e.first := by
  induction e <;> simp_all [map, first]

theorem tokens_unplaced (e : Expr) : e.unplaced.tokens = e.tokens.map Token.unplaced := by
  induction e <;> simp_all [unplaced, tokens]

theorem length_tokens_of_unplaced_eq {e e' : Expr} (h : e'.unplaced = e.unplaced) :
    e'.tokens.length = e.tokens.length := by
  rw [← List.length_map Token.unplaced, ← tokens_unplaced, h, tokens_unplaced, List.length_map]

variable {f}

/-- An expression is known by its form and its tokens. -/
theorem eq_map {e e' : Expr} (h : e'.unplaced = e.unplaced) (ht : e'.tokens = e.tokens.map f) :
    e' = e.map f := by
  induction e generalizing e' with
  | literal t =>
    cases e' with
    | literal t' => simpa [map, tokens] using ht
    | _ => simp [unplaced] at h
  | identifier t =>
    cases e' with
    | identifier t' => simpa [map, tokens] using ht
    | _ => simp [unplaced] at h
  | paren opening inner closing ih =>
    cases e' with
    | paren opening' inner' closing' =>
      simp only [unplaced, paren.injEq] at h
      simp only [tokens, List.map_append, List.map_cons, List.map_nil, List.cons_append,
        List.cons.injEq] at ht
      obtain ⟨hinner, hclosing⟩ := List.append_inj' ht.2 rfl
      rw [map, ih h.2.1 hinner, ht.1, (List.cons.inj hclosing).1]
    | _ => simp [unplaced] at h
  | unary op sign operand ih =>
    cases e' with
    | unary op' sign' operand' =>
      simp only [unplaced, unary.injEq] at h
      simp only [tokens, List.map_cons, List.cons.injEq] at ht
      rw [map, ih h.2.2 ht.2, ht.1, h.1]
    | _ => simp [unplaced] at h
  | binary op left sign right ihl ihr =>
    cases e' with
    | binary op' left' sign' right' =>
      simp only [unplaced, binary.injEq] at h
      obtain ⟨hop, hleft, -, hright⟩ := h
      have hlength : left'.tokens.length = (left.tokens.map f).length := by
        rw [List.length_map, length_tokens_of_unplaced_eq hleft]
      rw [tokens, tokens, List.map_append, List.map_cons] at ht
      obtain ⟨hl, hr⟩ := List.append_inj ht hlength
      obtain ⟨hsign, hr⟩ := List.cons.inj hr
      rw [map, ihl hleft hl, ihr hright hr, hsign, hop]
    | _ => simp [unplaced] at h
  | ternary condition question thenExpr colon elseExpr ihc iht ihe =>
    cases e' with
    | ternary condition' question' thenExpr' colon' elseExpr' =>
      simp only [unplaced, ternary.injEq] at h
      obtain ⟨hcondition, -, hthen, -, helse⟩ := h
      have hlength : condition'.tokens.length = (condition.tokens.map f).length := by
        rw [List.length_map, length_tokens_of_unplaced_eq hcondition]
      have hlength' : thenExpr'.tokens.length = (thenExpr.tokens.map f).length := by
        rw [List.length_map, length_tokens_of_unplaced_eq hthen]
      simp only [tokens, List.map_append, List.map_cons, List.append_assoc, List.cons_append] at ht
      obtain ⟨hc, hrest⟩ := List.append_inj ht hlength
      obtain ⟨hquestion, hrest⟩ := List.cons.inj hrest
      obtain ⟨ht, hrest⟩ := List.append_inj hrest hlength'
      obtain ⟨hcolon, he⟩ := List.cons.inj hrest
      rw [map, ihc hcondition hc, iht hthen ht, ihe helse he, hquestion, hcolon]
    | _ => simp [unplaced] at h

theorem eq_map_args {es es' : List Expr} (h : es'.map unplaced = es.map unplaced)
    (ht : es'.flatMap tokens = (es.flatMap tokens).map f) : es' = es.map (map f) := by
  induction es generalizing es' with
  | nil => simpa using h
  | cons e es ih =>
    rw [List.map_cons, List.map_eq_cons_iff] at h
    obtain ⟨e', es', rfl, he, hes⟩ := h
    rw [List.flatMap_cons, List.flatMap_cons, List.map_append] at ht
    obtain ⟨hhead, htail⟩ := List.append_inj ht
      (by rw [List.length_map, length_tokens_of_unplaced_eq he])
    rw [List.map_cons, eq_map he hhead, ih hes htail]

end Expr

namespace Stmt
variable (f : Token → Token)

mutual

/-- A statement with all its tokens replaced. -/
def map : Stmt → Stmt
  | assign name equals value => assign (f name) (f equals) (value.map f)
  | print keyword arg more => print (f keyword) (arg.map f) (more.map (Expr.map f))
  | expr e => expr (e.map f)
  | vars keyword => vars (f keyword)
  | block kind keyword opening body closing =>
    block kind (f keyword) (f opening) (mapAll body) (f closing)
  | wrap kind keyword inner => wrap kind (f keyword) inner.map

/-- Some statements with all their tokens replaced. -/
def mapAll : List Stmt → List Stmt
  | [] => []
  | s :: ss => s.map :: mapAll ss

end

theorem mapAll_eq_map (ss : List Stmt) : mapAll f ss = ss.map (map f) := by
  induction ss with
  | nil => rfl
  | cons s ss ih => rw [mapAll, ih, List.map_cons]

mutual

@[simp] theorem tokens_map (s : Stmt) : (s.map f).tokens = s.tokens.map f := by
  match s with
  | assign _ _ value => simp [map, tokens]
  | print _ arg more => simp [map, tokens, List.flatMap_map, List.map_flatMap]
  | expr e => exact e.tokens_map f
  | vars _ => rfl
  | block _ _ _ body _ => simp [map, tokens, tokensOf_mapAll body]
  | wrap _ _ inner => simp [map, tokens, tokens_map inner]

@[simp] theorem tokensOf_mapAll (ss : List Stmt) :
    tokensOf (mapAll f ss) = (tokensOf ss).map f := by
  match ss with
  | [] => rfl
  | s :: ss => simp [mapAll, tokensOf, tokens_map s, tokensOf_mapAll ss]

end

@[simp] theorem first_map (s : Stmt) : (s.map f).first = f s.first := by
  cases s <;> simp [map, first]

mutual

theorem tokens_unplaced (s : Stmt) : s.unplaced.tokens = s.tokens.map Token.unplaced := by
  match s with
  | assign _ _ _ => simp [unplaced, tokens, Expr.tokens_unplaced]
  | print _ _ _ =>
    simp [unplaced, tokens, Expr.tokens_unplaced, List.flatMap_map, List.map_flatMap]
  | expr e => exact e.tokens_unplaced
  | vars _ => rfl
  | block _ _ _ body _ => simp [unplaced, tokens, tokensOf_unplacedAll body]
  | wrap _ _ inner => simp [unplaced, tokens, tokens_unplaced inner]

theorem tokensOf_unplacedAll (ss : List Stmt) :
    tokensOf (unplacedAll ss) = (tokensOf ss).map Token.unplaced := by
  match ss with
  | [] => rfl
  | s :: ss => simp [unplacedAll, tokensOf, tokens_unplaced s, tokensOf_unplacedAll ss]

end

theorem length_tokens_of_unplaced_eq {s s' : Stmt} (h : s'.unplaced = s.unplaced) :
    s'.tokens.length = s.tokens.length := by
  rw [← List.length_map Token.unplaced, ← tokens_unplaced, h, tokens_unplaced, List.length_map]

theorem length_tokensOf_of_unplacedAll_eq {ss ss' : List Stmt}
    (h : unplacedAll ss' = unplacedAll ss) : (tokensOf ss').length = (tokensOf ss).length := by
  rw [← List.length_map Token.unplaced, ← tokensOf_unplacedAll, h, tokensOf_unplacedAll,
    List.length_map]

variable {f}

mutual

/-- A statement is known by its form and its tokens. -/
theorem eq_map {s s' : Stmt} (h : s'.unplaced = s.unplaced) (ht : s'.tokens = s.tokens.map f) :
    s' = s.map f := by
  match s with
  | assign name equals value =>
    cases s' with
    | assign name' equals' value' =>
      simp only [unplaced, assign.injEq] at h
      simp only [tokens, List.map_cons, List.cons.injEq] at ht
      rw [map, Expr.eq_map h.2.2 ht.2.2, ht.1, ht.2.1]
    | _ => simp [unplaced] at h
  | print keyword arg more =>
    cases s' with
    | print keyword' arg' more' =>
      simp only [unplaced, print.injEq] at h
      simp only [tokens, List.map_cons, List.map_append, List.cons_append, List.cons.injEq] at ht
      have hargs : arg' :: more' = (arg :: more).map (Expr.map f) := by
        refine Expr.eq_map_args ?_ ?_
        · rw [List.map_cons, List.map_cons, h.2.1, h.2.2]
        · rw [List.flatMap_cons, List.flatMap_cons, List.map_append, ht.2]
      rw [List.map_cons, List.cons.injEq] at hargs
      rw [map, hargs.1, hargs.2, ht.1]
    | _ => simp [unplaced] at h
  | expr e =>
    cases s' with
    | expr e' =>
      simp only [unplaced, expr.injEq] at h
      rw [map, Expr.eq_map h ht]
    | _ => simp [unplaced] at h
  | vars keyword =>
    cases s' with
    | vars keyword' => simpa [map, tokens] using ht
    | _ => simp [unplaced] at h
  | block kind keyword opening body closing =>
    cases s' with
    | block kind' keyword' opening' body' closing' =>
      simp only [unplaced, block.injEq] at h
      simp only [tokens, List.map_cons, List.map_append, List.map_nil, List.cons_append,
        List.cons.injEq] at ht
      obtain ⟨hkeyword, hopening, hrest⟩ := ht
      obtain ⟨hbody, hclosing⟩ := List.append_inj' hrest rfl
      rw [map, eq_mapAll h.2.2.2.1 hbody, hkeyword, hopening, (List.cons.inj hclosing).1, h.1]
    | _ => simp [unplaced] at h
  | wrap kind keyword inner =>
    cases s' with
    | wrap kind' keyword' inner' =>
      simp only [unplaced, wrap.injEq] at h
      simp only [tokens, List.map_cons, List.cons.injEq] at ht
      rw [map, eq_map h.2.2 ht.2, ht.1, h.1]
    | _ => simp [unplaced] at h

/-- A list of statements is known by its form and its tokens. -/
theorem eq_mapAll {ss ss' : List Stmt} (h : unplacedAll ss' = unplacedAll ss)
    (ht : tokensOf ss' = (tokensOf ss).map f) : ss' = mapAll f ss := by
  match ss with
  | [] =>
    cases ss' with
    | nil => rfl
    | cons _ _ => simp [unplacedAll] at h
  | s :: ss =>
    cases ss' with
    | nil => simp [unplacedAll] at h
    | cons s' ss' =>
      simp only [unplacedAll, List.cons.injEq] at h
      have hlength : s'.tokens.length = (s.tokens.map f).length := by
        rw [List.length_map, length_tokens_of_unplaced_eq h.1]
      rw [tokensOf, tokensOf, List.map_append] at ht
      obtain ⟨hs, hss⟩ := List.append_inj ht hlength
      rw [mapAll, eq_map h.1 hs, eq_mapAll h.2 hss]

end

end Stmt

/-! ## The check -/

namespace Check

theorem operandComplaints_eq_nil_iff {tokens : List Token} {operand : Expr} {t : Ty}
    {needed : OperandClass} :
    operandComplaints tokens operand t needed = [] ↔ t = .unknown ∨ t = needed.ty := by
  rw [operandComplaints]
  split <;> simp_all

theorem orderComplaints_eq_nil_iff {place : Place} {symbol : Text} {left right : Ty} :
    orderComplaints place symbol left right = [] ↔
      left = .unknown ∨ right = .unknown ∨ left = right ∧ left ≠ .boolean := by
  cases left <;> cases right <;> simp [orderComplaints]

theorem equalityComplaints_eq_nil_iff {place : Place} {left right : Ty} :
    equalityComplaints place left right = [] ↔
      left = .unknown ∨ right = .unknown ∨ left = right := by
  rw [equalityComplaints]
  split <;> simp_all

end Check

open Check

namespace Expr

/-- Whether there are complaints about an operator depends on the types of its operands only. -/
theorem signComplaints_eq_nil_iff {types : Scope Ty} {left right left' right' : Expr}
    (hl : left'.type types = left.type types) (hr : right'.type types = right.type types)
    (op : BinaryOp) (sign sign' : Token) (tokens tokens' : List Token) :
    signComplaints tokens' types op left' sign' right' = [] ↔
      signComplaints tokens types op left sign right = [] := by
  rcases op with op | r | op
  · simp [signComplaints, operandComplaints_eq_nil_iff, hl, hr]
  · by_cases he : r.isEquality <;>
      simp [signComplaints, he, equalityComplaints_eq_nil_iff, orderComplaints_eq_nil_iff, hl, hr]
  · simp [signComplaints, operandComplaints_eq_nil_iff, hl, hr]

variable {f : Token → Token} (h : Token.IsMove f)
include h

theorem type_map (types : Scope Ty) (e : Expr) : (e.map f).type types = e.type types := by
  induction e with
  | literal t => rw [map, type, type, h.datum]
  | identifier t => rw [map, type, type, h.text]
  | paren _ inner _ ih => exact ih
  | unary op _ _ => cases op <;> rfl
  | binary op _ _ _ => cases op <;> rfl
  | ternary condition _ thenExpr _ elseExpr _ iht ihe => rw [map, type, type, iht, ihe]

/-- Wherever an expression stands, there are complaints about it or none. -/
theorem complaints_map (types : Scope Ty) (e : Expr) (tokens tokens' : List Token) :
    (e.map f).complaints tokens' types = [] ↔ e.complaints tokens types = [] := by
  induction e with
  | literal t => simp [map, complaints]
  | identifier t => simp [map, complaints, h.text]
  | paren _ inner _ ih => exact ih
  | unary op _ operand ih =>
    cases op <;> simp [map, complaints, ih, operandComplaints_eq_nil_iff, type_map h]
  | binary op left sign right ihl ihr =>
    simp [map, complaints, ihl, ihr, signComplaints_eq_nil_iff (type_map h types left)
      (type_map h types right) op sign (f sign) tokens tokens']
  | ternary condition _ thenExpr _ elseExpr ihc iht ihe =>
    simp [map, complaints, ihc, iht, ihe, operandComplaints_eq_nil_iff, branchComplaints,
      type_map h]

end Expr

namespace Stmt
variable {f : Token → Token} (h : Token.IsMove f)
include h

theorem declare_map (types : Scope Ty) (s : Stmt) : (s.map f).declare types = s.declare types := by
  cases s with
  | assign name equals value => rw [map, declare, declare, h.text, Expr.type_map h]
  | _ => rfl

theorem complaints_map (types : Scope Ty) (s : Stmt) (tokens tokens' : List Token) :
    (s.map f).complaints tokens' types = [] ↔ s.complaints tokens types = [] := by
  have hexpr (e : Expr) := Expr.complaints_map h types e tokens tokens'
  cases s with
  | assign name equals value =>
    simp [map, complaints, hexpr, settingComplaints, h.text, Expr.type_map h]
  | print keyword arg more => simp [map, complaints, hexpr]
  | expr e => exact hexpr e
  | _ => simp [map, complaints]

theorem declareAll_mapAll (types : Scope Ty) (ss : List Stmt) :
    declareAll types (mapAll f ss) = declareAll types ss := by
  induction ss generalizing types with
  | nil => rfl
  | cons s ss ih =>
    simp only [declareAll, mapAll, List.foldl_cons, declare_map h] at ih ⊢
    exact ih _

theorem complaintsAll_mapAll (types : Scope Ty) (ss : List Stmt) (tokens tokens' : List Token) :
    complaintsAll tokens' types (mapAll f ss) = [] ↔ complaintsAll tokens types ss = [] := by
  induction ss generalizing types with
  | nil => rfl
  | cons s ss ih =>
    simp [mapAll, complaintsAll, declare_map h, complaints_map h types s tokens tokens', ih]

end Stmt

/-! ## Trees in text -/

section
variable {f : Token → Token}

theorem Expr.tree_map (h : Token.IsMove f) (e : Expr) : (e.map f).tree = e.tree := by
  induction e with
  | literal t => rw [map, tree, tree, h.literalRule, h.text]
  | identifier t => rw [map, tree, tree, h.text]
  | paren _ inner _ ih => rw [map, tree, tree, ih]
  | unary op _ operand ih => cases op <;> rw [map, tree, tree, ih]
  | binary op left sign right ihl ihr => rw [map, tree, tree, ihl, ihr, h.text]
  | ternary condition _ thenExpr _ elseExpr ihc iht ihe => rw [map, tree, tree, ihc, iht, ihe]

mutual

theorem Stmt.tree_map (h : Token.IsMove f) (s : Stmt) : (s.map f).tree = s.tree := by
  match s with
  | assign name _ value => simp [map, tree, h.text, Expr.tree_map h]
  | print keyword arg more =>
    simp [map, tree, h.text, Expr.tree_map h, Function.comp_def]
  | expr e => simp [map, tree, Expr.tree_map h]
  | vars keyword => simp [map, tree, h.text]
  | block kind keyword _ body _ => simp [map, tree, h.text, Stmt.trees_mapAll h body]
  | wrap kind keyword inner => simp [map, tree, h.text, Stmt.tree_map h inner]

theorem Stmt.trees_mapAll (h : Token.IsMove f) (ss : List Stmt) :
    trees (mapAll f ss) = trees ss := by
  match ss with
  | [] => rfl
  | s :: ss => simp [mapAll, trees, Stmt.tree_map h s, Stmt.trees_mapAll h ss]

end

theorem Stmt.innerTree_map (h : Token.IsMove f) (s : Stmt) : (s.map f).innerTree = s.innerTree := by
  cases s with
  | block => simp [map, innerTree, treeOf, trees_mapAll h]
  | wrap _ _ inner => exact tree_map h inner
  | _ => exact tree_map h _

end

/-! ## Values -/

/-- The same names are bound, in the same order and to values that hold the same, wherever these
come from. -/
def Scope.SameData (vars vars' : Scope Value) : Prop :=
  vars.keys = vars'.keys ∧
    ∀ name, (vars.get? name).map Value.datum = (vars'.get? name).map Value.datum

namespace Run

section
variable {tokens : List Token} {operand : Expr} {v v' : Value}

theorem numberOf_of_datum_eq {x : Number} (h : numberOf tokens operand v = .ok x)
    (hd : v'.datum = v.datum) (tokens' : List Token) (operand' : Expr) :
    numberOf tokens' operand' v' = .ok x := by
  rw [numberOf, hd]
  rw [numberOf] at h
  split <;> simp_all

theorem booleanOf_of_datum_eq {b : Bool} (h : booleanOf tokens operand v = .ok b)
    (hd : v'.datum = v.datum) (tokens' : List Token) (operand' : Expr) :
    booleanOf tokens' operand' v' = .ok b := by
  rw [booleanOf, hd]
  rw [booleanOf] at h
  split <;> simp_all

end

end Run

/-- Comparing looks at the contents only. -/
theorem Relation.apply_of_datum_eq {r : Relation} {u v u' v' w : Value} (hu : u'.datum = u.datum)
    (hv : v'.datum = v.datum) (h : r.apply u v = .ok w) :
    ∃ w', r.apply u' v' = .ok w' ∧ w'.datum = w.datum := by
  obtain ⟨d, p⟩ := u
  obtain ⟨e, q⟩ := v
  obtain ⟨d', p'⟩ := u'
  obtain ⟨e', q'⟩ := v'
  obtain rfl : d' = d := hu
  obtain rfl : e' = e := hv
  cases r <;> cases d' <;> cases e' <;>
    simp [Relation.apply, Relation.isEquality, Value.equals, Value.compare] at h ⊢ <;> simp [← h]

open Run

namespace Expr

/-- Whatever value the first outcome has, the second one has a value that holds the same. -/
def Follows (o o' : Except Fault Value) : Prop :=
  ∀ v, o = .ok v → ∃ v', o' = .ok v' ∧ v'.datum = v.datum

namespace Follows
variable {tokens tokens' : List Token} {vars vars' : Scope Value} {tracing : Tracing}

/-- The operand of an operator may be replaced by one whose value holds the same. -/
theorem unary {operand operand' : Expr}
    (h : Follows (operand.meaning tokens vars tracing) (operand'.meaning tokens' vars' tracing))
    (op : UnaryOp) (sign sign' : Token) :
    Follows ((unary op sign operand).meaning tokens vars tracing)
      ((unary op sign' operand').meaning tokens' vars' tracing) := by
  intro v hv
  cases op with
  | not =>
    rw [meaning, Effect.bind_eq_ok_iff] at hv
    obtain ⟨u, hu, hv⟩ := hv
    obtain ⟨b, hb, hv⟩ := Effect.bind_eq_ok_iff.mp hv
    obtain ⟨u', hu', hd⟩ := h u hu
    have hb' := booleanOf_of_datum_eq hb hd tokens' operand'
    cases hv
    exact ⟨⟨.boolean !b, sign'.pos.place⟩, by simp [meaning, hu', hb'], rfl⟩
  | negate =>
    rw [meaning, Effect.bind_eq_ok_iff] at hv
    obtain ⟨u, hu, hv⟩ := hv
    obtain ⟨x, hx, hv⟩ := Effect.bind_eq_ok_iff.mp hv
    obtain ⟨u', hu', hd⟩ := h u hu
    have hx' := numberOf_of_datum_eq hx hd tokens' operand'
    cases hv
    exact ⟨⟨.number x.neg, sign'.pos.place⟩, by simp [meaning, hu', hx'], rfl⟩

/-- The operands of an operator may be replaced by ones whose values hold the same. -/
theorem binary {left right left' right' : Expr}
    (hl : Follows (left.meaning tokens vars tracing) (left'.meaning tokens' vars' tracing))
    (hr : Follows (right.meaning tokens vars tracing) (right'.meaning tokens' vars' tracing))
    (op : BinaryOp) (sign sign' : Token) :
    Follows ((binary op left sign right).meaning tokens vars tracing)
      ((binary op left' sign' right').meaning tokens' vars' tracing) := by
  intro v hv
  rcases op with op | r | op
  · rw [meaning, Effect.bind_eq_ok_iff] at hv
    obtain ⟨u, hu, hv⟩ := hv
    obtain ⟨w, hw, hv⟩ := Effect.bind_eq_ok_iff.mp hv
    obtain ⟨x, hx, hv⟩ := Effect.bind_eq_ok_iff.mp hv
    obtain ⟨y, hy, hv⟩ := Effect.bind_eq_ok_iff.mp hv
    obtain ⟨u', hu', hdu⟩ := hl u hu
    obtain ⟨w', hw', hdw⟩ := hr w hw
    have hx' := numberOf_of_datum_eq hx hdu tokens' left'
    have hy' := numberOf_of_datum_eq hy hdw tokens' right'
    cases hv
    exact ⟨⟨.number (op.apply x y), left'.place⟩, by simp [meaning, hu', hw', hx', hy'], rfl⟩
  · rw [meaning, Effect.bind_eq_ok_iff] at hv
    obtain ⟨u, hu, hv⟩ := hv
    obtain ⟨w, hw, hv⟩ := Effect.bind_eq_ok_iff.mp hv
    obtain ⟨z, hz, hv⟩ := Effect.bind_eq_ok_iff.mp hv
    obtain ⟨u', hu', hdu⟩ := hl u hu
    obtain ⟨w', hw', hdw⟩ := hr w hw
    obtain ⟨z', hz', hdz⟩ := Relation.apply_of_datum_eq hdu hdw hz
    cases hv
    exact ⟨{ z' with place := left'.place }, by simp [meaning, hu', hw', hz'], hdz⟩
  · rw [meaning, Effect.bind_eq_ok_iff] at hv
    obtain ⟨u, hu, hv⟩ := hv
    obtain ⟨b, hb, hv⟩ := Effect.bind_eq_ok_iff.mp hv
    obtain ⟨u', hu', hdu⟩ := hl u hu
    have hb' := booleanOf_of_datum_eq hb hdu tokens' left'
    by_cases hdec : op.decidedBy b
    · rw [if_pos hdec] at hv
      cases hv
      exact ⟨⟨.boolean b, left'.place⟩, by simp [meaning, hu', hb', hdec], rfl⟩
    · rw [if_neg hdec, Effect.bind_eq_ok_iff] at hv
      obtain ⟨w, hw, hv⟩ := hv
      obtain ⟨c, hc, hv⟩ := Effect.bind_eq_ok_iff.mp hv
      obtain ⟨w', hw', hdw⟩ := hr w hw
      have hc' := booleanOf_of_datum_eq hc hdw tokens' right'
      cases hv
      exact ⟨⟨.boolean (op.apply b c), left'.place⟩,
        by simp [meaning, hu', hb', hdec, hw', hc'], rfl⟩

/-- So may the parts of a conditional. -/
theorem ternary {condition thenExpr elseExpr condition' thenExpr' elseExpr' : Expr}
    (hc : Follows (condition.meaning tokens vars tracing)
      (condition'.meaning tokens' vars' tracing))
    (ht : Follows (thenExpr.meaning tokens vars tracing) (thenExpr'.meaning tokens' vars' tracing))
    (he : Follows (elseExpr.meaning tokens vars tracing) (elseExpr'.meaning tokens' vars' tracing))
    (question colon question' colon' : Token) :
    Follows ((ternary condition question thenExpr colon elseExpr).meaning tokens vars tracing)
      ((ternary condition' question' thenExpr' colon' elseExpr').meaning tokens' vars'
        tracing) := by
  intro v hv
  rw [meaning, Effect.bind_eq_ok_iff] at hv
  obtain ⟨u, hu, hv⟩ := hv
  obtain ⟨b, hb, hv⟩ := Effect.bind_eq_ok_iff.mp hv
  obtain ⟨u', hu', hdu⟩ := hc u hu
  have hb' := booleanOf_of_datum_eq hb hdu tokens' condition'
  cases b with
  | true =>
    obtain ⟨w', hw', hdw⟩ := ht v hv
    exact ⟨w', by simp [meaning, hu', hb', hw'], hdw⟩
  | false =>
    obtain ⟨w', hw', hdw⟩ := he v hv
    exact ⟨w', by simp [meaning, hu', hb', hw'], hdw⟩

end Follows

variable {f : Token → Token} (h : Token.IsMove f) {vars vars' : Scope Value}
include h

/-- A moved expression has a value that holds the same. -/
theorem meaning_map (hdata : vars.SameData vars') (tokens tokens' : List Token) (tracing : Tracing)
    (e : Expr) :
    Follows (e.meaning tokens vars tracing) ((e.map f).meaning tokens' vars' tracing) := by
  induction e with
  | literal t =>
    intro v hv
    obtain rfl : t.value = v := by simpa [meaning] using hv
    exact ⟨(f t).value, rfl, h.datum t⟩
  | identifier t =>
    intro v hv
    rw [meaning] at hv
    rw [map, meaning, h.text]
    by_cases hr : isReserved t.text
    · obtain ⟨s, hs⟩ := Option.isSome_iff_exists.mp hr
      obtain rfl : ⟨.boolean (s.get tracing), t.pos.place⟩ = v := by
        simpa [hr, Setting.read, hs] using hv
      exact ⟨⟨.boolean (s.get tracing), (f t).pos.place⟩, by simp [hr, Setting.read, hs], rfl⟩
    · have hget := hdata.2 t.text
      rw [if_neg hr] at hv ⊢
      cases hg : vars.get? t.text with
      | none => simp [hg] at hv
      | some u =>
        obtain rfl : u = v := by simpa [hg] using hv
        rw [hg, Option.map_some, eq_comm, Option.map_eq_some_iff] at hget
        obtain ⟨u', hu', hdatum⟩ := hget
        exact ⟨u', by rw [hu'], hdatum⟩
  | paren _ inner _ ih => exact ih
  | unary op sign operand ih => exact ih.unary op sign (f sign)
  | binary op left sign right ihl ihr => exact ihl.binary ihr op sign (f sign)
  | ternary condition question thenExpr colon elseExpr ihc iht ihe =>
    exact ihc.ternary iht ihe question colon (f question) (f colon)

end Expr

/-! ## What a refactored block shows -/

namespace Expr
variable {f : Token → Token} (h : Token.IsMove f)
include h

theorem isBoolean_map (b : Bool) (e : Expr) : (e.map f).isBoolean b = e.isBoolean b := by
  cases e <;> simp [map, isBoolean, h.datum]

theorem isNumber_map (x : Number) (e : Expr) : (e.map f).isNumber x = e.isNumber x := by
  cases e <;> simp [map, isNumber, h.datum]

theorem reduction_map (op : BinaryOp) (left right : Expr) :
    reduction op (left.map f) (right.map f) = reduction op left right := by
  simp only [reduction, isBoolean_map h, isNumber_map h]

omit h in
theorem isAtomic_map (e : Expr) : (e.map f).isAtomic = e.isAtomic := by
  cases e <;> rfl

/-- What is left of an expression reads the same, if the text between its tokens does. -/
theorem sourceText_output_map {lead lead' : Token → List Token} {e : Expr}
    (hgap : ∀ t ∈ e.tokens, sourceText (lead' (f t)) = sourceText (lead t)) :
    sourceText ((e.map f).output lead') = sourceText (e.output lead) := by
  induction e with
  | literal t | identifier t => simp [map, output, h.text]
  | paren opening inner closing ih =>
    simp only [tokens, List.cons_append, List.forall_mem_cons, List.forall_mem_append] at hgap
    have hfirst := hgap.2.1 _ inner.first_mem_tokens
    simp [map, output, h.text, ih hgap.2.1, hfirst, hgap.2.2.1]
  | unary op sign operand ih =>
    simp only [tokens, List.forall_mem_cons] at hgap
    have hfirst := hgap.2 _ operand.first_mem_tokens
    simp [map, output, h.text, ih hgap.2, hfirst]
  | binary op left sign right ihl ihr =>
    simp only [tokens, List.forall_mem_cons, List.forall_mem_append] at hgap
    obtain ⟨hleft, hsign, hright⟩ := hgap
    have hfirst := hright _ right.first_mem_tokens
    rw [map, output, output, reduction_map h, isAtomic_map]
    cases reduction op left right with
    | keep => simp [h.text, ihl hleft, ihr hright, hsign, hfirst]
    | left => simp [ihl hleft, hsign]
    | negatedLeft => cases left.isAtomic <;> simp [ihl hleft, hsign]
    | right => exact ihr hright
    | zero => rfl
  | ternary condition question thenExpr colon elseExpr ihc iht ihe =>
    simp only [tokens, List.forall_mem_cons, List.forall_mem_append] at hgap
    obtain ⟨⟨hc, hq, ht⟩, hk, he⟩ := hgap
    have hthen := ht _ thenExpr.first_mem_tokens
    have helse := he _ elseExpr.first_mem_tokens
    simp [map, output, h.text, ihc hc, iht ht, ihe he, hq, hk, hthen, helse]

end Expr

namespace Stmt
variable {f : Token → Token} {lead lead' : Token → List Token}

theorem first_mem_tokens (s : Stmt) : s.first ∈ s.tokens := by
  obtain ⟨ts, hts⟩ := s.exists_tokens_eq_cons
  simp [hts]

theorem sourceText_args_map (h : Token.IsMove f) {es : List Expr}
    (hgap : ∀ t ∈ es.flatMap Expr.tokens, sourceText (lead' (f t)) = sourceText (lead t)) :
    sourceText ((es.map (Expr.map f)).flatMap fun e => lead' e.first ++ e.output lead') =
      sourceText (es.flatMap fun e => lead e.first ++ e.output lead) := by
  induction es with
  | nil => rfl
  | cons e es ih =>
    rw [List.flatMap_cons, List.forall_mem_append] at hgap
    have hfirst := hgap.1 _ e.first_mem_tokens
    simp [hfirst, Expr.sourceText_output_map h hgap.1, ih hgap.2]

mutual

theorem sourceText_laid_map (h : Token.IsMove f) {s : Stmt}
    (hgap : ∀ t ∈ s.tokens, sourceText (lead' (f t)) = sourceText (lead t)) :
    sourceText ((s.map f).laid lead' (Expr.output lead')) =
      sourceText (s.laid lead (Expr.output lead)) := by
  match s with
  | assign name equals value =>
    simp only [tokens, List.forall_mem_cons] at hgap
    have hfirst := hgap.2.2 _ value.first_mem_tokens
    simp [map, laid, h.text, hgap.2.1, hfirst, Expr.sourceText_output_map h hgap.2.2]
  | print keyword arg more =>
    have hargs : ∀ t ∈ (arg :: more).flatMap Expr.tokens,
        sourceText (lead' (f t)) = sourceText (lead t) := fun t ht =>
      hgap t (List.mem_cons_of_mem _ ht)
    rw [map, laid, laid, sourceText_append, sourceText_append, ← List.map_cons,
      sourceText_args_map h hargs]
    simp [h.text]
  | expr e => exact Expr.sourceText_output_map h hgap
  | vars keyword => simp [map, laid, h.text]
  | block kind keyword opening body closing =>
    simp only [tokens, List.cons_append, List.forall_mem_cons, List.forall_mem_append] at hgap
    obtain ⟨-, hopening, hbody, hclosing, -⟩ := hgap
    simp [map, laid, h.text, hopening, hclosing, sourceText_laidAll_map h hbody]
  | wrap kind keyword inner =>
    simp only [tokens, List.forall_mem_cons] at hgap
    have hfirst := hgap.2 _ inner.first_mem_tokens
    simp [map, laid, h.text, hfirst, sourceText_laid_map h hgap.2]

theorem sourceText_laidAll_map (h : Token.IsMove f) {ss : List Stmt}
    (hgap : ∀ t ∈ tokensOf ss, sourceText (lead' (f t)) = sourceText (lead t)) :
    sourceText (laidAll lead' (Expr.output lead') (mapAll f ss)) =
      sourceText (laidAll lead (Expr.output lead) ss) := by
  match ss with
  | [] => rfl
  | s :: ss =>
    rw [tokensOf, List.forall_mem_append] at hgap
    have hfirst := hgap.1 _ s.first_mem_tokens
    simp [mapAll, laidAll, hfirst, sourceText_laid_map h hgap.1, sourceText_laidAll_map h hgap.2]

end

end Stmt

end Reckoner
