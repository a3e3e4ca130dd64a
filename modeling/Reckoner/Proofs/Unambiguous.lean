import Reckoner.Proofs.Layouts

/-!
# Trees in text are unambiguous

Two sources without a syntax error that are shown as the same tree have the same words, and are read
as the same statements: `treeOf_injective`.

A tree says itself where it ends: if two trees, each with something after it, make up the same text,
they are the same and what comes after them is the same (`Expr.tree_unique`, `Stmt.tree_unique`).
The rule in front of a node tells its shape, and the lexer finds a token in a node again, since
what follows it there ends it. So a string may hold anything, even what looks like a node.
-/
namespace Reckoner

/-! ## Tokens -/

namespace Token

/-- A closing parenthesis ends every written token. -/
theorem Spelled.endsBefore_close {t : Token} (ht : t.Spelled) (rest : Text) :
    t.EndsBefore (Text.byte ')' :: rest) := by
  have hkind := ht.hidden_eq_false
  have hnumeral : Lexeme.isNumeral 41 = false := by decide
  have hword : Lexeme.isWordByte 41 = false := by decide
  obtain ⟨kind, text, literal, pos, index⟩ := t
  cases kind <;> simp_all [EndsBefore, TokenKind.hidden]

/-- A written token is determined by a text that begins with it, if what follows ends it. -/
theorem Spelled.unplaced_of_append {t u : Token} (ht : t.Spelled) (hu : u.Spelled)
    {rest rest' : Text} (h : t.EndsBefore rest) (h' : u.EndsBefore rest')
    (heq : t.text ++ rest = u.text ++ rest') : t.unplaced = u.unplaced ∧ rest = rest' := by
  obtain ⟨b, bs, htext, hscan⟩ := ht.exists_scan h
  obtain ⟨b', bs', htext', hscan'⟩ := hu.exists_scan h'
  rw [htext, htext', List.cons_append, List.cons_append, List.cons.injEq] at heq
  -- The lexer finds both tokens in the same place.
  rw [heq.1, heq.2, hscan', Prod.mk.injEq] at hscan
  obtain ⟨hlexeme, hrest⟩ := hscan
  simp only [lexeme, Lexeme.mk.injEq, Option.some.injEq] at hlexeme
  refine ⟨?_, hrest.symm⟩
  simp [unplaced, hlexeme]

/-- A token that is always written the same way is determined by its kind. -/
theorem Spelled.unplaced_of_kind {t u : Token} (ht : t.Spelled) (hu : u.Spelled) {k : TokenKind}
    (hk : k.spelling?.isSome = true) (htk : t.kind = k) (huk : u.kind = k) :
    t.unplaced = u.unplaced := by
  obtain ⟨spelling, hspelling⟩ := Option.isSome_iff_exists.mp hk
  have htext : ∀ v : Token, v.Spelled → v.kind = k → v.text = Text.ofString spelling := by
    intro v hv hvk
    subst hvk
    unfold Spelled at hv
    cases hkind : v.kind with
    | eof | blank | comment | number | string | identifier | print =>
      simp [hkind, TokenKind.spelling?] at hspelling
    | _ =>
      simp only [hkind] at hv hspelling
      rw [hspelling, Option.map_some, Option.some.injEq] at hv
      exact hv.1.symm
  refine ht.unplaced_eq hu ?_
  rw [word, word, htk, huk, htext t ht htk, htext u hu huk]

end Token

/-! ## Nodes -/

/-- The shapes of nodes. -/
inductive NodeShape where
  | literal | identifier | paren | unary (op : UnaryOp) | binary | ternary
  | assign | print | expr | vars | inspection (kind : Inspection)
deriving DecidableEq, Repr

namespace NodeShape

/-- The rules that nodes of a shape are shown with. -/
def rules : NodeShape → List String
  | literal => ["numberExpr", "stringExpr", "booleanExpr"]
  | identifier => ["idExpr"]
  | paren => ["parenExpr"]
  | unary .not => ["notExpr"]
  | unary .negate => ["negateExpr"]
  | binary =>
    ["expExpr", "mulDivExpr", "addSubExpr", "compareExpr", "equalityExpr", "andExpr", "orExpr"]
  | ternary => ["ternaryExpr"]
  | assign => ["assignmentStmt"]
  | print => ["printStmt"]
  | expr => ["implicitPrintStmt"]
  | vars => ["varsStmt"]
  | inspection kind => [kind.rule]

/-- All shapes. -/
def all : List NodeShape :=
  [literal, identifier, paren, unary .not, unary .negate, binary, ternary, assign, print, expr,
    vars, inspection .tree, inspection .tokens, inspection .gui, inspection .refactor]

/-- The shape that a rule belongs to. -/
def ofRule? (rule : Text) : Option NodeShape :=
  all.find? fun s => rule ∈ s.rules.map Text.ofString

theorem mem_all (s : NodeShape) : s ∈ all := by
  rcases s with _ | _ | _ | (_ | _) | _ | _ | _ | _ | _ | _ | (_ | _ | _ | _) <;> simp [all]

theorem ofRule?_and_space : ∀ s ∈ all, ∀ rule ∈ s.rules,
    ofRule? (Text.ofString rule) = some s ∧ Text.byte ' ' ∉ Text.ofString rule := by
  decide +kernel

/-- No two shapes share a rule. -/
theorem ofRule?_of_mem {s : NodeShape} {rule : String} (h : rule ∈ s.rules) :
    ofRule? (Text.ofString rule) = some s :=
  (ofRule?_and_space s s.mem_all rule h).1

/-- The space behind a rule is the first one. -/
theorem space_notMem {s : NodeShape} {rule : String} (h : rule ∈ s.rules) :
    Text.byte ' ' ∉ Text.ofString rule :=
  (ofRule?_and_space s s.mem_all rule h).2

end NodeShape

/-- What follows in a node: children, each behind a space, and then the end of the node. -/
def behind : List Text → Text → Text
  | [], rest => Text.byte ')' :: rest
  | child :: children, rest => Text.byte ' ' :: (child ++ behind children rest)

section
variable (child child' : Text) (children children' : List Text) (rest rest' : Text)

@[simp] theorem behind_nil_inj : behind [] rest = behind [] rest' ↔ rest = rest' := by
  rw [behind, behind, List.cons.injEq, eq_self, true_and]

@[simp] theorem behind_cons_inj :
    behind (child :: children) rest = behind (child' :: children') rest' ↔
      child ++ behind children rest = child' ++ behind children' rest' := by
  rw [behind, behind, List.cons.injEq, eq_self, true_and]

theorem behind_nil_ne_cons : behind [] rest ≠ behind (child :: children) rest' :=
  fun h => absurd (List.cons.inj h).1 (by decide)

end

theorem Text.join_append (child : Text) (children : List Text) (rest : Text) :
    join " " (child :: children) ++ byte ')' :: rest = child ++ behind children rest := by
  induction children generalizing child with
  | nil => rfl
  | cons next children ih =>
    rw [join, List.append_assoc, ih, behind, List.append_assoc]
    · rfl
    · exact List.cons_ne_nil next children

theorem treeNode_append (rule : String) (child : Text) (children : List Text) (rest : Text) :
    treeNode rule (child :: children) ++ rest =
      Text.byte '(' :: (Text.ofString rule ++ behind (child :: children) rest) := by
  have hjoin := Text.join_append child children rest
  rw [behind, ← hjoin]
  simp only [treeNode, List.append_assoc]
  rfl

/-- A byte that does not occur in the texts in front of it shows where they end. -/
theorem append_cons_unique {xs ys zs ws : Text} {b : UInt8} (hxs : b ∉ xs) (hys : b ∉ ys)
    (h : xs ++ b :: zs = ys ++ b :: ws) : xs = ys ∧ zs = ws := by
  have hlength : xs.length = ys.length := by
    have hidx := congrArg (List.idxOf b) h
    simpa [List.idxOf_append_of_notMem hxs, List.idxOf_append_of_notMem hys] using hidx
  obtain ⟨hsame, hrest⟩ := List.append_inj h hlength
  exact ⟨hsame, (List.cons.inj hrest).2⟩

/-- The shape of a node can be told from its text, and so can what follows its rule. -/
theorem treeNode_unique {s s' : NodeShape} {rule rule' : String} (h : rule ∈ s.rules)
    (h' : rule' ∈ s'.rules) {child child' : Text} {children children' : List Text}
    {rest rest' : Text}
    (heq : treeNode rule (child :: children) ++ rest =
      treeNode rule' (child' :: children') ++ rest') :
    s = s' ∧ child ++ behind children rest = child' ++ behind children' rest' := by
  rw [treeNode_append, treeNode_append, List.cons.injEq] at heq
  obtain ⟨hrule, hchildren⟩ :=
    append_cons_unique (NodeShape.space_notMem h) (NodeShape.space_notMem h') heq.2
  have hshape := NodeShape.ofRule?_of_mem h
  rw [hrule, NodeShape.ofRule?_of_mem h', Option.some.injEq] at hshape
  exact ⟨hshape.symm, hchildren⟩

namespace Token
variable {t u : Token} {children children' : List Text} {rest rest' : Text}

/-- Whatever follows a written token in a node ends it. -/
theorem Spelled.endsBefore_behind (ht : t.Spelled) (children : List Text) (rest : Text) :
    t.EndsBefore (behind children rest) := by
  cases children with
  | nil => exact ht.endsBefore_close rest
  | cons child children => exact ht.endsBefore_space _

/-- A token in a node can be told from its text. -/
theorem Spelled.unplaced_of_behind (ht : t.Spelled) (hu : u.Spelled)
    (heq : t.text ++ behind children rest = u.text ++ behind children' rest') :
    t.unplaced = u.unplaced ∧ behind children rest = behind children' rest' :=
  ht.unplaced_of_append hu (ht.endsBefore_behind children rest)
    (hu.endsBefore_behind children' rest') heq

end Token

/-! ## Expressions -/

namespace Expr

/-- The shape of the node of an expression. -/
def shape : Expr → NodeShape
  | literal _ => .literal
  | identifier _ => .identifier
  | paren _ _ _ => .paren
  | unary op _ _ => .unary op
  | binary _ _ _ _ => .binary
  | ternary _ _ _ _ _ => .ternary

/-- What is behind the rule of the node of an expression, if something follows the node. -/
def inside (rest : Text) : Expr → Text
  | literal t | identifier t => t.text ++ behind [] rest
  | paren _ inner _ => "(" ++ behind [inner.tree, ")"] rest
  | unary .not _ operand => "!" ++ behind [operand.tree] rest
  | unary .negate _ operand => "-" ++ behind [operand.tree] rest
  | binary _ left sign right => left.tree ++ behind [sign.text, right.tree] rest
  | ternary condition _ thenExpr _ elseExpr =>
    condition.tree ++ behind ["?", thenExpr.tree, ":", elseExpr.tree] rest

theorem literalRule_mem (t : Token) : t.literalRule ∈ NodeShape.literal.rules := by
  unfold Token.literalRule
  split <;> simp [NodeShape.rules]

theorem rule_mem (op : BinaryOp) : op.rule ∈ NodeShape.binary.rules := by
  rcases op with (_ | _ | _ | _ | _) | (_ | _ | _ | _ | _ | _) | (_ | _) <;> decide

/-- The tree of an expression is a node. -/
theorem exists_tree_eq (e : Expr) : ∃ rule ∈ e.shape.rules, ∃ child children,
    e.tree = treeNode rule (child :: children) ∧
      ∀ rest, e.inside rest = child ++ behind children rest := by
  cases e with
  | literal t => exact ⟨_, literalRule_mem t, _, _, rfl, fun _ => rfl⟩
  | binary op _ _ _ => exact ⟨_, rule_mem op, _, _, rfl, fun _ => rfl⟩
  | unary op _ _ => cases op <;> exact ⟨_, List.mem_singleton_self _, _, _, rfl, fun _ => rfl⟩
  | _ => exact ⟨_, List.mem_singleton_self _, _, _, rfl, fun _ => rfl⟩

theorem shape_and_inside {e e' : Expr} {rest rest' : Text}
    (heq : e.tree ++ rest = e'.tree ++ rest') :
    e.shape = e'.shape ∧ e.inside rest = e'.inside rest' := by
  obtain ⟨rule, hrule, child, children, htree, hinside⟩ := e.exists_tree_eq
  obtain ⟨rule', hrule', child', children', htree', hinside'⟩ := e'.exists_tree_eq
  rw [htree, htree'] at heq
  rw [hinside, hinside']
  exact treeNode_unique hrule hrule' heq

/-- An expression can be told from a text that begins with its tree, and so can what follows it. -/
theorem tree_unique {e e' : Expr} (hf : e.Formed) (hf' : e'.Formed)
    (hs : ∀ t ∈ e.tokens, t.Spelled) (hs' : ∀ t ∈ e'.tokens, t.Spelled) {rest rest' : Text}
    (heq : e.tree ++ rest = e'.tree ++ rest') : e.unplaced = e'.unplaced ∧ rest = rest' := by
  induction e generalizing e' rest rest' with
  | literal t =>
    obtain ⟨hshape, hinside⟩ := shape_and_inside heq
    cases e' with
    | literal t' =>
      have ht := hs t (by simp [tokens])
      have ht' := hs' t' (by simp [tokens])
      obtain ⟨htoken, hrest⟩ := ht.unplaced_of_behind ht' hinside
      refine ⟨?_, behind_nil_inj .. |>.mp hrest⟩
      rw [unplaced, unplaced, htoken]
    | _ => cases hshape
  | identifier t =>
    obtain ⟨hshape, hinside⟩ := shape_and_inside heq
    cases e' with
    | identifier t' =>
      have ht := hs t (by simp [tokens])
      have ht' := hs' t' (by simp [tokens])
      obtain ⟨htoken, hrest⟩ := ht.unplaced_of_behind ht' hinside
      refine ⟨?_, behind_nil_inj .. |>.mp hrest⟩
      rw [unplaced, unplaced, htoken]
    | _ => cases hshape
  | paren opening inner closing ih =>
    obtain ⟨hshape, hinside⟩ := shape_and_inside heq
    cases e' with
    | paren opening' inner' closing' =>
      simp only [tokens, List.forall_mem_append, List.forall_mem_cons] at hs hs'
      obtain ⟨⟨hopening, hinner⟩, hclosing, -⟩ := hs
      obtain ⟨⟨hopening', hinner'⟩, hclosing', -⟩ := hs'
      simp only [inside, List.append_cancel_left_eq, behind_cons_inj] at hinside
      obtain ⟨hsame, hrest⟩ := ih hf.2.1 hf'.2.1 hinner hinner' hinside
      simp only [List.append_cancel_left_eq, behind_cons_inj, behind_nil_inj] at hrest
      refine ⟨?_, hrest⟩
      rw [unplaced, unplaced, hsame, hopening.unplaced_of_kind hopening' rfl hf.1 hf'.1,
        hclosing.unplaced_of_kind hclosing' rfl hf.2.2 hf'.2.2]
    | _ => cases hshape
  | unary op sign operand ih =>
    obtain ⟨hshape, hinside⟩ := shape_and_inside heq
    cases e' with
    | unary op' sign' operand' =>
      obtain rfl : op = op' := NodeShape.unary.inj hshape
      simp only [tokens, List.forall_mem_cons] at hs hs'
      obtain ⟨hsign, hoperand⟩ := hs
      obtain ⟨hsign', hoperand'⟩ := hs'
      have htree : operand.tree ++ behind [] rest = operand'.tree ++ behind [] rest' := by
        cases op <;> simpa only [inside, List.append_cancel_left_eq, behind_cons_inj] using hinside
      obtain ⟨hsame, hrest⟩ := ih hf.2.1 hf'.2.1 hoperand hoperand' htree
      refine ⟨?_, behind_nil_inj .. |>.mp hrest⟩
      have hkind : op.token.spelling?.isSome = true := by cases op <;> rfl
      rw [unplaced, unplaced, hsame, hsign.unplaced_of_kind hsign' hkind hf.1 hf'.1]
    | _ => cases hshape
  | binary op left sign right ihl ihr =>
    obtain ⟨hshape, hinside⟩ := shape_and_inside heq
    cases e' with
    | binary op' left' sign' right' =>
      simp only [tokens, List.forall_mem_append, List.forall_mem_cons] at hs hs'
      obtain ⟨hleft, hsign, hright⟩ := hs
      obtain ⟨hleft', hsign', hright'⟩ := hs'
      obtain ⟨hsame, hrest⟩ := ihl hf.2.1 hf'.2.1 hleft hleft' hinside
      obtain ⟨hsign, hrest⟩ := hsign.unplaced_of_behind hsign' (behind_cons_inj .. |>.mp hrest)
      obtain ⟨hsame', hrest⟩ :=
        ihr hf.2.2.1 hf'.2.2.1 hright hright' (behind_cons_inj .. |>.mp hrest)
      refine ⟨?_, behind_nil_inj .. |>.mp hrest⟩
      -- The rule does not tell the operator, but the sign does.
      have hop : some op = some op' := by
        rw [← op.ofToken?_token, ← op'.ofToken?_token, ← hf.1, ← hf'.1,
          Token.kind_of_unplaced_eq hsign]
      rw [unplaced, unplaced, hsame, hsign, hsame', Option.some.inj hop]
    | _ => cases hshape
  | ternary condition question thenExpr colon elseExpr ihc iht ihe =>
    obtain ⟨hshape, hinside⟩ := shape_and_inside heq
    cases e' with
    | ternary condition' question' thenExpr' colon' elseExpr' =>
      simp only [tokens, List.forall_mem_append, List.forall_mem_cons] at hs hs'
      obtain ⟨⟨hcondition, hquestion, hthen⟩, hcolon, helse⟩ := hs
      obtain ⟨⟨hcondition', hquestion', hthen'⟩, hcolon', helse'⟩ := hs'
      obtain ⟨hq, hc, hfc, hft, hfe, -⟩ := hf
      obtain ⟨hq', hc', hfc', hft', hfe', -⟩ := hf'
      obtain ⟨hsame, hrest⟩ := ihc hfc hfc' hcondition hcondition' hinside
      simp only [behind_cons_inj, List.append_cancel_left_eq] at hrest
      obtain ⟨hsame', hrest⟩ := iht hft hft' hthen hthen' hrest
      simp only [behind_cons_inj, List.append_cancel_left_eq] at hrest
      obtain ⟨hsame'', hrest⟩ := ihe hfe hfe' helse helse' hrest
      refine ⟨?_, behind_nil_inj .. |>.mp hrest⟩
      rw [unplaced, unplaced, hsame, hsame', hsame'',
        hquestion.unplaced_of_kind hquestion' rfl hq hq',
        hcolon.unplaced_of_kind hcolon' rfl hc hc']
    | _ => cases hshape

/-- The same for expressions in a row. -/
theorem args_unique {es es' : List Expr} (hf : ∀ e ∈ es, e.Formed) (hf' : ∀ e ∈ es', e.Formed)
    (hs : ∀ t ∈ es.flatMap tokens, t.Spelled) (hs' : ∀ t ∈ es'.flatMap tokens, t.Spelled)
    {rest rest' : Text}
    (heq : behind (es.map tree) rest = behind (es'.map tree) rest') :
    es.map unplaced = es'.map unplaced ∧ rest = rest' := by
  induction es generalizing es' with
  | nil =>
    cases es' with
    | nil => exact ⟨rfl, behind_nil_inj .. |>.mp heq⟩
    | cons => exact absurd heq (behind_nil_ne_cons _ _ _ _)
  | cons e es ih =>
    cases es' with
    | nil => exact absurd heq.symm (behind_nil_ne_cons _ _ _ _)
    | cons e' es' =>
      rw [List.flatMap_cons, List.forall_mem_append] at hs hs'
      rw [List.forall_mem_cons] at hf hf'
      obtain ⟨hsame, hrest⟩ :=
        tree_unique hf.1 hf'.1 hs.1 hs'.1 (behind_cons_inj .. |>.mp heq)
      obtain ⟨hsame', hrest⟩ := ih hf.2 hf'.2 hs.2 hs'.2 hrest
      exact ⟨by rw [List.map_cons, List.map_cons, hsame, hsame'], hrest⟩

end Expr

/-! ## Statements -/

namespace Stmt

theorem listTree_append (trees : List Text) (rest : Text) :
    listTree trees ++ rest = Text.byte '(' :: (Text.ofString "stmts" ++ behind trees rest) := by
  have hjoin := Text.join_append (Text.ofString "stmts") trees rest
  rw [← hjoin]
  simp only [listTree, List.append_assoc]
  rfl

theorem treeOf_append_inj {ss ss' : List Stmt} {rest rest' : Text} :
    treeOf ss ++ rest = treeOf ss' ++ rest' ↔
      behind (trees ss) rest = behind (trees ss') rest' := by
  rw [treeOf, treeOf, listTree_append, listTree_append, List.cons.injEq, eq_self, true_and,
    List.append_cancel_left_eq]

/-- The shape of the node of a statement. -/
def shape : Stmt → NodeShape
  | assign _ _ _ => .assign
  | print _ _ _ => .print
  | expr _ => .expr
  | .vars _ => .vars
  | block kind _ _ _ _ | wrap kind _ _ => .inspection kind

/-- What is behind the rule of the node of a statement, if something follows the node. -/
def inside (rest : Text) : Stmt → Text
  | assign name _ value => name.text ++ behind ["=", value.tree] rest
  | print keyword arg more => keyword.text ++ behind (arg.tree :: more.map Expr.tree) rest
  | expr e => e.tree ++ behind [] rest
  | .vars keyword => keyword.text ++ behind [] rest
  | block _ keyword _ body _ => keyword.text ++ behind ["\x7b", treeOf body, "\x7d"] rest
  | wrap _ keyword inner => keyword.text ++ behind [inner.tree] rest

/-- The tree of a statement is a node. -/
theorem exists_tree_eq (s : Stmt) : ∃ rule ∈ s.shape.rules, ∃ child children,
    s.tree = treeNode rule (child :: children) ∧
      ∀ rest, s.inside rest = child ++ behind children rest := by
  cases s with
  | block kind _ _ body _ =>
    exact ⟨_, List.mem_singleton_self _, _, _, by rw [tree, ← treeOf], fun _ => rfl⟩
  | _ => exact ⟨_, List.mem_singleton_self _, _, _, by rw [tree], fun _ => rfl⟩

theorem shape_and_inside {s s' : Stmt} {rest rest' : Text}
    (heq : s.tree ++ rest = s'.tree ++ rest') :
    s.shape = s'.shape ∧ s.inside rest = s'.inside rest' := by
  obtain ⟨rule, hrule, child, children, htree, hinside⟩ := s.exists_tree_eq
  obtain ⟨rule', hrule', child', children', htree', hinside'⟩ := s'.exists_tree_eq
  rw [htree, htree'] at heq
  rw [hinside, hinside']
  exact treeNode_unique hrule hrule' heq

/-- A block is not taken for an inspection of another one. -/
theorem inside_block_ne_inside_wrap {kind kind' : Inspection}
    {keyword opening closing keyword' : Token} {body : List Stmt} {inner : Stmt}
    (hs : keyword.Spelled) (hs' : keyword'.Spelled) (rest rest' : Text) :
    (block kind keyword opening body closing).inside rest ≠
      (wrap kind' keyword' inner).inside rest' := by
  intro hinside
  obtain ⟨-, hrest⟩ := hs.unplaced_of_behind hs' hinside
  have hbrace := behind_cons_inj .. |>.mp hrest
  obtain ⟨rule, -, child, children, htree, -⟩ := inner.exists_tree_eq
  rw [htree, treeNode_append] at hbrace
  exact absurd (List.cons.inj hbrace).1 (by decide)

mutual

/-- A statement can be told from a text that begins with its tree, and so can what follows it. -/
theorem tree_unique (s s' : Stmt) (hf : s.Formed) (hf' : s'.Formed)
    (hs : ∀ t ∈ s.tokens, t.Spelled) (hs' : ∀ t ∈ s'.tokens, t.Spelled) {rest rest' : Text}
    (heq : s.tree ++ rest = s'.tree ++ rest') : s.unplaced = s'.unplaced ∧ rest = rest' := by
  match s with
  | assign name equals value =>
    obtain ⟨hshape, hinside⟩ := shape_and_inside heq
    cases s' with
    | assign name' equals' value' =>
      simp only [tokens, List.forall_mem_cons] at hs hs'
      obtain ⟨hname, hequals, hvalue⟩ := hs
      obtain ⟨hname', hequals', hvalue'⟩ := hs'
      obtain ⟨hsame, hrest⟩ := hname.unplaced_of_behind hname' hinside
      simp only [behind_cons_inj, List.append_cancel_left_eq] at hrest
      obtain ⟨hsame', hrest⟩ := Expr.tree_unique hf.2.2 hf'.2.2 hvalue hvalue' hrest
      refine ⟨?_, behind_nil_inj .. |>.mp hrest⟩
      rw [unplaced, unplaced, hsame, hsame',
        hequals.unplaced_of_kind hequals' rfl hf.2.1 hf'.2.1]
    | _ => cases hshape
  | print keyword arg more =>
    obtain ⟨hshape, hinside⟩ := shape_and_inside heq
    cases s' with
    | print keyword' arg' more' =>
      simp only [tokens, List.cons_append, List.forall_mem_cons] at hs hs'
      obtain ⟨hsame, hrest⟩ := hs.1.unplaced_of_behind hs'.1 hinside
      have hargs : behind ((arg :: more).map Expr.tree) rest =
          behind ((arg' :: more').map Expr.tree) rest' := hrest
      obtain ⟨hargs, hrest⟩ := Expr.args_unique hf.2 hf'.2 hs.2 hs'.2 hargs
      obtain ⟨harg, hmore⟩ := List.cons.inj hargs
      refine ⟨?_, hrest⟩
      rw [unplaced, unplaced, hsame, harg, hmore]
    | _ => cases hshape
  | expr e =>
    obtain ⟨hshape, hinside⟩ := shape_and_inside heq
    cases s' with
    | expr e' =>
      obtain ⟨hsame, hrest⟩ := Expr.tree_unique hf hf' hs hs' hinside
      refine ⟨?_, behind_nil_inj .. |>.mp hrest⟩
      rw [unplaced, unplaced, hsame]
    | _ => cases hshape
  | .vars keyword =>
    obtain ⟨hshape, hinside⟩ := shape_and_inside heq
    cases s' with
    | vars keyword' =>
      have hkeyword := hs keyword (by simp [tokens])
      have hkeyword' := hs' keyword' (by simp [tokens])
      obtain ⟨hsame, hrest⟩ := hkeyword.unplaced_of_behind hkeyword' hinside
      refine ⟨?_, behind_nil_inj .. |>.mp hrest⟩
      rw [unplaced, unplaced, hsame]
    | _ => cases hshape
  | block kind keyword opening body closing =>
    obtain ⟨hshape, hinside⟩ := shape_and_inside heq
    cases s' with
    | block kind' keyword' opening' body' closing' =>
      obtain rfl : kind = kind' := NodeShape.inspection.inj hshape
      simp only [tokens, List.forall_mem_append, List.forall_mem_cons] at hs hs'
      obtain ⟨⟨hkeyword, hopening, hbody⟩, hclosing, -⟩ := hs
      obtain ⟨⟨hkeyword', hopening', hbody'⟩, hclosing', -⟩ := hs'
      obtain ⟨-, ho, hfb, hc⟩ := hf
      obtain ⟨-, ho', hfb', hc'⟩ := hf'
      obtain ⟨hsame, hrest⟩ := hkeyword.unplaced_of_behind hkeyword' hinside
      simp only [behind_cons_inj, List.append_cancel_left_eq, treeOf_append_inj] at hrest
      obtain ⟨hsame', hrest⟩ := trees_unique body body' hfb hfb' hbody hbody' hrest
      simp only [behind_cons_inj, List.append_cancel_left_eq, behind_nil_inj] at hrest
      refine ⟨?_, hrest⟩
      rw [unplaced, unplaced, hsame, hsame', hopening.unplaced_of_kind hopening' rfl ho ho',
        hclosing.unplaced_of_kind hclosing' rfl hc hc']
    | wrap _ keyword' inner' =>
      have hkeyword := hs keyword (by simp [tokens])
      have hkeyword' := hs' keyword' (by simp [tokens])
      exact absurd hinside (inside_block_ne_inside_wrap hkeyword hkeyword' rest rest')
    | _ => cases hshape
  | wrap kind keyword inner =>
    obtain ⟨hshape, hinside⟩ := shape_and_inside heq
    cases s' with
    | wrap kind' keyword' inner' =>
      obtain rfl : kind = kind' := NodeShape.inspection.inj hshape
      simp only [tokens, List.forall_mem_cons] at hs hs'
      obtain ⟨hsame, hrest⟩ := hs.1.unplaced_of_behind hs'.1 hinside
      obtain ⟨hsame', hrest⟩ := tree_unique inner inner' hf.2.2.2 hf'.2.2.2 hs.2 hs'.2
        (behind_cons_inj .. |>.mp hrest)
      refine ⟨?_, behind_nil_inj .. |>.mp hrest⟩
      rw [unplaced, unplaced, hsame, hsame']
    | block _ keyword' _ body' _ =>
      have hkeyword := hs keyword (by simp [tokens])
      have hkeyword' := hs' keyword' (by simp [tokens])
      exact absurd hinside.symm (inside_block_ne_inside_wrap hkeyword' hkeyword rest' rest)
    | _ => cases hshape

/-- The same for statements in a row. -/
theorem trees_unique (ss ss' : List Stmt) (hf : FormedAll ss) (hf' : FormedAll ss')
    (hs : ∀ t ∈ tokensOf ss, t.Spelled) (hs' : ∀ t ∈ tokensOf ss', t.Spelled) {rest rest' : Text}
    (heq : behind (trees ss) rest = behind (trees ss') rest') :
    unplacedAll ss = unplacedAll ss' ∧ rest = rest' := by
  match ss, ss' with
  | [], [] => exact ⟨rfl, behind_nil_inj .. |>.mp heq⟩
  | [], s' :: ss' => exact absurd heq (behind_nil_ne_cons _ _ _ _)
  | s :: ss, [] => exact absurd heq.symm (behind_nil_ne_cons _ _ _ _)
  | s :: ss, s' :: ss' =>
    rw [tokensOf, List.forall_mem_append] at hs hs'
    rw [trees, trees, behind_cons_inj] at heq
    obtain ⟨hsame, hrest⟩ := tree_unique s s' hf.1 hf'.1 hs.1 hs'.1 heq
    obtain ⟨hsame', hrest⟩ := trees_unique ss ss' hf.2 hf'.2 hs.2 hs'.2 hrest
    exact ⟨by rw [unplacedAll, unplacedAll, hsame, hsame'], hrest⟩

end

/-- Statements without places determine the words that they are written with. -/
theorem words_of_unplacedAll_eq {ss ss' : List Stmt} (h : unplacedAll ss = unplacedAll ss') :
    (tokensOf ss).map Token.word = (tokensOf ss').map Token.word := by
  have hword : Token.word = Token.word ∘ Token.unplaced := rfl
  rw [hword, ← List.map_map, ← List.map_map, ← tokensOf_unplacedAll, ← tokensOf_unplacedAll, h]

/-- A list of statements can be told from its tree. -/
theorem treeOf_unique {ss ss' : List Stmt} (hf : FormedAll ss) (hf' : FormedAll ss')
    (hs : ∀ t ∈ tokensOf ss, t.Spelled) (hs' : ∀ t ∈ tokensOf ss', t.Spelled)
    (heq : treeOf ss = treeOf ss') : unplacedAll ss = unplacedAll ss' := by
  have hbehind : behind (trees ss) [] = behind (trees ss') [] :=
    treeOf_append_inj.mp (by rw [heq])
  exact (trees_unique ss ss' hf hf' hs hs' hbehind).1

end Stmt

/-! ## Sources -/

/-- A program without a syntax error holds tokens of the kinds that its nodes ask for, each written
as its kind asks for. -/
theorem Parser.formed_and_spelled {t : Text} (herrors : (parseProgram t).errors = []) :
    Stmt.FormedAll (parseProgram t).program.stmts ∧
      ∀ u ∈ Stmt.tokensOf (parseProgram t).program.stmts, u.Spelled := by
  obtain ⟨htokens, hformed, -⟩ := parse_sound (.inl rfl) herrors
  have hfaults : (Lexed.ofText t).faults = [] :=
    List.flatMap_eq_nil_iff.mpr (faults_eq_nil .program t herrors)
  rw [htokens]
  exact ⟨hformed, Lexed.spelled_of_mem_visible hfaults⟩

/-- Two sources that are read as programs without a syntax error, and are shown as the same tree,
are read as the same statements, up to the places of their tokens. The tokens that the parser sees
of the two have the same kinds and texts, one after the other. -/
theorem treeOf_injective {t t' : Text} (herrors : (parseProgram t).errors = [])
    (herrors' : (parseProgram t').errors = [])
    (htree : Stmt.treeOf (parseProgram t).program.stmts =
      Stmt.treeOf (parseProgram t').program.stmts) :
    Stmt.unplacedAll (parseProgram t).program.stmts =
        Stmt.unplacedAll (parseProgram t').program.stmts ∧
      (Lexed.ofText t).visible.map Token.word = (Lexed.ofText t').visible.map Token.word := by
  obtain ⟨hformed, hspelled⟩ := Parser.formed_and_spelled herrors
  obtain ⟨hformed', hspelled'⟩ := Parser.formed_and_spelled herrors'
  have hsame := Stmt.treeOf_unique hformed hformed' hspelled hspelled' htree
  have hwords := Stmt.words_of_unplacedAll_eq hsame
  rw [(parse_sound (.inl rfl) herrors).1, (parse_sound (.inl rfl) herrors').1] at hwords
  exact ⟨hsame, hwords⟩

theorem treeOf_injective_quoted :
    let t : Text := "PRINT '(idExpr x)) \\' \"\n(' -01.50 gui\x7bx=(y)\x7d"
    let t' : Text := "PRINT // \"\n '(idExpr x)) \\' \"\n('\t- 01.50 gui \x7bx = (y)\x7d"
    t ≠ t' ∧ (parseProgram t).errors = [] ∧ (parseProgram t').errors = [] ∧
      Stmt.treeOf (parseProgram t).program.stmts = Stmt.treeOf (parseProgram t').program.stmts ∧
      Stmt.unplacedAll (parseProgram t).program.stmts =
        Stmt.unplacedAll (parseProgram t').program.stmts ∧
      (Lexed.ofText t).visible.map Token.word = (Lexed.ofText t').visible.map Token.word := by
  intro t t'
  have hne : t ≠ t' := by decide +kernel
  have herrors : (parseProgram t).errors = [] := by decide +kernel
  have herrors' : (parseProgram t').errors = [] := by decide +kernel
  have htree : Stmt.treeOf (parseProgram t).program.stmts =
      Stmt.treeOf (parseProgram t').program.stmts := by decide +kernel
  exact ⟨hne, herrors, herrors', htree, treeOf_injective herrors herrors' htree⟩

end Reckoner
