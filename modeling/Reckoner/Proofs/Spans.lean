import Reckoner.Proofs.Blame

/-!
# Spans nest

Every node of a program has a span, from its first token to its last. The spans of a tree lie in each
other as its nodes do: `spans_nest`. This holds of whatever was recovered from a source with syntax
errors as well. The parser skips tokens there, also within expressions, but those that it keeps stay
in order, and the tokens of a node are put together from those of its children.
-/
namespace Reckoner

/-- A statement or an expression. -/
inductive Node where
  | stmt (s : Stmt)
  | expr (e : Expr)

namespace Node

def first : Node → Token
  | stmt s => s.first
  | expr e => e.first

def last : Node → Token
  | stmt s => s.last
  | expr e => e.last

/-- All tokens of a node, in order. -/
def tokens : Node → List Token
  | stmt s => s.tokens
  | expr e => e.tokens

/-- The nodes right below a node, from left to right. -/
def children : Node → List Node
  | stmt (.assign _ _ value) => [expr value]
  | stmt (.print _ arg more) => (arg :: more).map expr
  | stmt (.expr e) => [expr e]
  | stmt (.vars _) => []
  | stmt (.block _ _ _ body _) => body.map stmt
  | stmt (.wrap _ _ inner) => [stmt inner]
  | expr (.literal _) | expr (.identifier _) => []
  | expr (.paren _ inner _) => [expr inner]
  | expr (.unary _ _ operand) => [expr operand]
  | expr (.binary _ left _ right) => [expr left, expr right]
  | expr (.ternary condition _ thenExpr _ elseExpr) =>
    [expr condition, expr thenExpr, expr elseExpr]

/-- The span of a node among some tokens, and those of its children. -/
structure Nested (tokens : List Token) (n : Node) : Prop where
  /-- The tokens at both ends stand at their numbers and are not hidden. -/
  first : tokens[n.first.index]? = some n.first ∧ n.first.hidden = false
  last : tokens[n.last.index]? = some n.last ∧ n.last.hidden = false
  first_le_last : n.first.index ≤ n.last.index
  /-- The spans of the children lie inside, one behind the other. -/
  inside : ∀ c ∈ n.children, n.first.index ≤ c.first.index ∧ c.last.index ≤ n.last.index
  disjoint : n.children.Pairwise fun c d => c.last.index < d.first.index
  /-- An operator stands between its operands. -/
  sign : ∀ op left sign right, n = expr (.binary op left sign right) →
    left.last.index < sign.index ∧ sign.index < right.first.index
  /-- A block stands between its braces. -/
  body : ∀ kind keyword opening body closing, n = stmt (.block kind keyword opening body closing) →
    opening.index < closing.index ∧
      ∀ s ∈ body, opening.index < s.first.index ∧ s.last.index < closing.index

/-! ## The tokens of a node -/

theorem first_mem_tokens (n : Node) : n.first ∈ n.tokens := by
  cases n with
  | stmt s => exact s.first_mem_tokens
  | expr e => exact e.first_mem_tokens

theorem last_mem_tokens (n : Node) : n.last ∈ n.tokens := by
  cases n with
  | stmt s => exact s.last_mem_tokens
  | expr e => exact e.last_mem_tokens

theorem first_index_le {n : Node} (h : Token.Ordered n.tokens) {t : Token} (ht : t ∈ n.tokens) :
    n.first.index ≤ t.index := by
  cases n with
  | stmt s => exact Stmt.first_index_le h ht
  | expr e => exact Expr.first_index_le h ht

theorem index_le_last {n : Node} (h : Token.Ordered n.tokens) {t : Token} (ht : t ∈ n.tokens) :
    t.index ≤ n.last.index := by
  cases n with
  | stmt s => exact Stmt.index_le_last h ht
  | expr e => exact Expr.index_le_last h ht

theorem flatMap_tokens_stmt (ss : List Stmt) :
    (ss.map stmt).flatMap tokens = Stmt.tokensOf ss := by
  induction ss with
  | nil => rfl
  | cons s ss ih => rw [List.map_cons, List.flatMap_cons, ih, Stmt.tokensOf, tokens]

/-- A node has the tokens of its children, in their order. -/
theorem children_sublist (n : Node) : (n.children.flatMap tokens).Sublist n.tokens := by
  rcases n with s | e
  · cases s with
    | assign name equals value => simp [children, tokens, Stmt.tokens]
    | print keyword arg more =>
      simp [children, tokens, Stmt.tokens, List.flatMap_map]
    | expr e => simp [children, tokens, Stmt.tokens]
    | vars keyword => simp [children]
    | block kind keyword opening body closing =>
      rw [children, flatMap_tokens_stmt]
      exact Stmt.tokensOf_sublist_block kind keyword opening body closing
    | wrap kind keyword inner => simp [children, tokens, Stmt.tokens]
  · cases e with
    | literal t | identifier t => simp [children]
    | paren opening inner closing => simp [children, tokens, Expr.tokens]
    | unary op sign operand => simp [children, tokens, Expr.tokens]
    | binary op left sign right => simp [children, tokens, Expr.tokens]
    | ternary condition question thenExpr colon elseExpr =>
      simp [children, tokens, Expr.tokens]

/-- Where the tokens of some nodes come one behind the other, so do their spans. -/
theorem disjoint_of_ordered {ns : List Node} (h : Token.Ordered (ns.flatMap tokens)) :
    ns.Pairwise fun c d => c.last.index < d.first.index := by
  induction ns with
  | nil => exact .nil
  | cons n ns ih =>
    rw [List.flatMap_cons] at h
    obtain ⟨-, hns, hbefore⟩ := List.pairwise_append.mp h
    refine .cons (fun m hm => ?_) (ih hns)
    exact hbefore n.last n.last_mem_tokens m.first
      (List.mem_flatMap_of_mem hm m.first_mem_tokens)

theorem sublist_of_mem_children {n c : Node} (h : c ∈ n.children) : c.tokens.Sublist n.tokens :=
  (List.sublist_flatten_of_mem (List.mem_map_of_mem h)).trans n.children_sublist

/-- A sign between two expressions has a number between theirs. -/
theorem between_of_ordered {op : BinaryOp} {left right : Expr} {sign : Token}
    (h : Token.Ordered (expr (.binary op left sign right)).tokens) :
    left.last.index < sign.index ∧ sign.index < right.first.index := by
  obtain ⟨-, hright, hleft⟩ := List.pairwise_append.mp h
  exact ⟨hleft left.last left.last_mem_tokens sign List.mem_cons_self,
    (List.pairwise_cons.mp hright).1 right.first right.first_mem_tokens⟩

/-- The braces of a block are around it. -/
theorem braced_of_ordered {kind : Inspection} {keyword opening closing : Token} {body : List Stmt}
    (h : Token.Ordered (stmt (.block kind keyword opening body closing)).tokens) :
    opening.index < closing.index ∧
      ∀ s ∈ body, opening.index < s.first.index ∧ s.last.index < closing.index := by
  have hopening : Token.Ordered (opening :: (Stmt.tokensOf body ++ [closing])) :=
    (List.pairwise_cons.mp h).2
  obtain ⟨hafter, hbody⟩ := List.pairwise_cons.mp hopening
  have hbefore := (List.pairwise_append.mp hbody).2.2
  refine ⟨hafter closing (by simp), fun s hs => ⟨?_, ?_⟩⟩
  · exact hafter s.first (by simp [Stmt.subset_tokensOf hs s.first_mem_tokens])
  · exact hbefore s.last (Stmt.subset_tokensOf hs s.last_mem_tokens) closing (by simp)

/-- A node nests if its tokens are in order and among those that are visible. -/
theorem nested_of_ordered {all : List Token} {n : Node} (h : Token.Ordered n.tokens)
    (hall : ∀ t ∈ n.tokens, all[t.index]? = some t ∧ t.hidden = false) : n.Nested all where
  first := hall n.first n.first_mem_tokens
  last := hall n.last n.last_mem_tokens
  first_le_last := first_index_le h n.last_mem_tokens
  inside c hc :=
    have hsub := (sublist_of_mem_children hc).subset
    ⟨first_index_le h (hsub c.first_mem_tokens), index_le_last h (hsub c.last_mem_tokens)⟩
  disjoint := disjoint_of_ordered (h.sublist n.children_sublist)
  sign := by
    rintro op left sign right rfl
    exact between_of_ordered h
  body := by
    rintro kind keyword opening body closing rfl
    exact braced_of_ordered h

end Node

/-! ## Programs -/

/-- The nodes of a program: its statements, and all that is below them. -/
inductive Program.IsNode (p : Program) : Node → Prop where
  | stmt {s : Stmt} (h : s ∈ p.stmts) : p.IsNode (.stmt s)
  | child {n c : Node} (h : p.IsNode n) (hc : c ∈ n.children) : p.IsNode c

/-- A node has its tokens from the statements, in their order. -/
theorem Program.IsNode.sublist {p : Program} {n : Node} (h : p.IsNode n) :
    n.tokens.Sublist (Stmt.tokensOf p.stmts) := by
  induction h with
  | stmt hs => exact Stmt.sublist_tokensOf hs
  | child _ hc ih => exact (Node.sublist_of_mem_children hc).trans ih

/-- The spans of a program nest. -/
structure Program.SpansNest (p : Program) : Prop where
  nodes : ∀ n, p.IsNode n → n.Nested p.tokens
  /-- The statements outside of all others come one behind the other, in front of the end of
  input. -/
  disjoint : p.stmts.Pairwise fun s s' => s.last.index < s'.first.index
  ends : ∀ s ∈ p.stmts, ∀ eof ∈ p.tokens.getLast?, s.last.index < eof.index

theorem Parser.spansNest_readSource (rule : Rule) (t : Text) :
    ((ofText t).readSource rule).1.program.SpansNest := by
  have hordered := ordered_readSource rule t
  have hvisible := (tokensOf_readSource_sublist rule t).subset
  have htokens := tokens_readSource rule t
  generalize ((ofText t).readSource rule).1.program = p at hordered hvisible htokens
  have hall : ∀ u ∈ Stmt.tokensOf p.stmts, p.tokens[u.index]? = some u ∧ u.hidden = false := by
    intro u hu
    rw [htokens]
    exact ⟨Lexed.getElem?_tokens_ofText (Lexed.mem_tokens_of_mem_visible (hvisible hu)),
      by simpa using (List.mem_filter.mp (hvisible hu)).2⟩
  have hends : ∀ u ∈ Stmt.tokensOf p.stmts, ∀ eof ∈ p.tokens.getLast?, u.index < eof.index := by
    intro u hu eof heof
    have ho := Lexed.ordered_tokens_ofText t
    rw [Lexed.tokens, Lexed.all, List.map_append] at htokens ho
    obtain rfl : (Lexed.ofText t).last.token = eof := by simpa [htokens] using heof
    exact (List.pairwise_append.mp ho).2.2 u (List.mem_filter.mp (hvisible hu)).1 _ (by simp)
  exact {
    nodes := fun n hn => Node.nested_of_ordered (hordered.sublist hn.sublist)
      fun u hu => hall u (hn.sublist.subset hu)
    disjoint := by
      rw [← Node.flatMap_tokens_stmt] at hordered
      exact List.pairwise_map.mp (Node.disjoint_of_ordered hordered)
    ends := fun s hs => hends s.last (Stmt.subset_tokensOf hs s.last_mem_tokens) }

/-- Whatever a text holds, and whoever listens while it is read, the spans of what is read nest. -/
theorem spans_nest (t : Text) (hooks : TraceFlags) :
    (parseProgram t hooks).program.SpansNest ∧ (parseEntry t hooks).program.SpansNest := by
  rw [(parseProgram_heard t hooks).1, (parseEntry_heard t hooks).1]
  exact ⟨Parser.spansNest_readSource .program t, Parser.spansNest_readSource .entry t⟩

end Reckoner
