import Reckoner.Proofs.Resolving
import Reckoner.Simplify

/-!
# Simplifying never fails

Edits that overlap without one of them lying inside the other cannot be resolved. The edits that
simplify an expression are recorded from the inside out, so that a later edit either spans an
earlier one or stays clear of it, and resolving them succeeds. All that is needed of the
expressions is that their tokens stand in source order.
-/
namespace Reckoner

/-- The tokens stand in source order. -/
def Token.Ordered (ts : List Token) : Prop := ts.Pairwise fun t u => t.index < u.index

theorem Token.Ordered.head_le {first t : Token} {ts : List Token} (h : Ordered (first :: ts))
    (ht : t ∈ first :: ts) : first.index ≤ t.index := by
  rcases List.mem_cons.mp ht with rfl | ht
  · exact Nat.le_refl _
  · exact Nat.le_of_lt ((List.pairwise_cons.mp h).1 t ht)

theorem Token.Ordered.le_concat {last t : Token} {ts : List Token} (h : Ordered (ts ++ [last]))
    (ht : t ∈ ts ++ [last]) : t.index ≤ last.index := by
  rcases List.mem_append.mp ht with ht | ht
  · exact Nat.le_of_lt ((List.pairwise_append.mp h).2.2 t ht last (by simp))
  · obtain rfl := List.mem_singleton.mp ht
    exact Nat.le_refl _

namespace Edit

/-- A replacement covers a range that begins and ends among some tokens. -/
def Among (ts : List Token) : Edit → Prop
  | insert _ _ => True
  | replace r =>
    r.first ≤ r.last ∧ (∃ t ∈ ts, (t.index : Int) ≤ r.first) ∧ ∃ t ∈ ts, r.last ≤ (t.index : Int)

theorem Among.mono {ts us : List Token} {d : Edit} (h : d.Among ts) (hs : ts ⊆ us) :
    d.Among us := by
  cases d with
  | insert _ _ => trivial
  | replace r =>
    obtain ⟨hle, ⟨t, ht, hft⟩, u, hu, hlu⟩ := h
    exact ⟨hle, ⟨t, hs ht, hft⟩, u, hs hu, hlu⟩

theorem Among.proper {ts : List Token} {d : Edit} (h : d.Among ts) {start : Int}
    (hs : ∀ t ∈ ts, start ≤ t.index) : d.Proper start := by
  cases d with
  | insert _ _ => trivial
  | replace r =>
    obtain ⟨hle, ⟨t, ht, hft⟩, -⟩ := h
    have := hs t ht
    exact ⟨by omega, hle⟩

/-- Edits of two stretches of tokens, one after the other, stay clear of each other. -/
theorem Among.nests {ts us : List Token} {d e : Edit} (hd : d.Among ts) (he : e.Among us)
    (h : Token.Ordered (ts ++ us)) : d.Nests e := by
  cases d <;> cases e <;> try trivial
  obtain ⟨-, -, t, ht, hlt⟩ := hd
  obtain ⟨-, ⟨u, hu, hfu⟩, -⟩ := he
  have := (List.pairwise_append.mp h).2.2 t ht u hu
  simp only [Nests]
  omega

/-- Edits that stay among some tokens, each of which nests with all later ones. -/
structure Settled (ts : List Token) (edits : List Edit) : Prop where
  among : ∀ d ∈ edits, d.Among ts
  nests : edits.Pairwise Nests

theorem Settled.nil (ts : List Token) : Settled ts [] := ⟨by simp, .nil⟩

theorem Settled.mono {ts us : List Token} {edits : List Edit} (h : Settled ts edits)
    (hs : ts ⊆ us) : Settled us edits :=
  ⟨fun d hd => (h.among d hd).mono hs, h.nests⟩

/-- Edits of two stretches of tokens may be recorded one after the other. -/
theorem Settled.append {ts us : List Token} {edits edits' : List Edit} (h : Settled ts edits)
    (h' : Settled us edits') (ho : Token.Ordered (ts ++ us)) :
    Settled (ts ++ us) (edits ++ edits') := by
  refine ⟨fun d hd => ?_, List.pairwise_append.mpr ⟨h.nests, h'.nests, fun d hd e he => ?_⟩⟩
  · rcases List.mem_append.mp hd with hd | hd
    · exact (h.among d hd).mono (List.subset_append_left ts us)
    · exact (h'.among d hd).mono (List.subset_append_right ts us)
  · exact (h.among d hd).nests (h'.among e he) ho

theorem Settled.append_inserts {ts : List Token} {edits notes : List Edit} (h : Settled ts edits)
    (hn : ∀ d ∈ notes, ∃ i text, d = .insert i text) : Settled ts (edits ++ notes) := by
  refine ⟨fun d hd => ?_, List.pairwise_append.mpr ⟨h.nests, ?_, fun d hd e he => ?_⟩⟩
  · rcases List.mem_append.mp hd with hd | hd
    · exact h.among d hd
    · obtain ⟨i, text, rfl⟩ := hn d hd
      trivial
  · refine List.pairwise_of_forall_mem_list fun d hd e he => ?_
    obtain ⟨i, text, rfl⟩ := hn d hd
    trivial
  · obtain ⟨i, text, rfl⟩ := hn e he
    cases d <;> trivial

theorem Settled.concat {ts : List Token} {edits : List Edit} {r : Edit} (h : Settled ts edits)
    (ha : r.Among ts) (hn : ∀ d ∈ edits, d.Nests r) : Settled ts (edits ++ [r]) := by
  refine ⟨fun d hd => ?_, List.pairwise_append.mpr ⟨h.nests, by simp, fun d hd e he => ?_⟩⟩
  · rcases List.mem_append.mp hd with hd | hd
    · exact h.among d hd
    · rw [List.mem_singleton.mp hd]
      exact ha
  · rw [List.mem_singleton.mp he]
    exact hn d hd

end Edit

namespace Expr

theorem exists_tokens_eq_cons (e : Expr) : ∃ ts, e.tokens = e.first :: ts := by
  induction e with
  | literal t | identifier t => exact ⟨[], rfl⟩
  | paren opening inner closing => exact ⟨inner.tokens ++ [closing], rfl⟩
  | unary op sign operand => exact ⟨operand.tokens, rfl⟩
  | binary op left sign right ihl =>
    obtain ⟨ts, hts⟩ := ihl
    exact ⟨ts ++ sign :: right.tokens, by simp [tokens, first, hts]⟩
  | ternary condition question thenExpr colon elseExpr ihc =>
    obtain ⟨ts, hts⟩ := ihc
    exact ⟨ts ++ question :: thenExpr.tokens ++ colon :: elseExpr.tokens,
      by simp [tokens, first, hts]⟩

theorem exists_tokens_eq_concat (e : Expr) : ∃ ts, e.tokens = ts ++ [e.last] := by
  induction e with
  | literal t | identifier t => exact ⟨[], rfl⟩
  | paren opening inner closing => exact ⟨opening :: inner.tokens, rfl⟩
  | unary op sign operand ih =>
    obtain ⟨ts, hts⟩ := ih
    exact ⟨sign :: ts, by simp [tokens, last, hts]⟩
  | binary op left sign right _ ihr =>
    obtain ⟨ts, hts⟩ := ihr
    exact ⟨left.tokens ++ sign :: ts, by simp [tokens, last, hts]⟩
  | ternary condition question thenExpr colon elseExpr _ _ ihe =>
    obtain ⟨ts, hts⟩ := ihe
    exact ⟨condition.tokens ++ question :: thenExpr.tokens ++ colon :: ts,
      by simp [tokens, last, hts]⟩

theorem first_mem_tokens (e : Expr) : e.first ∈ e.tokens := by
  obtain ⟨ts, hts⟩ := e.exists_tokens_eq_cons
  simp [hts]

theorem last_mem_tokens (e : Expr) : e.last ∈ e.tokens := by
  obtain ⟨ts, hts⟩ := e.exists_tokens_eq_concat
  simp [hts]

theorem first_index_le {e : Expr} (h : Token.Ordered e.tokens) {t : Token} (ht : t ∈ e.tokens) :
    e.first.index ≤ t.index := by
  obtain ⟨ts, hts⟩ := e.exists_tokens_eq_cons
  rw [hts] at h ht
  exact h.head_le ht

theorem index_le_last {e : Expr} (h : Token.Ordered e.tokens) {t : Token} (ht : t ∈ e.tokens) :
    t.index ≤ e.last.index := by
  obtain ⟨ts, hts⟩ := e.exists_tokens_eq_concat
  rw [hts] at h ht
  exact h.le_concat ht

/-- A negation only inserts. -/
theorem exists_insert_of_mem_negation {e : Expr} {d : Edit} (h : d ∈ e.negation) :
    ∃ i text, d = .insert i text := by
  unfold negation at h
  split at h <;> simp only [List.mem_cons, List.not_mem_nil, or_false] at h
  · exact ⟨_, _, h⟩
  · rcases h with rfl | rfl
    · exact ⟨_, _, rfl⟩
    · exact ⟨_, _, rfl⟩

/-- The range that simplifying an operator may replace: the operator with its right operand, with
its left operand, or with both. -/
def Spans (left : Expr) (sign : Token) (right : Expr) (r : Replacement) : Prop :=
  r.first = sign.index ∧ r.last = right.last.index ∨
    r.first = left.first.index ∧ r.last = right.first.index - 1 ∨
    r.first = left.first.index ∧ r.last = right.last.index

/-- An operator is simplified by one replacement, perhaps after some insertions. -/
theorem simplifyBinary_cases (op : BinaryOp) (left : Expr) (sign : Token) (right : Expr) :
    simplifyBinary op left sign right = [] ∨
      ∃ notes r, simplifyBinary op left sign right = notes ++ [Edit.replace r] ∧
        Spans left sign right r ∧ ∀ d ∈ notes, ∃ i text, d = .insert i text := by
  have hr : Spans left sign right
      { first := sign.index, last := right.last.index, removal := true } := .inl ⟨rfl, rfl⟩
  have hl : Spans left sign right
      { first := left.first.index, last := right.first.index - 1, removal := true } :=
    .inr (.inl ⟨rfl, rfl⟩)
  have hb : Spans left sign right
      { first := left.first.index, last := right.last.index, text := "0" } :=
    .inr (.inr ⟨rfl, rfl⟩)
  have hnot : ∀ d ∈ left.negation, ∃ i text, d = .insert i text :=
    fun d hd => exists_insert_of_mem_negation hd
  unfold simplifyBinary
  split <;> (repeat' split)
  all_goals first
    | exact .inl rfl
    | exact .inr ⟨[], _, rfl, hr, by simp⟩
    | exact .inr ⟨_, _, rfl, hr, hnot⟩
    | exact .inr ⟨[], _, rfl, hl, by simp⟩
    | exact .inr ⟨[], _, rfl, hb, by simp⟩

section
variable {left right : Expr} {sign : Token}

/-- What is recorded for the operands of an operator nests with what is recorded for it. -/
theorem Spans.nests {r : Replacement} (hr : Spans left sign right r)
    (h : Token.Ordered (left.tokens ++ sign :: right.tokens)) {d : Edit}
    (hd : d.Among left.tokens ∨ d.Among right.tokens) : d.Nests (.replace r) := by
  obtain ⟨hleft, hright, hlt⟩ := List.pairwise_append.mp h
  obtain ⟨hsign, hright⟩ := List.pairwise_cons.mp hright
  have hfirst := hsign right.first right.first_mem_tokens
  cases d with
  | insert i text => trivial
  | replace e =>
    rcases hd with ⟨-, ⟨t, ht, hft⟩, u, hu, hlu⟩ | ⟨-, ⟨t, ht, hft⟩, u, hu, hlu⟩
    · have h₁ := first_index_le hleft ht
      have h₂ := hlt u hu sign (by simp)
      have h₃ := index_le_last hright right.first_mem_tokens
      rcases hr with ⟨hf, hl⟩ | ⟨hf, hl⟩ | ⟨hf, hl⟩ <;> simp only [Edit.Nests] <;> omega
    · have h₁ := first_index_le hright ht
      have h₂ := index_le_last hright hu
      have h₃ := hlt left.first left.first_mem_tokens sign (by simp)
      rcases hr with ⟨hf, hl⟩ | ⟨hf, hl⟩ | ⟨hf, hl⟩ <;> simp only [Edit.Nests] <;> omega

theorem Spans.among {r : Replacement} (hr : Spans left sign right r)
    (h : Token.Ordered (left.tokens ++ sign :: right.tokens)) :
    (Edit.replace r).Among (left.tokens ++ sign :: right.tokens) := by
  obtain ⟨hleft, hright, hlt⟩ := List.pairwise_append.mp h
  obtain ⟨hsign, hright⟩ := List.pairwise_cons.mp hright
  have h₁ := hlt left.first left.first_mem_tokens sign (by simp)
  have h₂ := hsign right.first right.first_mem_tokens
  have h₃ := index_le_last hright right.first_mem_tokens
  have hfirst : left.first ∈ left.tokens ++ sign :: right.tokens := by
    simp [left.first_mem_tokens]
  have hlast : right.last ∈ left.tokens ++ sign :: right.tokens := by
    simp [right.last_mem_tokens]
  refine ⟨?_, ⟨left.first, hfirst, ?_⟩, right.last, hlast, ?_⟩ <;>
    rcases hr with ⟨hf, hl⟩ | ⟨hf, hl⟩ | ⟨hf, hl⟩ <;> omega

/-- The edits of an operator come after those of its operands. -/
theorem simplifyBinary_settled (op : BinaryOp) {edits : List Edit}
    (h : Token.Ordered (left.tokens ++ sign :: right.tokens))
    (hs : Edit.Settled (left.tokens ++ right.tokens) edits)
    (hd : ∀ d ∈ edits, d.Among left.tokens ∨ d.Among right.tokens) :
    Edit.Settled (left.tokens ++ sign :: right.tokens)
      (edits ++ simplifyBinary op left sign right) := by
  have hs : Edit.Settled (left.tokens ++ sign :: right.tokens) edits :=
    hs.mono (List.Sublist.subset (by simp))
  rcases simplifyBinary_cases op left sign right with heq | ⟨notes, r, heq, hr, hnotes⟩
  · simpa [heq] using hs
  · rw [heq, ← List.append_assoc]
    refine (hs.append_inserts hnotes).concat (hr.among h) fun d hm => ?_
    rcases List.mem_append.mp hm with hm | hm
    · exact hr.nests h (hd d hm)
    · obtain ⟨i, text, rfl⟩ := hnotes d hm
      trivial

end

/-- The edits of an expression stay inside it, and each nests with all later ones. -/
theorem simplifications_settled (e : Expr) (h : Token.Ordered e.tokens) :
    Edit.Settled e.tokens e.simplifications := by
  induction e with
  | literal t | identifier t => exact .nil _
  | paren opening inner closing ih =>
    exact (ih (h.sublist (by simp [tokens]))).mono (by simp [tokens])
  | unary op sign operand ih =>
    exact (ih (h.sublist (by simp [tokens]))).mono (by simp [tokens])
  | binary op left sign right ihl ihr =>
    have hl := ihl (h.sublist (by simp [tokens]))
    have hr := ihr (h.sublist (by simp [tokens]))
    refine simplifyBinary_settled op h (hl.append hr (h.sublist (by simp [tokens]))) ?_
    intro d hd
    exact (List.mem_append.mp hd).imp (hl.among d) (hr.among d)
  | ternary condition question thenExpr colon elseExpr ihc iht ihe =>
    have hsub : ((condition.tokens ++ thenExpr.tokens) ++ elseExpr.tokens).Sublist
        (ternary condition question thenExpr colon elseExpr).tokens := by
      simp only [tokens, List.append_assoc, List.cons_append]
      exact (List.Sublist.refl _).append
        (((List.Sublist.refl _).append (List.sublist_cons_self _ _)).cons _)
    have ho : Token.Ordered ((condition.tokens ++ thenExpr.tokens) ++ elseExpr.tokens) :=
      h.sublist hsub
    obtain ⟨hct, he, -⟩ := List.pairwise_append.mp ho
    obtain ⟨hc, ht, -⟩ := List.pairwise_append.mp hct
    exact (((ihc hc).append (iht ht) hct).append (ihe he) ho).mono hsub.subset

theorem flatMap_simplifications_settled (es : List Expr)
    (h : Token.Ordered (es.flatMap tokens)) :
    Edit.Settled (es.flatMap tokens) (es.flatMap simplifications) := by
  induction es with
  | nil => exact .nil _
  | cons e es ih =>
    obtain ⟨he, hes, -⟩ := List.pairwise_append.mp h
    exact (e.simplifications_settled he).append (ih hes) h

end Expr

namespace Stmt

theorem tokensOf_sublist_block (kind : Inspection) (keyword opening : Token) (body : List Stmt)
    (closing : Token) :
    (tokensOf body).Sublist (block kind keyword opening body closing).tokens := by
  simp only [tokens, List.cons_append]
  exact ((List.sublist_append_left _ _).cons _).cons _

mutual

theorem simplifications_settled (s : Stmt) (h : Token.Ordered s.tokens) :
    Edit.Settled s.tokens s.simplifications := by
  match s with
  | assign name equals value =>
    exact (value.simplifications_settled (h.sublist (by simp [tokens]))).mono (by simp [tokens])
  | print keyword arg more =>
    have ho : Token.Ordered ((arg :: more).flatMap Expr.tokens) := h.sublist (by simp [tokens])
    exact (Expr.flatMap_simplifications_settled (arg :: more) ho).mono (by simp [tokens])
  | expr e => exact e.simplifications_settled h
  | vars keyword => exact .nil _
  | block kind keyword opening body closing =>
    have hsub := tokensOf_sublist_block kind keyword opening body closing
    exact (simplificationsOf_settled body (h.sublist hsub)).mono hsub.subset
  | wrap kind keyword inner =>
    exact (simplifications_settled inner (h.sublist (by simp [tokens]))).mono (by simp [tokens])

theorem simplificationsOf_settled (ss : List Stmt) (h : Token.Ordered (tokensOf ss)) :
    Edit.Settled (tokensOf ss) (simplificationsOf ss) := by
  match ss with
  | [] => exact .nil _
  | s :: ss =>
    obtain ⟨hs, hss, -⟩ := List.pairwise_append.mp h
    exact (simplifications_settled s hs).append (simplificationsOf_settled ss hss) h

end

/-- What a block holds comes after its opening brace. -/
theorem index_lt_of_mem_block {kind : Inspection} {keyword opening closing : Token}
    {body : List Stmt} (h : Token.Ordered (block kind keyword opening body closing).tokens)
    {t : Token} (ht : t ∈ tokensOf body) : opening.index < t.index := by
  simp only [tokens, List.cons_append] at h
  exact (List.pairwise_cons.mp (List.pairwise_cons.mp h).2).1 t (List.mem_append_left _ ht)

/-- The text of a block is made up of the effects of its edits. -/
theorem simplified_block {kind : Inspection} {keyword opening closing : Token} {body : List Stmt}
    (h : Token.Ordered (block kind keyword opening body closing).tokens) (tokens : List Token) :
    (block kind keyword opening body closing).simplified tokens =
      .ok (Edit.shown tokens (simplificationsOf body)
        ((closing.index : Int) - 1 + 1 - (opening.index + 1)).toNat (opening.index + 1)) := by
  have ho : Token.Ordered (tokensOf body) :=
    h.sublist (tokensOf_sublist_block kind keyword opening body closing)
  have hsettled := simplificationsOf_settled body ho
  refine Edit.render_eq (fun d hd => (hsettled.among d hd).proper fun t ht => ?_) hsettled.nests
    tokens _
  have := index_lt_of_mem_block h ht
  omega

/-- The text of an inspection whose tokens stand in source order can always be simplified. -/
theorem simplified_eq_ok {s : Stmt} (h : Token.Ordered s.tokens) (tokens : List Token) :
    ∃ text, s.simplified tokens = .ok text := by
  cases s with
  | block kind keyword opening body closing => exact ⟨_, simplified_block h tokens⟩
  | _ => exact ⟨_, Edit.render_eq (by simp) .nil tokens _⟩

end Stmt
end Reckoner
