import Reckoner.Proofs.Simplified

/-!
# What the edits leave

The edits that simplify an expression leave the tokens of the simplified one. They concern the
tokens of the expression only, so that expressions next to each other are rewritten independently.

What an operator adds is recorded after the edits of its operands and covers whole operands, with
one exception: a negation goes in front of whatever is left of its operand. For this the first token
of the operand must not be covered, and where a product is replaced as a whole, nothing may have been
put in front of it before; the levels of operators see to the latter.
-/
namespace Reckoner

/-! ## Edits of tokens in a row -/

theorem Token.index_mem_numbered {n : Nat} {ts : List Token} (h : Numbered n ts) {t : Token}
    (ht : t ∈ ts) : n ≤ t.index ∧ t.index < n + ts.length := by
  obtain ⟨k, hk⟩ := List.mem_iff_getElem?.mp ht
  have hindex := index_of_numbered h hk
  have hlt := (List.getElem?_eq_some_iff.mp hk).1
  omega

@[simp] theorem sourceText_nil : sourceText [] = [] := rfl

@[simp] theorem sourceText_cons (t : Token) (ts : List Token) :
    sourceText (t :: ts) = t.text ++ sourceText ts := List.flatMap_cons

@[simp] theorem sourceText_append (ts us : List Token) :
    sourceText (ts ++ us) = sourceText ts ++ sourceText us := List.flatMap_append

namespace Edit
variable {n : Nat} {ts us vs : List Token} {edits edits' : List Edit}

theorem written_append (edits : List Edit) (ts us : List Token) :
    written edits (ts ++ us) = written edits ts ++ written edits us := List.flatMap_append

theorem written_congr (h : ∀ t ∈ ts, Spot.of edits t.index = Spot.of edits' t.index) :
    written edits ts = written edits' ts := by
  refine List.flatMap_congr fun t ht => ?_
  rw [h t ht]

/-- Tokens that no edit concerns are written as they are. -/
theorem written_of_not_touches (h : ∀ t ∈ ts, ∀ d ∈ edits, ¬d.Touches t.index) :
    written edits ts = sourceText ts := by
  refine List.flatMap_congr fun t ht => ?_
  rw [Spot.of_of_not_touches (h t ht)]
  rfl

/-- The tokens that a replacement covers give way to its text, and to what was inserted before the
first of them. -/
theorem written_replaced {r : Replacement} (hn : Token.Numbered n (ts ++ us ++ vs))
    (hne : us ≠ []) (hf : r.first = n + ts.length)
    (hl : r.last + 1 = n + ts.length + us.length) :
    written (edits ++ [Edit.replace r]) (ts ++ us ++ vs) =
      written edits ts ++ ((Spot.of edits r.first).inserted ++ r.text) ++ written edits vs := by
  rw [Token.numbered_append, Token.numbered_append] at hn
  obtain ⟨⟨hts, hus⟩, hvs⟩ := hn
  have hbefore : written (edits ++ [Edit.replace r]) ts = written edits ts := by
    refine written_congr fun t ht => Spot.of_append_of_not_touches (fun d hd => ?_) _
    have := Token.index_mem_numbered hts ht
    rw [List.mem_singleton.mp hd, Touches]
    omega
  have hafter : written (edits ++ [Edit.replace r]) vs = written edits vs := by
    refine written_congr fun t ht => Spot.of_append_of_not_touches (fun d hd => ?_) _
    have := Token.index_mem_numbered hvs ht
    have hpos := List.length_pos_iff.mpr hne
    rw [List.length_append] at this
    rw [List.mem_singleton.mp hd, Touches]
    omega
  have hcovered : written (edits ++ [Edit.replace r]) us =
      (Spot.of edits r.first).inserted ++ r.text := by
    obtain ⟨u, us, rfl⟩ := List.exists_cons_of_ne_nil hne
    obtain ⟨hu, hrest⟩ := hus
    have hfirst : (u.index : Int) = r.first := by omega
    have hnil : written (edits ++ [Edit.replace r]) us = [] := by
      refine List.flatMap_eq_nil_iff.mpr fun t ht => ?_
      have := Token.index_mem_numbered hrest ht
      rw [List.length_cons] at hl
      rw [Spot.of_concat, Spot.edit_of_covers (by omega) (by omega)]
      rfl
    have hown : written (edits ++ [Edit.replace r]) (u :: us) =
        (Spot.of (edits ++ [Edit.replace r]) u.index).text u.text ++
          written (edits ++ [Edit.replace r]) us := List.flatMap_cons
    rw [hown, hnil, List.append_nil, hfirst, Spot.of_concat, Spot.edit_first]
    rfl
  rw [written_append, written_append, hbefore, hcovered, hafter]

/-- No replacement that begins at or after a token covers it from before. -/
theorem body_ne_covered {i : Int} (h : ∀ r, replace r ∈ edits → i ≤ r.first) :
    (Spot.of edits i).body ≠ .covered := by
  induction edits using List.reverseRecOn with
  | nil => simp [Spot.of]
  | append_singleton edits d ih =>
    rw [Spot.of_concat]
    have ih := ih fun r hr => h r (List.mem_append_left _ hr)
    cases d with
    | insert j text =>
      rw [Spot.edit]
      split
      · exact ih
      · exact ih
    | replace r =>
      have := h r (by simp)
      rw [Spot.edit]
      split
      · simp
      · rw [if_neg (by omega)]
        exact ih

/-- What is inserted last before a token that is not covered comes first. -/
theorem written_inserted (hn : Token.Numbered n ts) (hne : ts ≠ [])
    (hbody : (Spot.of edits n).body ≠ .covered) (text : Text) :
    written (edits ++ [Edit.insert n text]) ts = text ++ written edits ts := by
  obtain ⟨t, ts, rfl⟩ := List.exists_cons_of_ne_nil hne
  obtain ⟨rfl, hts⟩ := hn
  have hrest : written (edits ++ [Edit.insert t.index text]) ts = written edits ts := by
    refine written_congr fun u hu => Spot.of_append_of_not_touches (fun d hd => ?_) _
    have := Token.index_mem_numbered hts hu
    rw [List.mem_singleton.mp hd, Touches]
    omega
  have hcons (edits : List Edit) : written edits (t :: ts) =
      (Spot.of edits t.index).text t.text ++ written edits ts := List.flatMap_cons
  rw [hcons, hcons, hrest, Spot.of_concat, ← List.append_assoc]
  generalize Spot.of edits t.index = s at hbody
  obtain ⟨inserted, _ | text | _⟩ := s
  · simp [Spot.edit, Spot.text]
  · simp [Spot.edit, Spot.text]
  · exact absurd rfl hbody

/-- A text put in front of some tokens stands there, or before the token after them if there are
none. -/
theorem written_inserted_before {s : Token} (hn : Token.Numbered n (ts ++ [s]))
    (h : ∀ t ∈ ts ++ [s], ∀ d ∈ edits, ¬d.Touches t.index) (text : Text) :
    written (edits ++ [Edit.insert n text]) ts ++
      (Spot.of (edits ++ [Edit.insert n text]) s.index).inserted = text ++ sourceText ts := by
  have hs : Spot.of edits s.index = {} := Spot.of_of_not_touches (h s (by simp))
  rw [Spot.of_concat, hs]
  cases ts with
  | nil =>
    have hindex : s.index = n := hn.1
    simp [written, hindex, Spot.edit, sourceText]
  | cons t ts =>
    have hts := Token.numbered_append.mp hn
    have hindex : s.index = n + (t :: ts).length := hts.2.1
    have hne : (n : Int) ≠ s.index := by
      rw [List.length_cons] at hindex
      omega
    have hfirst : Spot.of edits n = {} := by
      have ht : t.index = n := hts.1.1
      exact Spot.of_of_not_touches (ht ▸ h t (by simp))
    rw [written_inserted hts.1 (by simp) (by simp [hfirst]),
      written_of_not_touches fun u hu => h u (List.mem_append_left _ hu), Spot.edit, if_neg hne]
    simp

/-- The edits concern tokens of a stretch only, which begins with a given number. -/
def Within (n : Nat) (ts : List Token) (edits : List Edit) : Prop :=
  ∀ d ∈ edits, ∀ i : Int, d.Touches i → n ≤ i ∧ i < n + ts.length

theorem Within.nil (n : Nat) (ts : List Token) : Within n ts [] := by simp [Within]

theorem Within.append (h : Within n ts edits) (h' : Within (n + ts.length) us edits') :
    Within n (ts ++ us) (edits ++ edits') := by
  intro d hd i hi
  rw [List.length_append]
  rcases List.mem_append.mp hd with hd | hd
  · have := h d hd i hi
    omega
  · have := h' d hd i hi
    omega

theorem Within.concat (h : Within n ts edits) (h' : Within n ts edits') :
    Within n ts (edits ++ edits') := by
  intro d hd
  rcases List.mem_append.mp hd with hd | hd
  · exact h d hd
  · exact h' d hd

theorem Within.of_insert {i : Int} (h : n ≤ i) (h' : i < n + ts.length) (text : Text) :
    Within n ts [Edit.insert i text] := by
  intro d hd j hj
  rw [List.mem_singleton.mp hd, Touches] at hj
  omega

theorem Within.of_replace {r : Replacement} (h : n ≤ r.first) (h' : r.first < n + ts.length)
    (hl : r.last < n + ts.length) : Within n ts [Edit.replace r] := by
  intro d hd j hj
  rw [List.mem_singleton.mp hd, Touches] at hj
  omega

theorem Within.not_touches (h : Within n ts edits) {i : Int} (hi : i < n ∨ n + ts.length ≤ i) :
    ∀ d ∈ edits, ¬d.Touches i := by
  intro d hd ht
  have := h d hd i ht
  omega

/-- Edits of a stretch do not concern the tokens of one that comes before. -/
theorem Within.not_touches_before {m : Nat} (h : Within m us edits) (hm : n + ts.length ≤ m)
    (hn : Token.Numbered n ts) : ∀ t ∈ ts, ∀ d ∈ edits, ¬d.Touches t.index := by
  intro t ht
  have := Token.index_mem_numbered hn ht
  exact h.not_touches (.inl (by omega))

/-- Edits of a stretch do not concern the tokens of one that comes after. -/
theorem Within.not_touches_after (h : Within n ts edits) {m : Nat} (hm : n + ts.length ≤ m)
    (hn : Token.Numbered m us) : ∀ t ∈ us, ∀ d ∈ edits, ¬d.Touches t.index := by
  intro t ht
  have := Token.index_mem_numbered hn ht
  exact h.not_touches (.inr (by omega))

/-- Edits of two stretches do not concern the tokens between them. -/
theorem Within.not_touches_between (h : Within n ts edits) {m : Nat} (h' : Within m us edits')
    (hn : Token.Numbered (n + ts.length) vs) (hm : n + ts.length + vs.length ≤ m) :
    ∀ t ∈ vs, ∀ d ∈ edits ++ edits', ¬d.Touches t.index := by
  intro t ht d hd
  rcases List.mem_append.mp hd with hd | hd
  · exact h.not_touches_after (Nat.le_refl _) hn t ht d hd
  · exact h'.not_touches_before hm hn t ht d hd

/-- No replacement of a stretch begins before it. -/
theorem Within.le_first (h : Within n ts edits) (r : Replacement) (hr : replace r ∈ edits) :
    (n : Int) ≤ r.first := (h _ hr r.first (.inl rfl)).1

/-- Edits of a stretch of tokens, and the text that they make of it. -/
structure Rewrites (n : Nat) (ts : List Token) (edits : List Edit) (text : Text) : Prop where
  numbered : Token.Numbered n ts
  within : Within n ts edits
  written : written edits ts = text

theorem Rewrites.kept (hn : Token.Numbered n ts) : Rewrites n ts [] (sourceText ts) :=
  ⟨hn, .nil n ts, written_of_not_touches (by simp)⟩

/-- What edits leave of a stretch does not depend on those of a later one. -/
theorem Rewrites.written_append {m : Nat} {text : Text} (h : Rewrites n ts edits text)
    (h' : Within m us edits') (hm : n + ts.length ≤ m) :
    Edit.written (edits ++ edits') ts = text := by
  rw [← h.written]
  exact written_congr fun t ht =>
    Spot.of_append_of_not_touches (h'.not_touches_before hm h.numbered t ht) _

/-- What edits leave of a stretch does not depend on those of an earlier one. -/
theorem Rewrites.written_append_left {m : Nat} {text : Text} (h : Rewrites m us edits' text)
    (h' : Within n ts edits) (hm : n + ts.length ≤ m) :
    Edit.written (edits ++ edits') us = text := by
  rw [← h.written]
  exact written_congr fun t ht =>
    Spot.of_append_of_not_touches_left (h'.not_touches_after hm h.numbered t ht) _

/-- Stretches next to each other are rewritten independently. -/
theorem Rewrites.append {text text' : Text} (h : Rewrites n ts edits text)
    (h' : Rewrites (n + ts.length) us edits' text') :
    Rewrites n (ts ++ us) (edits ++ edits') (text ++ text') := by
  refine ⟨Token.numbered_append.mpr ⟨h.numbered, h'.numbered⟩, h.within.append h'.within, ?_⟩
  rw [Edit.written_append, h.written_append h'.within (Nat.le_refl _),
    h'.written_append_left h.within (Nat.le_refl _)]

end Edit

/-! ## Edits of an expression -/

namespace Expr
variable {lead : Token → List Token} {n : Nat}

/-- The numbers of the tokens that the edits of an operator name. -/
theorem index_binary {op : BinaryOp} {left right : Expr} {sign : Token}
    (hn : Token.Numbered n ((binary op left sign right).span lead)) :
    left.first.index = n ∧ left.last.index + 1 = n + (left.span lead).length ∧
      sign.index = n + (left.span lead).length + (lead sign).length ∧
      right.first.index = sign.index + 1 + (lead right.first).length ∧
      right.last.index + 1 = right.first.index + (right.span lead).length ∧
      ((binary op left sign right).span lead).length = (left.span lead).length +
        (lead sign).length + 1 + (lead right.first).length + (right.span lead).length := by
  rw [span, Token.numbered_append, Token.numbered_append, Token.numbered_append] at hn
  obtain ⟨⟨hleft, -, hsign, -⟩, hright⟩ := hn
  have h₁ := index_first hleft
  have h₂ := index_last hleft
  have h₃ := index_first hright
  have h₄ := index_last hright
  simp only [span, List.length_append, List.length_cons] at h₃ h₄ ⊢
  omega

/-- What is put around the left operand stands before tokens of the operator. -/
theorem within_negation {op : BinaryOp} {left right : Expr} {sign : Token}
    (hn : Token.Numbered n ((binary op left sign right).span lead)) :
    Edit.Within n ((binary op left sign right).span lead) left.negation := by
  obtain ⟨hfirst, hlast, -, -, -, hlength⟩ := index_binary hn
  rw [negation]
  split
  · exact .of_insert (by omega) (by omega) _
  · have hopening : Edit.Within n ((binary op left sign right).span lead)
        [.insert left.first.index "!("] := .of_insert (by omega) (by omega) _
    exact hopening.concat (.of_insert (by omega) (by omega) _)

/-- The edits of an operator concern its tokens and those of its operands only. -/
theorem within_simplifyBinary {op : BinaryOp} {left right : Expr} {sign : Token}
    (hn : Token.Numbered n ((binary op left sign right).span lead)) :
    Edit.Within n ((binary op left sign right).span lead) (simplifyBinary op left sign right) := by
  obtain ⟨hfirst, -, hsign, hright, hlast, hlength⟩ := index_binary hn
  have hpos : 0 < (right.span lead).length := right.length_span_pos
  have hdrop : Edit.Within n ((binary op left sign right).span lead) [dropRight sign right] :=
    .of_replace (by simp only; omega) (by simp only; omega) (by simp only; omega)
  rw [simplifyBinary_eq]
  cases reduction op left right with
  | keep => exact .nil _ _
  | left => exact hdrop
  | negatedLeft => exact (within_negation hn).concat hdrop
  | right => exact .of_replace (by simp only; omega) (by simp only; omega) (by simp only; omega)
  | zero => exact .of_replace (by simp only; omega) (by simp only; omega) (by simp only; omega)

/-- The edits of an expression concern its own tokens only. -/
theorem within_simplifications {e : Expr} (hn : Token.Numbered n (e.span lead)) :
    Edit.Within n (e.span lead) e.simplifications := by
  induction e generalizing n with
  | literal t | identifier t => exact .nil _ _
  | paren opening inner closing ih =>
    rw [span, Token.numbered_append, Token.numbered_append] at hn
    have := ((Edit.Within.nil n _).append (ih hn.1.2)).append (.nil _ (lead closing ++ [closing]))
    rwa [List.nil_append, List.append_nil] at this
  | unary op sign operand ih =>
    rw [span, Token.numbered_append] at hn
    exact (Edit.Within.nil n _).append (ih hn.2)
  | binary op left sign right ihl ihr =>
    have hown := within_simplifyBinary hn
    rw [span, Token.numbered_append, Token.numbered_append] at hn
    have hboth : Edit.Within n ((binary op left sign right).span lead)
        (left.simplifications ++ [] ++ right.simplifications) :=
      ((ihl hn.1.1).append (.nil _ (lead sign ++ sign :: lead right.first))).append (ihr hn.2)
    rw [List.append_nil] at hboth
    exact hboth.concat hown
  | ternary condition question thenExpr colon elseExpr ihc iht ihe =>
    rw [span, Token.numbered_append, Token.numbered_append, Token.numbered_append,
      Token.numbered_append] at hn
    obtain ⟨⟨⟨⟨hc, hq⟩, ht⟩, hk⟩, he⟩ := hn
    have := ((((ihc hc).append (.nil _ (lead question ++ question :: lead thenExpr.first))).append
      (iht ht)).append (.nil _ (lead colon ++ colon :: lead elseExpr.first))).append (ihe he)
    rwa [List.append_nil, List.append_nil] at this

theorem inserted_edit_replace {s : Spot} (h : s.inserted = []) (i : Int) (r : Replacement) :
    (s.edit i (.replace r)).inserted = [] := by
  rw [Spot.edit]
  split
  · rfl
  · split
    · rfl
    · exact h

/-- Nothing is put in front of an expression that binds more tightly than a comparison for
equality. -/
theorem inserted_first {e : Expr} (h : e.Formed) (hlevel : 4 < e.level)
    (hn : Token.Numbered n (e.span lead)) : (Spot.of e.simplifications n).inserted = [] := by
  induction e generalizing n with
  | literal t | identifier t => rfl
  | paren opening inner closing =>
    rw [span, Token.numbered_append, Token.numbered_append] at hn
    have hwithin := within_simplifications hn.1.2
    have hlt : (n : Int) < (n + (opening :: lead inner.first).length : Nat) := by
      rw [List.length_cons]
      omega
    rw [simplifications, Spot.of_of_not_touches (hwithin.not_touches (.inl hlt))]
  | unary op sign operand =>
    rw [span, Token.numbered_append] at hn
    have hwithin := within_simplifications hn.2
    have hlt : (n : Int) < (n + (sign :: lead operand.first).length : Nat) := by
      rw [List.length_cons]
      omega
    rw [simplifications, Spot.of_of_not_touches (hwithin.not_touches (.inl hlt))]
  | binary op left sign right ihl =>
    obtain ⟨-, hleft, -, hl, -⟩ := formed_binary_iff.mp h
    have hop : 4 < op.precedence := hlevel
    rw [span, Token.numbered_append, Token.numbered_append] at hn
    have hwithin := within_simplifications hn.2
    have hpos : 0 < (left.span lead).length := left.length_span_pos
    have hnone : (Spot.of (left.simplifications ++ right.simplifications) n).inserted = [] := by
      rw [Spot.of_append_of_not_touches (hwithin.not_touches (.inl (by
        simp only [List.length_append]
        omega)))]
      exact ihl hleft (Nat.lt_of_lt_of_le hop hl) hn.1.1
    rw [simplifications, simplifyBinary_eq]
    cases hred : reduction op left right with
    | keep => rw [Reduction.edits, List.append_nil, hnone]
    | negatedLeft =>
      have := precedence_of_negatedLeft hred
      omega
    | left | right | zero =>
      rw [Reduction.edits, Spot.of_concat]
      exact inserted_edit_replace hnone _ _
  | ternary => exact absurd hlevel (by simp [level, Grammar.ternaryLevel])

/-- A negation goes in front of what is left of its operand, and its closing parenthesis right
behind that, where an operator that is dropped may stand. -/
theorem written_negation {left : Expr} {gap : List Token} {sign : Token} {edits : List Edit}
    (hleft : Token.Numbered n (left.span lead))
    (hgap : Token.Numbered (n + (left.span lead).length) (gap ++ [sign]))
    (hwithin : ∀ r, .replace r ∈ edits → (n : Int) ≤ r.first)
    (hfree : ∀ t ∈ gap ++ [sign], ∀ d ∈ edits, ¬d.Touches t.index) {text : Text}
    (htext : Edit.written edits (left.span lead) = text) :
    Edit.written (edits ++ left.negation) (left.span lead ++ gap) ++
        (Spot.of (edits ++ left.negation) sign.index).inserted =
      "!" ++ (if left.isAtomic then text else "(" ++ text ++ ")") ++ sourceText gap := by
  have hne : left.span lead ≠ [] := List.length_pos_iff.mp left.length_span_pos
  have hbody := Edit.body_ne_covered hwithin
  have hfirst := index_first hleft
  have hlast := index_last hleft
  have hpos : 0 < (left.span lead).length := left.length_span_pos
  -- An insertion at the first token does not concern what comes after the operand.
  have hfar (own : Text) : ∀ t ∈ gap ++ [sign], ∀ d ∈ edits ++ [Edit.insert n own],
      ¬d.Touches t.index := by
    intro t ht d hd
    have := Token.index_mem_numbered hgap ht
    rcases List.mem_append.mp hd with hd | hd
    · exact hfree t ht d hd
    · rw [List.mem_singleton.mp hd, Edit.Touches]
      omega
  rw [negation, hfirst]
  cases left.isAtomic with
  | true =>
    have hsign := hfar "!" sign (by simp)
    rw [if_pos rfl, if_pos rfl, Edit.written_append, Edit.written_inserted hleft hne hbody, htext,
      Edit.written_of_not_touches fun t ht => hfar "!" t (List.mem_append_left _ ht),
      Spot.of_of_not_touches hsign, List.append_nil]
  | false =>
    have hafter : Edit.insertAfter left.last.index ")" =
        .insert ((n + (left.span lead).length : Nat) : Int) ")" := by
      rw [Edit.insertAfter, ← hlast]
      rfl
    have hkept : Edit.written (edits ++ [Edit.insert n "!("] ++
        [Edit.insert ((n + (left.span lead).length : Nat) : Int) ")"]) (left.span lead) =
          "!(" ++ text := by
      rw [← htext, ← Edit.written_inserted hleft hne hbody]
      refine Edit.written_congr fun t ht => Spot.of_append_of_not_touches (fun d hd => ?_) _
      have := Token.index_mem_numbered hleft ht
      rw [List.mem_singleton.mp hd, Edit.Touches]
      omega
    have hsplit : edits ++ [Edit.insert (n : Int) "!(", Edit.insertAfter left.last.index ")"] =
        edits ++ [Edit.insert n "!("] ++
          [Edit.insert ((n + (left.span lead).length : Nat) : Int) ")"] := by
      rw [hafter, List.append_assoc]
      rfl
    rw [if_neg (by decide), if_neg (by decide), hsplit, Edit.written_append, hkept,
      List.append_assoc, Edit.written_inserted_before hgap (hfar "!(")]
    simp only [← List.append_assoc]
    rfl

section
variable {op : BinaryOp} {left right : Expr} {sign : Token}

/-- Where an operator and its right operand are dropped, what other edits leave of the left one
remains, with the blanks in front of the operator and what was inserted there. -/
theorem written_dropRight (hn : Token.Numbered n ((binary op left sign right).span lead))
    (edits : List Edit) :
    Edit.written (edits ++ [dropRight sign right]) ((binary op left sign right).span lead) =
      Edit.written edits (left.span lead ++ lead sign) ++
        (Spot.of edits sign.index).inserted := by
  obtain ⟨-, -, hsign, hright, hlast, -⟩ := index_binary hn
  have hspan : (binary op left sign right).span lead =
      (left.span lead ++ lead sign) ++ (sign :: lead right.first ++ right.span lead) ++ [] := by
    simp [span]
  rw [hspan] at hn ⊢
  rw [dropRight, Edit.remove, Edit.written_replaced hn (by simp) (by simp; omega)
    (by simp; omega)]
  simp [Edit.written]

/-- Where the left operand and the operator are dropped, what other edits leave of the right operand
remains, behind what was inserted in front. -/
theorem written_dropLeft (hn : Token.Numbered n ((binary op left sign right).span lead))
    (edits : List Edit) :
    Edit.written (edits ++ [dropLeft left right]) ((binary op left sign right).span lead) =
      (Spot.of edits left.first.index).inserted ++ Edit.written edits (right.span lead) := by
  obtain ⟨hfirst, -, hsign, hright, -, -⟩ := index_binary hn
  have hspan : (binary op left sign right).span lead =
      [] ++ (left.span lead ++ (lead sign ++ sign :: lead right.first)) ++ right.span lead := by
    simp [span]
  rw [hspan] at hn ⊢
  rw [dropLeft, Edit.remove, Edit.written_replaced hn (by simp) (by simp; omega)
    (by simp; omega)]
  simp [Edit.written]

/-- Where an operator gives way to a text as a whole, that text remains, behind what was inserted in
front. -/
theorem written_whole (hn : Token.Numbered n ((binary op left sign right).span lead))
    (edits : List Edit) (text : Text) :
    Edit.written (edits ++
        [Edit.replace { first := left.first.index, last := right.last.index, text }])
        ((binary op left sign right).span lead) =
      (Spot.of edits left.first.index).inserted ++ text := by
  obtain ⟨hfirst, -, hsign, hright, hlast, hlength⟩ := index_binary hn
  have hspan : (binary op left sign right).span lead =
      [] ++ (binary op left sign right).span lead ++ [] := by simp
  rw [hspan] at hn ⊢
  rw [Edit.written_replaced hn (List.ne_nil_of_length_pos (by omega)) (by simp; omega)
    (by simp; omega)]
  simp [Edit.written]

/-- What the edits of an operator and of its operands make of them. -/
theorem written_binary (h : (binary op left sign right).Formed)
    (hn : Token.Numbered n ((binary op left sign right).span lead))
    (hl : Edit.Rewrites n (left.span lead) left.simplifications (sourceText (left.output lead)))
    (hr : Edit.Rewrites right.first.index (right.span lead) right.simplifications
      (sourceText (right.output lead))) :
    Edit.written (binary op left sign right).simplifications
        ((binary op left sign right).span lead) =
      sourceText ((binary op left sign right).output lead) := by
  obtain ⟨hfirst, -, hsign, hindex, -, -⟩ := index_binary hn
  have hpos : 0 < (left.span lead).length := left.length_span_pos
  -- What the edits of the operands alone do to each part.
  have hleft := hl.written_append hr.within (by omega)
  have hright := hr.written_append_left hl.within (by omega)
  have hmid : Token.Numbered (n + (left.span lead).length)
      (lead sign ++ sign :: lead right.first) := by
    rw [span, Token.numbered_append, Token.numbered_append] at hn
    exact hn.1.2
  have hbetween := hl.within.not_touches_between hr.within hmid (by simp; omega)
  rw [simplifications, simplifyBinary_eq, output]
  cases hred : reduction op left right with
  | keep =>
    rw [Reduction.edits, List.append_nil, span, Edit.written_append, Edit.written_append, hleft,
      hright, Edit.written_of_not_touches hbetween]
    simp
  | left =>
    have hlead := Edit.written_of_not_touches fun t ht => hbetween t (List.mem_append_left _ ht)
    rw [Reduction.edits, written_dropRight hn, Edit.written_append, hleft, hlead,
      Spot.of_of_not_touches (hbetween sign (by simp))]
    simp
  | negatedLeft =>
    rw [List.append_cons] at hmid hbetween
    have hfar : ∀ r, .replace r ∈ left.simplifications ++ right.simplifications →
        (n : Int) ≤ r.first := by
      intro r hmem
      rcases List.mem_append.mp hmem with hmem | hmem
      · exact hl.within.le_first r hmem
      · have := hr.within.le_first r hmem
        omega
    have hfree (t : Token) (ht : t ∈ lead sign ++ [sign]) :=
      hbetween t (List.mem_append_left _ ht)
    have hnegation :=
      written_negation hl.numbered (Token.numbered_append.mp hmid).1 hfar hfree hleft
    rw [Reduction.edits, ← List.append_assoc, written_dropRight hn, hnegation]
    cases left.isAtomic <;> simp [Token.made]
  | right =>
    obtain ⟨t, rfl⟩ := exists_literal_of_right hred
    have hnone : Spot.of ((literal t).simplifications ++ right.simplifications)
        (literal t).first.index = {} :=
      Spot.of_of_not_touches (hr.within.not_touches (.inl (by omega)))
    rw [Reduction.edits, written_dropLeft hn, hnone, hright]
    rfl
  | zero =>
    have hlevel : 4 < left.level := by
      have := precedence_of_zero hred
      have := (formed_binary_iff.mp h).2.2.2.1
      omega
    have hnone : (Spot.of (left.simplifications ++ right.simplifications)
        left.first.index).inserted = [] := by
      rw [Spot.of_append_of_not_touches (hr.within.not_touches (.inl (by omega))), hfirst]
      exact inserted_first (formed_binary_iff.mp h).2.1 hlevel hl.numbered
    rw [Reduction.edits, written_whole hn, hnone]
    simp [Token.made]

end

/-- The edits of an expression leave the tokens of the simplified one. -/
theorem rewrites {e : Expr} (h : e.Formed) (hn : Token.Numbered n (e.span lead)) :
    Edit.Rewrites n (e.span lead) e.simplifications (sourceText (e.output lead)) := by
  induction e generalizing n with
  | literal t | identifier t => exact .kept hn
  | paren opening inner closing ih =>
    rw [span, Token.numbered_append, Token.numbered_append] at hn
    have := ((Edit.Rewrites.kept hn.1.1).append (ih h.2.1 hn.1.2)).append (.kept hn.2)
    simpa [span, output, simplifications] using this
  | unary op sign operand ih =>
    rw [span, Token.numbered_append] at hn
    have := (Edit.Rewrites.kept hn.1).append (ih h.2.1 hn.2)
    simpa [span, output, simplifications] using this
  | binary op left sign right ihl ihr =>
    obtain ⟨-, hleft, hright, -⟩ := formed_binary_iff.mp h
    have hparts := hn
    rw [span, Token.numbered_append, Token.numbered_append] at hparts
    obtain ⟨⟨hl, -⟩, hr⟩ := hparts
    rw [← index_first hr] at hr
    exact ⟨hn, within_simplifications hn, written_binary h hn (ihl hleft hl) (ihr hright hr)⟩
  | ternary condition question thenExpr colon elseExpr ihc iht ihe =>
    obtain ⟨-, -, hc, ht, he, -⟩ := h
    rw [span, Token.numbered_append, Token.numbered_append, Token.numbered_append,
      Token.numbered_append] at hn
    obtain ⟨⟨⟨⟨hnc, hnq⟩, hnt⟩, hnk⟩, hne⟩ := hn
    have := ((((ihc hc hnc).append (.kept hnq)).append (iht ht hnt)).append (.kept hnk)).append
      (ihe he hne)
    simpa [span, output, simplifications] using this

end Expr

/-! ## Edits of statements -/

namespace Stmt
variable {lead : Token → List Token}

theorem rewrites_args {n : Nat} {es : List Expr} (h : ∀ e ∈ es, e.Formed)
    (hn : Token.Numbered n (es.flatMap fun e => lead e.first ++ e.span lead)) :
    Edit.Rewrites n (es.flatMap fun e => lead e.first ++ e.span lead)
      (es.flatMap Expr.simplifications)
      (sourceText (es.flatMap fun e => lead e.first ++ e.output lead)) := by
  induction es generalizing n with
  | nil => exact .kept hn
  | cons e es ih =>
    rw [List.forall_mem_cons] at h
    rw [List.flatMap_cons, Token.numbered_append, Token.numbered_append] at hn
    have := ((Edit.Rewrites.kept hn.1.1).append (Expr.rewrites h.1 hn.1.2)).append (ih h.2 hn.2)
    simpa using this

mutual

/-- The edits of a statement leave the tokens of the simplified one. -/
theorem rewrites {n : Nat} {s : Stmt} (h : s.Formed)
    (hn : Token.Numbered n (s.laid lead (Expr.span lead))) :
    Edit.Rewrites n (s.laid lead (Expr.span lead)) s.simplifications
      (sourceText (s.laid lead (Expr.output lead))) := by
  match s with
  | assign name equals value =>
    rw [laid, Token.numbered_append] at hn
    have := (Edit.Rewrites.kept hn.1).append (Expr.rewrites h.2.2 hn.2)
    simpa [laid, simplifications] using this
  | print keyword arg more =>
    rw [laid, Token.numbered_append] at hn
    have := (Edit.Rewrites.kept hn.1).append (rewrites_args h.2 hn.2)
    simpa [laid, simplifications] using this
  | expr e => exact Expr.rewrites h hn
  | vars keyword => exact .kept hn
  | block kind keyword opening body closing =>
    rw [laid, Token.numbered_append, Token.numbered_append] at hn
    have := ((Edit.Rewrites.kept hn.1.1).append (rewritesAll h.2.2.1 hn.1.2)).append (.kept hn.2)
    simpa [laid, simplifications] using this
  | wrap kind keyword inner =>
    rw [laid, Token.numbered_append] at hn
    have := (Edit.Rewrites.kept hn.1).append (rewrites h.2.2.2 hn.2)
    simpa [laid, simplifications] using this

theorem rewritesAll {n : Nat} {ss : List Stmt} (h : FormedAll ss)
    (hn : Token.Numbered n (laidAll lead (Expr.span lead) ss)) :
    Edit.Rewrites n (laidAll lead (Expr.span lead) ss) (simplificationsOf ss)
      (sourceText (laidAll lead (Expr.output lead) ss)) := by
  match ss with
  | [] => exact .kept hn
  | s :: ss =>
    rw [laidAll, Token.numbered_append, Token.numbered_append] at hn
    have := ((Edit.Rewrites.kept hn.1.1).append (rewrites h.1 hn.1.2)).append (rewritesAll h.2 hn.2)
    simpa [laidAll, simplificationsOf] using this

end

end Stmt
end Reckoner
