import Reckoner.Proofs.Listening
import Reckoner.Proofs.Lossless
import Reckoner.Proofs.Reports

/-!
# The order of the errors

Two parties write into the list of errors. The lexer reports what is wrong with a token when the
parser first looks at it, and the parser objects to a token when it cannot go on with it. The list
is in source order as long as the parser has looked at nothing behind the token that it objects to.

That is so everywhere but in one place. Where an expression is needed and cannot begin, the parser
looks at the next token before it objects to the current one, to see whether the current one should
be skipped. What the lexer finds wrong there comes first in the list and second in the source. No
two other errors are out of order: `errors_order`.

The invariant is about how far the source has been looked at: up to the current token, except that
after a look ahead it is the next one, and then a token is passed or objected to before anything
else happens.
-/
namespace Reckoner

open Lexeme ParseState

/-! ## Where the faults of the lexer stand -/

/-- An item stands before another one, also before the faults of that one. -/
def Item.Precedes (i j : Item) : Prop :=
  ∀ p ∈ j.token.pos :: j.faults.map SyntaxError.pos, i.token.pos.offset < p.offset

/-- The faults of an item are in source order, and none stands behind its token. -/
structure Item.Placed (i : Item) : Prop where
  sorted : i.faults.Pairwise fun e f => e.pos.offset ≤ f.pos.offset
  before : ∀ f ∈ i.faults, f.pos.offset ≤ i.token.pos.offset

/-- The faults of an item are what was skipped before its token and what is wrong with the token
itself. -/
theorem Item.Placed.of_append {i : Item} {skipped own : List SyntaxError}
    (hi : i.faults = skipped ++ own)
    (hsorted : skipped.Pairwise fun e f => e.pos.offset ≤ f.pos.offset)
    (hbefore : ∀ f ∈ skipped, f.pos.offset ≤ i.token.pos.offset)
    (hown : ∀ f ∈ own, f.pos = i.token.pos) : i.Placed where
  sorted := by
    rw [hi]
    refine List.pairwise_append.mpr ⟨hsorted, ?_, fun e he f hf => hown f hf ▸ hbefore e he⟩
    exact List.pairwise_of_forall_mem_list fun e he f hf => by rw [hown e he, hown f hf]
  before f hf := by
    rcases List.mem_append.mp (hi ▸ hf) with hf | hf
    · exact hbefore f hf
    · rw [hown f hf]

namespace Lexed

/-- The items of a source, their faults with them, are placed in source order. -/
theorem placed_locate (t : Text) (pos : Position) (index : Nat) (faults : List SyntaxError)
    (hsorted : faults.Pairwise fun e f => e.pos.offset ≤ f.pos.offset)
    (hbefore : ∀ f ∈ faults, f.pos.offset ≤ pos.offset) :
    (∀ i ∈ (locate pos index faults (lexemes t)).all,
      i.Placed ∧ pos.offset ≤ i.token.pos.offset ∧
        ∀ f ∈ i.faults, f ∈ faults ∨ pos.offset ≤ f.pos.offset) ∧
      (locate pos index faults (lexemes t)).all.Pairwise Item.Precedes := by
  induction t using lexemes_induction generalizing pos index faults with
  | nil =>
    rw [locate_lexemes_nil]
    simp only [all, List.nil_append, List.mem_singleton, forall_eq, List.pairwise_singleton,
      and_true]
    exact ⟨⟨hsorted, hbefore⟩, Nat.le_refl _, fun f hf => .inl hf⟩
  | stray b bs hk ih =>
    rw [locate_lexemes_stray pos index faults hk]
    have hstep := Position.offset_step pos b
    obtain ⟨hplaced, hpairwise⟩ := ih (pos.step b) index (faults ++ [.stray pos b])
      (List.pairwise_append.mpr ⟨hsorted, List.pairwise_singleton _ _, by simpa [SyntaxError.pos]⟩)
      (by
        intro f hf
        rcases List.mem_append.mp hf with hf | hf
        · exact Nat.le_trans (hbefore f hf) (by omega)
        · rw [List.mem_singleton.mp hf, hstep]
          exact Nat.le_succ _)
    refine ⟨fun i hi => ?_, hpairwise⟩
    obtain ⟨hi, hle, hfaults⟩ := hplaced i hi
    refine ⟨hi, by omega, fun f hf => ?_⟩
    rcases hfaults f hf with hf | hf
    · rcases List.mem_append.mp hf with hf | hf
      · exact .inl hf
      · rw [List.mem_singleton.mp hf]
        exact .inr (Nat.le_refl _)
    · exact .inr (by omega)
  | token b bs kind hk ih =>
    rw [locate_lexemes_token pos index faults hk]
    have hlength := List.length_pos_iff.mpr (text_scan_ne_nil b bs)
    have hmoved := Position.offset_advance pos (scan b bs).1.text
    obtain ⟨hplaced, hpairwise⟩ := ih (pos.advance (scan b bs).1.text) (index + 1) [] .nil (by simp)
    -- A string that is cut off is reported at the token itself.
    have hown : ∀ f ∈ (if (scan b bs).1.closed then []
        else [SyntaxError.unclosed pos (scan b bs).1.text]), f.pos = pos := by
      split <;> simp [SyntaxError.pos]
    have hbehind : ∀ i ∈ (locate (pos.advance (scan b bs).1.text) (index + 1) []
        (lexemes (scan b bs).2)).all,
        ∀ p ∈ i.token.pos :: i.faults.map SyntaxError.pos, pos.offset < p.offset := by
      intro i hi p hp
      obtain ⟨-, hle, hfaults⟩ := hplaced i hi
      rcases List.mem_cons.mp hp with rfl | hp
      · omega
      · obtain ⟨f, hf, rfl⟩ := List.mem_map.mp hp
        rcases hfaults f hf with hf | hf
        · simp at hf
        · omega
    refine ⟨fun i hi => ?_, List.pairwise_cons.mpr ⟨hbehind, hpairwise⟩⟩
    rcases List.mem_cons.mp hi with rfl | hi
    · refine ⟨.of_append rfl hsorted hbefore hown, Nat.le_refl _, fun f hf => ?_⟩
      refine (List.mem_append.mp hf).imp_right fun hf => ?_
      rw [hown f hf]
    · obtain ⟨hi', -, -⟩ := hplaced i hi
      refine ⟨hi', Nat.le_of_lt (hbehind i hi _ List.mem_cons_self), fun f hf => .inr ?_⟩
      exact Nat.le_of_lt (hbehind i hi _ (List.mem_cons_of_mem _ (List.mem_map_of_mem hf)))

variable {t : Text}

theorem placed_ofText {i : Item} (hi : i ∈ (ofText t).all) : i.Placed :=
  ((placed_locate t {} 0 [] .nil (by simp)).1 i hi).1

theorem getElem?_all_of_mem {i : Item} (hi : i ∈ (ofText t).all) :
    (ofText t).all[i.token.index]? = some i := by
  obtain ⟨k, hk⟩ := List.mem_iff_getElem?.mp hi
  have hindex := Token.index_of_numbered (numbered_ofText t) (k := k) (t := i.token)
    (by simp [tokens, hk])
  rw [hindex, Nat.zero_add, hk]

/-- Items that are numbered one after the other stand one after the other. -/
theorem precedes_of_index_lt {i j : Item} (hi : i ∈ (ofText t).all) (hj : j ∈ (ofText t).all)
    (h : i.token.index < j.token.index) : i.Precedes j := by
  obtain ⟨hm, hi'⟩ := List.getElem?_eq_some_iff.mp (getElem?_all_of_mem hi)
  obtain ⟨hn, hj'⟩ := List.getElem?_eq_some_iff.mp (getElem?_all_of_mem hj)
  have hpairwise := (placed_locate t {} 0 [] .nil (by simp)).2
  rw [← hi', ← hj']
  exact List.pairwise_iff_getElem.mp hpairwise _ _ hm hn h

theorem offset_le_of_index_le {i j : Item} (hi : i ∈ (ofText t).all) (hj : j ∈ (ofText t).all)
    (h : i.token.index ≤ j.token.index) : i.token.pos.offset ≤ j.token.pos.offset := by
  rcases Nat.lt_or_eq_of_le h with hlt | heq
  · exact Nat.le_of_lt (precedes_of_index_lt hi hj hlt _ List.mem_cons_self)
  · have hsame := getElem?_all_of_mem hi
    rw [heq, getElem?_all_of_mem hj] at hsame
    cases hsame
    exact Nat.le_refl _

/-- The faults of a source are in source order. -/
theorem sorted_faults : (ofText t).faults.Pairwise fun e f => e.pos.offset ≤ f.pos.offset := by
  obtain ⟨hplaced, hpairwise⟩ := placed_locate t {} 0 [] .nil (by simp)
  refine List.pairwise_flatMap.mpr ⟨fun i hi => (hplaced i hi).1.sorted, ?_⟩
  refine hpairwise.imp_of_mem fun {i j} hi _ hij e he f hf => ?_
  have hlt := hij f.pos (List.mem_cons_of_mem _ (List.mem_map_of_mem hf))
  exact Nat.le_trans ((hplaced i hi).1.before e he) (Nat.le_of_lt hlt)

end Lexed

/-! ## What is looked at ahead -/

namespace SyntaxError

/-- The token that the parser objects to. -/
def found? : SyntaxError → Option Token
  | stray _ _ | unclosed _ _ => none
  | mismatched u _ | extraneous u _ => some u

/-- Whether the parser looked for an expression in vain, so that it looked at the next token before
it objected to the current one. Nothing comes after the end of input. -/
def looksAhead : SyntaxError → Bool
  | mismatched u .expression | extraneous u .expression => u.kind != .eof
  | _ => false

theorem isLexical_eq_false_iff {e : SyntaxError} : e.isLexical = false ↔ ∃ u, e.found? = some u := by
  cases e <;> simp [isLexical, found?]

theorem found?_eq_none_iff {e : SyntaxError} : e.found? = none ↔ e.isLexical = true := by
  cases e <;> simp [isLexical, found?]

theorem pos_eq_of_found? {e : SyntaxError} {u : Token} (h : e.found? = some u) : e.pos = u.pos := by
  cases e <;> cases h <;> rfl

end SyntaxError

/-- The items up to the first one that the parser sees. -/
def Item.untilSeen : List Item → List Item
  | [] => []
  | i :: is => if i.token.hidden then i :: untilSeen is else [i]

/-- The items behind a token up to the next one that the parser sees. -/
def Item.behind (all : List Item) (u : Token) : List Item := untilSeen (all.drop (u.index + 1))

/-- How many items the parser has looked at when it objects to a token: those up to the token, and
after a look ahead those up to the next one. -/
def SyntaxError.reach (all : List Item) (e : SyntaxError) : Nat :=
  match e.found? with
  | none => 0
  | some u => u.index + 1 + if e.looksAhead then (Item.behind all u).length else 0

/-- A word holds one item that the parser sees, at its end. -/
structure Word.Grouped (w : Word) : Prop where
  lead : ∀ i ∈ w.lead, i.token.hidden = true
  item : w.token.hidden = false

namespace Word

theorem grouped_group (lead is : List Item) (h : ∀ i ∈ lead, i.token.hidden = true) :
    (∀ w ∈ (group lead is).1, w.Grouped) ∧ ∀ i ∈ (group lead is).2, i.token.hidden = true := by
  fun_induction group lead is with
  | case1 => exact ⟨by simp, h⟩
  | case2 lead i is hi ih =>
    refine ih fun j hj => ?_
    rcases List.mem_append.mp hj with hj | hj
    · exact h j hj
    · rwa [List.mem_singleton.mp hj]
  | case3 lead i is hi words trailing hg ih =>
    rw [hg] at ih
    obtain ⟨hwords, htrailing⟩ := ih (by simp)
    exact ⟨List.forall_mem_cons.mpr ⟨⟨h, by simpa [token] using hi⟩, hwords⟩, htrailing⟩

theorem Grouped.untilSeen {w : Word} (h : w.Grouped) (after : List Item) :
    Item.untilSeen (w.items ++ after) = w.items := by
  obtain ⟨lead, item⟩ := w
  have hlead := h.lead
  have hitem : item.token.hidden = false := h.item
  clear h
  simp only [items] at hlead ⊢
  induction lead with
  | nil => simp [Item.untilSeen, hitem]
  | cons i lead ih =>
    obtain ⟨hi, hlead⟩ := List.forall_mem_cons.mp hlead
    rw [List.cons_append, List.cons_append, Item.untilSeen, if_pos hi, ih hlead]

end Word

/-! ## How far the source has been looked at -/

namespace ParseState
variable {all : List Item} {st : ParseState}

section
variable (hall : Token.Numbered 0 (all.map Item.token))
include hall

/-- The number of the token of a word. -/
theorem index_token_of_split {before after : List Item} {w : Word}
    (hw : all = before ++ (w.items ++ after)) :
    w.token.index + 1 = before.length + w.items.length := by
  have hat : all[before.length + w.lead.length]? = some w.item := by
    rw [hw, List.getElem?_append_right (Nat.le_add_right _ _), Nat.add_sub_cancel_left, Word.items,
      List.append_assoc, List.getElem?_append_right (Nat.le_refl _), Nat.sub_self]
    rfl
  have hindex := Token.index_of_numbered hall (k := before.length + w.lead.length)
    (t := w.item.token) (by simp [hat])
  rw [Word.token, hindex, Word.items, List.length_append, List.length_singleton]
  omega

theorem numbered_of_split {before after : List Item} {w : Word}
    (hw : all = before ++ (w.items ++ after)) :
    Token.Numbered before.length (w.items.map Item.token) := by
  rw [hw, List.map_append, Token.numbered_append, List.map_append, Token.numbered_append] at hall
  simpa using hall.2.1

/-- After a word was created, all items up to its token have been. -/
theorem created_creating {before after : List Item} {w : Word}
    (hw : all = before ++ (w.items ++ after)) (hc : before.length ≤ st.created) :
    (st.creating w).created = max st.created (w.token.index + 1) := by
  have hlength := congrArg List.length
    (filter_index_eq_drop (numbered_of_split hall hw) st.created)
  have hindex := index_token_of_split hall hw
  rw [List.length_drop] at hlength
  rw [creating, hlength]
  simp only
  omega

namespace Logged

theorem created_looked (h : st.Logged all) :
    st.looked.created = max st.created (st.token.index + 1) := by
  obtain ⟨before, after, hw, hc⟩ := h.exists_word
  exact created_creating hall hw hc

/-- The next token comes right after the items behind the current one. -/
theorem index_ahead (h : st.Logged all) (hgrouped : ∀ w ∈ st.last :: st.rest, w.Grouped)
    (hne : st.rest ≠ []) :
    st.ahead.index = st.token.index + (Item.behind all st.token).length := by
  obtain ⟨w, ws, hr⟩ := List.exists_cons_of_ne_nil hne
  have hword : st.word = w := by simp [word, hr]
  obtain ⟨before, hsplit, -⟩ := h.ahead
  obtain ⟨w', after, hmem, hahead, htail⟩ : ∃ w' after, w' ∈ st.last :: st.rest ∧
      st.ahead = w'.token ∧ (ws ++ [st.last]).flatMap Word.items = w'.items ++ after := by
    cases ws with
    | nil => exact ⟨st.last, [], by simp, by simp [ParseState.ahead, hr], by simp⟩
    | cons w' ws =>
      exact ⟨w', (ws ++ [st.last]).flatMap Word.items, by simp [hr],
        by simp [ParseState.ahead, hr], by simp⟩
  rw [hr, List.cons_append, List.flatMap_cons, htail] at hsplit
  have hindex : st.token.index + 1 = before.length + w.items.length := by
    rw [← hword] at hsplit ⊢
    exact index_token_of_split hall hsplit
  have hdrop : all.drop (st.token.index + 1) = w'.items ++ after := by
    rw [hindex, hsplit, ← List.append_assoc, ← List.length_append, List.drop_left]
  have hbehind : Item.behind all st.token = w'.items := by
    rw [Item.behind, hdrop, (hgrouped w' hmem).untilSeen]
  have hnext : w'.token.index + 1 = (before ++ w.items).length + w'.items.length :=
    index_token_of_split hall (hsplit.trans (List.append_assoc _ _ _).symm)
  rw [List.length_append] at hnext
  rw [hahead, hbehind]
  omega

end Logged
end

end ParseState

/-- An error and one that was reported before it. The parser never goes back to object to an earlier
token. What the lexer reported before an objection, it found in what the parser had looked at, and
what it reports after an objection, it finds behind that. -/
structure Follows (all : List Item) (e f : SyntaxError) : Prop where
  objections : ∀ u v, e.found? = some u → f.found? = some v → v.index ≤ u.index
  looked : e.isLexical = false → f.isLexical = true →
    ∃ i ∈ all, f ∈ i.faults ∧ i.token.index < e.reach all
  fresh : e.isLexical = true → f.isLexical = false →
    ∃ i ∈ all, e ∈ i.faults ∧ f.reach all ≤ i.token.index

/-- What the lexer reports follows what it has reported, and what it did not find by then. -/
theorem Follows.of_isLexical {all : List Item} {e f : SyntaxError} (he : e.isLexical = true)
    (hfresh : f.isLexical = false → ∃ i ∈ all, e ∈ i.faults ∧ f.reach all ≤ i.token.index) :
    Follows all e f where
  objections u v hu := by
    rw [SyntaxError.found?_eq_none_iff.mpr he] at hu
    cases hu
  looked h := by simp [he] at h
  fresh _ := hfresh

namespace ParseState

/-- The errors in the log are in order, up to what was found by looking ahead. -/
structure Interleaved (all : List Item) (st : ParseState) : Prop
    extends Logged all st, Sourced st where
  grouped : ∀ w ∈ st.last :: st.rest, w.Grouped
  order : (Step.faults st.log).Pairwise (Follows all)
  objected : ∀ e ∈ Step.faults st.log, ∀ u, e.found? = some u →
    (∃ i ∈ all, i.token = u) ∧ u.index ≤ st.token.index ∧ e.reach all ≤ st.created
  caught : ∀ e ∈ Step.faults st.log, e.isLexical = true →
    ∃ i ∈ all, e ∈ i.faults ∧ i.token.index < st.created

namespace Interleaved
variable {all : List Item} {st : ParseState}

theorem noted (h : st.Interleaved all) {s : Step} (hs : s.fault? = none) :
    (st.noted s).Interleaved all := by
  have hsame : Step.faults (st.noted s).log = Step.faults st.log := by
    simp [Step.faults, ParseState.noted, hs]
  exact ⟨h.toLogged.noted s, h.toSourced.noted s, h.grouped, hsame ▸ h.order, hsame ▸ h.objected,
    hsame ▸ h.caught⟩

/-- An objection to the current token comes after all that was found in what has been looked at. -/
theorem objecting (h : st.Interleaved all) {e : SyntaxError} (hfound : e.found? = some st.token)
    (hcreated : st.created = e.reach all) : (st.noted (.fault e)).Interleaved all := by
  have hfaults : Step.faults (st.noted (.fault e)).log = e :: Step.faults st.log := rfl
  have hlex : e.isLexical = false := SyntaxError.isLexical_eq_false_iff.mpr ⟨_, hfound⟩
  refine ⟨h.toLogged.noted _, h.toSourced.noted _, h.grouped, ?_, ?_, ?_⟩
  · refine hfaults ▸ List.pairwise_cons.mpr ⟨fun f hf => ⟨fun u v hu hv => ?_, fun _ hf' => ?_,
      fun h _ => ?_⟩, h.order⟩
    · cases hfound.symm.trans hu
      exact (h.objected f hf v hv).2.1
    · rw [← hcreated]
      exact h.caught f hf hf'
    · simp [hlex] at h
  · rw [hfaults]
    refine List.forall_mem_cons.mpr ⟨fun u hu => ?_, h.objected⟩
    cases hfound.symm.trans hu
    obtain ⟨before, after, hw, -⟩ := h.exists_word
    refine ⟨⟨st.word.item, ?_, rfl⟩, Nat.le_refl _, Nat.le_of_eq hcreated.symm⟩
    rw [hw]
    simp [Word.items]
  · rw [hfaults]
    exact List.forall_mem_cons.mpr ⟨fun h => by simp [hlex] at h, h.caught⟩

section
variable (hall : Token.Numbered 0 (all.map Item.token))
include hall

/-- What is new in the log comes from an item of the word that had not been created. -/
theorem fresh_of_mem_creating (h : st.Interleaved all) {before after : List Item} {w : Word}
    (hmem : w ∈ st.last :: st.rest) (hw : all = before ++ (w.items ++ after))
    (hc : before.length ≤ st.created) {f : SyntaxError}
    (hf : f ∈ (w.items.filter (st.created ≤ ·.token.index)).flatMap Item.faults) :
    f.isLexical = true ∧ ∃ i ∈ all, f ∈ i.faults ∧ st.created ≤ i.token.index ∧
      i.token.index < (st.creating w).created := by
  obtain ⟨i, hi, hf⟩ := List.mem_flatMap.mp hf
  obtain ⟨hi, hle⟩ := List.mem_filter.mp hi
  refine ⟨h.lexical w hmem i hi f hf, i, hw ▸ by simp [hi], hf, by simpa using hle, ?_⟩
  obtain ⟨k, hk, rfl⟩ := List.getElem_of_mem hi
  have hindex := Token.index_of_numbered (numbered_of_split hall hw) (k := k)
    (t := w.items[k].token) (by simp [hk])
  have hcreated := created_creating hall hw hc
  have := index_token_of_split hall hw
  omega

/-- What the lexer finds comes after all objections. -/
theorem creating (h : st.Interleaved all) {before after : List Item} {w : Word}
    (hmem : w ∈ st.last :: st.rest) (hw : all = before ++ (w.items ++ after))
    (hc : before.length ≤ st.created) : (st.creating w).Interleaved all := by
  have hfresh : ∀ f ∈ ((w.items.filter (st.created ≤ ·.token.index)).flatMap Item.faults).reverse,
      f.isLexical = true ∧ ∃ i ∈ all, f ∈ i.faults ∧ st.created ≤ i.token.index ∧
        i.token.index < (st.creating w).created := fun f hf =>
    h.fresh_of_mem_creating hall hmem hw hc (List.mem_reverse.mp hf)
  have hle : st.created ≤ (st.creating w).created := created_le_creating st w
  refine ⟨(h.toLogged.creating hall hw hc).1, ((Reaches.refl st).creating w).sourced h.toSourced,
    h.grouped, ?_, ?_, ?_⟩
  · rw [faults_creating]
    refine List.pairwise_append.mpr ⟨?_, h.order, fun e he f hf => ?_⟩
    · refine List.pairwise_of_forall_mem_list fun e he f hf => .of_isLexical (hfresh e he).1 ?_
      simp [(hfresh f hf).1]
    · obtain ⟨he, i, hi, hei, hnew, -⟩ := hfresh e he
      refine .of_isLexical he fun hf' => ?_
      obtain ⟨u, hu⟩ := SyntaxError.isLexical_eq_false_iff.mp hf'
      exact ⟨i, hi, hei, Nat.le_trans (h.objected f hf u hu).2.2 hnew⟩
  · rw [faults_creating]
    intro e he u hu
    rcases List.mem_append.mp he with he | he
    · rw [SyntaxError.found?_eq_none_iff.mpr (hfresh e he).1] at hu
      cases hu
    · obtain ⟨hmem, hindex, hreach⟩ := h.objected e he u hu
      exact ⟨hmem, hindex, Nat.le_trans hreach hle⟩
  · rw [faults_creating]
    intro e he hlex
    rcases List.mem_append.mp he with he | he
    · obtain ⟨-, i, hi, hei, -, hlt⟩ := hfresh e he
      exact ⟨i, hi, hei, hlt⟩
    · obtain ⟨i, hi, hei, hlt⟩ := h.caught e he hlex
      exact ⟨i, hi, hei, Nat.lt_of_lt_of_le hlt hle⟩

theorem looked (h : st.Interleaved all) : st.looked.Interleaved all := by
  obtain ⟨before, after, hw, hc⟩ := h.exists_word
  exact h.creating hall (word_mem st) hw hc

theorem peeked (h : st.Interleaved all) : st.peeked.Interleaved all := by
  obtain ⟨before, after, hw, hc⟩ := h.exists_peeked hall
  exact (h.looked hall).creating hall (peeked_mem st) hw hc

theorem index_token_le_ahead (h : st.Interleaved all) : st.token.index ≤ st.ahead.index := by
  by_cases hr : st.rest = []
  · rw [token_of_rest_eq_nil hr]
    simp [ahead, hr]
  · rw [h.index_ahead hall h.grouped hr]
    exact Nat.le_add_right _ _

theorem passed (h : st.Interleaved all) (rule : Rule) : (st.passed rule).Interleaved all := by
  have hnoted := (h.looked hall).noted (s := .consume st.token rule) rfl
  have hconsumed : Interleaved all { st.looked.noted (.consume st.token rule) with
      rest := st.rest.tail } := by
    refine ⟨h.toLogged.consumed hall rule, h.toSourced.consumed rule, fun w hw => ?_, hnoted.order,
      fun e he u hu => ?_, hnoted.caught⟩
    · refine h.grouped w ?_
      rcases List.mem_cons.mp hw with rfl | hw
      · exact List.mem_cons_self
      · exact List.mem_cons_of_mem _ (List.mem_of_mem_tail hw)
    · obtain ⟨hmem, hindex, hreach⟩ := hnoted.objected e he u hu
      have htoken := token_passed st rule
      rw [ParseState.passed, token_looked] at htoken
      rw [token_noted, token_looked] at hindex
      rw [htoken]
      exact ⟨hmem, Nat.le_trans hindex (h.index_token_le_ahead hall), hreach⟩
  exact hconsumed.looked hall

theorem created_peeked (h : st.Interleaved all) :
    st.peeked.created = max st.created (st.ahead.index + 1) := by
  obtain ⟨before, after, hw, hc⟩ := h.exists_peeked hall
  have hpeeked : (st.looked.creating _).created = _ := created_creating hall hw hc
  have hlooked := h.created_looked hall
  have hle := h.index_token_le_ahead hall
  rw [ParseState.peeked, hpeeked]
  rw [ParseState.ahead] at hle ⊢
  omega

theorem created_passed (h : st.Interleaved all) (rule : Rule) :
    (st.passed rule).created = max st.created (st.ahead.index + 1) := by
  have hpassed := (h.toLogged.consumed hall rule).created_looked hall
  have htoken := token_passed st rule
  have hlooked := h.created_looked hall
  have hle := h.index_token_le_ahead hall
  rw [ParseState.passed, token_looked] at htoken
  rw [ParseState.passed, hpassed, htoken]
  simp only [ParseState.noted]
  omega

end
end Interleaved

/-! ## How far the parser has looked -/

/-- The parser has not looked behind the current token. -/
structure UpToCurrent (all : List Item) (st : ParseState) : Prop extends Interleaved all st where
  created_le : st.created ≤ st.token.index + 1

/-- The parser has not looked behind the next token. -/
structure UpToNext (all : List Item) (st : ParseState) : Prop extends Interleaved all st where
  created_le : st.created ≤ st.ahead.index + 1

/-- The parser objects to the current token, and the error says how far it has looked. -/
structure Blames (all : List Item) (st : ParseState) (e : SyntaxError) : Prop
    extends Interleaved all st where
  found : e.found? = some st.token
  created_eq : st.created = e.reach all

variable {all : List Item} {st : ParseState} {e : SyntaxError}

/-- Nothing comes after the end of input. -/
theorem UpToNext.current_of_eof (h : st.UpToNext all) (hk : st.token.kind = .eof) :
    st.UpToCurrent all := by
  have hr : st.rest = [] := by simpa [kinds] using h.kind_token_eq_eof_iff.mp hk
  have hahead : st.ahead = st.token := by simp [ParseState.ahead, token_of_rest_eq_nil hr, hr]
  exact ⟨h.toInterleaved, hahead ▸ h.created_le⟩

section
variable (hall : Token.Numbered 0 (all.map Item.token))
include hall

namespace UpToNext

theorem looked (h : st.UpToNext all) : st.looked.UpToNext all := by
  have hlooked := h.created_looked hall
  have hle := h.index_token_le_ahead hall
  refine ⟨h.toInterleaved.looked hall, ?_⟩
  rw [ahead_looked, hlooked]
  exact Nat.max_le.mpr ⟨h.created_le, Nat.succ_le_succ hle⟩

theorem entered (h : st.UpToNext all) (rule : Rule) : (st.entered rule).UpToNext all :=
  ⟨(h.looked hall).noted rfl, (h.looked hall).created_le⟩

theorem exited (h : st.UpToNext all) (rule : Rule) : (st.exited rule).UpToNext all :=
  ⟨(h.looked hall).noted rfl, (h.looked hall).created_le⟩

theorem peeked (h : st.UpToNext all) : st.peeked.UpToNext all := by
  refine ⟨h.toInterleaved.peeked hall, ?_⟩
  rw [ahead_peeked, h.created_peeked hall]
  exact Nat.max_le.mpr ⟨h.created_le, Nat.le_refl _⟩

theorem probed (h : st.UpToNext all) : st.probed.UpToNext all := by
  unfold ParseState.probed
  split
  · exact (h.looked hall).peeked hall
  · exact h.looked hall

/-- The next token becomes the current one. -/
theorem passed (h : st.UpToNext all) (rule : Rule) : (st.passed rule).UpToCurrent all := by
  refine ⟨h.toInterleaved.passed hall rule, ?_⟩
  rw [token_passed, h.created_passed hall]
  exact Nat.max_le.mpr ⟨h.created_le, Nat.le_refl _⟩

/-- A phrase is entered, and its first token is passed. -/
theorem began (h : st.UpToNext all) (rule : Rule) :
    ((st.entered rule).looked.passed rule).UpToCurrent all :=
  ((h.entered hall rule).looked hall).passed hall rule

/-- An objection after a look ahead. -/
theorem blames (h : st.UpToNext all) (hfound : e.found? = some st.token)
    (hahead : e.looksAhead = true) (hk : st.token.kind ≠ .eof) : st.peeked.Blames all e := by
  have hindex := h.index_ahead hall h.grouped (h.ends.rest_ne_nil hk)
  refine ⟨h.toInterleaved.peeked hall, hfound, ?_⟩
  rw [h.created_peeked hall, Nat.max_eq_right h.created_le]
  simp only [SyntaxError.reach, hfound, hahead, if_true]
  omega

end UpToNext

namespace UpToCurrent

theorem next (h : st.UpToCurrent all) : st.UpToNext all :=
  ⟨h.toInterleaved, Nat.le_trans h.created_le (Nat.succ_le_succ (h.index_token_le_ahead hall))⟩

theorem looked (h : st.UpToCurrent all) : st.looked.UpToCurrent all := by
  have hlooked := h.created_looked hall
  refine ⟨h.toInterleaved.looked hall, ?_⟩
  rw [token_looked, hlooked]
  exact Nat.max_le.mpr ⟨h.created_le, Nat.le_refl _⟩

theorem exited (h : st.UpToCurrent all) (rule : Rule) : (st.exited rule).UpToCurrent all :=
  ⟨(h.looked hall).noted rfl, (h.looked hall).created_le⟩

theorem passed (h : st.UpToCurrent all) (rule : Rule) : (st.passed rule).UpToCurrent all :=
  (h.next hall).passed hall rule

/-- An operator is passed, and its operand is next. -/
theorem operand (h : st.UpToCurrent all) : (st.looked.passed .expr).UpToNext all :=
  ((h.looked hall).passed hall .expr).next hall

/-- An objection without a look ahead. -/
theorem blames (h : st.UpToCurrent all) (hfound : e.found? = some st.token)
    (hahead : e.looksAhead = false) : st.looked.Blames all e := by
  have hlooked := h.created_looked hall
  refine ⟨h.toInterleaved.looked hall, hfound, ?_⟩
  simp only [SyntaxError.reach, hfound, hahead, hlooked]
  exact Nat.max_eq_right h.created_le

end UpToCurrent

/-- The keyword of an inspection is passed, and the parser looks at what comes after it. -/
theorem UpToNext.inspecting (h : st.UpToNext all) :
    ((st.entered .inspect).passed .inspect).looked.UpToCurrent all :=
  ((h.entered hall .inspect).passed hall .inspect).looked hall

namespace Blames

theorem looked (h : st.Blames all e) : st.looked.Blames all e := by
  have hlooked := h.created_looked hall
  have hcreated := h.created_eq
  refine ⟨h.toInterleaved.looked hall, h.found, ?_⟩
  rw [hlooked, ← hcreated]
  simp only [SyntaxError.reach, h.found] at hcreated
  omega

theorem exited (h : st.Blames all e) (rule : Rule) : (st.exited rule).Blames all e :=
  ⟨(h.looked hall).noted rfl, h.found, (h.looked hall).created_eq⟩

theorem reported (h : st.Blames all e) : (st.noted (.fault e)).UpToNext all := by
  have hle := h.index_token_le_ahead hall
  have hcreated := h.created_eq
  refine ⟨h.toInterleaved.objecting h.found h.created_eq, ?_⟩
  simp only [SyntaxError.reach, h.found] at hcreated
  rw [ahead_noted, show (st.noted (.fault e)).created = st.created from rfl, hcreated]
  split
  · next hahead =>
    have hk : st.token.kind ≠ .eof := by
      have hfound := h.found
      unfold SyntaxError.looksAhead at hahead
      split at hahead <;> simp_all [SyntaxError.found?]
    have := h.index_ahead hall h.grouped (h.ends.rest_ne_nil hk)
    omega
  · omega

end Blames

/-- A list of statements is read on wherever skipping ends. -/
theorem UpToNext.skips (h : st.UpToNext all) {line : Nat} {closing : TokenKind} {rule : Rule}
    {st' : ParseState} (hs : Skips line closing rule st st') :
    st'.UpToNext all ∧
      (st'.UpToCurrent all ∨ st'.token.kind = closing ∨ st'.token.kind.startsStmt = true) := by
  induction hs with
  | stop hends =>
    refine ⟨h.looked hall, ?_⟩
    rcases hends with (heof | hclosing) | ⟨-, hstarts⟩
    · exact .inl ((h.looked hall).current_of_eof heof)
    · exact .inr (.inl hclosing)
    · exact .inr (.inr hstarts)
  | step _ _ ih => exact ih (((h.looked hall).passed hall rule).next hall)

end
end ParseState

/-- How far the parser has looked when something is to be read. -/
def Goal.Due {p : Phrase} (all : List Item) : Goal p → ParseState → Prop
  | climb _ _, st | moreArgs, st => st.UpToCurrent all
  | stmts closing _, st => st.UpToNext all ∧
    (st.UpToCurrent all ∨ st.token.kind = closing ∨ st.token.kind.startsStmt = true)
  | _, st => st.UpToNext all

/-- How far the parser has looked once something was read. -/
def Goal.Done {p : Phrase} (all : List Item) : Goal p → ParseState → Prop
  | expr _, st | climb _ _, st | unary, st | primary, st => st.UpToCurrent all
  | stmts _ _, st => st.UpToNext all
  | _, st => st.UpToNext all ∧ (st.UpToCurrent all ∨ st.token.kind = .identifier)

/-- How far the parser has looked after reading, also if that fails. -/
def Goal.Paced {p : Phrase} (all : List Item) (g : Goal p) :
    Except SyntaxError p.Tree → ParseState → Prop
  | .ok _, st => g.Done all st
  | .error e, st => st.Blames all e

namespace Goal
variable {p q : Phrase} {all : List Item} {g : Goal p} {st : ParseState}

theorem Paced.imp {g' : Goal p} {o : Except SyntaxError p.Tree} (h : g.Paced all o st)
    (hdone : g.Done all st → g'.Done all st) : g'.Paced all o st := by
  cases o with
  | error e => exact h
  | ok a => exact hdone h

theorem Paced.map {g' : Goal q} {o : Except SyntaxError p.Tree} (h : g.Paced all o st)
    (f : p.Tree → q.Tree) (hdone : g.Done all st → g'.Done all st) :
    g'.Paced all (o.map f) st := by
  cases o with
  | error e => exact h
  | ok a => exact hdone h

variable (hall : Token.Numbered 0 (all.map Item.token))
include hall

/-- A statement that is read by reading an expression. -/
theorem Paced.stmt {level : Nat} {o : Except SyntaxError Expr}
    (h : (Goal.expr level).Paced all o st) (f : Expr → Stmt) :
    Goal.stmt.Paced all (o.map f) st := by
  cases o with
  | error e => exact h
  | ok a => exact ⟨UpToCurrent.next hall h, .inl h⟩

theorem Done.exited (h : g.Done all st) (rule : Rule) : g.Done all (st.exited rule) := by
  cases g with
  | expr _ | climb _ _ | unary | primary => exact UpToCurrent.exited hall h rule
  | stmts _ _ => exact UpToNext.exited hall h rule
  | moreArgs | stmt | inspection _ =>
    exact ⟨h.1.exited hall rule, h.2.imp (·.exited hall rule) id⟩

theorem Paced.exited {o : Except SyntaxError p.Tree} (h : g.Paced all o st) (rule : Rule) :
    g.Paced all o (st.exited rule) := by
  cases o with
  | error e => exact Blames.exited hall h rule
  | ok a => exact Done.exited hall h rule

end Goal

/-- Reading keeps the pace. -/
theorem Reads.paced {all : List Item} (hall : Token.Numbered 0 (all.map Item.token))
    {p : Phrase} {g : Goal p} {st st' : ParseState} {o : Except SyntaxError p.Tree}
    (h : Reads g st o st') (hst : g.Due all st) : g.Paced all o st' := by
  induction h with
  | exprFail _ ih => exact (ih (UpToNext.entered hall hst .expr)).exited hall .expr
  | expr _ _ ih ihc =>
    exact ((ihc (ih (UpToNext.entered hall hst .expr))).imp id).exited hall .expr
  | climbStop _ => exact UpToCurrent.looked hall hst
  | binaryFail _ _ _ ih | thenFail _ _ _ ih =>
    exact ih (UpToCurrent.operand hall hst)
  | binary _ _ _ _ ih ihc =>
    exact ihc (ih (UpToCurrent.operand hall hst))
  | colonFail _ _ _ _ ih =>
    have hst₁ := ih (UpToCurrent.operand hall hst)
    exact UpToCurrent.blames hall hst₁ rfl rfl
  | elseFail _ _ _ _ _ ih ihe =>
    have hst₁ := ih (UpToCurrent.operand hall hst)
    exact ihe (UpToCurrent.operand hall hst₁)
  | ternary _ _ _ _ _ _ ih ihe ihc =>
    have hst₁ := ih (UpToCurrent.operand hall hst)
    exact ihc (ihe (UpToCurrent.operand hall hst₁))
  | unaryPrimary _ _ ih => exact (ih (UpToNext.looked hall hst)).imp id
  | unary _ _ ih =>
    have hst₁ := ((UpToNext.looked hall hst).passed hall .expr).next hall
    exact (ih hst₁).map _ id
  | literal _ | identifier _ =>
    have hst₁ := UpToNext.began hall hst .primary
    exact hst₁.exited hall .primary
  | innerFail _ _ ih =>
    have hst₁ := UpToNext.began hall hst .primary
    exact Blames.exited hall (ih (hst₁.next hall)) .primary
  | closeFail _ _ _ ih =>
    have hst₁ := UpToNext.began hall hst .primary
    have hinner := ih (hst₁.next hall)
    exact (UpToCurrent.blames hall hinner rfl rfl).exited hall .primary
  | paren _ _ _ ih =>
    have hst₁ := UpToNext.began hall hst .primary
    have hinner := ih (hst₁.next hall)
    exact ((UpToCurrent.looked hall hinner).passed hall .primary).exited hall .primary
  | primaryEnd hk =>
    have hst₁ := ((UpToNext.entered hall hst .primary).looked hall).current_of_eof hk
    exact (hst₁.blames hall rfl (by simp [SyntaxError.looksAhead, hk])).exited hall .primary
  | primaryFail _ _ _ heof _ =>
    have hst₁ := (UpToNext.entered hall hst .primary).looked hall
    have hblames := hst₁.blames hall (e := .mismatched _ .expression) rfl
      (by simpa [SyntaxError.looksAhead] using heof) heof
    exact (hblames.looked hall).exited hall .primary
  | skip _ _ _ heof _ _ ih =>
    have hst₁ := (UpToNext.entered hall hst .primary).looked hall
    have hblames := hst₁.blames hall (e := .extraneous _ .expression) rfl
      (by simpa [SyntaxError.looksAhead] using heof) heof
    exact (ih (((hblames.reported hall).passed hall .primary).next hall)).exited hall .primary
  | argsStop _ =>
    have hst₁ := UpToCurrent.looked hall hst
    exact ⟨hst₁.next hall, .inl hst₁⟩
  | argsAssign hid _ =>
    exact ⟨(UpToCurrent.next hall hst).probed hall, .inr (by simpa using hid)⟩
  | argFail _ _ _ ih => exact ih ((UpToCurrent.next hall hst).probed hall)
  | arg _ _ _ _ ih ihm =>
    exact (ihm (ih ((UpToCurrent.next hall hst).probed hall))).map _ id
  | stmtsDone _ => exact hst.1.looked hall
  | @extraneous _ rule _ _ _ h hs _ ih =>
    rw [not_or] at h
    have hst₁ := hst.2.resolve_right (not_or.mpr ⟨h.1, by simp [hs]⟩)
    have hblames := hst₁.blames hall (e := .extraneous _ .statement) rfl rfl
    have hpassed := (hblames.reported hall).passed hall rule
    exact ih ⟨hpassed.next hall, .inl hpassed⟩
  | recover _ _ _ hsk _ ih ihm =>
    have hblames := ih (hst.1.looked hall)
    exact ihm ((Blames.reported hall hblames).skips hall hsk)
  | stmts _ _ _ _ ih ihm =>
    obtain ⟨hnext, hdone⟩ := ih (hst.1.looked hall)
    exact (ihm ⟨hnext, hdone.imp id fun hid => .inr (by rw [hid]; rfl)⟩).map _ id
  | assign _ _ _ ih =>
    have hst₁ := ((UpToNext.entered hall hst .stmt).probed hall).passed hall .stmt
    have hvalue := ih (((hst₁.looked hall).passed hall .stmt).next hall)
    exact (hvalue.stmt hall _).exited hall .stmt
  | exprStmt _ _ _ _ _ ih =>
    have hst₁ := (UpToNext.entered hall hst .stmt).probed hall
    exact ((ih hst₁).stmt hall _).exited hall .stmt
  | printFail _ _ ih =>
    have hst₁ := UpToNext.began hall hst .stmt
    exact Blames.exited hall (ih (hst₁.next hall)) .stmt
  | print _ _ _ ih ihm =>
    have hst₁ := UpToNext.began hall hst .stmt
    have hargs := (ihm (ih (hst₁.next hall))).exited hall .stmt
    exact hargs.map _ id
  | vars _ =>
    have hst₁ := UpToNext.began hall hst .stmt
    have hexited := hst₁.exited hall .stmt
    exact ⟨hexited.next hall, .inl hexited⟩
  | inspect _ _ ih =>
    exact ((ih ((UpToNext.entered hall hst .stmt).looked hall)).imp id).exited hall .stmt
  | blockFail _ hbody hcl ih =>
    have hst₁ := UpToNext.inspecting hall hst
    have hopening := hst₁.passed hall .inspect
    have hclosed := ih ⟨hopening.next hall, .inl hopening⟩
    have hend := hbody.ended.resolve_left hcl
    have hlast := UpToNext.current_of_eof hclosed hend
    exact (hlast.blames hall rfl rfl).exited hall .inspect
  | block _ _ _ ih =>
    have hst₁ := UpToNext.inspecting hall hst
    have hopening := hst₁.passed hall .inspect
    have hclosed := ih ⟨hopening.next hall, .inl hopening⟩
    have hexited := ((UpToNext.looked hall hclosed).passed hall .inspect).exited hall .inspect
    exact ⟨hexited.next hall, .inl hexited⟩
  | wrap _ _ _ ih =>
    have hst₁ := UpToNext.inspecting hall hst
    exact ((ih (hst₁.next hall)).map _ id).exited hall .inspect
  | inspectFail _ _ =>
    have hst₁ := UpToNext.inspecting hall hst
    exact (hst₁.blames hall (by simp [SyntaxError.found?]) rfl).exited hall .inspect

/-! ## Sources -/

/-- The lexer found an error by a look ahead, behind a token that the parser then objects to. -/
def SyntaxError.FoundBehind (all : List Item) (e f : SyntaxError) : Prop :=
  f.looksAhead = true ∧ ∃ u, f.found? = some u ∧ ∃ i ∈ Item.behind all u, e ∈ i.faults

theorem Item.isPrefix_untilSeen (is : List Item) : untilSeen is <+: is := by
  induction is with
  | nil => exact List.prefix_refl _
  | cons i is ih =>
    rw [untilSeen]
    split
    · exact (List.prefix_cons_inj i).mpr ih
    · exact ⟨is, rfl⟩

/-- The items behind a token have the numbers after its own. -/
theorem Item.mem_behind_iff {all : List Item} (hall : Token.Numbered 0 (all.map Item.token))
    {u : Token} {i : Item} :
    i ∈ behind all u ↔ i ∈ all ∧ u.index < i.token.index ∧
      i.token.index < u.index + 1 + (behind all u).length := by
  have htake : behind all u = (all.drop (u.index + 1)).take (behind all u).length :=
    List.prefix_iff_eq_take.mp (isPrefix_untilSeen _)
  have hindex {k : Nat} (hk : all[k]? = some i) : i.token.index = k := by
    have := Token.index_of_numbered hall (k := k) (t := i.token) (by simp [hk])
    omega
  constructor
  · intro hi
    obtain ⟨k, hk⟩ := List.mem_iff_getElem?.mp hi
    have hlt := (List.getElem?_eq_some_iff.mp hk).1
    rw [htake, List.getElem?_take_of_lt hlt, List.getElem?_drop] at hk
    have := hindex hk
    exact ⟨List.mem_of_getElem? hk, by omega, by omega⟩
  · rintro ⟨hi, hgt, hlt⟩
    obtain ⟨k, hk⟩ := List.mem_iff_getElem?.mp hi
    have := hindex hk
    rw [htake]
    refine List.mem_iff_getElem?.mpr ⟨k - (u.index + 1), ?_⟩
    rw [List.getElem?_take_of_lt (by omega), List.getElem?_drop, ← hk]
    congr 1
    omega

theorem SyntaxError.foundBehind_iff {all : List Item}
    (hall : Token.Numbered 0 (all.map Item.token)) {e f : SyntaxError} {u : Token}
    (hu : f.found? = some u) :
    e.FoundBehind all f ↔
      ∃ i ∈ all, e ∈ i.faults ∧ u.index < i.token.index ∧ i.token.index < f.reach all := by
  simp only [FoundBehind, reach, hu, Option.some.injEq, exists_eq_left', Item.mem_behind_iff hall]
  cases f.looksAhead with
  | true => simp only [true_and, if_true]; grind
  | false =>
    simp only [Bool.false_eq_true, false_and, if_false, false_iff]
    rintro ⟨i, -, -, hgt, hlt⟩
    omega

namespace Lexed
variable {t : Text} {e f : SyntaxError}

/-- No error is a fault of two items. -/
theorem index_eq_of_mem_faults {i j : Item} (hi : i ∈ (ofText t).all) (hj : j ∈ (ofText t).all)
    (hei : e ∈ i.faults) (hej : e ∈ j.faults) : i.token.index = j.token.index := by
  -- The fault of the later item would stand behind the token of the earlier one.
  have hlt {i j : Item} (hi : i ∈ (ofText t).all) (hj : j ∈ (ofText t).all)
      (hei : e ∈ i.faults) (hej : e ∈ j.faults) : ¬i.token.index < j.token.index := by
    intro h
    have hbehind := precedes_of_index_lt hi hj h e.pos
      (List.mem_cons_of_mem _ (List.mem_map_of_mem hej))
    have hbefore := (placed_ofText hi).before e hei
    omega
  have := hlt hi hj hei hej
  have := hlt hj hi hej hei
  omega

theorem isLexical_of_foundBehind (h : e.FoundBehind (ofText t).all f) :
    e.isLexical = true ∧ f.isLexical = false := by
  obtain ⟨-, u, hu, i, hi, hei⟩ := h
  have hmem := ((Item.mem_behind_iff (numbered_ofText t)).mp hi).1
  exact ⟨isLexical_ofText hmem e hei, SyntaxError.isLexical_eq_false_iff.mpr ⟨u, hu⟩⟩

/-- What was found by looking ahead is not reported after the objection. -/
theorem not_foundBehind_of_follows (h : Follows (ofText t).all e f) :
    ¬e.FoundBehind (ofText t).all f := by
  intro hbehind
  obtain ⟨he, hf⟩ := isLexical_of_foundBehind hbehind
  obtain ⟨u, hu⟩ := SyntaxError.isLexical_eq_false_iff.mp hf
  obtain ⟨i, hi, hei, -, hlt⟩ := (SyntaxError.foundBehind_iff (numbered_ofText t) hu).mp hbehind
  obtain ⟨j, hj, hej, hle⟩ := h.fresh he hf
  have := index_eq_of_mem_faults hi hj hei hej
  omega

/-- An error that is reported before another one stands behind it only if it was found by looking
ahead. -/
theorem offset_lt_iff_foundBehind (h : Follows (ofText t).all f e)
    (he : ∀ u, e.found? = some u → ∃ i ∈ (ofText t).all, i.token = u)
    (hf : ∀ u, f.found? = some u → ∃ i ∈ (ofText t).all, i.token = u)
    (hlexical : e.isLexical = true → f.isLexical = true → e.pos.offset ≤ f.pos.offset) :
    f.pos.offset < e.pos.offset ↔ e.FoundBehind (ofText t).all f := by
  cases hlf : f.isLexical with
  | true =>
    have hnone := SyntaxError.found?_eq_none_iff.mpr hlf
    have hnot : ¬e.FoundBehind (ofText t).all f := by
      rintro ⟨-, u, hu, -⟩
      cases hnone.symm.trans hu
    refine iff_of_false (Nat.not_lt.mpr ?_) hnot
    cases hle : e.isLexical with
    | true => exact hlexical hle hlf
    | false =>
      obtain ⟨v, hv⟩ := SyntaxError.isLexical_eq_false_iff.mp hle
      obtain ⟨j, hj, rfl⟩ := he v hv
      obtain ⟨i, hi, hfi, hreach⟩ := h.fresh hlf hle
      have hlt : j.token.index < i.token.index := by
        simp only [SyntaxError.reach, hv] at hreach
        omega
      rw [SyntaxError.pos_eq_of_found? hv]
      exact Nat.le_of_lt (precedes_of_index_lt hj hi hlt f.pos
        (List.mem_cons_of_mem _ (List.mem_map_of_mem hfi)))
  | false =>
    obtain ⟨u, hu⟩ := SyntaxError.isLexical_eq_false_iff.mp hlf
    obtain ⟨j, hj, rfl⟩ := hf u hu
    rw [SyntaxError.foundBehind_iff (numbered_ofText t) hu, SyntaxError.pos_eq_of_found? hu]
    have hbehind : ∀ i ∈ (ofText t).all, e ∈ i.faults → j.token.index < i.token.index →
        j.token.pos.offset < e.pos.offset := fun i hi hei hlt =>
      precedes_of_index_lt hj hi hlt e.pos (List.mem_cons_of_mem _ (List.mem_map_of_mem hei))
    refine ⟨fun hlt => ?_, fun ⟨i, hi, hei, hlt, _⟩ => hbehind i hi hei hlt⟩
    cases hle : e.isLexical with
    | true =>
      obtain ⟨i, hi, hei, hreach⟩ := h.looked hlf hle
      refine ⟨i, hi, hei, ?_, hreach⟩
      by_contra hnot
      have hbefore := (placed_ofText hi).before e hei
      have := offset_le_of_index_le hi hj (Nat.not_lt.mp hnot)
      omega
    | false =>
      obtain ⟨v, hv⟩ := SyntaxError.isLexical_eq_false_iff.mp hle
      obtain ⟨i, hi, rfl⟩ := he v hv
      have := offset_le_of_index_le hi hj (h.objections _ _ hu hv)
      rw [SyntaxError.pos_eq_of_found? hv] at hlt
      omega

end Lexed

namespace ParseState
variable {all : List Item} {st : ParseState} (hall : Token.Numbered 0 (all.map Item.token))
include hall

theorem UpToCurrent.entered (h : st.UpToCurrent all) (rule : Rule) :
    (st.entered rule).UpToCurrent all :=
  ⟨(h.looked hall).noted rfl, (h.looked hall).created_le⟩

/-- Opening a source looks at its first token only. -/
theorem UpToCurrent.opened (h : st.UpToCurrent all) (rule : Rule) :
    (Goal.stmts .eof rule).Due all (st.opened rule) := by
  have hentered := h.entered hall rule
  unfold ParseState.opened
  split
  · split
    · next hk =>
      have hblames := hentered.blames hall (e := .mismatched st.token .statement) rfl rfl
      exact ⟨hblames.reported hall, .inr (.inl hk)⟩
    · exact ⟨(hentered.looked hall).next hall, .inl (hentered.looked hall)⟩
  · exact ⟨hentered.next hall, .inl hentered⟩

end ParseState

namespace Parser

theorem upToCurrent_unread (t : Text) : (ofText t).unread.UpToCurrent (Lexed.ofText t).all := by
  have hgrouped := Word.grouped_group [] (ofText t).lexed.items (by simp)
  have hlast : (Lexed.ofText t).last.token.hidden = false := by
    rw [Token.hidden, Lexed.kind_last_ofText]
    rfl
  refine ⟨⟨logged_unread t, sourced_unread t, ?_, ?_, ?_, ?_⟩, ?_⟩
  · refine List.forall_mem_cons.mpr ⟨⟨hgrouped.2, ?_⟩, hgrouped.1⟩
    rw [unread, Word.token, lexed_ofText]
    exact hlast
  · simp [unread, Step.faults]
  · simp [unread, Step.faults]
  · simp [unread, Step.faults]
  · simp [unread, created_ofText]

/-- The errors of a source are interleaved in its log. -/
theorem exists_interleaved (rule : Rule) (t : Text) :
    ∃ st : ParseState, st.Interleaved (Lexed.ofText t).all ∧
      ((ofText t).readSource rule).1.errors = (Step.faults st.log).reverse := by
  have hall : Token.Numbered 0 ((Lexed.ofText t).all.map Item.token) := Lexed.numbered_ofText t
  obtain ⟨ss, st, hread, -, hlog⟩ := exists_reads (ends_start_ofText rule t)
  have hst : st.UpToNext (Lexed.ofText t).all :=
    hread.paced hall ((upToCurrent_unread t).opened hall rule)
  exact ⟨st.closed rule, ((hst.passed hall rule).exited hall rule).toInterleaved, hlog⟩

/-- Which errors stand out of order. -/
theorem pairwise_errors (rule : Rule) (t : Text) :
    ((ofText t).readSource rule).1.errors.Pairwise fun e f =>
      Follows (Lexed.ofText t).all f e ∧
        (f.pos.offset < e.pos.offset ↔ e.FoundBehind (Lexed.ofText t).all f) := by
  obtain ⟨st, hst, hlog⟩ := exists_interleaved rule t
  have hfollows : ((ofText t).readSource rule).1.errors.Pairwise fun e f =>
      Follows (Lexed.ofText t).all f e := by
    rw [hlog, List.pairwise_reverse]
    exact hst.order
  have hlexical : ((ofText t).readSource rule).1.errors.Pairwise fun e f =>
      e.isLexical = true → f.isLexical = true → e.pos.offset ≤ f.pos.offset := by
    rw [← List.pairwise_filter, filter_isLexical_errors]
    exact Lexed.sorted_faults
  have hfound : ∀ e ∈ ((ofText t).readSource rule).1.errors, ∀ u, e.found? = some u →
      ∃ i ∈ (Lexed.ofText t).all, i.token = u := fun e he u hu =>
    (hst.objected e (List.mem_reverse.mp (hlog ▸ he)) u hu).1
  refine (hfollows.and hlexical).imp_of_mem fun he hf ⟨h, hle⟩ => ⟨h, ?_⟩
  exact Lexed.offset_lt_iff_foundBehind h (hfound _ he) (hfound _ hf) hle

end Parser

/-- What is wrong behind a token is reported before an objection to the token if and only if the
parser looked ahead. So the errors of a source are in order if and only if the lexer finds nothing
by looking ahead, and the first one is the first in the source if and only if it was not found in
this way. -/
theorem errors_order (rule : Rule) (t : Text) (hooks : TraceFlags) :
    let all := (Lexed.ofText t).all
    let errors := ((Parser.ofText t).readSource rule hooks).1.errors
    (errors.Pairwise fun e f => f.pos.offset < e.pos.offset ↔ e.FoundBehind all f) ∧
      ((errors.Pairwise fun e f => e.pos.offset ≤ f.pos.offset) ↔
        ∀ f ∈ errors, f.looksAhead = true → ∀ u, f.found? = some u →
          ∀ i ∈ Item.behind all u, i.faults = []) ∧
      ∀ e ∈ errors.head?, (∀ f ∈ errors, e.pos.offset ≤ f.pos.offset) ↔
        ∀ f ∈ errors, ¬e.FoundBehind all f := by
  intro all errors
  have herrors : errors = ((Parser.ofText t).readSource rule).1.errors :=
    (congrArg Parsed.errors (Parser.readSource_heard rule t hooks)).trans rfl
  have hpairs := Parser.pairwise_errors rule t
  have hlexical := Parser.filter_isLexical_errors rule t
  rw [← herrors] at hpairs hlexical
  refine ⟨hpairs.imp (·.2), ⟨fun hsorted f hf hahead u hu i hi => ?_, fun hclean => ?_⟩,
    fun e he => ?_⟩
  · -- A fault behind the token is in the list, but stands on neither side of the objection.
    refine List.eq_nil_iff_forall_not_mem.mpr fun e hei => ?_
    have hbehind : e.FoundBehind all f := ⟨hahead, u, hu, i, hi, hei⟩
    have hall := ((Item.mem_behind_iff (Lexed.numbered_ofText t)).mp hi).1
    have hmem : e ∈ errors := by
      have hfault : e ∈ (Lexed.ofText t).faults := List.mem_flatMap.mpr ⟨i, hall, hei⟩
      rw [← hlexical] at hfault
      exact (List.mem_filter.mp hfault).1
    obtain ⟨xs, ys, hsplit⟩ := List.append_of_mem hf
    rw [hsplit] at hpairs hsorted hmem
    rcases List.mem_append.mp hmem with hx | hy
    · have hle := (List.pairwise_append.mp hsorted).2.2 e hx f List.mem_cons_self
      have hlt := ((List.pairwise_append.mp hpairs).2.2 e hx f List.mem_cons_self).2.mpr hbehind
      omega
    rcases List.mem_cons.mp hy with rfl | hy
    · have := Lexed.isLexical_of_foundBehind hbehind
      simp_all
    · have hafter := (List.pairwise_append.mp hpairs).2.1
      have hfollows := (List.pairwise_cons.mp hafter).1 e hy
      exact Lexed.not_foundBehind_of_follows hfollows.1 hbehind
  · refine hpairs.imp_of_mem fun {e f} _ hf ⟨_, hiff⟩ => Nat.not_lt.mp fun hlt => ?_
    obtain ⟨hahead, u, hu, i, hi, hei⟩ := hiff.mp hlt
    rw [hclean f hf hahead u hu i hi] at hei
    exact List.not_mem_nil hei
  · obtain ⟨es, hes⟩ := List.head?_eq_some_iff.mp he
    rw [hes] at hpairs ⊢
    have hfirst := (List.pairwise_cons.mp hpairs).1
    have hself : ¬e.FoundBehind all e := fun h => by
      have := Lexed.isLexical_of_foundBehind h
      simp_all
    simp only [List.forall_mem_cons, Nat.le_refl, hself, not_false_eq_true, true_and]
    refine forall₂_congr fun f hf => ?_
    rw [← (hfirst f hf).2, Nat.not_lt]

/-- The parser looks behind the star before it objects to it, and finds a string that is cut off
there: the source counts as incomplete, though its first error is the star. -/
theorem errors_out_of_order :
    let errors := (parseEntry "1 + * 'a").errors
    SyntaxError.incomplete errors = true ∧
      ¬errors.Pairwise fun e f => e.pos.offset ≤ f.pos.offset := by
  decide +kernel

end Reckoner
