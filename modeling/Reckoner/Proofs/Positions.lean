import Mathlib.Data.List.DropRight
import Reckoner.Proofs.Lossless

/-!
# Positions are exact

The lexer carries a position along and moves it byte by byte. A reader who opens the source counts
instead: the line feeds in front of an offset, and the bytes since the last of them. Both come to
the same, `positions_exact`, for every token and every recognition error of a source, and also for
the tokens that are taken on demand, however often the end of input is taken again.

Everything that the lexer gives a position to stands behind some bytes of the source, and its
position is that of the start moved along them.
-/
namespace Reckoner

open Lexeme

namespace Position

/-- The line is one more than the line feeds in front of the offset, and the column is the number of
bytes since the last of them, or since the source begins. -/
structure Exact (src : Text) (p : Position) : Prop where
  offset_le : p.offset ≤ src.length
  line : p.line = 1 + (src.take p.offset).count Text.newline
  column : p.column = ((src.take p.offset).rtakeWhile (· != Text.newline)).length

/-- What moving along a text counts. -/
theorem advance_start (t : Text) :
    advance {} t =
      ⟨1 + t.count Text.newline, (t.rtakeWhile (· != Text.newline)).length, t.length⟩ := by
  induction t using List.reverseRecOn with
  | nil => rfl
  | append_singleton t b ih =>
    rw [advance_append, ih, advance_cons, advance_nil, step, List.rtakeWhile_concat,
      List.count_append, List.length_append]
    by_cases hb : b = Text.newline
    · simp [hb, Nat.add_assoc]
    · simp [hb]

theorem exact_advance (before after : Text) : (advance {} before).Exact (before ++ after) := by
  rw [advance_start]
  have htake : (before ++ after).take before.length = before := List.take_left
  constructor
  · simp
  · rw [htake]
  · rw [htake]

/-- Moving on either begins a new line or counts columns. -/
theorem line_lt_or_column_advance (p : Position) (t : Text) :
    p.line < (p.advance t).line ∨
      (p.advance t).line = p.line ∧ (p.advance t).column = p.column + t.length := by
  induction t generalizing p with
  | nil => exact .inr ⟨rfl, rfl⟩
  | cons b t ih =>
    have hstep : p.step b = ⟨p.line + 1, 0, p.offset + 1⟩ ∨
        p.step b = ⟨p.line, p.column + 1, p.offset + 1⟩ := by
      unfold step
      split
      · exact .inl rfl
      · exact .inr rfl
    have ih := ih (p.step b)
    rw [advance_cons, List.length_cons]
    rcases hstep with hstep | hstep <;> simp only [hstep] at ih ⊢ <;> omega

namespace Exact
variable {src : Text} {p q : Position}

theorem eq_advance (h : p.Exact src) : p = advance {} (src.take p.offset) := by
  rw [advance_start, ← h.line, ← h.column, List.length_take, Nat.min_eq_left h.offset_le]

theorem offset_le_of_place_eq (hp : p.Exact src) (hq : q.Exact src) (h : p.place = q.place) :
    q.offset ≤ p.offset := by
  by_contra hlt
  have hsplit : src.take q.offset =
      src.take p.offset ++ (src.drop p.offset).take (q.offset - p.offset) := by
    rw [← List.take_add]
    congr 1
    omega
  have hq' : q = p.advance ((src.drop p.offset).take (q.offset - p.offset)) :=
    hq.eq_advance.trans (by rw [hsplit, advance_append, ← hp.eq_advance])
  have hmoved := p.line_lt_or_column_advance ((src.drop p.offset).take (q.offset - p.offset))
  have hle := hq.offset_le
  rw [← hq', List.length_take, List.length_drop] at hmoved
  simp only [place, Place.mk.injEq] at h
  omega

/-- A place is that of one byte of a source only. -/
theorem offset_eq (hp : p.Exact src) (hq : q.Exact src) (h : p.place = q.place) :
    p.offset = q.offset :=
  Nat.le_antisymm (offset_le_of_place_eq hq hp h.symm) (offset_le_of_place_eq hp hq h)

end Exact

end Position

/-! ## The tokens of a source -/

namespace Lexed

/-- Every token was scanned somewhere in the source, and stands there. If it is a string that is cut
off, this was reported with it. -/
theorem exists_scan_of_mem_locate (pos : Position) (index : Nat) (faults : List SyntaxError)
    (t : Text) {i : Item} (hi : i ∈ (locate pos index faults (lexemes t)).items) :
    ∃ before b bs, t = before ++ b :: bs ∧ i.token.pos = pos.advance before ∧
      (scan b bs).1.kind = some i.token.kind ∧ i.token.literal = (scan b bs).1.literal ∧
      ((scan b bs).1.closed = false → .unclosed i.token.pos i.token.text ∈ i.faults) := by
  induction t using lexemes_induction generalizing pos index faults with
  | nil => simp [locate_lexemes_nil] at hi
  | stray b bs hk ih =>
    rw [locate_lexemes_stray pos index faults hk] at hi
    obtain ⟨before, b', bs', htext, hpos, hscan⟩ := ih _ _ _ hi
    exact ⟨b :: before, b', bs', by rw [htext]; rfl, hpos, hscan⟩
  | token b bs kind hk ih =>
    rw [locate_lexemes_token pos index faults hk] at hi
    rcases List.mem_cons.mp hi with rfl | hi
    · refine ⟨[], b, bs, rfl, rfl, hk, rfl, fun hclosed => ?_⟩
      rw [hclosed]
      exact List.mem_append_right _ List.mem_cons_self
    · obtain ⟨before, b', bs', htext, hpos, hscan⟩ := ih _ _ _ hi
      refine ⟨(scan b bs).1.text ++ before, b', bs', ?_, ?_, hscan⟩
      · rw [List.append_assoc, ← htext, text_append_scan]
      · rw [hpos, Position.advance_append]

/-- The end of input stands behind the whole source. -/
theorem pos_last_locate (pos : Position) (index : Nat) (faults : List SyntaxError) (t : Text) :
    (locate pos index faults (lexemes t)).last.token.pos = pos.advance t := by
  induction t using lexemes_induction generalizing pos index faults with
  | nil => rfl
  | stray b bs hk ih =>
    rw [locate_lexemes_stray pos index faults hk]
    exact ih _ _ _
  | token b bs kind hk ih =>
    rw [locate_lexemes_token pos index faults hk]
    exact (ih _ _ _).trans (by rw [← Position.advance_append, text_append_scan])

end Lexed

/-- Every recognition error is reported where some bytes of the source end. -/
theorem Lexeme.exists_pos_of_mem_faultsFrom (pos : Position) (t : Text) {e : SyntaxError}
    (he : e ∈ faultsFrom pos (lexemes t)) :
    ∃ before after, t = before ++ after ∧ e.pos = pos.advance before := by
  induction t using lexemes_induction generalizing pos with
  | nil => simp [lexemes, lexemesWithin, faultsFrom] at he
  | stray b bs hk ih =>
    rw [lexemes_cons (scan_of_kind_eq_none hk), faultsFrom] at he
    rcases List.mem_append.mp he with he | he
    · obtain rfl : e = .stray pos b := by simpa [faultsAt] using he
      exact ⟨[], b :: bs, rfl, rfl⟩
    · obtain ⟨before, after, htext, hpos⟩ := ih _ he
      exact ⟨b :: before, after, by rw [htext]; rfl, hpos⟩
  | token b bs kind hk ih =>
    rw [lexemes_scan, faultsFrom, faultsAt, if_neg (by simp [hk])] at he
    rcases List.mem_append.mp he with he | he
    · split at he
      · simp at he
      · rw [List.mem_singleton.mp he]
        exact ⟨[], b :: bs, rfl, rfl⟩
    · obtain ⟨before, after, htext, hpos⟩ := ih _ he
      refine ⟨(scan b bs).1.text ++ before, after, ?_, ?_⟩
      · rw [List.append_assoc, ← htext, text_append_scan]
      · rw [hpos, Position.advance_append]

/-! ## Tokens on demand -/

namespace Cursor

/-- A cursor stands behind the bytes of a source that it has passed. -/
def Within (src : Text) (c : Cursor) : Prop :=
  ∃ before, src = before ++ c.rest ∧ c.pos = Position.advance {} before

/-- Taking a token moves the cursor on, and the token stands where some bytes of the source end. -/
theorem Within.nextWithin {src : Text} {c : Cursor} (h : c.Within src) (fuel : Nat) :
    (nextWithin fuel c).1.pos.Exact src ∧ (Cursor.nextWithin fuel c).2.Within src := by
  have hexact {c : Cursor} (h : c.Within src) : c.pos.Exact src := by
    obtain ⟨before, htext, hpos⟩ := h
    rw [htext, hpos]
    exact Position.exact_advance before c.rest
  induction fuel generalizing c with
  | zero => exact ⟨hexact h, h⟩
  | succ fuel ih =>
    obtain ⟨rest, pos, index⟩ := c
    cases rest with
    | nil => exact ⟨hexact h, h⟩
    | cons b bs =>
      obtain ⟨before, htext, hpos⟩ := h
      have hmoved : Within src ⟨(scan b bs).2, pos.advance (scan b bs).1.text, index⟩ := by
        refine ⟨before ++ (scan b bs).1.text, ?_, ?_⟩
        · rw [List.append_assoc, text_append_scan, htext]
        · rw [Position.advance_append, ← hpos]
      cases hk : (scan b bs).1.kind with
      | none =>
        simp only [Cursor.nextWithin, hk]
        exact ih hmoved
      | some kind =>
        rw [nextWithin_token fuel pos index hk]
        exact ⟨hexact ⟨before, htext, hpos⟩, hmoved⟩

theorem Within.next {src : Text} {c : Cursor} (h : c.Within src) :
    c.next.1.pos.Exact src ∧ c.next.2.Within src := h.nextWithin _

/-- However many tokens are taken, the cursor stays in its source. -/
theorem Within.iterate {src : Text} {c : Cursor} (h : c.Within src) (n : Nat) :
    ((fun c : Cursor => c.next.2)^[n] c).Within src := by
  induction n generalizing c with
  | zero => exact h
  | succ n ih => exact ih h.next.2

end Cursor

/-! ## The main statement -/

/-- Whatever bytes a source is made of, each of its tokens, the end of input with them, and each of
its recognition errors says exactly where it stands. So does each token that is taken on demand,
after any number of others and also past the end. -/
theorem positions_exact (src : Text) :
    (∀ t ∈ (Lexed.ofText src).tokens, t.pos.Exact src) ∧
      (∀ e ∈ (Lexed.ofText src).faults, e.pos.Exact src) ∧
      ∀ n, ((fun c : Cursor => c.next.2)^[n] ⟨src, {}, 0⟩).next.1.pos.Exact src := by
  refine ⟨fun t ht => ?_, fun e he => ?_, fun n => ?_⟩
  · obtain ⟨i, hi, rfl⟩ := List.mem_map.mp ht
    rcases List.mem_append.mp hi with hi | hi
    · obtain ⟨before, b, bs, htext, hpos, -⟩ := Lexed.exists_scan_of_mem_locate {} 0 [] src hi
      rw [hpos, htext]
      exact Position.exact_advance before (b :: bs)
    · have hend := Position.exact_advance src []
      rw [List.append_nil, ← Lexed.pos_last_locate {} 0 []] at hend
      rwa [List.mem_singleton.mp hi]
  · rw [Lexed.faults_ofText] at he
    obtain ⟨before, after, htext, hpos⟩ := exists_pos_of_mem_faultsFrom {} src he
    rw [hpos, htext]
    exact Position.exact_advance before after
  · have hstart : Cursor.Within src ⟨src, {}, 0⟩ := ⟨[], rfl, rfl⟩
    exact (hstart.iterate n).next.1

/-- A string over two lines, a comment behind a carriage return, and bytes that begin no token. -/
theorem positions_exact_lines :
    let src : Text := "x 'a\x0ab' $\x0d\x0a//c\x0a\x09 # 'd\x0a"
    ∃ t ∈ (Lexed.ofText src).tokens, ∃ e ∈ (Lexed.ofText src).faults,
      t.pos = ⟨4, 4, 19⟩ ∧ t.pos.Exact src ∧ e.pos = ⟨2, 3, 8⟩ ∧ e.pos.Exact src := by
  intro src
  obtain ⟨htokens, hfaults, -⟩ := positions_exact src
  have ht : ∃ t ∈ (Lexed.ofText src).tokens, t.pos = ⟨4, 4, 19⟩ := by decide +kernel
  have he : ∃ e ∈ (Lexed.ofText src).faults, e.pos = ⟨2, 3, 8⟩ := by decide +kernel
  obtain ⟨t, ht, hpos⟩ := ht
  obtain ⟨e, he, hpos'⟩ := he
  exact ⟨t, ht, e, he, hpos, htokens t ht, hpos', hfaults e he⟩

end Reckoner
