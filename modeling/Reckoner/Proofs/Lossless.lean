import Reckoner.Proofs.Entries
import Reckoner.Proofs.Extending
import Reckoner.Token.Stream

/-!
# Nothing of a source is lost

Every byte of a source belongs to one token or is reported as one that begins none. The stretches of
the tokens and those of the reports follow each other from the first byte of the source to its last:
`tokens_lossless`. In particular the tokens of a source without a fault make it up again, however
many of them had been taken when its text is asked for.

The proofs follow the text: what is left of it begins with a stray byte, or with a token and the
text behind it.
-/
namespace Reckoner

open Lexeme

/-! ## Stretches -/

/-- A stretch of a source, from its first byte to the one after its last. -/
structure Stretch where
  start : Nat
  stop : Nat
deriving DecidableEq, Repr

/-- Stretches that divide a range of bytes among them, in order. -/
structure Stretch.Divide (lo hi : Nat) (ss : List Stretch) : Prop where
  nonempty : ∀ s ∈ ss, s.start < s.stop
  increasing : ss.Pairwise fun s s' => s.stop ≤ s'.start
  covers : ∀ k, lo ≤ k ∧ k < hi ↔ ∃ s ∈ ss, s.start ≤ k ∧ k < s.stop

namespace Stretch.Divide

theorem nil (n : Nat) : Divide n n [] := ⟨by simp, .nil, by simp⟩

theorem cons {s : Stretch} {ss : List Stretch} {hi : Nat} (h : Divide s.stop hi ss)
    (hs : s.start < s.stop) (hle : s.stop ≤ hi) : Divide s.start hi (s :: ss) where
  nonempty := List.forall_mem_cons.mpr ⟨hs, h.nonempty⟩
  increasing := by
    refine List.pairwise_cons.mpr ⟨fun s' hs' => ?_, h.increasing⟩
    exact ((h.covers s'.start).mpr ⟨s', hs', Nat.le_refl _, h.nonempty s' hs'⟩).1
  covers k := by
    have hk := h.covers k
    simp only [List.mem_cons, exists_eq_or_imp, ← hk]
    omega

end Stretch.Divide

/-- The bytes of a token. -/
def Token.stretch (t : Token) : Stretch := ⟨t.pos.offset, t.pos.offset + t.text.length⟩

/-- The byte that an error is reported at. -/
def SyntaxError.stretch (e : SyntaxError) : Stretch := ⟨e.pos.offset, e.pos.offset + 1⟩

/-- The bytes of a token or of an error. -/
def pieceStretch : Token ⊕ SyntaxError → Stretch := Sum.elim Token.stretch SyntaxError.stretch

/-! ## One lexeme at a time -/

namespace Lexeme

theorem kind_scanOperator_eq_none {b : UInt8} {bs : Text}
    (h : (scanOperator b bs).1.kind = none) : scanOperator b bs = (⟨none, [b], [], true⟩, bs) := by
  unfold scanOperator at h ⊢
  split at h
  · split at h
    · simp at h
    · simp only at h
      simp [h]
  · simp only at h
    simp [h]

/-- What begins no token is a single byte. -/
theorem scan_of_kind_eq_none {b : UInt8} {bs : Text} (h : (scan b bs).1.kind = none) :
    scan b bs = (⟨none, [b], [], true⟩, bs) := by
  unfold scan at h ⊢
  repeat (split at h; · simp at h)
  simp only [*]
  exact kind_scanOperator_eq_none h

end Lexeme

/-- Induction over a text along its lexemes. -/
theorem lexemes_induction {motive : Text → Prop} (nil : motive [])
    (stray : ∀ b bs, (scan b bs).1.kind = none → motive bs → motive (b :: bs))
    (token : ∀ b bs kind, (scan b bs).1.kind = some kind → motive (scan b bs).2 →
      motive (b :: bs)) (t : Text) : motive t := by
  generalize hn : t.length = n
  induction n using Nat.strong_induction_on generalizing t with
  | _ n ih =>
    cases t with
    | nil => exact nil
    | cons b bs =>
      have hlt := length_scan_lt b bs
      have hrest : motive (scan b bs).2 := ih _ (hn ▸ hlt) _ rfl
      cases hk : (scan b bs).1.kind with
      | some kind => exact token b bs kind hk hrest
      | none =>
        rw [scan_of_kind_eq_none hk] at hrest
        exact stray b bs hk hrest

namespace Lexed
variable {b : UInt8} {bs : Text} (pos : Position) (index : Nat) (faults : List SyntaxError)

theorem locate_lexemes_nil :
    locate pos index faults (lexemes []) = ⟨[], ⟨faults, { kind := .eof, pos, index }⟩⟩ := rfl

theorem locate_lexemes_stray (h : (scan b bs).1.kind = none) :
    locate pos index faults (lexemes (b :: bs)) =
      locate (pos.step b) index (faults ++ [.stray pos b]) (lexemes bs) := by
  rw [lexemes_cons (scan_of_kind_eq_none h), locate]
  rfl

/-- The token of a lexeme. -/
def tokenAt (kind : TokenKind) (l : Lexeme) : Token :=
  { kind, text := l.text, literal := l.literal, pos, index }

theorem locate_lexemes_token {kind : TokenKind} (h : (scan b bs).1.kind = some kind) :
    locate pos index faults (lexemes (b :: bs)) =
      let l := (scan b bs).1
      let tail := locate (pos.advance l.text) (index + 1) [] (lexemes (scan b bs).2)
      { tail with items :=
          ⟨faults ++ (if l.closed then [] else [.unclosed pos l.text]),
            tokenAt pos index kind l⟩ :: tail.items } := by
  rw [lexemes_scan, locate]
  simp only [h]
  rfl

theorem length_scan (b : UInt8) (bs : Text) :
    (scan b bs).1.text.length + (scan b bs).2.length = (b :: bs).length := by
  rw [← List.length_append, text_append_scan]

/-! ## The whole source -/

/-- Tokens and stray bytes divide the source. -/
theorem exists_pieces (t : Text) (pos : Position) (index : Nat) (faults : List SyntaxError) :
    ∃ pieces : List (Token ⊕ SyntaxError),
      pieces.filterMap Sum.getLeft? = (locate pos index faults (lexemes t)).items.map Item.token ∧
      pieces.filterMap Sum.getRight? = (faultsFrom pos (lexemes t)).filter (!·.atEnd) ∧
      Stretch.Divide pos.offset (pos.offset + t.length) (pieces.map pieceStretch) := by
  induction t using lexemes_induction generalizing pos index faults with
  | nil => exact ⟨[], rfl, rfl, .nil _⟩
  | stray b bs hk ih =>
    obtain ⟨pieces, htokens, herrors, hdivide⟩ :=
      ih (pos.step b) index (faults ++ [.stray pos b])
    refine ⟨.inr (.stray pos b) :: pieces, ?_, ?_, ?_⟩
    · rw [locate_lexemes_stray pos index faults hk, ← htokens]
      rfl
    · rw [lexemes_cons (scan_of_kind_eq_none hk), faultsFrom, List.filter_append]
      rw [show pos.advance [b] = pos.step b from rfl, ← herrors]
      rfl
    · rw [Position.offset_step] at hdivide
      have hlength : pos.offset + (b :: bs).length = pos.offset + 1 + bs.length := by
        rw [List.length_cons]
        omega
      rw [hlength]
      exact hdivide.cons (s := ⟨pos.offset, pos.offset + 1⟩) (Nat.lt_succ_self _) (by simp)
  | token b bs kind hk ih =>
    obtain ⟨pieces, htokens, herrors, hdivide⟩ :=
      ih (pos.advance (scan b bs).1.text) (index + 1) []
    refine ⟨.inl (tokenAt pos index kind (scan b bs).1) :: pieces, ?_, ?_, ?_⟩
    · rw [locate_lexemes_token pos index faults hk]
      exact congrArg (List.cons _) htokens
    · -- A token is faulty only in that it is cut off, which is a fault of the end of input.
      have hnone : ((scan b bs).1.faultsAt pos).filter (!·.atEnd) = [] := by
        rw [faultsAt, if_neg (by simp [hk])]
        split <;> rfl
      rw [lexemes_scan, faultsFrom, List.filter_append, hnone, List.nil_append, ← herrors]
      rfl
    · have hpos := List.length_pos_iff.mpr (text_scan_ne_nil b bs)
      have hlength := length_scan b bs
      rw [Position.offset_advance] at hdivide
      rw [← hlength, ← Nat.add_assoc]
      exact hdivide.cons (s := ⟨pos.offset, pos.offset + (scan b bs).1.text.length⟩)
        (by simpa using hpos) (by simp)

/-- Every token is a piece of the source, cut out where the token says that it stands. -/
theorem exists_around_of_mem_locate (t : Text) {i : Item}
    (hi : i ∈ (locate pos index faults (lexemes t)).items) :
    ∃ before after, t = before ++ i.token.text ++ after ∧
      i.token.pos.offset = pos.offset + before.length := by
  induction t using lexemes_induction generalizing pos index faults with
  | nil => simp [locate_lexemes_nil] at hi
  | stray b bs hk ih =>
    rw [locate_lexemes_stray pos index faults hk] at hi
    obtain ⟨before, after, htext, hoffset⟩ := ih _ _ _ hi
    refine ⟨b :: before, after, by rw [htext]; rfl, ?_⟩
    rw [hoffset, Position.offset_step, List.length_cons]
    omega
  | token b bs kind hk ih =>
    rw [locate_lexemes_token pos index faults hk] at hi
    rcases List.mem_cons.mp hi with rfl | hi
    · exact ⟨[], (scan b bs).2, (text_append_scan b bs).symm, rfl⟩
    · obtain ⟨before, after, htext, hoffset⟩ := ih _ _ _ hi
      refine ⟨(scan b bs).1.text ++ before, after, ?_, ?_⟩
      · rw [List.append_assoc, List.append_assoc, ← List.append_assoc before, ← htext,
          text_append_scan]
      · rw [hoffset, Position.offset_advance, List.length_append, Nat.add_assoc]

theorem slice_of_mem_ofText {t : Text} {i : Item} (hi : i ∈ (ofText t).items) :
    i.token.text = (t.drop i.token.pos.offset).take i.token.text.length := by
  obtain ⟨before, after, htext, hoffset⟩ := exists_around_of_mem_locate {} 0 [] t hi
  have hbefore : i.token.pos.offset = before.length := hoffset.trans (Nat.zero_add _)
  rw [hbefore, htext, List.append_assoc, List.drop_left, List.take_left]

/-- The end of input is where the source ends. -/
theorem last_locate_lexemes (t : Text) :
    (locate pos index faults (lexemes t)).last.token.text = [] ∧
      (locate pos index faults (lexemes t)).last.token.pos.offset = pos.offset + t.length := by
  induction t using lexemes_induction generalizing pos index faults with
  | nil => exact ⟨rfl, rfl⟩
  | stray b bs hk ih =>
    rw [locate_lexemes_stray pos index faults hk]
    obtain ⟨htext, hoffset⟩ := ih (pos.step b) index (faults ++ [.stray pos b])
    refine ⟨htext, ?_⟩
    rw [hoffset, Position.offset_step, List.length_cons]
    omega
  | token b bs kind hk ih =>
    rw [locate_lexemes_token pos index faults hk]
    obtain ⟨htext, hoffset⟩ := ih (pos.advance (scan b bs).1.text) (index + 1) []
    refine ⟨htext, ?_⟩
    have hlength := length_scan b bs
    simp only [hoffset, Position.offset_advance]
    omega

/-- There are at most as many tokens as bytes. -/
theorem length_items_locate_le (t : Text) :
    (locate pos index faults (lexemes t)).items.length ≤ t.length := by
  induction t using lexemes_induction generalizing pos index faults with
  | nil => exact Nat.le_refl 0
  | stray b bs hk ih =>
    rw [locate_lexemes_stray pos index faults hk]
    exact Nat.le_succ_of_le (ih _ _ _)
  | token b bs kind hk ih =>
    rw [locate_lexemes_token pos index faults hk]
    exact Nat.lt_of_le_of_lt (ih _ _ _) (length_scan_lt b bs)

/-- At most one fault is one of the end of input: a string that goes on to it. -/
theorem atEnd_faultsFrom (t : Text) :
    ((faultsFrom pos (lexemes t)).filter (·.atEnd)).length ≤ 1 ∧
      ∀ e ∈ faultsFrom pos (lexemes t), e.atEnd = true →
        ∃ i ∈ (locate pos index faults (lexemes t)).items,
          i.token.pos = e.pos ∧ i.token.stretch.stop = pos.offset + t.length := by
  induction t using lexemes_induction generalizing pos index faults with
  | nil => exact ⟨by simp [lexemes, lexemesWithin, faultsFrom], by
      simp [lexemes, lexemesWithin, faultsFrom]⟩
  | stray b bs hk ih =>
    obtain ⟨hone, hreach⟩ := ih (pos.step b) index (faults ++ [.stray pos b])
    have hcons : faultsFrom pos (lexemes (b :: bs)) =
        .stray pos b :: faultsFrom (pos.step b) (lexemes bs) := by
      rw [lexemes_cons (scan_of_kind_eq_none hk)]
      rfl
    rw [hcons, locate_lexemes_stray pos index faults hk]
    refine ⟨hone, fun e he hend => ?_⟩
    rcases List.mem_cons.mp he with rfl | he
    · exact absurd hend (by simp [SyntaxError.atEnd])
    · obtain ⟨i, hi, hpos, hstop⟩ := hreach e he hend
      refine ⟨i, hi, hpos, ?_⟩
      rw [hstop, Position.offset_step, List.length_cons]
      omega
  | token b bs kind hk ih =>
    have hlength := length_scan b bs
    rw [locate_lexemes_token pos index faults hk, lexemes_scan, faultsFrom, faultsAt,
      if_neg (by simp [hk])]
    cases hclosed : (scan b bs).1.closed with
    | true =>
      obtain ⟨hone, hreach⟩ := ih (pos.advance (scan b bs).1.text) (index + 1) []
      refine ⟨hone, fun e he hend => ?_⟩
      obtain ⟨i, hi, hpos, hstop⟩ := hreach e he hend
      refine ⟨i, List.mem_cons_of_mem _ hi, hpos, ?_⟩
      rw [hstop, Position.offset_advance]
      omega
    | false =>
      -- Nothing comes after a string that is cut off.
      have hrest : (scan b bs).2 = [] := by
        by_contra hne
        exact absurd (closed_scan hne) (by simp [hclosed])
      rw [hrest] at hlength ⊢
      refine ⟨by simp [lexemes, lexemesWithin, faultsFrom, SyntaxError.atEnd], fun e he _ => ?_⟩
      obtain rfl : e = .unclosed pos (scan b bs).1.text := by
        simpa [lexemes, lexemesWithin, faultsFrom] using he
      refine ⟨_, List.mem_cons_self, rfl, ?_⟩
      simp only [tokenAt, Token.stretch]
      rw [List.length_nil] at hlength
      omega

end Lexed

/-! ## Tokens on demand -/

/-- What is left to be taken. -/
def Cursor.left (c : Cursor) : Lexed := Lexed.locate c.pos c.index [] (lexemes c.rest)

section
variable {b : UInt8} {bs : Text} (fuel : Nat) (pos : Position) (index : Nat)

theorem Cursor.nextWithin_stray (h : (scan b bs).1.kind = none) :
    nextWithin (fuel + 1) ⟨b :: bs, pos, index⟩ = nextWithin fuel ⟨bs, pos.step b, index⟩ := by
  simp only [nextWithin, scan_of_kind_eq_none h]
  rfl

theorem Cursor.nextWithin_token {kind : TokenKind} (h : (scan b bs).1.kind = some kind) :
    nextWithin (fuel + 1) ⟨b :: bs, pos, index⟩ =
      (Lexed.tokenAt pos index kind (scan b bs).1,
        ⟨(scan b bs).2, pos.advance (scan b bs).1.text, index + 1⟩) := by
  simp only [nextWithin, h]
  rfl

end

theorem Cursor.tokens_nextWithin {fuel : Nat} {c : Cursor} (hfuel : c.rest.length ≤ fuel)
    (faults : List SyntaxError) :
    ((Lexed.locate c.pos c.index faults (lexemes c.rest)).items = [] ∧
      (nextWithin fuel c).1 = (Lexed.locate c.pos c.index faults (lexemes c.rest)).last.token) ∨
    ((nextWithin fuel c).1.kind ≠ .eof ∧
      (Lexed.locate c.pos c.index faults (lexemes c.rest)).tokens =
        (nextWithin fuel c).1 :: (nextWithin fuel c).2.left.tokens) := by
  obtain ⟨t, pos, index⟩ := c
  simp only at hfuel ⊢
  induction t using lexemes_induction generalizing fuel pos faults with
  | nil =>
    left
    cases fuel <;> exact ⟨rfl, rfl⟩
  | stray b bs hk ih =>
    obtain ⟨fuel, rfl⟩ : ∃ n, fuel = n + 1 := ⟨fuel - 1, by simp at hfuel; omega⟩
    rw [Lexed.locate_lexemes_stray pos index faults hk, nextWithin_stray fuel pos index hk]
    exact ih (faults ++ [.stray pos b]) (pos.step b) (by simpa using hfuel)
  | token b bs kind hk _ =>
    obtain ⟨fuel, rfl⟩ : ∃ n, fuel = n + 1 := ⟨fuel - 1, by simp at hfuel; omega⟩
    right
    rw [Lexed.locate_lexemes_token pos index faults hk, nextWithin_token fuel pos index hk]
    refine ⟨?_, rfl⟩
    rintro rfl
    exact kind_scan_ne_eof b bs hk

namespace TokenStream

/-- A stream and all the tokens that it has taken or will take. -/
structure Takes (s : TokenStream) (all : List Token) : Prop where
  finished : s.done = true → s.tokens = all
  going : s.done = false → s.tokens ++ s.cursor.left.tokens = all

theorem takes_ofText (t : Text) : (ofText t).Takes (Lexed.ofText t).tokens := ⟨nofun, fun _ => rfl⟩

/-- One more token is taken, unless all have been. -/
theorem Takes.pull {s : TokenStream} {all : List Token} (h : s.Takes all) :
    s.pull.Takes all ∧ s.pull.tokens = all.take (s.tokens.length + 1) := by
  cases hdone : s.done with
  | true =>
    rw [TokenStream.pull, if_pos hdone, ← h.finished hdone]
    exact ⟨⟨fun _ => rfl, fun hgoing => nomatch hdone.symm.trans hgoing⟩,
      (List.take_of_length_le (Nat.le_succ _)).symm⟩
  | false =>
    have hall := h.going hdone
    rw [TokenStream.pull, if_neg (by simp [hdone])]
    rcases Cursor.tokens_nextWithin (c := s.cursor) (Nat.le_refl _) [] with
      ⟨hitems, htoken⟩ | ⟨hkind, htokens⟩
    · -- The end of input is the only token left.
      have hkind : s.cursor.next.1.kind = .eof := by
        rw [Cursor.next, htoken]
        exact Lexed.kind_last_locate _ _ _ _
      have hleft : s.cursor.left.tokens = [s.cursor.next.1] := by
        rw [Cursor.left, Lexed.tokens, Lexed.all, hitems, Cursor.next, htoken]
        rfl
      rw [hleft] at hall
      refine ⟨⟨fun _ => hall, fun hgoing => ?_⟩, ?_⟩
      · simp [hkind] at hgoing
      · rw [← hall, List.take_of_length_le (by simp)]
    · have hleft : s.cursor.left.tokens = s.cursor.next.1 :: s.cursor.next.2.left.tokens := htokens
      rw [hleft] at hall
      refine ⟨⟨fun hdone => ?_, fun _ => ?_⟩, ?_⟩
      · exact absurd (beq_iff_eq.mp hdone) hkind
      · rw [← hall, List.append_assoc]
        rfl
      · rw [← hall, List.take_length_add_append]
        rfl

/-- So many more tokens are taken, as far as there are as many. -/
theorem Takes.pulls {s : TokenStream} {all : List Token} (h : s.Takes all) (n : Nat) :
    (pulls n s).Takes all ∧ (pulls n s).tokens = all.take (s.tokens.length + n) := by
  induction n generalizing s with
  | zero =>
    refine ⟨h, ?_⟩
    have hprefix : s.tokens <+: all := by
      cases hdone : s.done with
      | true => exact h.finished hdone ▸ List.prefix_refl _
      | false => exact h.going hdone ▸ List.prefix_append _ _
    exact List.prefix_iff_eq_take.mp hprefix
  | succ n ih =>
    obtain ⟨hpull, htokens⟩ := h.pull
    obtain ⟨hpulls, hall⟩ := ih hpull
    refine ⟨hpulls, ?_⟩
    rw [TokenStream.pulls, hall, htokens, List.length_take]
    by_cases hle : s.tokens.length + 1 ≤ all.length
    · rw [Nat.min_eq_left hle]
      congr 1
      omega
    · rw [List.take_of_length_le (by omega), List.take_of_length_le (by omega)]

theorem tokens_pulls_ofText (t : Text) (n : Nat) :
    (pulls n (ofText t)).tokens = (Lexed.ofText t).tokens.take n := by
  have := ((takes_ofText t).pulls n).2
  rwa [show (ofText t).tokens.length = 0 from rfl, Nat.zero_add] at this

/-- All tokens are taken. -/
theorem tokens_fill_ofText (t : Text) : (ofText t).fill.tokens = (Lexed.ofText t).tokens := by
  rw [fill, tokens_pulls_ofText, List.take_of_length_le]
  have := Lexed.length_items_locate_le {} 0 [] t
  simpa [Lexed.tokens, Lexed.all, Lexed.ofText, ofText] using this

/-- The text of all tokens does not depend on how many have been taken before. -/
theorem text_pulls_ofText (t : Text) (n : Nat) {last : Int}
    (hlast : (Lexed.ofText t).tokens.length ≤ last + 1) :
    ((pulls n (ofText t)).text 0 last).1 = sourceText (Lexed.ofText t).tokens := by
  have hall := ((takes_ofText t).pulls n).1.pulls ((last + 1).toNat - (pulls n (ofText t)).size)
  have htokens : ((pulls n (ofText t)).ensure (last + 1).toNat).tokens =
      (Lexed.ofText t).tokens := by
    rw [ensure, hall.2, List.take_of_length_le]
    rw [size]
    omega
  rw [text, range, htokens, tokenRange, List.take_of_length_le (by omega)]
  rfl

end TokenStream

/-! ## The main statement -/

/-- Nothing of a source is lost in its tokens, the end of input, and its recognition errors. -/
structure Lossless (src : Text) (tokens : List Token) (eof : Token) (errors : List SyntaxError) :
    Prop where
  /-- Only the last token is the end of input. -/
  kind_ne_eof : ∀ t ∈ tokens, t.kind ≠ .eof
  /-- The tokens, and the errors that are not of the end of input, each in their own order and
  without one left out, divide the bytes of the source among them. -/
  divided : ∃ pieces : List (Token ⊕ SyntaxError),
    pieces.filterMap Sum.getLeft? = tokens ∧
    pieces.filterMap Sum.getRight? = errors.filter (!·.atEnd) ∧
    Stretch.Divide 0 src.length (pieces.map pieceStretch)
  /-- The text of a token is the piece of the source that the token stands for. -/
  slice : ∀ t ∈ tokens, t.text = (src.drop t.pos.offset).take t.text.length
  /-- Tokens are numbered from 0 on. -/
  numbered : ∀ (k : Nat) (t : Token), (tokens ++ [eof])[k]? = some t → t.index = k
  kind_eof : eof.kind = .eof
  offset_eof : eof.pos.offset = src.length
  text_eof : eof.text = []
  /-- At most one error is of the end of input. -/
  atEnd_unique : (errors.filter (·.atEnd)).length ≤ 1
  /-- The token of an error of the end of input reaches to it. -/
  atEnd_reaches : ∀ e ∈ errors, e.atEnd = true →
    ∃ t ∈ tokens, t.pos = e.pos ∧ t.stretch.stop = src.length

/-- Taking the tokens of a source one after the other up to the end of input loses nothing, whatever
bytes the source is made of. If the lexer reports no error, then the text of all tokens is the
source, also if only some of them had been taken before. -/
theorem tokens_lossless (src : Text) :
    ∃ tokens eof, (TokenStream.ofText src).fill.tokens = tokens ++ [eof] ∧
      Lossless src tokens eof (Lexed.ofText src).faults ∧
      ((Lexed.ofText src).faults = [] → ∀ (n : Nat) (last : Int),
        (tokens ++ [eof]).length ≤ last + 1 →
          ((TokenStream.pulls n (.ofText src)).text 0 last).1 = src) := by
  have htokens : (Lexed.ofText src).tokens =
      (Lexed.ofText src).items.map Item.token ++ [(Lexed.ofText src).last.token] := by
    rw [Lexed.tokens, Lexed.all, List.map_append]
    rfl
  obtain ⟨htext, hoffset⟩ : (Lexed.ofText src).last.token.text = [] ∧
      (Lexed.ofText src).last.token.pos.offset = 0 + src.length :=
    Lexed.last_locate_lexemes {} 0 [] src
  have hend := Lexed.atEnd_faultsFrom {} 0 [] src
  rw [← Lexed.faults_ofText] at hend
  refine ⟨_, _, (TokenStream.tokens_fill_ofText src).trans htokens, ?_, ?_⟩
  · exact {
      kind_ne_eof := List.forall_mem_map.mpr fun _ => Lexed.kind_ne_eof_of_mem_ofText
      divided := by
        have := Lexed.exists_pieces src {} 0 []
        rwa [← Lexed.faults_ofText, Nat.zero_add] at this
      slice := List.forall_mem_map.mpr fun _ => Lexed.slice_of_mem_ofText
      numbered := fun k t hk => by
        rw [← htokens] at hk
        rw [Token.index_of_numbered (Lexed.numbered_ofText src) hk, Nat.zero_add]
      kind_eof := Lexed.kind_last_ofText src
      offset_eof := hoffset.trans (Nat.zero_add _)
      text_eof := htext
      atEnd_unique := hend.1
      atEnd_reaches := fun e he heof => by
        obtain ⟨i, hi, hpos, hstop⟩ := hend.2 e he heof
        exact ⟨i.token, List.mem_map_of_mem hi, hpos, hstop.trans (Nat.zero_add _)⟩ }
  · intro hfaults n last hle
    rw [← htokens] at hle
    rw [TokenStream.text_pulls_ofText src n hle, htokens, sourceText_append,
      Lexed.sourceText_items (List.flatMap_eq_nil_iff.mp hfaults), sourceText_cons, sourceText_nil,
      htext, List.nil_append, List.append_nil]

end Reckoner
