import Reckoner.Proofs.Neighbours
import Reckoner.Proofs.Reports

/-!
# Longer texts

The lexer takes the longest token it can, so that more text can change the last lexeme of a source.
It changes no other one: `lexemes_append`. The only exception is a point at the end, which digits
after it join to a number before it.

A source that ends in a blank or within a string keeps even its last token. More text leaves the
kinds of its tokens as they are and only adds to them: `Lexed.kinds_append`.
-/
namespace Reckoner

namespace Lexeme

section
variable {bs more : Text}

theorem takeWhile_append_of_dropWhile_ne_nil {p : UInt8 → Bool} (h : bs.dropWhile p ≠ []) :
    (bs ++ more).takeWhile p = bs.takeWhile p := by
  induction bs with
  | nil => simp at h
  | cons b bs ih =>
    by_cases hb : p b = true
    · rw [List.dropWhile_cons_of_pos hb] at h
      rw [List.cons_append, List.takeWhile_cons_of_pos hb, List.takeWhile_cons_of_pos hb, ih h]
    · rw [List.cons_append, List.takeWhile_cons_of_neg hb, List.takeWhile_cons_of_neg hb]

theorem dropWhile_append_of_dropWhile_ne_nil {p : UInt8 → Bool} (h : bs.dropWhile p ≠ []) :
    (bs ++ more).dropWhile p = bs.dropWhile p ++ more := by
  rw [List.dropWhile_append, if_neg (by simpa using h)]

theorem startsDigit_append (h : bs ≠ []) : startsDigit (bs ++ more) = startsDigit bs := by
  cases bs with
  | nil => exact absurd rfl h
  | cons b bs => rfl

theorem scanString_quote (quote : UInt8) (bs : Text) :
    scanString quote (quote :: bs) = ⟨[quote], [], bs, true⟩ := by
  rw [scanString.eq_def]
  simp

theorem scanString_escape {quote b : UInt8} (hq : b ≠ quote) (hb : b = Text.byte '\\') (c : UInt8)
    (cs : Text) :
    scanString quote (b :: c :: cs) =
      ⟨b :: c :: (scanString quote cs).text,
        (if isQuote c then [c] else [b, c]) ++ (scanString quote cs).literal,
        (scanString quote cs).rest, (scanString quote cs).closed⟩ := by
  rw [scanString.eq_def]
  simp only [if_neg hq, if_pos hb]

theorem scanString_plain {quote b : UInt8} (hq : b ≠ quote) (hb : b ≠ Text.byte '\\') (bs : Text) :
    scanString quote (b :: bs) =
      ⟨b :: (scanString quote bs).text, b :: (scanString quote bs).literal,
        (scanString quote bs).rest, (scanString quote bs).closed⟩ := by
  rw [scanString.eq_def]
  simp only [if_neg hq, if_neg hb]

/-- A string that is closed is not changed by more text. -/
theorem scanString_append {quote : UInt8} (h : (scanString quote bs).closed = true) :
    scanString quote (bs ++ more) =
      { scanString quote bs with rest := (scanString quote bs).rest ++ more } := by
  fun_induction scanString quote bs with
  | case1 => simp at h
  | case2 bs => rw [List.cons_append, scanString_quote]
  | case3 => simp at h
  | case4 c cs tail hq ih =>
    rw [List.cons_append, List.cons_append, scanString_escape hq rfl, ih h]
  | case5 b bs hq hb tail ih => rw [List.cons_append, scanString_plain hq hb, ih h]

/-- What is cut off is cut off by the end of input. -/
theorem rest_scanString_of_unclosed {quote : UInt8} (h : (scanString quote bs).closed = false) :
    (scanString quote bs).rest = [] := by
  fun_induction scanString quote bs <;> simp_all +zetaDelta

/-- Every string can be closed at its end. -/
theorem exists_closing {quote : UInt8} (h : (scanString quote bs).closed = false) :
    ∃ closing, (scanString quote (bs ++ closing)).closed = true ∧
      (scanString quote (bs ++ closing)).rest = [] := by
  fun_induction scanString quote bs with
  | case1 => exact ⟨[quote], by simp [scanString_quote]⟩
  | case2 => simp at h
  | case3 hq =>
    -- The first of the two quotes belongs to the backslash before it.
    refine ⟨[quote, quote], ?_⟩
    rw [List.cons_append, List.nil_append, scanString_escape hq rfl, scanString_quote]
    exact ⟨rfl, rfl⟩
  | case4 c cs tail hq ih =>
    obtain ⟨closing, hclosing⟩ := ih h
    refine ⟨closing, ?_⟩
    rwa [List.cons_append, List.cons_append, scanString_escape hq rfl]
  | case5 b bs hq hb tail ih =>
    obtain ⟨closing, hclosing⟩ := ih h
    refine ⟨closing, ?_⟩
    rwa [List.cons_append, scanString_plain hq hb]

/-- A fraction that does not reach the end is not changed by more text. -/
theorem scanFraction_append (hne : (scanFraction bs).2 ≠ [])
    (hpoint : (scanFraction bs).2 ≠ [Text.byte '.']) :
    scanFraction (bs ++ more) = ((scanFraction bs).1, (scanFraction bs).2 ++ more) := by
  cases bs with
  | nil => simp [scanFraction] at hne
  | cons b bs =>
    by_cases hb : b = Text.byte '.'
    · have hbs : bs ≠ [] := by
        rintro rfl
        simp [scanFraction, startsDigit, hb] at hpoint
      simp only [scanFraction, List.cons_append, hb, startsDigit_append hbs] at hne ⊢
      by_cases hd : startsDigit bs = true
      · simp only [hd, decide_true, Bool.and_self, if_true] at hne ⊢
        rw [takeWhile_append_of_dropWhile_ne_nil hne, dropWhile_append_of_dropWhile_ne_nil hne]
      · simp [hd]
    · simp only [scanFraction, List.cons_append, decide_eq_false hb, Bool.false_and,
        Bool.false_eq_true, if_false]

end

theorem isBlank_eq_false_of_isQuote {b : UInt8} (h : isQuote b = true) :
    Text.isBlank b = false := by
  grind [isQuote, Text.isBlank]

theorem scan_quote {b : UInt8} (h : isQuote b = true) (bs : Text) :
    scan b bs = (⟨some .string, b :: (scanString b bs).text, (scanString b bs).literal,
      (scanString b bs).closed⟩, (scanString b bs).rest) := by
  simp [scan, isBlank_eq_false_of_isQuote h, h]

/-- A lexeme that does not reach the end of its text is not changed by more text, unless only a
point comes after it. -/
theorem scan_append {b : UInt8} {bs : Text} (more : Text) (hne : (scan b bs).2 ≠ [])
    (hpoint : (scan b bs).2 ≠ [Text.byte '.']) :
    scan b (bs ++ more) = ((scan b bs).1, (scan b bs).2 ++ more) := by
  have hbs : bs ≠ [] := by
    rintro rfl
    have hlt := length_scan_lt b []
    simp only [List.length_cons, List.length_nil] at hlt
    exact hne (List.length_eq_zero_iff.mp (by omega))
  have hhead : (bs ++ more).head? = bs.head? := by
    cases bs with
    | nil => exact absurd rfl hbs
    | cons c cs => rfl
  have hdigit : startsDigit (bs ++ more) = startsDigit bs := startsDigit_append hbs
  unfold scan at hne hpoint ⊢
  rw [hhead, hdigit]
  split
  · next hblank =>
    rw [if_pos hblank] at hne
    rw [takeWhile_append_of_dropWhile_ne_nil hne, dropWhile_append_of_dropWhile_ne_nil hne]
  next hblank =>
  rw [if_neg hblank] at hne hpoint
  split
  · next hquote =>
    rw [if_pos hquote] at hne
    have hclosed : (scanString b bs).closed = true := by
      rw [← Bool.not_eq_false]
      exact fun hc => hne (rest_scanString_of_unclosed hc)
    rw [scanString_append hclosed]
  next hquote =>
  rw [if_neg hquote] at hne hpoint
  split
  · next hcomment =>
    rw [if_pos hcomment] at hne
    rw [takeWhile_append_of_dropWhile_ne_nil hne, dropWhile_append_of_dropWhile_ne_nil hne]
  next hcomment =>
  rw [if_neg hcomment] at hne hpoint
  split
  · next hnumber =>
    rw [if_pos hnumber] at hne hpoint
    have hdigits : bs.dropWhile isNumeral ≠ [] := by
      intro hnil
      rw [hnil] at hne
      exact hne rfl
    rw [dropWhile_append_of_dropWhile_ne_nil hdigits, scanFraction_append hne hpoint,
      takeWhile_append_of_dropWhile_ne_nil hdigits]
  next hnumber =>
  rw [if_neg hnumber] at hne hpoint
  split
  · next hfraction =>
    rw [if_pos hfraction] at hne
    rw [takeWhile_append_of_dropWhile_ne_nil hne, dropWhile_append_of_dropWhile_ne_nil hne]
  next hfraction =>
  rw [if_neg hfraction] at hne hpoint
  split
  · next hword =>
    rw [if_pos hword] at hne
    simp only at hne ⊢
    rw [takeWhile_append_of_dropWhile_ne_nil hne, dropWhile_append_of_dropWhile_ne_nil hne]
  · cases bs with
    | nil => exact absurd rfl hbs
    | cons c cs =>
      simp only [scanOperator, List.cons_append]
      cases double? b c <;> rfl

/-- Only a string can be cut off. -/
theorem unclosed_scan {b : UInt8} {bs : Text} (h : (scan b bs).1.closed = false) :
    isQuote b = true ∧ (scanString b bs).closed = false := by
  unfold scan at h
  split at h
  · simp at h
  split at h
  · next hquote => exact ⟨hquote, h⟩
  repeat (split at h; · simp at h)
  unfold scanOperator at h
  repeat' split at h
  all_goals simp at h

theorem closed_scan {b : UInt8} {bs : Text} (h : (scan b bs).2 ≠ []) :
    (scan b bs).1.closed = true := by
  rw [← Bool.not_eq_false]
  intro hc
  obtain ⟨hquote, hc⟩ := unclosed_scan hc
  rw [scan_quote hquote] at h
  exact h (rest_scanString_of_unclosed hc)

end Lexeme

open Lexeme

/-! ## The last lexeme -/

theorem lexemes_scan (b : UInt8) (bs : Text) :
    lexemes (b :: bs) = (scan b bs).1 :: lexemes (scan b bs).2 :=
  lexemes_cons rfl

theorem lexemes_eq_nil_iff {t : Text} : lexemes t = [] ↔ t = [] := by
  cases t with
  | nil => simp [lexemes, lexemesWithin]
  | cons b bs => simp [lexemes_scan]

/-- Only the last lexeme of a text can reach its end, and only it can be cut off. -/
theorem exists_last_lexeme {t : Text} (h : t ≠ []) :
    ∃ ls b bs, lexemes t = ls ++ [(scan b bs).1] ∧ (scan b bs).2 = [] ∧
      t = ls.flatMap Lexeme.text ++ b :: bs ∧ ∀ l ∈ ls, l.closed = true := by
  generalize hn : t.length = n
  induction n using Nat.strong_induction_on generalizing t with
  | _ n ih =>
    obtain ⟨b, bs, rfl⟩ := List.exists_cons_of_ne_nil h
    by_cases hrest : (scan b bs).2 = []
    · refine ⟨[], b, bs, ?_, hrest, rfl, by simp⟩
      rw [lexemes_scan, lexemes_eq_nil_iff.mpr hrest, List.nil_append]
    · have hlt := length_scan_lt b bs
      obtain ⟨ls, c, cs, hls, hc, htext, hclosed⟩ := ih _ (hn ▸ hlt) hrest rfl
      refine ⟨(scan b bs).1 :: ls, c, cs, ?_, hc, ?_, ?_⟩
      · rw [lexemes_scan, hls, List.cons_append]
      · rw [List.flatMap_cons, List.append_assoc, ← htext, text_append_scan]
      · exact List.forall_mem_cons.mpr ⟨closed_scan hrest, hclosed⟩

/-- More text changes no lexeme but the last one. -/
theorem lexemes_append {ls : List Lexeme} {b : UInt8} {bs t : Text}
    (h : lexemes t = ls ++ [(scan b bs).1]) (hrest : (scan b bs).2 = [])
    (hpoint : b :: bs ≠ [Text.byte '.']) (more : Text) :
    lexemes (t ++ more) = ls ++ lexemes (b :: bs ++ more) := by
  have hl : (scan b bs).1.text = b :: bs := by
    have := text_append_scan b bs
    rwa [hrest, List.append_nil] at this
  have htext := flatMap_text_lexemes t
  induction ls generalizing t with
  | nil =>
    rw [h, List.nil_append, List.flatMap_singleton, hl] at htext
    rw [← htext, List.nil_append]
  | cons l ls ih =>
    cases t with
    | nil => simp [lexemes, lexemesWithin] at h
    | cons c cs =>
      rw [lexemes_scan, List.cons_append, List.cons.injEq] at h
      obtain ⟨rfl, h⟩ := h
      have htail := flatMap_text_lexemes (scan c cs).2
      have hne : (scan c cs).2 ≠ [] := by
        rw [Ne, ← lexemes_eq_nil_iff, h]
        simp
      have hne' : (scan c cs).2 ≠ [Text.byte '.'] := by
        intro heq
        rw [h, List.flatMap_append, List.flatMap_singleton, hl, heq] at htail
        rcases List.append_eq_singleton_iff.mp htail with ⟨-, hb⟩ | ⟨-, hb⟩
        · exact hpoint hb
        · simp at hb
      have hscan := scan_append more hne hne'
      rw [List.cons_append, lexemes_cons hscan, ih h htail]
      rfl

/-! ## Kinds and faults -/

namespace Lexeme

/-- The kinds of the tokens that the parser sees of some lexemes. -/
def kindsOf (ls : List Lexeme) : List TokenKind := (ls.filterMap Lexeme.kind).filter (!·.hidden)

theorem kindsOf_append (ls ls' : List Lexeme) :
    kindsOf (ls ++ ls') = kindsOf ls ++ kindsOf ls' := by
  simp [kindsOf]

/-- What is wrong with a lexeme that begins at a position. -/
def faultsAt (pos : Position) (l : Lexeme) : List SyntaxError :=
  if l.kind = none then l.text.map (.stray pos)
  else if l.closed then [] else [.unclosed pos l.text]

/-- What is wrong with some lexemes, from a position on. -/
def faultsFrom : Position → List Lexeme → List SyntaxError
  | _, [] => []
  | pos, l :: ls => l.faultsAt pos ++ faultsFrom (pos.advance l.text) ls

theorem exists_of_mem_faultsFrom {pos : Position} {ls : List Lexeme} {f : SyntaxError}
    (h : f ∈ faultsFrom pos ls) : ∃ l ∈ ls, ∃ pos', f ∈ l.faultsAt pos' := by
  induction ls generalizing pos with
  | nil => simp [faultsFrom] at h
  | cons l ls ih =>
    rcases List.mem_append.mp h with hf | hf
    · exact ⟨l, List.mem_cons_self, pos, hf⟩
    · obtain ⟨l', hl', hf⟩ := ih hf
      exact ⟨l', List.mem_cons_of_mem l hl', hf⟩

/-- A token is faulty only in that it is cut off. -/
theorem atEnd_of_mem_faultsFrom {pos : Position} {ls : List Lexeme} {f : SyntaxError}
    (h : ∀ l ∈ ls, l.kind.isSome = true) (hf : f ∈ faultsFrom pos ls) : f.atEnd = true := by
  obtain ⟨l, hl, pos', hf⟩ := exists_of_mem_faultsFrom hf
  rw [faultsAt, if_neg (Option.isSome_iff_ne_none.mp (h l hl))] at hf
  split at hf
  · simp at hf
  · rw [List.mem_singleton.mp hf]
    rfl

/-- Where nothing is cut off, no fault is one of the end of input. -/
theorem atEnd_eq_false_of_mem_faultsFrom {pos : Position} {ls : List Lexeme} {f : SyntaxError}
    (h : ∀ l ∈ ls, l.closed = true) (hf : f ∈ faultsFrom pos ls) : f.atEnd = false := by
  obtain ⟨l, hl, pos', hf⟩ := exists_of_mem_faultsFrom hf
  rw [faultsAt, if_pos (h l hl)] at hf
  split at hf
  · obtain ⟨b, -, rfl⟩ := List.mem_map.mp hf
    rfl
  · simp at hf

/-- Before a lexeme that is the first to be cut off, all is tokens if the first fault is one of the
end of input. -/
theorem isSome_kind_of_atEnd {pos : Position} {ls : List Lexeme} {l : Lexeme}
    (htext : ∀ k ∈ ls, k.text ≠ []) (hclosed : ∀ k ∈ ls, k.closed = true)
    (h : ∀ f ∈ (faultsFrom pos (ls ++ [l])).head?, f.atEnd = true) :
    ∀ k ∈ ls, k.kind.isSome = true := by
  induction ls generalizing pos with
  | nil => simp
  | cons k ls ih =>
    rw [List.forall_mem_cons] at htext hclosed ⊢
    rw [List.cons_append, faultsFrom, faultsAt, if_pos hclosed.1] at h
    by_cases hkind : k.kind = none
    · obtain ⟨b, bs, hb⟩ := List.exists_cons_of_ne_nil htext.1
      rw [if_pos hkind, hb] at h
      exact absurd (h _ rfl) (by simp [SyntaxError.atEnd])
    · rw [if_neg hkind, List.nil_append] at h
      exact ⟨Option.isSome_iff_ne_none.mpr hkind, ih htext.2 hclosed.2 h⟩

end Lexeme

namespace Lexed

theorem kinds_locate (pos : Position) (index : Nat) (faults : List SyntaxError)
    (ls : List Lexeme) : (locate pos index faults ls).kinds = kindsOf ls := by
  fun_induction locate pos index faults ls with
  | case1 => rfl
  | case2 _ _ _ l _ hkind _ ih =>
    rw [ih]
    simp [kindsOf, hkind]
  | case3 _ _ _ l ls kind hkind _ token tail ih =>
    have hcons : kindsOf (l :: ls) = if kind.hidden then kindsOf ls else kind :: kindsOf ls := by
      cases hv : kind.hidden <;> simp [kindsOf, hkind, hv]
    rw [hcons, ← ih]
    cases hv : kind.hidden <;> simp [kinds, visible, Token.hidden, token, hv, tail]

theorem faults_locate (pos : Position) (index : Nat) (faults : List SyntaxError)
    (ls : List Lexeme) :
    (locate pos index faults ls).faults = faults ++ faultsFrom pos ls := by
  fun_induction locate pos index faults ls with
  | case1 => simp [Lexed.faults, all, faultsFrom]
  | case2 pos _ _ l _ hkind found ih =>
    rw [ih, faultsFrom, faultsAt, if_pos hkind, List.append_assoc]
  | case3 pos _ fs l ls kind hkind found token tail ih =>
    have hfound : l.faultsAt pos = found := by simp [faultsAt, hkind, found]
    rw [faultsFrom, hfound, ← List.append_assoc]
    simpa [Lexed.faults, all, tail] using ih

theorem kinds_ofText (t : Text) : (ofText t).kinds = kindsOf (lexemes t) := kinds_locate _ _ _ _

theorem faults_ofText (t : Text) : (ofText t).faults = faultsFrom {} (lexemes t) := by
  have := faults_locate {} 0 [] (lexemes t)
  rwa [List.nil_append] at this

/-- A source is without a fault if and only if all its lexemes are tokens that are closed. -/
theorem faults_eq_nil_iff {t : Text} :
    (ofText t).faults = [] ↔ ∀ l ∈ lexemes t, l.kind.isSome = true ∧ l.closed = true := by
  rw [Lexed.faults, List.flatMap_eq_nil_iff]
  exact ⟨closed_lexemes, fun h => (locate_of_closed h {} 0).1⟩

end Lexed

/-! ## Texts that end in a blank or within a string -/

namespace Lexeme
variable {b : UInt8} {bs : Text}

theorem kind_scan_blank (h : Text.isBlank b = true) (bs : Text) :
    (scan b bs).1.kind = some .blank := by
  rw [scan, if_pos h]

theorem not_mem_takeWhile {p : UInt8 → Bool} {c : UInt8} (h : p c = false) (t : Text) :
    c ∉ t.takeWhile p := by
  intro hc
  have := mem_takeWhile_eq_true c hc
  simp [h] at this

theorem newline_not_mem_scanFraction (t : Text) : Text.newline ∉ (scanFraction t).1 := by
  rcases scanFraction_cases t with ⟨hf, -⟩ | ⟨bs, -, -, hf⟩
  · simp [hf]
  · rw [hf, List.mem_cons, not_or]
    exact ⟨by decide, not_mem_takeWhile (by decide) _⟩

theorem newline_not_mem_scanOperator (hb : Text.isBlank b = false) (bs : Text) :
    Text.newline ∉ (scanOperator b bs).1.text := by
  have hne : Text.newline ≠ b := by
    rintro rfl
    exact absurd hb (by decide)
  unfold scanOperator
  split
  · next c cs =>
    split
    · next k hk =>
      have hc : Text.newline ≠ c := by
        rintro rfl
        simp [double?, hne.symm, Text.newline] at hk
      simp [hne, hc]
    · simp [hne]
  · simp [hne]

/-- The end of a line is within blanks and strings only. -/
theorem blank_or_quote_of_newline_mem (h : Text.newline ∈ (scan b bs).1.text) :
    Text.isBlank b = true ∨ isQuote b = true := by
  by_contra hno
  rw [not_or, Bool.not_eq_true, Bool.not_eq_true] at hno
  obtain ⟨hb, hq⟩ := hno
  have hne : Text.newline ≠ b := by
    rintro rfl
    exact absurd hb (by decide)
  have hnumeral := not_mem_takeWhile (p := isNumeral) (c := Text.newline) (by decide)
  have hword := not_mem_takeWhile (p := isWordByte) (c := Text.newline) (by decide)
  have hcomment := not_mem_takeWhile (p := (· != Text.newline)) (c := Text.newline) (by decide)
  simp only [scan, hb, hq, Bool.false_eq_true, if_false] at h
  split at h
  · simp [hne, hcomment] at h
  split at h
  · simp [hne, hnumeral, newline_not_mem_scanFraction] at h
  split at h
  · simp [hne, hnumeral] at h
  split at h
  · simp [hne, hword] at h
  · exact newline_not_mem_scanOperator hb bs h

/-- A lexeme that more text does not take its kind from: a blank, or a string that is cut off. -/
def StaysOpen (b : UInt8) (bs : Text) : Prop :=
  Text.isBlank b = true ∨ isQuote b = true ∧ (scanString b bs).closed = false

theorem staysOpen_of_newline (hrest : (scan b bs).2 = [])
    (h : (b :: bs).getLast? = some Text.newline) : StaysOpen b bs := by
  have htext := text_append_scan b bs
  rw [hrest, List.append_nil] at htext
  rcases blank_or_quote_of_newline_mem (htext ▸ List.mem_of_getLast? h) with hb | hb
  · exact .inl hb
  · refine .inr ⟨hb, ?_⟩
    cases hc : (scanString b bs).closed with
    | false => rfl
    | true =>
      obtain ⟨body, hbody, -⟩ := quotes_scanString hc
      rw [← htext, scan_quote hb, hbody, ← List.cons_append, List.getLast?_concat] at h
      cases h
      exact absurd hb (by decide)

theorem StaysOpen.ne_point (h : StaysOpen b bs) : b :: bs ≠ [Text.byte '.'] := by
  rintro heq
  cases heq
  rcases h with h | ⟨h, -⟩
  · exact absurd h (by decide)
  · exact absurd h (by decide)

/-- The first kind stays, whatever text comes after it. -/
theorem StaysOpen.kind_scan (h : StaysOpen b bs) (more : Text) :
    (scan b (bs ++ more)).1.kind = (scan b bs).1.kind ∧ (scan b bs).1.kind.isSome = true := by
  rcases h with h | ⟨h, -⟩
  · rw [kind_scan_blank h, kind_scan_blank h]
    exact ⟨rfl, rfl⟩
  · rw [scan_quote h, scan_quote h]
    exact ⟨rfl, rfl⟩

end Lexeme

/-- A source that ends in a blank or within a string keeps the kinds of its tokens in a longer one
without a fault, and every piece of it is a token. -/
theorem Lexed.kinds_append {ls : List Lexeme} {b : UInt8} {bs t more : Text}
    (h : lexemes t = ls ++ [(scan b bs).1]) (hrest : (scan b bs).2 = []) (hopen : StaysOpen b bs)
    (hfaults : (ofText (t ++ more)).faults = []) :
    (∀ l ∈ lexemes t, l.kind.isSome = true) ∧
      ∃ ks, (ofText (t ++ more)).kinds = (ofText t).kinds ++ ks := by
  have hlonger := lexemes_append h hrest hopen.ne_point more
  obtain ⟨hkind, hsome⟩ := hopen.kind_scan more
  rw [List.cons_append, lexemes_scan] at hlonger
  constructor
  · intro l hl
    rw [h, List.mem_append, List.mem_singleton] at hl
    rcases hl with hl | rfl
    · rw [faults_eq_nil_iff, hlonger] at hfaults
      exact (hfaults l (List.mem_append_left _ hl)).1
    · exact hsome
  · have hone : kindsOf [(scan b (bs ++ more)).1] = kindsOf [(scan b bs).1] := by
      simp only [kindsOf, List.filterMap_cons, hkind]
    refine ⟨kindsOf (lexemes (scan b (bs ++ more)).2), ?_⟩
    rw [kinds_ofText, kinds_ofText, hlonger, h, ← List.singleton_append, ← List.append_assoc,
      kindsOf_append, kindsOf_append, hone, ← kindsOf_append]

end Reckoner
