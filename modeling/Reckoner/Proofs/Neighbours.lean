import Mathlib.Data.List.Chain
import Reckoner.Proofs.Faults
import Reckoner.Proofs.Spelling

/-!
# Tokens next to each other

A token needs nothing between itself and the next one if the lexer would not take more for it:
`Token.Apart`. Tokens that are written one after the other are found again if and only if each is
apart from the next; here is what the lexer makes of such tokens, and that the tokens of every
source without a fault stand in this way.
-/
namespace Reckoner

open Lexeme

/-- A token is written as its kind asks for; hidden ones are blanks, or a comment up to the end of
its line. -/
def Token.Written (t : Token) : Prop :=
  match t.kind with
  | .blank => t.text ≠ [] ∧ ∀ b ∈ t.text, Text.isBlank b = true
  | .comment =>
    ∃ body, t.text = Text.byte '/' :: Text.byte '/' :: body ∧ Text.newline ∉ body
  | _ => t.Spelled

/-- Nothing is needed between a token and the one after it. -/
def Token.Apart (t u : Token) : Prop := t.EndsBefore u.text

instance (t u : Token) : Decidable (t.Apart u) := inferInstanceAs (Decidable (t.EndsBefore u.text))

/-! ## What the lexer takes for one token -/

namespace Lexeme

section
variable {α : Type} {p : α → Bool}

theorem head?_dropWhile_eq_false (l : List α) : ∀ a ∈ (l.dropWhile p).head?, p a = false := by
  induction l with
  | nil => simp
  | cons a l ih =>
    cases ha : p a with
    | true => simpa [List.dropWhile_cons, ha] using ih
    | false => simp [ha]

theorem mem_takeWhile_eq_true {l : List α} : ∀ a ∈ l.takeWhile p, p a = true := by
  induction l with
  | nil => simp
  | cons a l ih =>
    cases ha : p a with
    | true => simpa [List.takeWhile_cons, ha] using ih
    | false => simp [ha]

end

theorem quotes_scanString {quote : UInt8} {t : Text} (h : (scanString quote t).closed = true) :
    ∃ body, (scanString quote t).text = body ++ [quote] ∧
      Quotes quote body (scanString quote t).literal := by
  fun_induction scanString quote t with
  | case1 => simp at h
  | case2 bs => exact ⟨[], rfl, .nil⟩
  | case3 hq => simp at h
  | case4 c cs tail hq ih =>
    obtain ⟨body, htext, hquotes⟩ := ih h
    refine ⟨_ :: c :: body, ?_, .escaped hquotes⟩
    simp only [tail, htext, List.cons_append]
  | case5 b bs hq hs tail ih =>
    obtain ⟨body, htext, hquotes⟩ := ih h
    refine ⟨b :: body, ?_, .plain hq hs hquotes⟩
    simp only [tail, htext, List.cons_append]

theorem isNumeral_of_isDigit {b : UInt8} (h : Text.isDigit b = true) : isNumeral b = true := by
  simp [isNumeral, h]

theorem isDigits_cons_takeWhile {b : UInt8} (h : Text.isDigit b = true) (bs : Text) :
    IsDigits (b :: bs.takeWhile isNumeral) :=
  ⟨h, List.forall_mem_cons.mpr ⟨isNumeral_of_isDigit h, mem_takeWhile_eq_true⟩⟩

theorem isDigits_takeWhile {bs : Text} (h : startsDigit bs = true) :
    IsDigits (bs.takeWhile isNumeral) := by
  cases bs with
  | nil => simp [startsDigit] at h
  | cons b bs =>
    rw [List.takeWhile_cons, isNumeral_of_isDigit h, if_pos rfl]
    exact isDigits_cons_takeWhile h bs

/-- There is a fraction at the front of a text, or none. -/
theorem scanFraction_cases (t : Text) :
    (scanFraction t = ([], t) ∧
      ∀ b ∈ t.head?, b = Text.byte '.' → startsDigit t.tail = false) ∨
    ∃ bs, t = Text.byte '.' :: bs ∧ startsDigit bs = true ∧
      scanFraction t = (Text.byte '.' :: bs.takeWhile isNumeral, bs.dropWhile isNumeral) := by
  cases t with
  | nil => exact .inl ⟨rfl, by simp⟩
  | cons b bs =>
    by_cases h : (b = Text.byte '.' && startsDigit bs) = true
    · simp only [Bool.and_eq_true, decide_eq_true_eq] at h
      obtain ⟨rfl, hs⟩ := h
      exact .inr ⟨bs, rfl, hs, by simp [scanFraction, hs]⟩
    · refine .inl ⟨by rw [scanFraction, if_neg h], fun c hc hp => ?_⟩
      obtain rfl : b = c := by simpa using hc
      simp only [Bool.and_eq_true, decide_eq_true_eq, hp, true_and, Bool.not_eq_true] at h
      exact h

/-- A token found by the lexer is written as its kind asks for, and what is left ends it. -/
def Found (l : Lexeme) (rest : Text) : Prop := l.token.Written ∧ l.token.EndsBefore rest

theorem found_blank {b : UInt8} (hb : Text.isBlank b = true) (bs : Text) :
    Found { kind := some .blank, text := b :: bs.takeWhile Text.isBlank }
      (bs.dropWhile Text.isBlank) :=
  ⟨⟨by simp [token], List.forall_mem_cons.mpr ⟨hb, mem_takeWhile_eq_true⟩⟩, trivial⟩

theorem found_string {quote : UInt8} (hq : isQuote quote = true) {bs : Text}
    (hc : (scanString quote bs).closed = true) :
    Found { kind := some .string, text := quote :: (scanString quote bs).text,
            literal := (scanString quote bs).literal, closed := (scanString quote bs).closed }
      (scanString quote bs).rest := by
  obtain ⟨body, htext, hquotes⟩ := quotes_scanString hc
  exact ⟨⟨quote, body, hq, congrArg (quote :: ·) htext, hquotes⟩, trivial⟩

theorem found_comment (bs : Text) (h : bs.head? = some (Text.byte '/')) :
    Found { kind := some .comment, text := Text.byte '/' :: bs.takeWhile (· != Text.newline) }
      (bs.dropWhile (· != Text.newline)) := by
  cases bs with
  | nil => simp at h
  | cons c cs =>
    obtain rfl : c = Text.byte '/' := by simpa using h
    refine ⟨⟨cs.takeWhile (· != Text.newline), rfl, fun hmem => ?_⟩, fun b hb => ?_⟩
    · simpa using mem_takeWhile_eq_true _ hmem
    · simpa using head?_dropWhile_eq_false _ b hb

theorem found_number {b : UInt8} (hb : Text.isDigit b = true) (bs : Text) :
    Found { kind := some .number,
            text := b :: bs.takeWhile isNumeral ++ (scanFraction (bs.dropWhile isNumeral)).1 }
      (scanFraction (bs.dropWhile isNumeral)).2 := by
  have hdigits := isDigits_cons_takeWhile hb bs
  rcases scanFraction_cases (bs.dropWhile isNumeral) with ⟨h, hnext⟩ | ⟨cs, -, hcs, h⟩
  · rw [h]
    refine ⟨⟨.inl (by simpa [token] using hdigits), rfl⟩, fun c hc => ?_⟩
    exact ⟨head?_dropWhile_eq_false _ c hc, fun hp => .inr (hnext c hc hp)⟩
  · rw [h]
    refine ⟨⟨.inr ⟨_, _, rfl, .inr hdigits, isDigits_takeWhile hcs⟩, rfl⟩, fun c hc => ?_⟩
    exact ⟨head?_dropWhile_eq_false _ c hc, fun _ => .inl (by simp [token])⟩

theorem found_point {bs : Text} (h : startsDigit bs = true) :
    Found { kind := some .number, text := Text.byte '.' :: bs.takeWhile isNumeral }
      (bs.dropWhile isNumeral) :=
  ⟨⟨.inr ⟨[], _, rfl, .inl rfl, isDigits_takeWhile h⟩, rfl⟩, fun c hc =>
    ⟨head?_dropWhile_eq_false _ c hc, fun _ => .inl (by simp [token])⟩⟩

/-- A word is a keyword, which is always written the same way, or one of two other kinds. -/
theorem ofWord_cases (word : Text) :
    (TokenKind.ofWord word = .identifier ∨ TokenKind.ofWord word = .print) ∨
      (TokenKind.ofWord word ∈ [.yes, .no, .vars, .inspect .tree, .inspect .tokens, .inspect .gui,
        .inspect .refactor] ∧
        (TokenKind.ofWord word).spelling?.map Text.ofString = some word) := by
  unfold TokenKind.ofWord
  split
  · next k h =>
    exact .inr ⟨List.mem_of_find?_eq_some h, by simpa using List.find?_some h⟩
  · split
    · exact .inl (.inr rfl)
    · exact .inl (.inl rfl)

theorem found_word {b : UInt8} (hb : Text.isLetter b = true) (bs : Text) :
    Found { kind := some (.ofWord (b :: bs.takeWhile isWordByte)),
            text := b :: bs.takeWhile isWordByte }
      (bs.dropWhile isWordByte) := by
  have hword : IsWord (b :: bs.takeWhile isWordByte) := ⟨hb, mem_takeWhile_eq_true⟩
  have hnext := head?_dropWhile_eq_false (p := isWordByte) bs
  rcases ofWord_cases (b :: bs.takeWhile isWordByte) with (h | h) | ⟨h, hs⟩
  · rw [Found, h]
    exact ⟨⟨hword, h, rfl⟩, hnext⟩
  · rw [Found, h]
    exact ⟨⟨hword, h, rfl⟩, hnext⟩
  · generalize TokenKind.ofWord (b :: bs.takeWhile isWordByte) = k at h hs
    simp only [List.mem_cons, List.not_mem_nil, or_false] at h
    rcases h with rfl | rfl | rfl | rfl | rfl | rfl | rfl <;> exact ⟨⟨hs, rfl⟩, hnext⟩

theorem of_ite_eq_some {α : Type} {c : Prop} [Decidable c] {j k : α} {o : Option α}
    (h : (if c then some j else o) = some k) : c ∧ j = k ∨ o = some k := by
  by_cases hc : c
  · rw [if_pos hc] at h
    exact .inl ⟨hc, Option.some.inj h⟩
  · rw [if_neg hc] at h
    exact .inr h

theorem found_double {b c : UInt8} {k : TokenKind} (h : double? b c = some k) (rest : Text) :
    Found { kind := some k, text := [b, c] } rest := by
  unfold double? at h
  by_cases hc : c = Text.byte '='
  · subst hc
    rw [if_pos rfl] at h
    iterate 4
      rcases of_ite_eq_some h with ⟨rfl, rfl⟩ | h
      · exact ⟨⟨rfl, rfl⟩, trivial⟩
    cases h
  · rw [if_neg hc] at h
    by_cases hb : b = c
    · subst hb
      rw [if_pos rfl] at h
      iterate 2
        rcases of_ite_eq_some h with ⟨rfl, rfl⟩ | h
        · exact ⟨⟨rfl, rfl⟩, trivial⟩
      cases h
    · rw [if_neg hb] at h
      cases h

theorem found_single {b : UInt8} {k : TokenKind} {rest : Text} (h : single? b = some k)
    (hd : ∀ c ∈ rest.head?, double? b c = none)
    (hs : ¬(b = Text.byte '/' ∧ rest.head? = some (Text.byte '/'))) :
    Found { kind := some k, text := [b] } rest := by
  have heq (hone : (double? b (Text.byte '=')).isSome = true) :
      rest.head? ≠ some (Text.byte '=') := by
    intro hhead
    rw [hd _ hhead] at hone
    cases hone
  unfold single? at h
  iterate 7
    rcases of_ite_eq_some h with ⟨rfl, rfl⟩ | h
    · exact ⟨⟨rfl, rfl⟩, trivial⟩
  rcases of_ite_eq_some h with ⟨rfl, rfl⟩ | h
  · exact ⟨⟨rfl, rfl⟩, fun hhead => hs ⟨rfl, hhead⟩⟩
  iterate 3
    rcases of_ite_eq_some h with ⟨rfl, rfl⟩ | h
    · exact ⟨⟨rfl, rfl⟩, trivial⟩
  iterate 4
    rcases of_ite_eq_some h with ⟨rfl, rfl⟩ | h
    · exact ⟨⟨rfl, rfl⟩, heq (by decide)⟩
  cases h

/-- What the lexer takes for a token is one, and it has taken all of it. -/
theorem found_scan {b : UInt8} {bs : Text} (hk : (scan b bs).1.kind.isSome = true)
    (hc : (scan b bs).1.closed = true) : Found (scan b bs).1 (scan b bs).2 := by
  unfold scan at hk hc ⊢
  split
  · next hb => exact found_blank hb bs
  split
  · next hb hq =>
    simp only [hb, hq, if_true, Bool.false_eq_true, if_false] at hc
    exact found_string hq hc
  split
  · next h =>
    simp only [Bool.and_eq_true, decide_eq_true_eq] at h
    obtain ⟨rfl, h⟩ := h
    exact found_comment bs h
  split
  · next hd => exact found_number hd bs
  split
  · next h =>
    simp only [Bool.and_eq_true, decide_eq_true_eq] at h
    obtain ⟨rfl, h⟩ := h
    exact found_point h
  split
  · next hl => exact found_word hl bs
  · next hb hq hcomment hd hp hl =>
    simp only [hb, hq, hcomment, hd, hp, hl, Bool.false_eq_true, if_false] at hk
    unfold scanOperator at hk ⊢
    simp only [Bool.and_eq_true, decide_eq_true_eq] at hcomment
    split
    · next c cs =>
      split
      · next k h => exact found_double h cs
      · next h =>
        simp only [h] at hk
        obtain ⟨k, hk⟩ := Option.isSome_iff_exists.mp hk
        rw [hk]
        exact found_single hk (by simpa using h) hcomment
    · simp only at hk
      obtain ⟨k, hk⟩ := Option.isSome_iff_exists.mp hk
      rw [hk]
      exact found_single hk (by simp) hcomment

end Lexeme

/-! ## Written tokens -/

namespace Token

@[simp] theorem written_unplaced (t : Token) : t.unplaced.Written ↔ t.Written := Iff.rfl

theorem Spelled.written {t : Token} (h : t.Spelled) : t.Written := by
  obtain ⟨kind, text, literal, pos, index⟩ := t
  cases kind <;> first | exact h | exact absurd h.1 (by simp [TokenKind.spelling?])

theorem Written.spelled {t : Token} (h : t.Written) (hv : t.hidden = false) : t.Spelled := by
  obtain ⟨kind, text, literal, pos, index⟩ := t
  cases kind <;> first | exact h | simp [Token.hidden, TokenKind.hidden] at hv

theorem Written.text_ne_nil {t : Token} (h : t.Written) : t.text ≠ [] := by
  cases hv : t.hidden with
  | false =>
    obtain ⟨b, bs, htext, -⟩ := (h.spelled hv).exists_text_eq_cons
    simp [htext]
  | true =>
    obtain ⟨kind, text, literal, pos, index⟩ := t
    cases kind <;> simp [Token.hidden, TokenKind.hidden] at hv
    · exact h.1
    · obtain ⟨body, rfl, -⟩ := h
      simp

/-- Only a number begins with a point, and then a digit follows. -/
theorem Written.startsDigit_of_point {t : Token} (h : t.Written) {bs : Text}
    (ht : t.text = Text.byte '.' :: bs) : startsDigit bs = true := by
  have hfirst : (scan (Text.byte '.') bs).1.kind = some t.kind := by
    cases hv : t.hidden with
    | false =>
      obtain ⟨b, bs', htext, hscan⟩ := (h.spelled hv).exists_scan t.endsBefore_nil
      rw [ht] at htext
      cases htext
      rw [List.append_nil] at hscan
      rw [hscan]
      rfl
    | true =>
      obtain ⟨kind, text, literal, pos, index⟩ := t
      cases kind <;> simp [Token.hidden, TokenKind.hidden] at hv
      · have hb := h.2 (Text.byte '.') (by rw [ht]; exact List.mem_cons_self)
        cases hb
      · obtain ⟨body, htext, -⟩ := h
        rw [htext] at ht
        cases ht
  -- The lexer finds no token at a point without a digit after it.
  cases hs : startsDigit bs with
  | true => rfl
  | false =>
    have hscan : scan (Text.byte '.') bs = scanOperator (Text.byte '.') bs := by
      simp [scan, hs, show Text.isBlank 46 = false from rfl, show isQuote 46 = false from rfl,
        show Text.isDigit 46 = false from rfl, show Text.isLetter 46 = false from rfl]
    have hnone : (scanOperator (Text.byte '.') bs).1.kind = none := by
      cases bs with
      | nil => rfl
      | cons c cs =>
        have hd := double?_of_not_equality (b := Text.byte '.') (by decide) (by decide) c
        simp only [scanOperator, hd]
        rfl
    rw [hscan, hnone] at hfirst
    cases hfirst

/-- Whether a text ends a token shows in the token that it begins with. -/
theorem Written.endsBefore_append {u : Token} (hu : u.Written) (t : Token) (rest : Text) :
    t.EndsBefore (u.text ++ rest) ↔ t.Apart u := by
  obtain ⟨b, bs, htext⟩ := List.exists_cons_of_ne_nil hu.text_ne_nil
  obtain ⟨kind, text, literal, pos, index⟩ := t
  cases kind with
  | number =>
    simp only [Apart, EndsBefore, htext, List.cons_append, List.head?_cons, Option.mem_some_iff,
      forall_eq', List.tail_cons]
    refine and_congr_right fun _ => forall_congr' fun hp => ?_
    have hdigit := hu.startsDigit_of_point (hp ▸ htext)
    have hdigit' : startsDigit (bs ++ rest) = true := by
      cases bs with
      | nil => simp [startsDigit] at hdigit
      | cons c cs => exact hdigit
    rw [hdigit, hdigit']
  | _ => simp [Apart, EndsBefore, htext]

end Token

/-! ## Texts that are split into tokens -/

theorem lexemesWithin_eq {fuel : Nat} {t : Text} (h : t.length ≤ fuel) :
    lexemesWithin fuel t = lexemes t := by
  rw [lexemes]
  generalize hn : t.length = n
  have hle : t.length ≤ n := Nat.le_of_eq hn
  clear hn
  induction fuel generalizing t n with
  | zero =>
    obtain rfl : t = [] := List.length_eq_zero_iff.mp (Nat.le_zero.mp h)
    cases n <;> rfl
  | succ fuel ih =>
    cases t with
    | nil => cases n <;> rfl
    | cons b bs =>
      cases n with
      | zero => simp at hle
      | succ n =>
        have hlt := Lexeme.length_scan_lt b bs
        rcases hscan : scan b bs with ⟨l, rest⟩
        rw [hscan] at hlt
        simp only [List.length_cons] at hlt h hle
        rw [Token.lexemesWithin_of_scan hscan, Token.lexemesWithin_of_scan hscan,
          ih (t := rest) (by omega) n (by omega)]

theorem lexemes_cons {b : UInt8} {bs rest : Text} {l : Lexeme} (h : scan b bs = (l, rest)) :
    lexemes (b :: bs) = l :: lexemes rest := by
  have hlt := Lexeme.length_scan_lt b bs
  simp only [h, List.length_cons] at hlt
  rw [lexemes, List.length_cons, Token.lexemesWithin_of_scan h, lexemesWithin_eq (by omega)]

/-! ## Layouts -/

/-- What shows of a source: the tokens that are not hidden, each with the text in front of it, and
the text behind the last one. -/
structure Layout where
  words : List (Text × Token)
  trailing : Text
deriving DecidableEq

namespace Layout

/-- Puts a text in front. -/
def pad (t : Text) : Layout → Layout
  | ⟨[], trailing⟩ => ⟨[], t ++ trailing⟩
  | ⟨(gap, u) :: words, trailing⟩ => ⟨(t ++ gap, u) :: words, trailing⟩

/-- The layout of some tokens. -/
def of : List Token → Layout
  | [] => ⟨[], []⟩
  | t :: ts =>
    if t.hidden then (of ts).pad t.text else { of ts with words := ([], t) :: (of ts).words }

@[simp] theorem pad_nil (l : Layout) : l.pad [] = l := by
  obtain ⟨_ | _, _⟩ := l <;> rfl

theorem pad_pad (s t : Text) (l : Layout) : (l.pad t).pad s = l.pad (s ++ t) := by
  obtain ⟨_ | _, _⟩ := l <;> simp [pad]

@[simp] theorem map_words_pad (t : Text) (l : Layout) :
    (l.pad t).words.map Prod.snd = l.words.map Prod.snd := by
  obtain ⟨_ | _, _⟩ := l <;> rfl

theorem of_cons_of_hidden {t : Token} (h : t.hidden = true) (ts : List Token) :
    of (t :: ts) = (of ts).pad t.text := if_pos h

/-- The tokens that are not hidden. -/
theorem map_words_of (ts : List Token) :
    (of ts).words.map Prod.snd = ts.filter (!·.hidden) := by
  induction ts with
  | nil => rfl
  | cons t ts ih => cases h : t.hidden <;> simp [of, h, ih]

/-- Places do not show. -/
theorem of_map_unplaced (ts : List Token) :
    of (ts.map Token.unplaced) =
      ⟨(of ts).words.map fun w => (w.1, w.2.unplaced), (of ts).trailing⟩ := by
  induction ts with
  | nil => rfl
  | cons t ts ih =>
    have hv : t.unplaced.hidden = t.hidden := rfl
    rw [List.map_cons, of, of, ih, hv]
    split
    · obtain ⟨_ | _, _⟩ := of ts <;> rfl
    · rfl

end Layout

/-- The lexer finds no fault in a text, and the text shows in the same way as some tokens. -/
structure Text.Splits (t : Text) (ts : List Token) : Prop where
  closed : ∀ l ∈ lexemes t, l.kind.isSome = true ∧ l.closed = true
  layout : Layout.of ((lexemes t).map Lexeme.token) = Layout.of (ts.map Token.unplaced)

namespace Text.Splits
variable {t : Text} {ts : List Token}

theorem nil : Splits [] [] := ⟨by simp [lexemes, lexemesWithin], rfl⟩

/-- One more stretch of source in front. -/
theorem cons (h : Splits t ts) {b : UInt8} {bs : Text} {l : Lexeme} (hscan : scan b bs = (l, t))
    (hl : l.kind.isSome = true ∧ l.closed = true) {u : Token} (hu : u.unplaced = l.token) :
    Splits (b :: bs) (u :: ts) where
  closed := by
    rw [lexemes_cons hscan]
    exact List.forall_mem_cons.mpr ⟨hl, h.closed⟩
  layout := by
    rw [lexemes_cons hscan, List.map_cons, List.map_cons, Layout.of, Layout.of, h.layout, hu]

theorem token (h : Splits t ts) {u : Token} (hu : u.Spelled) (he : u.EndsBefore t) :
    Splits (u.text ++ t) (u :: ts) := by
  obtain ⟨b, bs, htext, hscan⟩ := hu.exists_scan he
  rw [htext]
  exact h.cons hscan ⟨rfl, rfl⟩ rfl

theorem comment (h : Splits t ts) {u : Token} (hu : u.Written) (hk : u.kind = .comment)
    (ht : ∀ b ∈ t.head?, b = Text.newline) : Splits (u.text ++ t) (u :: ts) := by
  obtain ⟨kind, text, literal, pos, index⟩ := u
  obtain rfl : kind = .comment := hk
  obtain ⟨body, rfl, hbody⟩ := hu
  have hall : ∀ b ∈ Text.byte '/' :: body, (b != Text.newline) = true := by
    refine List.forall_mem_cons.mpr ⟨by decide, fun b hb => ?_⟩
    simpa using fun heq : b = Text.newline => hbody (heq ▸ hb)
  have hstop : ∀ b ∈ t.head?, (b != Text.newline) = false := by simpa using ht
  have htake : (Text.byte '/' :: (body ++ t)).takeWhile (· != Text.newline) =
      Text.byte '/' :: body := takeWhile_append_of_head (t := Text.byte '/' :: body) hall hstop
  have hdrop : (Text.byte '/' :: (body ++ t)).dropWhile (· != Text.newline) = t :=
    dropWhile_append_of_head (t := Text.byte '/' :: body) hall hstop
  have hscan : scan (Text.byte '/') (Text.byte '/' :: (body ++ t)) =
      ({ kind := some .comment, text := Text.byte '/' :: Text.byte '/' :: body }, t) := by
    rw [scan, htake, hdrop]
    rfl
  constructor
  · rw [List.cons_append, List.cons_append, lexemes_cons hscan]
    exact List.forall_mem_cons.mpr ⟨⟨rfl, rfl⟩, h.closed⟩
  · rw [List.cons_append, List.cons_append, lexemes_cons hscan, List.map_cons, List.map_cons,
      Layout.of_cons_of_hidden rfl, Layout.of_cons_of_hidden rfl, h.layout]
    rfl

/-- The blanks that a text begins with are text in front of what is left. -/
theorem layout_dropWhile (t : Text) :
    Layout.of ((lexemes t).map Lexeme.token) =
      (Layout.of ((lexemes (t.dropWhile isBlank)).map Lexeme.token)).pad (t.takeWhile isBlank) := by
  cases t with
  | nil => rfl
  | cons c cs =>
    cases hc : isBlank c with
    | false => simp [hc]
    | true =>
      have hscan : scan c cs = ({ kind := some .blank, text := c :: cs.takeWhile isBlank },
          cs.dropWhile isBlank) := by rw [scan, if_pos hc]
      rw [lexemes_cons hscan, List.map_cons, Layout.of_cons_of_hidden rfl, List.dropWhile_cons,
        List.takeWhile_cons, hc]
      rfl

theorem closed_dropWhile (h : Splits t ts) :
    ∀ l ∈ lexemes (t.dropWhile isBlank), l.kind.isSome = true ∧ l.closed = true := by
  cases t with
  | nil => exact h.closed
  | cons c cs =>
    cases hc : isBlank c with
    | false => simpa [List.dropWhile_cons, hc] using h.closed
    | true =>
      have hscan : scan c cs = ({ kind := some .blank, text := c :: cs.takeWhile isBlank },
          cs.dropWhile isBlank) := by rw [scan, if_pos hc]
      have hclosed := h.closed
      rw [lexemes_cons hscan, List.forall_mem_cons] at hclosed
      rw [List.dropWhile_cons, hc]
      exact hclosed.2

/-- Blanks in front join those that the text begins with. -/
theorem blanks (h : Splits t ts) {u : Token} (hu : u.Written) (hk : u.kind = .blank) :
    Splits (u.text ++ t) (u :: ts) := by
  obtain ⟨kind, text, literal, pos, index⟩ := u
  obtain rfl : kind = .blank := hk
  obtain ⟨hne, hall⟩ := hu
  obtain ⟨b, bs, rfl⟩ := List.exists_cons_of_ne_nil hne
  rw [List.forall_mem_cons] at hall
  have htake : (bs ++ t).takeWhile isBlank = bs ++ t.takeWhile isBlank :=
    List.takeWhile_append_of_pos hall.2
  have hdrop : (bs ++ t).dropWhile isBlank = t.dropWhile isBlank :=
    List.dropWhile_append_of_pos hall.2
  have hscan : scan b (bs ++ t) =
      ({ kind := some .blank, text := b :: (bs ++ t.takeWhile isBlank) },
        t.dropWhile isBlank) := by rw [scan, if_pos hall.1, htake, hdrop]
  constructor
  · rw [List.cons_append, lexemes_cons hscan]
    exact List.forall_mem_cons.mpr ⟨⟨rfl, rfl⟩, h.closed_dropWhile⟩
  · rw [List.cons_append, lexemes_cons hscan, List.map_cons, List.map_cons,
      Layout.of_cons_of_hidden rfl, Layout.of_cons_of_hidden rfl, ← h.layout, layout_dropWhile t,
      Layout.pad_pad]
    rfl

/-- A written token in front of a text that ends it. -/
theorem written (h : Splits t ts) {u : Token} (hu : u.Written) (he : u.EndsBefore t) :
    Splits (u.text ++ t) (u :: ts) := by
  by_cases hblank : u.kind = .blank
  · exact h.blanks hu hblank
  · by_cases hcomment : u.kind = .comment
    · refine h.comment hu hcomment ?_
      simpa only [Token.EndsBefore, hcomment] using he
    · refine h.token (hu.spelled ?_) he
      generalize hk : u.kind = k at hblank hcomment
      cases k <;> simp_all [Token.hidden, TokenKind.hidden]

/-- Written tokens, each apart from the next, in front of a text that ends the last of them. -/
theorem append {us : List Token} (h : Splits t ts) (hw : ∀ u ∈ us, u.Written)
    (hc : us.IsChain Token.Apart) (he : ∀ u ∈ us.getLast?, u.EndsBefore t) :
    Splits (sourceText us ++ t) (us ++ ts) := by
  induction us with
  | nil => exact h
  | cons u us ih =>
    rw [List.forall_mem_cons] at hw
    obtain ⟨hnext, hc⟩ := List.isChain_cons.mp hc
    rw [sourceText, List.flatMap_cons, List.append_assoc, List.cons_append]
    cases us with
    | nil => exact h.written hw.1 (he u rfl)
    | cons v vs =>
      refine (ih hw.2 hc fun w hw' => he w (by simpa using hw')).written hw.1 ?_
      rw [sourceText, List.flatMap_cons, List.append_assoc,
        (hw.2 v List.mem_cons_self).endsBefore_append]
      exact hnext v rfl

/-- What a text is split into is what the parser sees of it. -/
theorem visible (h : Splits t ts) :
    ((lexemes t).map Lexeme.token).filter (!·.hidden) =
      (ts.filter (!·.hidden)).map Token.unplaced := by
  rw [← Layout.map_words_of, h.layout, Layout.map_words_of]
  exact List.filter_map (p := fun t : Token => !t.hidden)

end Text.Splits

/-- Written tokens that are apart, each from the next, are split into just these. -/
theorem Token.splits_sourceText {ts : List Token} (hw : ∀ t ∈ ts, t.Written)
    (hc : ts.IsChain Token.Apart) : Text.Splits (sourceText ts) ts := by
  have := Text.Splits.nil.append hw hc fun u _ => u.endsBefore_nil
  rwa [List.append_nil, List.append_nil] at this

/-- Tokens with single spaces between them are split at exactly these spaces. -/
theorem Token.splits_render {ts : List Token} (h : ∀ t ∈ ts, t.Spelled) :
    ∃ us, Text.Splits (Token.render ts) us ∧ us.filter (!·.hidden) = ts := by
  induction ts with
  | nil => exact ⟨[], .nil, rfl⟩
  | cons t ts ih =>
    rw [List.forall_mem_cons] at h
    have hv : t.hidden = false := h.1.hidden_eq_false
    cases ts with
    | nil =>
      have := Text.Splits.nil.token h.1 t.endsBefore_nil
      rw [List.append_nil] at this
      exact ⟨[t], this, by simp [hv]⟩
    | cons u us =>
      obtain ⟨vs, hsplits, hvs⟩ := ih h.2
      let space : Token := { kind := .blank, text := " ", pos := {}, index := 0 }
      have hspace : space.Written := ⟨by decide, List.forall_mem_singleton.mpr (by decide)⟩
      rw [render_cons_cons]
      refine ⟨t :: space :: vs, (hsplits.blanks hspace rfl).token h.1 (h.1.endsBefore_space _), ?_⟩
      rw [List.filter_cons_of_pos (by simp [hv]), List.filter_cons_of_neg (by decide), hvs]

/-! ## The tokens of a source -/

theorem Lexeme.token_written_of_mem {fuel : Nat} {t : Text}
    (h : ∀ l ∈ lexemesWithin fuel t, l.kind.isSome = true ∧ l.closed = true) :
    (∀ l ∈ lexemesWithin fuel t, l.token.Written) ∧
      ((lexemesWithin fuel t).map Lexeme.token).IsChain Token.Apart ∧
      ∀ l ∈ (lexemesWithin fuel t).head?, ∃ rest, t = l.text ++ rest := by
  fun_induction lexemesWithin fuel t with
  | case1 => simp
  | case2 => simp
  | case3 fuel b bs l rest hscan ih =>
    rw [List.forall_mem_cons] at h
    obtain ⟨hwritten, hchain, hhead⟩ := ih h.2
    have hfound : Found l rest := by
      have : Found (scan b bs).1 (scan b bs).2 :=
        found_scan (by rw [hscan]; exact h.1.1) (by rw [hscan]; exact h.1.2)
      rwa [hscan] at this
    refine ⟨List.forall_mem_cons.mpr ⟨hfound.1, hwritten⟩, ?_, ?_⟩
    · rw [List.map_cons, List.isChain_cons]
      refine ⟨fun u hu => ?_, hchain⟩
      rw [List.head?_map] at hu
      obtain ⟨l', hl', rfl⟩ := Option.map_eq_some_iff.mp hu
      obtain ⟨rest', hrest⟩ := hhead l' hl'
      have hends := hfound.2
      rw [hrest] at hends
      exact ((hwritten l' (List.mem_of_mem_head? hl')).endsBefore_append _ rest').mp hends
    · intro l' hl'
      obtain rfl : l = l' := by simpa using hl'
      have htext := Lexeme.text_append_scan b bs
      rw [hscan] at htext
      exact ⟨rest, htext.symm⟩

namespace Lexed

/-- If no token has a fault, every stretch of the source is a token. -/
theorem closed_of_faults {pos : Position} {index : Nat} {faults : List SyntaxError}
    {ls : List Lexeme} (hls : ∀ l ∈ ls, l.text ≠ [])
    (h : ∀ i ∈ (locate pos index faults ls).all, i.faults = []) :
    faults = [] ∧ ∀ l ∈ ls, l.kind.isSome = true ∧ l.closed = true := by
  fun_induction locate pos index faults ls with
  | case1 pos index faults => exact ⟨h _ List.mem_cons_self, by simp⟩
  | case2 pos index faults l ls hkind found ih =>
    rw [List.forall_mem_cons] at hls
    obtain ⟨hfaults, -⟩ := ih hls.2 h
    have hfound : l.text = [] := by simpa [found] using (List.append_eq_nil_iff.mp hfaults).2
    exact absurd hfound hls.1
  | case3 pos index faults l ls kind hkind found token tail ih =>
    rw [List.forall_mem_cons] at hls
    have htail := ih hls.2 fun i hi => h i (by
      simp only [all, List.cons_append, List.mem_cons] at hi ⊢
      exact .inr hi)
    have hhead := h ⟨faults ++ found, token⟩ (by simp [all])
    obtain ⟨hfaults, hfound⟩ := List.append_eq_nil_iff.mp hhead
    refine ⟨hfaults, List.forall_mem_cons.mpr ⟨⟨by simp [hkind], ?_⟩, htail.2⟩⟩
    cases hc : l.closed with
    | true => rfl
    | false => simp [found, hc] at hfound

end Lexed

theorem text_ne_nil_of_mem_lexemesWithin {fuel : Nat} {t : Text} {l : Lexeme}
    (h : l ∈ lexemesWithin fuel t) : l.text ≠ [] := by
  fun_induction lexemesWithin fuel t with
  | case1 | case2 => simp at h
  | case3 fuel b bs lexeme rest hscan ih =>
    rcases List.mem_cons.mp h with rfl | h
    · have hne := Lexeme.text_scan_ne_nil b bs
      rwa [hscan] at hne
    · exact ih h

namespace Lexed
variable {t : Text}

theorem closed_lexemes (h : ∀ i ∈ (ofText t).all, i.faults = []) :
    ∀ l ∈ lexemes t, l.kind.isSome = true ∧ l.closed = true :=
  (closed_of_faults (fun _ hl => text_ne_nil_of_mem_lexemesWithin hl) h).2

theorem unplaced_tokens (h : ∀ l ∈ lexemes t, l.kind.isSome = true ∧ l.closed = true) :
    ((ofText t).items.map Item.token).map Token.unplaced = (lexemes t).map Lexeme.token :=
  (locate_of_closed h {} 0).2

/-- The tokens of a source without a fault are written, and each is apart from the next. -/
theorem written_of_faults (h : ∀ i ∈ (ofText t).all, i.faults = []) :
    (∀ u ∈ (ofText t).items.map Item.token, u.Written) ∧
      ((ofText t).items.map Item.token).IsChain Token.Apart := by
  have htokens := unplaced_tokens (closed_lexemes h)
  obtain ⟨hwritten, hchain, -⟩ := Lexeme.token_written_of_mem (closed_lexemes h)
  constructor
  · intro u hu
    have hmem : u.unplaced ∈ (lexemes t).map Lexeme.token := htokens ▸ List.mem_map_of_mem hu
    obtain ⟨l, hl, heq⟩ := List.mem_map.mp hmem
    rw [← Token.written_unplaced, ← heq]
    exact hwritten l hl
  · have hmap : (((ofText t).items.map Item.token).map Token.unplaced).IsChain Token.Apart :=
      htokens ▸ hchain
    rw [List.isChain_map] at hmap
    exact hmap

/-- A source without a fault is split into its tokens. -/
theorem splits_of_faults (h : ∀ i ∈ (ofText t).all, i.faults = []) :
    Text.Splits t ((ofText t).items.map Item.token) :=
  ⟨closed_lexemes h, by rw [unplaced_tokens (closed_lexemes h)]⟩

end Lexed

/-- What a text is split into is what the parser sees of it. -/
theorem Text.Splits.lexed {t : Text} {ts : List Token} (h : Splits t ts) :
    (∀ i ∈ (Lexed.ofText t).all, i.faults = []) ∧
      (Lexed.ofText t).visible.map Token.unplaced =
        (ts.filter (!·.hidden)).map Token.unplaced := by
  refine ⟨(Lexed.locate_of_closed h.closed {} 0).1, ?_⟩
  rw [← h.visible, ← Lexed.unplaced_tokens h.closed, Lexed.visible]
  exact (List.filter_map (p := fun t : Token => !t.hidden)).symm

end Reckoner
