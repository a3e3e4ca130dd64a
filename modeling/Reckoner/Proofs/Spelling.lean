import Reckoner.Proofs.Sources

/-!
# Tokens as they are written

How a token of each kind is spelled, what ends it, and that the lexer finds it again if what follows
ends it.
-/
namespace Reckoner

namespace Lexeme

/-! ## Spellings -/

/-- Digits with separators between and behind them. -/
def IsDigits (t : Text) : Prop := startsDigit t = true ∧ ∀ b ∈ t, isNumeral b = true

/-- A number: digits, or a point with digits behind it and possibly in front of it. -/
def IsNumber (t : Text) : Prop :=
  IsDigits t ∨ ∃ whole fraction, t = whole ++ Text.byte '.' :: fraction ∧
    (whole = [] ∨ IsDigits whole) ∧ IsDigits fraction

/-- What stands between two quotation marks, and the content that it stands for: a mark of the same
kind is written with a backslash, and a backslash belongs to the byte after it. -/
inductive Quotes (quote : UInt8) : Text → Text → Prop where
  | nil : Quotes quote [] []
  | plain {b : UInt8} {body content : Text} (hq : b ≠ quote) (hs : b ≠ Text.byte '\\')
    (h : Quotes quote body content) : Quotes quote (b :: body) (b :: content)
  | escaped {c : UInt8} {body content : Text} (h : Quotes quote body content) :
    Quotes quote (Text.byte '\\' :: c :: body)
      ((if isQuote c then [c] else [Text.byte '\\', c]) ++ content)

/-- A word: a letter, and letters and digits behind it. -/
def IsWord : Text → Prop
  | [] => False
  | b :: bs => Text.isLetter b = true ∧ ∀ c ∈ bs, isWordByte c = true

end Lexeme

open Lexeme

/-- A token is written as its kind asks for. -/
def Token.Spelled (t : Token) : Prop :=
  match t.kind with
  | .number => IsNumber t.text ∧ t.literal = []
  | .string =>
    ∃ quote body, isQuote quote = true ∧ t.text = quote :: (body ++ [quote]) ∧
      Quotes quote body t.literal
  | .identifier | .print => IsWord t.text ∧ TokenKind.ofWord t.text = t.kind ∧ t.literal = []
  | k => k.spelling?.map Text.ofString = some t.text ∧ t.literal = []

/-- A text ends the token in front of it: the lexer would not take more of it for that token. A
comment goes on to the end of its line, digits go on with digits and with a fraction, and an operator
of one byte with the byte that makes it one of two. -/
def Token.EndsBefore (t : Token) (rest : Text) : Prop :=
  match t.kind with
  | .comment => ∀ b ∈ rest.head?, b = Text.newline
  | .number => ∀ b ∈ rest.head?, isNumeral b = false ∧
      (b = Text.byte '.' → Text.byte '.' ∈ t.text ∨ startsDigit rest.tail = false)
  | .identifier | .print | .yes | .no | .vars | .inspect _ =>
    ∀ b ∈ rest.head?, isWordByte b = false
  | .assign | .not | .less | .greater => rest.head? ≠ some (Text.byte '=')
  | .slash => rest.head? ≠ some (Text.byte '/')
  | _ => True

instance Token.decidableEndsBefore (t : Token) (rest : Text) : Decidable (t.EndsBefore rest) :=
  match t with
  | ⟨kind, text, _, _, _⟩ =>
    match kind with
    | .comment => inferInstanceAs (Decidable (∀ b ∈ rest.head?, b = Text.newline))
    | .number => inferInstanceAs (Decidable (∀ b ∈ rest.head?, isNumeral b = false ∧
        (b = Text.byte '.' → Text.byte '.' ∈ text ∨ startsDigit rest.tail = false)))
    | .identifier | .print | .yes | .no | .vars | .inspect _ =>
      inferInstanceAs (Decidable (∀ b ∈ rest.head?, isWordByte b = false))
    | .assign | .not | .less | .greater =>
      inferInstanceAs (Decidable (rest.head? ≠ some (Text.byte '=')))
    | .slash => inferInstanceAs (Decidable (rest.head? ≠ some (Text.byte '/')))
    | .eof | .blank | .string | .plus | .minus | .star | .caret | .equal | .unequal | .lessEqual
    | .greaterEqual | .and | .or | .question | .colon | .openParen | .closeParen | .openBrace
    | .closeBrace => .isTrue trivial

/-! ## Finding a token again -/

namespace Lexeme

section
variable {rest : Text} {p : UInt8 → Bool}

/-- Bytes that belong together are taken together. -/
theorem takeWhile_append_of_head {t : Text} (ht : ∀ b ∈ t, p b = true)
    (h : ∀ b ∈ rest.head?, p b = false) : (t ++ rest).takeWhile p = t := by
  have hrest : rest.takeWhile p = [] := by
    cases rest with
    | nil => rfl
    | cons b bs => rw [List.takeWhile_cons, h b rfl]; rfl
  rw [List.takeWhile_append_of_pos ht, hrest, List.append_nil]

theorem dropWhile_append_of_head {t : Text} (ht : ∀ b ∈ t, p b = true)
    (h : ∀ b ∈ rest.head?, p b = false) : (t ++ rest).dropWhile p = rest := by
  have hrest : rest.dropWhile p = rest := by
    cases rest with
    | nil => rfl
    | cons b bs => rw [List.dropWhile_cons, h b rfl]; rfl
  rw [List.dropWhile_append_of_pos ht, hrest]

end

theorem scanString_quotes {quote : UInt8} (hquote : isQuote quote = true) {body content : Text}
    (h : Quotes quote body content) (rest : Text) :
    scanString quote (body ++ quote :: rest) = ⟨body ++ [quote], content, rest, true⟩ := by
  have hne : Text.byte '\\' ≠ quote := by
    rintro rfl
    exact absurd hquote (by decide)
  induction h with
  | nil =>
    rw [List.nil_append, scanString.eq_def]
    simp
  | plain hq hs _ ih =>
    rw [List.cons_append, scanString.eq_def]
    simp only [if_neg hq, if_neg hs, ih, List.cons_append]
  | escaped _ ih =>
    rw [List.cons_append, List.cons_append, scanString.eq_def]
    simp only [if_neg hne, if_true, ih, List.cons_append]

/-! ### Each kind -/

section
variable {rest : Text}

theorem scan_digits {b : UInt8} {bs : Text} (hb : Text.isDigit b = true)
    (hbs : ∀ c ∈ bs, isNumeral c = true) (h : ∀ c ∈ rest.head?, isNumeral c = false)
    (hf : scanFraction rest = ([], rest)) :
    scan b (bs ++ rest) = ({ kind := some .number, text := b :: bs }, rest) := by
  have hkinds : Text.isBlank b = false ∧ isQuote b = false ∧ b ≠ 47 := by
    grind [Text.isDigit, Text.isBlank, isQuote]
  have htake := takeWhile_append_of_head hbs h
  have hdrop := dropWhile_append_of_head hbs h
  simp [scan, hkinds, hb, htake, hdrop, hf]

theorem IsDigits.startsDigit_append {t : Text} (h : IsDigits t) (rest : Text) :
    startsDigit (t ++ rest) = true := by
  cases t with
  | nil => simp [IsDigits, startsDigit] at h
  | cons b bs => exact h.1

/-- The point after the digits of a number begins its fraction. -/
theorem scan_fraction {b : UInt8} {bs fraction : Text} (hb : Text.isDigit b = true)
    (hbs : ∀ c ∈ bs, isNumeral c = true) (hf : IsDigits fraction)
    (h : ∀ c ∈ rest.head?, isNumeral c = false) :
    scan b (bs ++ Text.byte '.' :: fraction ++ rest) =
      ({ kind := some .number, text := b :: (bs ++ Text.byte '.' :: fraction) }, rest) := by
  have hkinds : Text.isBlank b = false ∧ isQuote b = false ∧ b ≠ 47 := by
    grind [Text.isDigit, Text.isBlank, isQuote]
  have hpoint : isNumeral 46 = false := by decide
  have htake : (bs ++ 46 :: (fraction ++ rest)).takeWhile isNumeral = bs :=
    takeWhile_append_of_head hbs (by simp [hpoint])
  have hdrop : (bs ++ 46 :: (fraction ++ rest)).dropWhile isNumeral = 46 :: (fraction ++ rest) :=
    dropWhile_append_of_head hbs (by simp [hpoint])
  have hfraction : scanFraction (46 :: (fraction ++ rest)) = (46 :: fraction, rest) := by
    have htake' := takeWhile_append_of_head hf.2 h
    have hdrop' := dropWhile_append_of_head hf.2 h
    simp [scanFraction, hf.startsDigit_append, htake', hdrop']
  simp [scan, hkinds, hb, htake, hdrop, hfraction]

/-- A number may begin with a point. -/
theorem scan_point {bs : Text} (hbs : IsDigits bs) (h : ∀ c ∈ rest.head?, isNumeral c = false) :
    scan (Text.byte '.') (bs ++ rest) =
      ({ kind := some .number, text := Text.byte '.' :: bs }, rest) := by
  have htake := takeWhile_append_of_head hbs.2 h
  have hdrop := dropWhile_append_of_head hbs.2 h
  have hkinds : Text.isBlank 46 = false ∧ isQuote 46 = false ∧ Text.isDigit 46 = false := by
    decide
  simp [scan, hkinds, hbs.startsDigit_append, htake, hdrop]

theorem scan_string {quote : UInt8} {body content : Text} (hquote : isQuote quote = true)
    (hbody : Quotes quote body content) (rest : Text) :
    scan quote (body ++ [quote] ++ rest) =
      ({ kind := some .string, text := quote :: (body ++ [quote]), literal := content }, rest) := by
  have hblank : Text.isBlank quote = false := by
    grind [isQuote, Text.isBlank]
  have hscan := scanString_quotes hquote hbody rest
  simp [scan, hblank, hquote, hscan]

theorem scan_word {b : UInt8} {bs : Text} (hb : Text.isLetter b = true)
    (hbs : ∀ c ∈ bs, isWordByte c = true) (h : ∀ c ∈ rest.head?, isWordByte c = false) :
    scan b (bs ++ rest) =
      ({ kind := some (TokenKind.ofWord (b :: bs)), text := b :: bs }, rest) := by
  have hkinds : Text.isBlank b = false ∧ isQuote b = false ∧ b ≠ 47 ∧ Text.isDigit b = false ∧
      b ≠ 46 := by
    grind [Text.isLetter, Text.isDigit, Text.isBlank, isQuote]
  have htake := takeWhile_append_of_head hbs h
  have hdrop := dropWhile_append_of_head hbs h
  simp [scan, hkinds, hb, htake, hdrop]

/-- A byte that begins nothing longer than an operator. -/
def IsSign (b : UInt8) : Prop :=
  Text.isBlank b = false ∧ isQuote b = false ∧ Text.isDigit b = false ∧ b ≠ Text.byte '.' ∧
    Text.isLetter b = false

instance (b : UInt8) : Decidable (IsSign b) := inferInstanceAs (Decidable (_ ∧ _))

theorem scan_sign {b : UInt8} (hb : IsSign b)
    (h : b ≠ Text.byte '/' ∨ rest.head? ≠ some (Text.byte '/')) :
    scan b rest = scanOperator b rest := by
  obtain ⟨h₁, h₂, h₃, h₄, h₅⟩ := hb
  have hcomment : ¬(b = Text.byte '/' && rest.head? = some (Text.byte '/')) = true := by
    simp only [Bool.and_eq_true, decide_eq_true_eq]
    exact fun hs => h.elim (fun hb => hb hs.1) fun hn => hn hs.2
  have hpoint : ¬(b = Text.byte '.' && startsDigit rest) = true := by
    simp only [Bool.and_eq_true, decide_eq_true_eq]
    exact fun hp => h₄ hp.1
  rw [scan, h₁, h₂, h₃, h₅, if_neg hcomment, if_neg hpoint]
  rfl

/-- An operator of one byte, if the next byte does not make it longer. -/
theorem scan_single {b : UInt8} {k : TokenKind} (hb : IsSign b) (hk : single? b = some k)
    (h : b ≠ Text.byte '/' ∨ rest.head? ≠ some (Text.byte '/'))
    (hd : ∀ c ∈ rest.head?, double? b c = none) :
    scan b rest = ({ kind := some k, text := [b] }, rest) := by
  rw [scan_sign hb h]
  cases rest with
  | nil => simp [scanOperator, hk]
  | cons c cs => simp [scanOperator, hd c rfl, hk]

theorem IsDigits.exists_cons {t : Text} (h : IsDigits t) :
    ∃ b bs, t = b :: bs ∧ Text.isDigit b = true ∧ ∀ c ∈ bs, isNumeral c = true := by
  cases t with
  | nil => simp [IsDigits, startsDigit] at h
  | cons b bs => exact ⟨b, bs, rfl, h.1, fun c hc => h.2 c (List.mem_cons_of_mem _ hc)⟩

/-- Without a point among its bytes, a number does not end before a fraction. -/
theorem IsNumber.exists_scan {t : Text} (ht : IsNumber t)
    (h : ∀ b ∈ rest.head?, isNumeral b = false ∧
      (b = Text.byte '.' → Text.byte '.' ∈ t ∨ startsDigit rest.tail = false)) :
    ∃ b bs, t = b :: bs ∧
      scan b (bs ++ rest) = ({ kind := some .number, text := b :: bs }, rest) := by
  have hnext : ∀ b ∈ rest.head?, isNumeral b = false := fun b hb => (h b hb).1
  rcases ht with hdigits | ⟨whole, fraction, rfl, rfl | hwhole, hfraction⟩
  · have hpoint : Text.byte '.' ∉ t := fun hmem =>
      absurd (hdigits.2 _ hmem) (by decide)
    obtain ⟨b, bs, rfl, hb, hbs⟩ := hdigits.exists_cons
    refine ⟨b, bs, rfl, scan_digits hb hbs hnext ?_⟩
    cases rest with
    | nil => rfl
    | cons c cs =>
      by_cases hc : c = Text.byte '.'
      · have hdigit : startsDigit cs = false := ((h c rfl).2 hc).resolve_left hpoint
        simp [scanFraction, hdigit]
      · have hpoint : ¬(c = Text.byte '.' && startsDigit cs) = true := by
          simp only [Bool.and_eq_true, decide_eq_true_eq]
          exact fun hp => hc hp.1
        rw [scanFraction, if_neg hpoint]
  · exact ⟨_, fraction, rfl, scan_point hfraction hnext⟩
  · obtain ⟨b, bs, rfl, hb, hbs⟩ := hwhole.exists_cons
    exact ⟨b, bs ++ Text.byte '.' :: fraction, rfl, scan_fraction hb hbs hfraction hnext⟩

theorem IsWord.exists_scan {t : Text} (ht : IsWord t)
    (h : ∀ b ∈ rest.head?, isWordByte b = false) :
    ∃ b bs, t = b :: bs ∧
      scan b (bs ++ rest) = ({ kind := some (TokenKind.ofWord t), text := t }, rest) := by
  cases t with
  | nil => exact absurd ht id
  | cons b bs => exact ⟨b, bs, rfl, scan_word ht.1 ht.2 h⟩

/-- The byte after an operator of one byte only makes it longer if it is an equals sign. -/
theorem double?_of_ne {b c : UInt8} (hb : b ≠ Text.byte '&' ∧ b ≠ Text.byte '|')
    (hc : c ≠ Text.byte '=') : double? b c = none := by
  rw [double?, if_neg hc, if_neg hb.1, if_neg hb.2, ite_self]

theorem double?_of_not_equality {b : UInt8} (hb : b ≠ Text.byte '&' ∧ b ≠ Text.byte '|')
    (he : b ≠ Text.byte '=' ∧ b ≠ Text.byte '!' ∧ b ≠ Text.byte '<' ∧ b ≠ Text.byte '>')
    (c : UInt8) : double? b c = none := by
  obtain ⟨h₁, h₂, h₃, h₄⟩ := he
  rw [double?, if_neg h₁, if_neg h₂, if_neg h₃, if_neg h₄, if_neg hb.1, if_neg hb.2, ite_self,
    ite_self]

/-- The kinds that are always written the same way. -/
theorem exists_scan_fixed {t : Token} (hk : t.kind.spelling?.map Text.ofString = some t.text)
    (h : t.EndsBefore rest) :
    ∃ b bs, t.text = b :: bs ∧
      scan b (bs ++ rest) = ({ kind := some t.kind, text := b :: bs }, rest) := by
  obtain ⟨k, text, literal, pos, index⟩ := t
  have hsign {b : UInt8} (hb : IsSign b) (hone : single? b = some k)
      (hlast : b ≠ Text.byte '&' ∧ b ≠ Text.byte '|')
      (hslash : b ≠ Text.byte '/' ∨ rest.head? ≠ some (Text.byte '/'))
      (heq : (b ≠ Text.byte '=' ∧ b ≠ Text.byte '!' ∧ b ≠ Text.byte '<' ∧ b ≠ Text.byte '>') ∨
        rest.head? ≠ some (Text.byte '=')) :
      scan b ([] ++ rest) = ({ kind := some k, text := [b] }, rest) := by
    refine scan_single hb hone hslash fun c hc => ?_
    rcases heq with heq | heq
    · exact double?_of_not_equality hlast heq c
    · exact double?_of_ne hlast fun hce => heq (hce ▸ hc)
  cases k with
  | eof | blank | comment | number | string | identifier | print =>
    simp [TokenKind.spelling?] at hk
  | yes | no | vars =>
    cases hk
    exact ⟨_, _, rfl, scan_word (by decide) (List.all_eq_true.mp (by decide)) h⟩
  | inspect kind =>
    cases kind <;> cases hk <;>
      exact ⟨_, _, rfl, scan_word (by decide) (List.all_eq_true.mp (by decide)) h⟩
  | equal | unequal | lessEqual | greaterEqual | and | or =>
    cases hk
    exact ⟨_, _, rfl, rfl⟩
  | assign | not | less | greater =>
    cases hk
    exact ⟨_, _, rfl, hsign (by decide) (by decide) (by decide) (.inl (by decide)) (.inr h)⟩
  | slash =>
    cases hk
    exact ⟨_, _, rfl, hsign (by decide) (by decide) (by decide) (.inr h) (.inl (by decide))⟩
  | _ =>
    cases hk
    exact ⟨_, _, rfl, hsign (by decide) (by decide) (by decide) (.inl (by decide))
      (.inl (by decide))⟩

end

end Lexeme

namespace Token

/-- A token without its place in the source. -/
def unplaced (t : Token) : Token := { t with pos := {}, index := 0 }

@[simp] theorem kind_unplaced (t : Token) : t.unplaced.kind = t.kind := rfl

theorem kind_of_unplaced_eq {t u : Token} (h : t.unplaced = u.unplaced) : t.kind = u.kind := by
  rw [← kind_unplaced t, h, kind_unplaced]

/-- The stretch of source that a token is written as. -/
def lexeme (t : Token) : Lexeme := { kind := some t.kind, text := t.text, literal := t.literal }

/-- The lexer finds a token again, if what follows ends it. -/
theorem Spelled.exists_scan {t : Token} (ht : t.Spelled) {rest : Text} (h : t.EndsBefore rest) :
    ∃ b bs, t.text = b :: bs ∧ scan b (bs ++ rest) = (t.lexeme, rest) := by
  obtain ⟨kind, text, literal, pos, index⟩ := t
  cases kind with
  | number =>
    obtain ⟨hnumber, rfl⟩ : IsNumber text ∧ literal = [] := ht
    obtain ⟨b, bs, rfl, hscan⟩ := hnumber.exists_scan h
    exact ⟨b, bs, rfl, hscan⟩
  | string =>
    obtain ⟨quote, body, hquote, rfl, hbody⟩ :
      ∃ quote body, isQuote quote = true ∧ text = quote :: (body ++ [quote]) ∧
        Quotes quote body literal := ht
    exact ⟨quote, body ++ [quote], rfl, scan_string hquote hbody rest⟩
  | identifier | print =>
    obtain ⟨hword, hkind, hliteral⟩ := ht
    obtain ⟨b, bs, htext, hscan⟩ := hword.exists_scan h
    refine ⟨b, bs, htext, ?_⟩
    rw [hscan, hkind, lexeme, hliteral]
  | _ =>
    obtain ⟨hspelling, rfl⟩ := ht
    obtain ⟨b, bs, htext, hscan⟩ := exists_scan_fixed hspelling h
    obtain rfl : text = b :: bs := htext
    exact ⟨b, bs, rfl, hscan⟩

/-- A written token is seen by the parser. -/
theorem Spelled.hidden_eq_false {t : Token} (ht : t.Spelled) : t.kind.hidden = false := by
  obtain ⟨kind, text, literal, pos, index⟩ := t
  cases kind <;> first | rfl | simp [Spelled, TokenKind.spelling?] at ht

/-- The end of the text ends every token. -/
theorem endsBefore_nil (t : Token) : t.EndsBefore [] := by
  obtain ⟨kind, text, literal, pos, index⟩ := t
  cases kind <;> simp [EndsBefore]

/-- A space ends every written token. -/
theorem Spelled.endsBefore_space {t : Token} (ht : t.Spelled) (rest : Text) :
    t.EndsBefore (Text.byte ' ' :: rest) := by
  have hkind := ht.hidden_eq_false
  have h₁ : isNumeral 32 = false := by decide
  have h₂ : isWordByte 32 = false := by decide
  obtain ⟨kind, text, literal, pos, index⟩ := t
  cases kind <;> simp_all [EndsBefore, TokenKind.hidden]

/-- A written token begins with something other than a space. -/
theorem Spelled.exists_text_eq_cons {t : Token} (ht : t.Spelled) :
    ∃ b bs, t.text = b :: bs ∧ Text.isBlank b = false := by
  obtain ⟨b, bs, htext, hscan⟩ := ht.exists_scan t.endsBefore_nil
  refine ⟨b, bs, htext, ?_⟩
  cases hb : Text.isBlank b with
  | false => rfl
  | true =>
    have hkind := congrArg (fun r => r.1.kind) hscan
    simp only [scan, hb, if_true, lexeme, Option.some.injEq] at hkind
    simpa [← hkind, TokenKind.hidden] using ht.hidden_eq_false

/-! ## Rendering -/

/-- The texts of some tokens, with a single space between any two. -/
def render (ts : List Token) : Text := Text.join " " (ts.map Token.text)

theorem render_cons_cons (t u : Token) (ts : List Token) :
    render (t :: u :: ts) = t.text ++ Text.byte ' ' :: render (u :: ts) := by
  simp only [render, List.map_cons, Text.join, List.append_assoc]
  rfl

theorem lexemesWithin_of_scan {b : UInt8} {bs rest : Text} {l : Lexeme}
    (h : scan b bs = (l, rest)) (fuel : Nat) :
    lexemesWithin (fuel + 1) (b :: bs) = l :: lexemesWithin fuel rest := by
  simp [lexemesWithin, h]

end Token

/-- The token of a stretch of source, without its place. -/
def Lexeme.token (l : Lexeme) : Token :=
  { kind := l.kind.getD .eof, text := l.text, literal := l.literal, pos := {}, index := 0 }

namespace Lexed

/-- Stretches of source that are all tokens are located without a fault. -/
theorem locate_of_closed {ls : List Lexeme} (h : ∀ l ∈ ls, l.kind.isSome = true ∧ l.closed = true)
    (pos : Position) (index : Nat) :
    (∀ i ∈ (locate pos index [] ls).all, i.faults = []) ∧
      ((locate pos index [] ls).items.map Item.token).map Token.unplaced =
        ls.map Lexeme.token := by
  induction ls generalizing pos index with
  | nil => simp [locate, all]
  | cons l ls ih =>
    rw [List.forall_mem_cons] at h
    obtain ⟨kind, hkind⟩ := Option.isSome_iff_exists.mp h.1.1
    obtain ⟨hfaults, htokens⟩ := ih h.2 (pos.advance l.text) (index + 1)
    refine ⟨?_, ?_⟩
    · simpa [locate, hkind, h.1.2, all] using hfaults
    · simp [locate, hkind, htokens, Token.unplaced, Lexeme.token]

end Lexed

end Reckoner
