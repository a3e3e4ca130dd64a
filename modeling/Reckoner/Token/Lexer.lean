import Reckoner.SyntaxError

/-!
# Splitting a source into tokens

`Lexeme.scan` takes one lexeme off the front of a nonempty text, `lexemes` repeats it, and
`Lexed.ofText` gives every lexeme its number and place. Every byte of the source ends up in
exactly one lexeme; the bytes that begin no token are lexemes of their own and are reported
with the token that follows them. `flatMap_text_lexemes` says that nothing is lost.
-/
namespace Reckoner

/-- A stretch of source. Without a kind it is a byte that begins no token. -/
structure Lexeme where
  kind : Option TokenKind
  text : Text
  /-- The content of a string. -/
  literal : Text := []
  /-- Only a string that the end of input cuts off is not closed. -/
  closed : Bool := true
deriving DecidableEq, Repr, Inhabited

namespace Lexeme

/-- Both quotation marks delimit strings. -/
def isQuote (b : UInt8) : Bool := b == Text.byte '"' || b == Text.byte '\''

/-- The part of a string after its opening quote. -/
structure StringTail where
  /-- The bytes up to the closing quote and that quote. -/
  text : Text
  literal : Text
  rest : Text
  closed : Bool
deriving DecidableEq, Repr, Inhabited

/-- Reads up to the closing quote. A backslash before a quotation mark stands for that mark, any
other pair that starts with a backslash is kept as it is written, and a backslash before the end
of input stands for nothing. -/
def scanString (quote : UInt8) : Text → StringTail
  | [] => ⟨[], [], [], false⟩
  | b :: bs =>
    if b = quote then ⟨[b], [], bs, true⟩
    else if b = Text.byte '\\' then
      match bs with
      | [] => ⟨[b], [], [], false⟩
      | c :: cs =>
        let tail := scanString quote cs
        ⟨b :: c :: tail.text, (if isQuote c then [c] else [b, c]) ++ tail.literal,
          tail.rest, tail.closed⟩
    else
      let tail := scanString quote bs
      ⟨b :: tail.text, b :: tail.literal, tail.rest, tail.closed⟩

/-- Digits and the separators between them. -/
def isNumeral (b : UInt8) : Bool := Text.isDigit b || b == Text.byte '_'

/-- The bytes of a word after its first. -/
def isWordByte (b : UInt8) : Bool := Text.isLetter b || Text.isDigit b

/-- Whether the text begins with a digit. -/
def startsDigit : Text → Bool
  | b :: _ => Text.isDigit b
  | [] => false

/-- The fraction at the front of a text, which needs a digit after the point, and the rest. -/
def scanFraction : Text → Text × Text
  | b :: bs =>
    if b = Text.byte '.' && startsDigit bs then
      (b :: bs.takeWhile isNumeral, bs.dropWhile isNumeral)
    else ([], b :: bs)
  | [] => ([], [])

/-- The kind of an operator or bracket of one byte. -/
def single? (b : UInt8) : Option TokenKind :=
  if b = Text.byte '(' then some .openParen
  else if b = Text.byte ')' then some .closeParen
  else if b = Text.byte '\x7b' then some .openBrace
  else if b = Text.byte '\x7d' then some .closeBrace
  else if b = Text.byte '+' then some .plus
  else if b = Text.byte '-' then some .minus
  else if b = Text.byte '*' then some .star
  else if b = Text.byte '/' then some .slash
  else if b = Text.byte '^' then some .caret
  else if b = Text.byte '?' then some .question
  else if b = Text.byte ':' then some .colon
  else if b = Text.byte '=' then some .assign
  else if b = Text.byte '!' then some .not
  else if b = Text.byte '<' then some .less
  else if b = Text.byte '>' then some .greater
  else none

/-- The kind of an operator of two bytes. -/
def double? (b c : UInt8) : Option TokenKind :=
  if c = Text.byte '=' then
    if b = Text.byte '=' then some .equal
    else if b = Text.byte '!' then some .unequal
    else if b = Text.byte '<' then some .lessEqual
    else if b = Text.byte '>' then some .greaterEqual
    else none
  else if b = c then
    if b = Text.byte '&' then some .and
    else if b = Text.byte '|' then some .or
    else none
  else none

/-- The operator at the front of a text, the longer one first. -/
def scanOperator (b : UInt8) (bs : Text) : Lexeme × Text :=
  match bs with
  | c :: cs =>
    match double? b c with
    | some k => ({ kind := some k, text := [b, c] }, cs)
    | none => ({ kind := single? b, text := [b] }, bs)
  | [] => ({ kind := single? b, text := [b] }, bs)

/-- The lexeme at the front of a nonempty text, given by its first byte and the others, and the
text after it. -/
def scan (b : UInt8) (bs : Text) : Lexeme × Text :=
  if Text.isBlank b then
    ({ kind := some .blank, text := b :: bs.takeWhile Text.isBlank }, bs.dropWhile Text.isBlank)
  else if isQuote b then
    let tail := scanString b bs
    ({ kind := some .string, text := b :: tail.text, literal := tail.literal,
       closed := tail.closed }, tail.rest)
  else if b = Text.byte '/' && bs.head? = some (Text.byte '/') then
    ({ kind := some .comment, text := b :: bs.takeWhile (· != Text.newline) },
      bs.dropWhile (· != Text.newline))
  else if Text.isDigit b then
    let (fraction, rest) := scanFraction (bs.dropWhile isNumeral)
    ({ kind := some .number, text := b :: bs.takeWhile isNumeral ++ fraction }, rest)
  else if b = Text.byte '.' && startsDigit bs then
    ({ kind := some .number, text := b :: bs.takeWhile isNumeral }, bs.dropWhile isNumeral)
  else if Text.isLetter b then
    let word := b :: bs.takeWhile isWordByte
    ({ kind := some (.ofWord word), text := word }, bs.dropWhile isWordByte)
  else
    scanOperator b bs

theorem text_append_rest_scanString (quote : UInt8) (t : Text) :
    (scanString quote t).text ++ (scanString quote t).rest = t := by
  fun_induction scanString quote t <;> simp_all +zetaDelta

theorem append_scanFraction (t : Text) : (scanFraction t).1 ++ (scanFraction t).2 = t := by
  unfold scanFraction
  split
  · split <;> simp
  · rfl

theorem text_append_scanOperator (b : UInt8) (bs : Text) :
    (scanOperator b bs).1.text ++ (scanOperator b bs).2 = b :: bs := by
  unfold scanOperator
  split
  · split <;> rfl
  · rfl

/-- No byte is lost. -/
theorem text_append_scan (b : UInt8) (bs : Text) :
    (scan b bs).1.text ++ (scan b bs).2 = b :: bs := by
  unfold scan
  split
  · simp
  split
  · simp [text_append_rest_scanString]
  split
  · simp
  split
  · simp [append_scanFraction]
  split
  · simp
  split
  · simp
  · exact text_append_scanOperator b bs

/-- A lexeme is never empty. -/
theorem text_scan_ne_nil (b : UInt8) (bs : Text) : (scan b bs).1.text ≠ [] := by
  unfold scan scanOperator
  repeat' split
  all_goals simp

theorem length_scan_lt (b : UInt8) (bs : Text) : (scan b bs).2.length < (b :: bs).length := by
  have h := congrArg List.length (text_append_scan b bs)
  have := List.length_pos_iff.2 (text_scan_ne_nil b bs)
  simp only [List.length_append] at h
  omega

end Lexeme

/-- Repeats `Lexeme.scan`; a text has at most as many lexemes as bytes. -/
def lexemesWithin : Nat → Text → List Lexeme
  | _, [] => []
  | 0, _ :: _ => []
  | fuel + 1, b :: bs =>
    let (lexeme, rest) := Lexeme.scan b bs
    lexeme :: lexemesWithin fuel rest

/-- The lexemes of a text, in order. -/
def lexemes (t : Text) : List Lexeme := lexemesWithin t.length t

theorem flatMap_text_lexemesWithin (fuel : Nat) (t : Text) (h : t.length ≤ fuel) :
    (lexemesWithin fuel t).flatMap Lexeme.text = t := by
  induction fuel generalizing t with
  | zero => cases t <;> simp_all [lexemesWithin]
  | succ fuel ih =>
    cases t with
    | nil => rfl
    | cons b bs =>
      have hlt := Lexeme.length_scan_lt b bs
      have hle : (Lexeme.scan b bs).2.length ≤ fuel := by omega
      simp only [lexemesWithin, List.flatMap_cons, ih _ hle]
      exact Lexeme.text_append_scan b bs

/-- The lexemes of a text make it up again. -/
theorem flatMap_text_lexemes (t : Text) : (lexemes t).flatMap Lexeme.text = t :=
  flatMap_text_lexemesWithin t.length t (Nat.le_refl _)

/-- A token together with the faults found between the token before it and its own end. -/
structure Item where
  faults : List SyntaxError
  token : Token
deriving DecidableEq, Repr, Inhabited

/-- A source split into tokens: those with a text, and the end of input. -/
structure Lexed where
  items : List Item
  last : Item
deriving DecidableEq, Repr, Inhabited

namespace Lexed

/-- Gives the lexemes their numbers and places, starting from a position, a number and the faults
found since the last token. -/
def locate (pos : Position) (index : Nat) (faults : List SyntaxError) : List Lexeme → Lexed
  | [] => ⟨[], ⟨faults, { kind := .eof, pos, index }⟩⟩
  | l :: ls =>
    match l.kind with
    | none =>
      let found := l.text.map (SyntaxError.stray pos)
      locate (pos.advance l.text) index (faults ++ found) ls
    | some kind =>
      let found := if l.closed then [] else [SyntaxError.unclosed pos l.text]
      let token : Token := { kind, text := l.text, literal := l.literal, pos, index }
      let tail := locate (pos.advance l.text) (index + 1) [] ls
      { tail with items := ⟨faults ++ found, token⟩ :: tail.items }

/-- The tokens of a text. -/
def ofText (t : Text) : Lexed := locate {} 0 [] (lexemes t)

/-- All items, the end of input last. -/
def all (l : Lexed) : List Item := l.items ++ [l.last]

/-- All tokens, the end of input last. -/
def tokens (l : Lexed) : List Token := l.all.map Item.token

/-- All recognition errors, in source order. -/
def faults (l : Lexed) : List SyntaxError := l.all.flatMap Item.faults

/-- The end of input once more, with the next number. -/
def again (l : Lexed) : Token := { l.last.token with index := l.last.token.index + 1 }

end Lexed
end Reckoner
