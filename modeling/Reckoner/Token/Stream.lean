import Reckoner.Stmt
import Reckoner.Token.Lexer

/-!
# Tokens on demand

A `Cursor` stands in a source and takes one token off the front of what is left. A `TokenStream`
keeps the tokens that have been taken and takes more only when it is asked for one that it does
not have yet. After the end of input it takes no more.
-/
namespace Reckoner

/-- How far a source has been read: what is left of it, where that begins, and the number of the
next token. -/
structure Cursor where
  rest : Text
  pos : Position := {}
  index : Nat := 0
deriving DecidableEq, Repr

namespace Cursor

/-- The next token and the cursor after it. Bytes that begin no token are passed over; the fuel
bounds how many. -/
def nextWithin (fuel : Nat) (c : Cursor) : Token × Cursor :=
  match fuel, c.rest with
  | fuel + 1, b :: bs =>
    let (lexeme, rest) := Lexeme.scan b bs
    let pos := c.pos.advance lexeme.text
    match lexeme.kind with
    | none => nextWithin fuel { c with rest, pos }
    | some kind =>
      ({ kind, text := lexeme.text, literal := lexeme.literal, pos := c.pos, index := c.index },
        ⟨rest, pos, c.index + 1⟩)
  | _, _ => ({ kind := .eof, pos := c.pos, index := c.index }, { c with index := c.index + 1 })

/-- The next token and the cursor after it; at the end of the source, the end of input. -/
def next (c : Cursor) : Token × Cursor := nextWithin c.rest.length c

end Cursor

/-- The tokens taken so far, and where the next one will be taken. -/
structure TokenStream where
  tokens : List Token := []
  cursor : Cursor
  /-- Whether the end of input is among the tokens. -/
  done : Bool := false
deriving DecidableEq, Repr

namespace TokenStream

/-- The stream of a source of which nothing has been read. -/
def ofText (t : Text) : TokenStream := { cursor := ⟨t, {}, 0⟩ }

/-- How many tokens have been taken. -/
def size (s : TokenStream) : Nat := s.tokens.length

/-- Takes one more token, unless the end of input has been taken. -/
def pull (s : TokenStream) : TokenStream :=
  if s.done then s
  else
    let (token, cursor) := s.cursor.next
    { tokens := s.tokens ++ [token], cursor, done := token.kind == .eof }

/-- Takes so many more tokens, as far as there are as many. -/
def pulls : Nat → TokenStream → TokenStream
  | 0, s => s
  | n + 1, s => pulls n s.pull

/-- Takes tokens until there are at least `n`, as far as there are as many. -/
def ensure (s : TokenStream) (n : Nat) : TokenStream := pulls (n - s.size) s

/-- Takes all tokens: there are at most as many as bytes left, and the end of input. -/
def fill (s : TokenStream) : TokenStream := pulls (s.cursor.rest.length + 1) s

/-- The token of a given number; past the end, the end of input. -/
def get (s : TokenStream) (i : Nat) : Token × TokenStream :=
  let s := s.ensure (i + 1)
  ((s.tokens[i]?.or s.tokens.getLast?).getD default, s)

/-- The tokens numbered `first` to `last`, as far as there are any. -/
def range (s : TokenStream) (first last : Int) : List Token × TokenStream :=
  let s := s.ensure (last + 1).toNat
  (tokenRange s.tokens first last, s)

/-- The source text of the tokens numbered `first` to `last`. -/
def text (s : TokenStream) (first last : Int) : Text × TokenStream :=
  let (tokens, s) := s.range first last
  (sourceText tokens, s)

end TokenStream
end Reckoner
