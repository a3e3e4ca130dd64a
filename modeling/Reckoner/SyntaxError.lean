import Reckoner.Token

/-!
# Syntax errors

What can be wrong with a source: bytes that belong to no token, a string that is never closed,
a token where another one is needed, a token too many. The position of the error and whether it
was raised at the end of input follow from the cause.
-/
namespace Reckoner

/-- What the parser was ready to accept. -/
inductive Expected where
  | kind (kind : TokenKind)
  | expression
  | statement
deriving DecidableEq, Repr

/-- The tokens that were acceptable, as messages list them. -/
def Expected.text : Expected → Text
  | kind k => k.display
  | expression => "\x7b'(', '!', '-', NUMBER, STRING, 'true', 'false', ID\x7d"
  | statement =>
    Text.ofString ("\x7b'print', 'vars', 'tree', 'tokens', 'gui', 'refactor', "
      ++ "'(', '!', '-', NUMBER, STRING, 'true', 'false', ID\x7d")

/-- A fault of the source. -/
inductive SyntaxError where
  /-- A byte that begins no token. -/
  | stray (pos : Position) (found : UInt8)
  /-- A string that the end of input cuts off, with all the text from its opening quote. -/
  | unclosed (pos : Position) (found : Text)
  /-- A token where something else is needed. -/
  | mismatched (found : Token) (expected : Expected)
  /-- A token that was skipped. -/
  | extraneous (found : Token) (expected : Expected)
deriving DecidableEq, Repr

namespace SyntaxError

/-- Where the error is reported. -/
def pos : SyntaxError → Position
  | stray pos _ | unclosed pos _ => pos
  | mismatched found _ | extraneous found _ => found.pos

/-- Whether the source might be right if only it went on. -/
def atEnd : SyntaxError → Bool
  | stray _ _ => false
  | unclosed _ _ => true
  | mismatched found _ | extraneous found _ => found.kind == .eof

/-- What is wrong. -/
def message : SyntaxError → Text
  | stray _ b => "token recognition error at: '" ++ Text.ofLatin b ++ "'"
  | unclosed _ t => "token recognition error at: '" ++ t ++ "'"
  | mismatched found expected =>
    "mismatched input '" ++ found.quoted ++ "' expecting " ++ expected.text
  | extraneous found expected =>
    "extraneous input '" ++ found.quoted ++ "' expecting " ++ expected.text

/-- The message with its place. -/
def text (e : SyntaxError) : Text :=
  "line " ++ Text.ofNat e.pos.line ++ ":" ++ Text.ofNat e.pos.column ++ " " ++ e.message

/-- The messages of all errors, one a line. -/
def texts (es : List SyntaxError) : Text := Text.join [Text.newline] (es.map text)

/-- Errors mean that the source is only incomplete if the first of them was raised at its end. -/
def incomplete : List SyntaxError → Bool
  | [] => false
  | e :: _ => e.atEnd

end SyntaxError
end Reckoner
