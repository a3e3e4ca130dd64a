import Reckoner.Position

/-!
# Tokens

A token is a stretch of source with a kind. Blanks and comments are tokens as well, on a
channel of their own that the parser does not see, so that the source can be rebuilt from its
tokens.
-/
namespace Reckoner

/-- The statements that show a piece of program instead of running it. -/
inductive Inspection where
  | tree | tokens | gui | refactor
deriving DecidableEq, Repr, Inhabited

/-- The kinds of token. -/
inductive TokenKind where
  | eof | blank | comment
  | number | string | yes | no
  | identifier
  | print | vars | inspect (kind : Inspection)
  | plus | minus | star | slash | caret
  | equal | unequal | less | greater | lessEqual | greaterEqual
  | and | or | not
  | assign | question | colon
  | openParen | closeParen | openBrace | closeBrace
deriving DecidableEq, Repr, Inhabited

namespace Inspection

/-- The keyword that introduces the statement. -/
def keyword : Inspection → String
  | tree => "tree"
  | tokens => "tokens"
  | gui => "gui"
  | refactor => "refactor"

/-- The symbolic name of the keyword. -/
def name : Inspection → String
  | tree => "TREE"
  | tokens => "TOKENS"
  | gui => "GUI"
  | refactor => "REFACTOR"

end Inspection

namespace TokenKind

/-- All kinds, in the order in which they are numbered. -/
def all : List TokenKind :=
  [eof, blank, comment, number, string, yes, no, identifier, print, vars,
    inspect .tree, inspect .tokens, inspect .gui, inspect .refactor,
    plus, minus, star, slash, caret,
    equal, unequal, less, greater, lessEqual, greaterEqual, and, or, not,
    assign, question, colon, openParen, closeParen, openBrace, closeBrace]

/-- The symbolic name. -/
def name : TokenKind → String
  | eof => "EOF" | blank => "WS" | comment => "COMMENT"
  | number => "NUMBER" | string => "STRING" | yes => "TRUE" | no => "FALSE"
  | identifier => "ID" | print => "PRINT" | vars => "VARS"
  | inspect kind => kind.name
  | plus => "ADD" | minus => "SUB" | star => "MUL" | slash => "DIV" | caret => "EXP"
  | equal => "EQ" | unequal => "NE" | less => "LT" | greater => "GT"
  | lessEqual => "LE" | greaterEqual => "GE"
  | and => "AND" | or => "OR" | not => "NOT"
  | assign => "ASSIGN" | question => "QUESTION" | colon => "COLON"
  | openParen => "O_PAREN" | closeParen => "C_PAREN"
  | openBrace => "O_CURLY" | closeBrace => "C_CURLY"

/-- The source text of the kinds that are always written the same way. -/
def spelling? : TokenKind → Option String
  | eof | blank | comment | number | string | identifier | print => none
  | yes => some "true" | no => some "false" | vars => some "vars"
  | inspect kind => some kind.keyword
  | plus => some "+" | minus => some "-" | star => some "*" | slash => some "/"
  | caret => some "^"
  | equal => some "==" | unequal => some "!=" | less => some "<" | greater => some ">"
  | lessEqual => some "<=" | greaterEqual => some ">="
  | and => some "&&" | or => some "||" | not => some "!"
  | assign => some "=" | question => some "?" | colon => some ":"
  | openParen => some "(" | closeParen => some ")"
  | openBrace => some "\x7b" | closeBrace => some "\x7d"

/-- The quoted spelling where there is one, and the symbolic name otherwise. -/
def display (k : TokenKind) : Text :=
  match k.spelling? with
  | some s => "'" ++ Text.ofString s ++ "'"
  | none => k.name

/-- Blanks and comments are hidden from the parser. -/
def hidden : TokenKind → Bool
  | blank | comment => true
  | _ => false

/-- The kind with a given number. -/
def ofCode? : Int → Option TokenKind
  | .ofNat n => all[n]?
  | .negSucc _ => none

/-- The symbolic name and the displayed one of a number, which for an unassigned number show it. -/
def namesOfCode (code : Int) : Text × Text :=
  match ofCode? code with
  | some k => (k.name, k.display)
  | none =>
    let unassigned := "TOKEN(" ++ Text.ofInt code ++ ")"
    (unassigned, unassigned)

/-- Whether a token of this kind can begin an expression. -/
def startsExpr : TokenKind → Bool
  | openParen | not | minus | number | string | yes | no | identifier => true
  | _ => false

/-- Whether a token of this kind can begin a statement. -/
def startsStmt : TokenKind → Bool
  | print | vars | inspect _ => true
  | k => k.startsExpr

/-- The kind of a word: a keyword, or else an identifier. The keyword `print` may be written in
any mixture of small and capital letters. -/
def ofWord (word : Text) : TokenKind :=
  match [yes, no, vars, inspect .tree, inspect .tokens, inspect .gui, inspect .refactor].find?
      (fun k => k.spelling?.map Text.ofString == some word) with
  | some k => k
  | none => if word.map Text.lowerByte = Text.ofString "print" then print else identifier

end TokenKind

/-- A token: its kind, its source text, the content it stands for if it is a string, where it
starts and its number in the source. -/
structure Token where
  kind : TokenKind
  text : Text := []
  literal : Text := []
  pos : Position
  index : Nat
deriving DecidableEq, Repr, Inhabited

namespace Token

/-- Hidden tokens are skipped by the parser. -/
def hidden (t : Token) : Bool := t.kind.hidden

/-- The number of the token's channel. -/
def channel (t : Token) : Nat := if t.hidden then 1 else 0

/-- The offset of the token's last byte; one less than its start if the token is empty. -/
def stop (t : Token) : Int := t.pos.offset + t.text.length - 1

/-- The token's text, or a mark for the end of input. -/
def shown (t : Token) : Text := if t.kind = .eof then "<EOF>" else t.text

/-- The token's text on one line, as messages quote it. -/
def quoted (t : Token) : Text := t.shown.showControls

/-- A one-line description: number, extent, text, kind, channel if hidden, line and column. -/
def describe (t : Token) : Text :=
  "[@" ++ Text.ofNat t.index ++ "," ++ Text.ofNat t.pos.offset ++ ":" ++ Text.ofInt t.stop ++ "='"
    ++ t.quoted ++ "',<" ++ Text.ofString t.kind.name ++ ">,"
    ++ (if t.hidden then "channel=" ++ Text.ofNat t.channel ++ "," else [])
    ++ Text.ofNat t.pos.line ++ ":" ++ Text.ofNat t.pos.column ++ "]"

end Token
end Reckoner
