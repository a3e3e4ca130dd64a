import Reckoner.Text.Quoted

/-!
# Patterns

A pattern is a sequence of characters, dots, and anchors for the beginning and the end of the text,
each of which may be repeated by a mark after it. A dot stands for any character but a line feed, or
for any at all if the pattern begins with `(?s)`. Bytes of a text that belong to no character count
as the replacement character.
-/
namespace Reckoner

/-- What one position of a text can be asked to be. -/
inductive Atom where
  | char (c : Char)
  | any
deriving DecidableEq, Repr

/-- A part of a pattern. -/
inductive Piece where
  | one (a : Atom)
  | optional (a : Atom)
  | many (a : Atom)
  | start
  | stop
deriving DecidableEq, Repr

structure Pattern where
  /-- Whether a dot also stands for a line feed. -/
  dotAll : Bool
  pieces : List Piece

/-- Why a text is not a pattern; the part that is to blame is given. -/
inductive PatternError where
  | unclosedGroup (pattern : Text)
  | unopenedGroup (pattern : Text)
  | nestedRepetition (marks : Text)
  | missingArgument (mark : Text)
  | trailingBackslash
  | unknownEscape (escape : Text)
  | encoding (rest : Text)
deriving DecidableEq, Repr

def PatternError.text (e : PatternError) : Text :=
  let (problem, part) : String × Text := match e with
    | unclosedGroup pattern => ("missing closing )", pattern)
    | unopenedGroup pattern => ("unexpected )", pattern)
    | nestedRepetition marks => ("invalid nested repetition operator", marks)
    | missingArgument mark => ("missing argument to repetition operator", mark)
    | trailingBackslash => ("trailing backslash at end of expression", [])
    | unknownEscape escape => ("invalid escape sequence", escape)
    | encoding rest => ("invalid UTF-8", rest)
  "error parsing regexp: " ++ Text.ofString problem ++ ": \x60" ++ part ++ "\x60"

namespace Pattern

/-- What has been read of a pattern. -/
structure Draft where
  /-- The pieces, the last first. -/
  pieces : List Piece := []
  /-- Whether the last piece can be repeated. -/
  ready : Bool := false
  /-- The repetition mark just read. -/
  mark : Text := []
  /-- Whether a parenthesis is open. -/
  grouped : Bool := false

/-- Goes on with a piece that can be repeated. -/
def Draft.add (d : Draft) (p : Piece) : Draft :=
  { d with pieces := p :: d.pieces, ready := true, mark := [] }

/-- Repeats the last of some pieces by a mark. An anchor holds once or not at all. -/
def repeatLast (mark : Char) : List Piece → List Piece
  | .one a :: ps =>
    if mark = '*' then .many a :: ps
    else if mark = '+' then .many a :: .one a :: ps
    else .optional a :: ps
  | p :: ps => if mark = '+' then p :: ps else ps
  | [] => []

/-- The escapes that stand for a control character. -/
def controls : List (Char × Char) :=
  [('a', '\x07'), ('f', '\x0c'), ('n', '\n'), ('r', '\r'), ('t', '\t'), ('v', '\x0b')]

/-- What an escaped character stands for: itself, unless it is a letter, a digit or not ASCII. -/
def escaped? (c : Char) : Option Char :=
  (controls.lookup c).orElse fun _ => if c.toNat < 0x80 && !c.isAlphanum then some c else none

/-- Reads the rest of a pattern, given its characters. A question mark right after another
repetition mark belongs to it. -/
def read (whole : Text) (d : Draft) : List (Option Char × Text) → Except PatternError (List Piece)
  | [] => if d.grouped then .error (.unclosedGroup whole) else .ok d.pieces.reverse
  | (none, bytes) :: rest => .error (.encoding (bytes ++ rest.flatMap Prod.snd))
  | (some '\\', _) :: [] => .error .trailingBackslash
  | (some '\\', _) :: (none, bytes) :: rest => .error (.encoding (bytes ++ rest.flatMap Prod.snd))
  | (some '\\', _) :: (some c, bytes) :: rest =>
    match escaped? c with
    | some c => read whole (d.add (.one (.char c))) rest
    | none => .error (.unknownEscape ("\\" ++ bytes))
  | (some c, bytes) :: rest =>
    if c = '*' ∨ c = '+' ∨ c = '?' then
      if c = '?' ∧ d.mark.length = 1 then read whole { d with mark := d.mark ++ bytes } rest
      else
        let mark := if rest.head?.map Prod.fst = some (some '?') then bytes ++ "?" else bytes
        if d.mark ≠ [] then .error (.nestedRepetition (d.mark ++ mark))
        else if !d.ready then .error (.missingArgument mark)
        else read whole { d with pieces := repeatLast c d.pieces, mark := bytes } rest
    else if c = '(' then read whole { d with ready := false, mark := [], grouped := true } rest
    else if c = ')' then .error (.unopenedGroup whole)
    else if c = '^' then read whole (d.add .start) rest
    else if c = '$' then read whole (d.add .stop) rest
    else read whole (d.add (.one (if c = '.' then .any else .char c))) rest

/-- Reads a pattern. -/
def ofText (t : Text) : Except PatternError Pattern := do
  let flag := Text.ofString "(?s)"
  let dotAll := flag.isPrefixOf t
  let body : Text := if dotAll then t.drop flag.length else t
  return { dotAll, pieces := ← read t {} body.runes }

/-- Whether an atom stands for a character. -/
def fits (dotAll : Bool) (a : Atom) (c : Char) : Bool :=
  match a with
  | .char d => c == d
  | .any => dotAll || c != '\n'

/-- The rests of some pieces that are left when all that needs no character has been passed, at the
beginning of a text, at its end, or in between. -/
def reach (atStart atEnd : Bool) : List Piece → List (List Piece)
  | [] => [[]]
  | .start :: ps => if atStart then reach atStart atEnd ps else []
  | .stop :: ps => if atEnd then reach atStart atEnd ps else []
  | .one a :: ps => [.one a :: ps]
  | .optional a :: ps => (.optional a :: ps) :: reach atStart atEnd ps
  | .many a :: ps => (.many a :: ps) :: reach atStart atEnd ps

/-- What is left of some pieces after a character, if the first of them stands for it. -/
def after? (dotAll : Bool) (c : Char) : List Piece → Option (List Piece)
  | .one a :: ps | .optional a :: ps => if fits dotAll a c then some ps else none
  | .many a :: ps => if fits dotAll a c then some (.many a :: ps) else none
  | _ => none

/-- Whether a text begins with what one of some rests of a pattern stands for, or has a part that
the whole pattern stands for. Rests of one pattern are told apart by their lengths. -/
def search (p : Pattern) (atStart : Bool) (rests : List (List Piece)) (cs : List Char) : Bool :=
  let rests := ((p.pieces :: rests).flatMap (reach atStart cs.isEmpty)).eraseDupsBy
    fun a b => a.length == b.length
  rests.any List.isEmpty ||
    match cs with
    | [] => false
    | c :: cs => search p false (rests.filterMap (after? p.dotAll c)) cs

/-- Whether a text has a part that a pattern stands for. -/
def occursIn (p : Pattern) (t : Text) : Bool :=
  search p true [] (t.runes.map fun rune => rune.1.getD '\ufffd')

end Pattern
end Reckoner
