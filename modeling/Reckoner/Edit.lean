import Reckoner.Fault
import Reckoner.Scope
import Reckoner.Stmt

/-!
# Editing token ranges

Edits are recorded against the numbers of the tokens as they were read, and only resolved when the
text is rendered, so that no edit has to know of the others. `Edit.reduce` brings a list of edits
down to at most one for each token number, and `Edit.render` writes the tokens with these applied.
-/
namespace Reckoner

/-- The replacement of a range of tokens by a text. -/
structure Replacement where
  first : Int
  last : Int
  text : Text := []
  /-- Whether the range is only to be removed. Overlapping removals can be merged. -/
  removal : Bool := false
deriving DecidableEq, Repr

/-- An edit of a token list. -/
inductive Edit where
  /-- Inserts a text before a token. -/
  | insert (index : Int) (text : Text)
  | replace (r : Replacement)
deriving DecidableEq, Repr

namespace Edit

/-- Inserts a text after a token. -/
def insertAfter (index : Int) (text : Text) : Edit := insert (index + 1) text

/-- Removes a range of tokens. -/
def remove (first last : Int) : Edit := replace { first, last, removal := true }

/-- The token number that an edit is filed under. -/
def index : Edit → Int
  | insert i _ => i
  | replace r => r.first

/-- Resolves a replacement against the edits before it: an insertion at its first token is put in
front of its text, and insertions and replacements inside its range are dropped. A removal
grows by the removals it overlaps; any other overlap is an error. The edits that remain are
returned with the replacement. -/
def absorb (r : Replacement) : List Edit → Except Overlap (List Edit × Replacement)
  | [] => .ok ([], r)
  | insert i text :: edits =>
    if i = r.first then absorb { r with text := text ++ r.text, removal := false } edits
    else if r.first < i ∧ i ≤ r.last then absorb r edits
    else do
      let (kept, r) ← absorb r edits
      return (insert i text :: kept, r)
  | replace e :: edits =>
    if r.first ≤ e.first ∧ e.last ≤ r.last then absorb r edits
    else if e.last < r.first ∨ r.last < e.first then do
      let (kept, r) ← absorb r edits
      return (replace e :: kept, r)
    else if e.removal ∧ r.removal then
      absorb { r with first := min r.first e.first, last := max r.last e.last } edits
    else .error ⟨r.first, r.last, e.first, e.last⟩

/-- Resolves all replacements against the edits before them. -/
def reduceReplacements : List Edit → List Edit → Except Overlap (List Edit)
  | done, [] => .ok done
  | done, insert i text :: edits => reduceReplacements (done ++ [insert i text]) edits
  | done, replace r :: edits => do
    let (kept, r) ← absorb r done
    reduceReplacements (kept ++ [replace r]) edits

/-- Resolves an insertion against the edits before it: earlier insertions at the same token follow
its text, a replacement that begins there takes it in, and one that covers the token drops it. -/
def settle (i : Int) (text : Text) : List Edit → List Edit
  | [] => [insert i text]
  | insert j earlier :: edits =>
    if j = i then settle i (text ++ earlier) edits
    else insert j earlier :: settle i text edits
  | replace r :: edits =>
    if i = r.first then replace { r with text := text ++ r.text, removal := false } :: edits
    else if r.first < i ∧ i ≤ r.last then replace r :: edits
    else replace r :: settle i text edits

/-- Resolves all insertions against the edits before them. -/
def reduceInsertions : List Edit → List Edit → List Edit
  | done, [] => done
  | done, insert i text :: edits => reduceInsertions (settle i text done) edits
  | done, replace r :: edits => reduceInsertions (done ++ [replace r]) edits

/-- Resolves a list of edits to at most one for each token number. -/
def reduce (edits : List Edit) : Except Overlap (List Edit) := do
  return reduceInsertions [] (← reduceReplacements [] edits)

/-- The edit filed under a token number. -/
def find? (edits : List Edit) (i : Int) : Option Edit :=
  edits.reverse.find? fun e => e.index == i

/-- The text of the token with a given number; there is none past the last token. -/
def tokenText (tokens : List Token) : Int → Text
  | .ofNat i => (tokens[i]?.map Token.text).getD []
  | .negSucc _ => []

/-- Writes the tokens from number `i` to `last` with resolved edits applied, at most `fuel` of
them. -/
def renderFrom (tokens : List Token) (edits : List Edit) (last : Int) : Nat → Int → Text
  | 0, _ => []
  | fuel + 1, i =>
    if last < i then []
    else
      match find? edits i with
      | none => tokenText tokens i ++ renderFrom tokens edits last fuel (i + 1)
      | some (insert _ text) =>
        text ++ tokenText tokens i ++ renderFrom tokens edits last fuel (i + 1)
      | some (replace r) =>
        r.text ++ renderFrom tokens edits last fuel (max (i + 1) (r.last + 1))

/-- The text of the tokens numbered `first` to `last` with edits applied. -/
def render (tokens : List Token) (edits : List Edit) (first last : Int) : Except Overlap Text := do
  return renderFrom tokens (← reduce edits) last (last + 1 - first).toNat first

end Edit

/-- Edits of a source, recorded under several names that do not affect each other. -/
structure EditBook where
  tokens : List Token
  lists : Frame (List Edit) := []

namespace EditBook

/-- The edits recorded under a name. -/
def edits (b : EditBook) (name : Text) : List Edit := (b.lists.get? name).getD []

/-- Records an edit under a name. -/
def record (b : EditBook) (name : Text) (e : Edit) : EditBook :=
  { b with lists := b.lists.set name (b.edits name ++ [e]) }

/-- The text of some tokens with the edits of a name applied. -/
def text (b : EditBook) (name : Text) (first last : Int) : Except Overlap Text :=
  Edit.render b.tokens (b.edits name) first last

end EditBook
end Reckoner
