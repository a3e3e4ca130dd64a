import Reckoner.Text

/-!
# Places in a source

A `Position` locates a byte of a source by line, column and offset. A `Place` is what values
and diagnostics remember of it: the line and the column.
-/
namespace Reckoner

/-- Where a value or a node comes from: in a source the line counts from 1 and the column from 0,
but a place may also be made up. -/
structure Place where
  line : Int := 1
  column : Int := 0
deriving DecidableEq, Repr, Inhabited

/-- Diagnostics show columns counted from 1, as integers of 64 bits. -/
def Place.text (p : Place) : Text :=
  "line:" ++ Text.ofInt p.line ++ " col:" ++ Text.ofInt ((p.column + 1).bmod 0x10000000000000000)

/-- Where a byte stands in its source: the line counts from 1, column and offset from 0. -/
structure Position where
  line : Nat := 1
  column : Nat := 0
  offset : Nat := 0
deriving DecidableEq, Repr, Inhabited

namespace Position

/-- Forgets the offset. -/
def place (p : Position) : Place := ⟨p.line, p.column⟩

/-- The position after one byte: a line feed starts a line. -/
def step (p : Position) (b : UInt8) : Position :=
  if b = Text.newline then ⟨p.line + 1, 0, p.offset + 1⟩
  else ⟨p.line, p.column + 1, p.offset + 1⟩

/-- The position after a whole text. -/
def advance (p : Position) (t : Text) : Position := t.foldl step p

@[simp] theorem advance_nil (p : Position) : p.advance [] = p := rfl

@[simp] theorem advance_cons (p : Position) (b : UInt8) (t : Text) :
    p.advance (b :: t) = (p.step b).advance t := rfl

theorem advance_append (p : Position) (s t : Text) :
    p.advance (s ++ t) = (p.advance s).advance t := by
  simp [advance, List.foldl_append]

@[simp] theorem offset_step (p : Position) (b : UInt8) : (p.step b).offset = p.offset + 1 := by
  unfold step; split <;> rfl

@[simp] theorem offset_advance (p : Position) (t : Text) :
    (p.advance t).offset = p.offset + t.length := by
  induction t generalizing p with
  | nil => rfl
  | cons b t ih => simp [ih]; omega

end Position
end Reckoner
