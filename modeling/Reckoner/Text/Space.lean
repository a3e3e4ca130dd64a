import Reckoner.Text

/-!
# Unicode white space at the ends of a text

The code points with the Unicode property White_Space, recognised in their UTF-8 form at either
end of a text. Bytes that belong to no well-formed code point are not space.
-/
namespace Reckoner
namespace Text

/-- The code points that are white space. -/
def spacePoints : List Nat :=
  [0x09, 0x0a, 0x0b, 0x0c, 0x0d, 0x20, 0x85, 0xa0, 0x1680, 0x2000, 0x2001, 0x2002, 0x2003,
    0x2004, 0x2005, 0x2006, 0x2007, 0x2008, 0x2009, 0x200a, 0x2028, 0x2029, 0x202f, 0x205f, 0x3000]

/-- The UTF-8 forms of the code points that are white space. -/
def spaces : List Text := spacePoints.map fun n => String.utf8EncodeChar (Char.ofNat n)

/-- Drops one of some texts from the front again and again; none of them is empty, so that a text
can lose at most as many as it has bytes. -/
def dropWithin (parts : List Text) : Nat → Text → Text
  | 0, t => t
  | fuel + 1, t =>
    match parts.find? (·.isPrefixOf t) with
    | some part => dropWithin parts fuel (t.drop part.length)
    | none => t

/-- The text without white space at its beginning. -/
def trimSpaceStart (t : Text) : Text := dropWithin spaces t.length t

/-- The text without white space at its end. -/
def trimSpaceEnd (t : Text) : Text :=
  (dropWithin (spaces.map List.reverse) t.length t.reverse).reverse

/-- The text without white space at either end. -/
def trimSpace (t : Text) : Text := trimSpaceEnd (trimSpaceStart t)

end Text
end Reckoner
