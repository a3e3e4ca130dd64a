import Reckoner.Session

/-!
# Reading a session from a text

The lines of a text end with line feeds; a carriage return before one does not belong to the line,
and what follows the last line feed is a line if there is anything. Lines are limited in length.
-/
namespace Reckoner
namespace Session

/-- A line, with its terminator, has to fit into so many bytes. -/
def lineLimit : Nat := 65536

/-- The line without a carriage return at its end. -/
def dropReturn (t : Text) : Text := (Text.dropSuffix? [13] t).getD t

/-- The readings of lines that are given without their terminators. Reading stops at the first one
that is too long. -/
def readingsOf : List Text → List Reading
  | [] => []
  | t :: ts =>
    if lineLimit ≤ t.length then [.failed "bufio.Scanner: token too long"]
    else .line (dropReturn t) :: readingsOf ts

/-- The readings of a text. -/
def readings (t : Text) : List Reading :=
  let parts := t.splitOn Text.newline
  readingsOf (if parts.getLast? = some [] then parts.dropLast else parts)

end Session
end Reckoner
