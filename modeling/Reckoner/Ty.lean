import Reckoner.Coded

/-!
# Types and relations

The static types of expressions and the relations that compare values.
-/
namespace Reckoner

/-- The type of an expression; `unknown` is the type of a name that was never assigned, and exists
only while a program is checked. -/
inductive Ty where
  | number | string | boolean | unknown
deriving DecidableEq, Repr, Inhabited

/-- The comparison operators. -/
inductive Relation where
  | lt | le | gt | ge | eq | ne
deriving DecidableEq, Repr, Inhabited

namespace Ty

/-- All types, in the order in which they are numbered. -/
def all : List Ty := [number, string, boolean, unknown]

def name : Ty → String
  | number => "NUMBER"
  | string => "STRING"
  | boolean => "BOOLEAN"
  | unknown => "UNKNOWN"

/-- The name of a numbered type; an unassigned number is an unknown type. -/
def nameOf : Coded Ty → String
  | .known t => t.name
  | .unassigned _ => unknown.name

end Ty

namespace Relation

/-- All relations, in the order in which they are numbered. -/
def all : List Relation := [lt, le, gt, ge, eq, ne]

/-- The operator as it is written. -/
def symbol : Relation → String
  | lt => "<"
  | le => "<="
  | gt => ">"
  | ge => ">="
  | eq => "=="
  | ne => "!="

/-- Whether the relation tests equality rather than order. -/
def isEquality : Relation → Bool
  | eq | ne => true
  | lt | le | gt | ge => false

/-- Whether an ordering relation holds between two things that are ordered in a given way. -/
def admits : Relation → Ordering → Bool
  | lt, o => o == .lt
  | le, o => o != .gt
  | gt, o => o == .gt
  | ge, o => o != .lt
  | eq, _ | ne, _ => false

/-- The symbol of a numbered relation. -/
def symbolOf : Coded Relation → String
  | .known r => r.symbol
  | .unassigned _ => "?"

/-- Whether a numbered relation tests equality. -/
def isEqualityOf : Coded Relation → Bool
  | .known r => r.isEquality
  | .unassigned _ => false

/-- Whether a numbered relation holds; an unassigned one never does. -/
def admitsOf : Coded Relation → Ordering → Bool
  | .known r, o => r.admits o
  | .unassigned _, _ => false

end Relation
end Reckoner
