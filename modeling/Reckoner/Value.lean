import Reckoner.Fault
import Reckoner.Number.Decimal

/-!
# Values

A value is a number, a string or a truth value, together with the place in the source that it
comes from. Order and equality look at the contents only; their results take the place of the
left operand.
-/
namespace Reckoner

/-- What a value holds. -/
inductive Datum where
  | number (x : Number)
  | string (s : Text)
  | boolean (b : Bool)
deriving DecidableEq, Repr

/-- A value and where it comes from. -/
structure Value where
  datum : Datum
  place : Place
deriving DecidableEq, Repr

namespace Datum

def ty : Datum → Ty
  | number _ => .number
  | string _ => .string
  | boolean _ => .boolean

/-- The written form: strings stand for themselves. -/
def text : Datum → Text
  | number x => x.text
  | string s => s
  | boolean true => "true"
  | boolean false => "false"

/-- Equality of contents; contents of different types are never equal. -/
def eq : Datum → Datum → Bool
  | number x, number y => x.eq y
  | string s, string t => s == t
  | boolean b, boolean c => b == c
  | _, _ => false

end Datum

/-- How two numbers are ordered, if they are numbers. -/
def Number.order? (x y : Number) : Option Ordering :=
  if x.lt y then some .lt else if y.lt x then some .gt else if x.eq y then some .eq else none

/-- The byte-wise lexicographic order of texts. -/
def Text.order (s t : Text) : Ordering := if s < t then .lt else if t < s then .gt else .eq

namespace Value

def ty (v : Value) : Ty := v.datum.ty

def text (v : Value) : Text := v.datum.text

/-- Applies an ordering relation. Only values of one type are ordered, and truth values are not. -/
def compare (r : Coded Relation) (a b : Value) : Except Fault Value :=
  match r with
  | .known .eq => .error (.defect (.orderByEquality .eq))
  | .known .ne => .error (.defect (.orderByEquality .ne))
  | r =>
    match a.datum, b.datum with
    | .number x, .number y =>
      .ok ⟨.boolean ((x.order? y).any (Relation.admitsOf r)), a.place⟩
    | .string s, .string t => .ok ⟨.boolean (Relation.admitsOf r (Text.order s t)), a.place⟩
    | .boolean _, .boolean _ => .error (.runtime ⟨a.place, .unordered r⟩)
    | _, _ => .error (.runtime ⟨a.place, .incomparable a.ty b.ty⟩)

/-- Applies an equality relation, between values of any types. -/
def equals (r : Coded Relation) (a b : Value) : Except Fault Value :=
  match r with
  | .known .eq => .ok ⟨.boolean (a.datum.eq b.datum), a.place⟩
  | .known .ne => .ok ⟨.boolean !(a.datum.eq b.datum), a.place⟩
  | r => .error (.defect (.equalityByOrder r))

end Value
end Reckoner
