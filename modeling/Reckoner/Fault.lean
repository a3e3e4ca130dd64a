import Reckoner.Position
import Reckoner.Ty

/-!
# What can go wrong when a program runs

A `RuntimeError` is the fault of the program, an `Overlap` that of a list of edits, and a `Defect`
that of the interpreter itself: it says that an operation was called where it has no meaning.

Three more invariants of the interpreter have no `Defect`, because types keep them:

* every operator has a meaning, since a tree gets its operators from `BinaryOp.ofToken?` and
  `UnaryOp.ofToken?` alone;
* a checked operand is what it was checked for, since `requireNumber` and `requireBoolean` return
  the number or the truth value itself;
* no walk meets an unknown node, since a tree has only the constructors of `Expr`, `Stmt` and
  `Inspection`.
-/
namespace Reckoner

/-- The kinds of runtime error. -/
inductive ErrorKind where
  | unbound | type | unsupported
deriving DecidableEq, Repr

namespace ErrorKind

/-- All kinds, in the order in which they are numbered. -/
def all : List ErrorKind := [unbound, type, unsupported]

def name : ErrorKind → String
  | unbound => "E_UNBOUND"
  | type => "E_TYPE"
  | unsupported => "E_UNSUPPORTED"

/-- The name of a numbered kind. -/
def nameOf : Coded ErrorKind → String
  | .known k => k.name
  | .unassigned _ => "E_UNKNOWN"

end ErrorKind

/-- The operands that have to be of one fixed type. -/
inductive OperandClass where
  | numeric | boolean
deriving DecidableEq, Repr

namespace OperandClass

/-- The type that the operands have to be of. -/
def ty : OperandClass → Ty
  | numeric => .number
  | boolean => .boolean

/-- The word for it in messages. -/
def noun : OperandClass → String
  | numeric => "numeric"
  | boolean => "boolean"

end OperandClass

/-- Why a statement fails. -/
inductive RuntimeCause where
  /-- A variable is read that no statement has assigned. -/
  | unbound (name : Text)
  /-- An operand, given by its text, is of the wrong type. -/
  | operand (text : Text) (needed : OperandClass)
  /-- Values of two types have no order between them. -/
  | incomparable (left right : Ty)
  /-- Truth values have no order. -/
  | unordered (relation : Coded Relation)
  /-- A setting can only be switched on or off. -/
  | setting (name : Text)
deriving DecidableEq, Repr

namespace RuntimeCause

def kind : RuntimeCause → ErrorKind
  | unbound _ => .unbound
  | unordered _ => .unsupported
  | operand _ _ | incomparable _ _ | setting _ => .type

def message : RuntimeCause → Text
  | unbound name => name ++ " has not been assigned a value"
  | operand text needed => text ++ " is not " ++ Text.ofString needed.noun
  | incomparable left right =>
    "Cannot compare " ++ Text.ofString left.name ++ " to " ++ Text.ofString right.name
  | unordered relation =>
    "Comparison operator ('" ++ Text.ofString (Relation.symbolOf relation)
      ++ "') is not valid for BOOLEAN values"
  | setting name => name ++ " requires a BOOLEAN value"

end RuntimeCause

/-- A message with the place that it is about. -/
def Place.located (p : Place) (message : Text) : Text := p.text ++ " -- " ++ message

/-- A failure of a statement. -/
structure RuntimeError where
  place : Place
  cause : RuntimeCause
deriving DecidableEq, Repr

/-- The message with its place. -/
def RuntimeError.text (e : RuntimeError) : Text := e.place.located e.cause.message

/-- A broken invariant that the types leave room for. -/
inductive Defect where
  | orderByEquality (relation : Relation)
  | equalityByOrder (relation : Coded Relation)
  | equateUnknown
  | orderType (type : Ty)
  | notASetting (name : Text)
  | emptyStack
  | leftoverTypes (count : Nat)
deriving DecidableEq, Repr

namespace Defect

/-- What was violated. -/
def message : Defect → Text
  | orderByEquality r => "Compare called with equality operator " ++ Text.ofString r.symbol
  | equalityByOrder r =>
    "Equals called with ordering operator " ++ Text.ofString (Relation.symbolOf r)
  | equateUnknown => "CanEquateTo called on UNKNOWN type"
  | orderType t => "CanCompareTo called on " ++ Text.ofString t.name ++ " type"
  | notASetting name => name ++ " is not a command name"
  | emptyStack => "pop from empty operand stack"
  | leftoverTypes n => "type stack holds " ++ Text.ofNat n ++ " entries after validation"

/-- The message, with the hint that the user is not to blame. -/
def text (d : Defect) : Text :=
  d.message ++ " (this is an indication of an implementation error, not user error)"

end Defect

/-- Two edits of overlapping token ranges that cannot be merged, the later one first. -/
structure Overlap where
  first : Int
  last : Int
  earlierFirst : Int
  earlierLast : Int
deriving DecidableEq, Repr

/-- The ranges that overlap. -/
def Overlap.text (o : Overlap) : Text :=
  "replace of tokens " ++ Text.ofInt o.first ++ ".." ++ Text.ofInt o.last
    ++ " overlaps replace of tokens " ++ Text.ofInt o.earlierFirst ++ ".."
    ++ Text.ofInt o.earlierLast

/-- Why an operation on values or statements stops. -/
inductive Fault where
  | runtime (error : RuntimeError)
  | overlap (overlap : Overlap)
  | defect (defect : Defect)
deriving DecidableEq, Repr

/-- The message of a fault. -/
def Fault.text : Fault → Text
  | runtime e => e.text
  | overlap o => o.text
  | defect d => d.text

namespace Ty

/-- Whether values of two types may be tested for equality. -/
def equatable (a b : Coded Ty) : Except Defect Bool :=
  if a = .known .unknown then .error .equateUnknown else .ok (a = b)

/-- Whether values of two types may be ordered. -/
def orderable (a b : Coded Ty) : Except Defect Bool :=
  match a with
  | .known .unknown => .error (.orderType .unknown)
  | .known .boolean => .error (.orderType .boolean)
  | _ => .ok (a = b)

end Ty
end Reckoner
