import Reckoner.Text

/-!
# Numbered alternatives

Some alternatives are numbered for exchange with the outside. A number that belongs to none of
them is still a legal operand of the operations that take one.
-/
namespace Reckoner

/-- An alternative given by its number, which may be unassigned. -/
inductive Coded (α : Type) where
  | known (a : α)
  | unassigned (code : Int)
deriving DecidableEq, Repr

namespace Coded

instance {α : Type} : Coe α (Coded α) := ⟨known⟩

/-- The alternative with a given number, counting from zero. -/
def ofCode {α : Type} (all : List α) : Int → Coded α
  | .ofNat n =>
    match all[n]? with
    | some a => known a
    | none => unassigned n
  | .negSucc n => unassigned (.negSucc n)

end Coded
end Reckoner
