import Reckoner.Text

/-!
# Nested scopes

A scope binds names in a stack of frames, the innermost first; the outermost is always there.
Each frame lists its names in the order in which they were first bound. Reading looks through
the frames from the innermost outwards, and binding touches the innermost one only.
-/
namespace Reckoner

/-- The bindings of one frame, in the order of the first binding of each name. -/
abbrev Frame (α : Type) := List (Text × α)

namespace Frame
variable {α : Type}

def get? (f : Frame α) (name : Text) : Option α := f.lookup name

/-- Binds a name. A name that is bound already keeps its place. -/
def set (name : Text) (a : α) : Frame α → Frame α
  | [] => [(name, a)]
  | (n, b) :: f => if n = name then (n, a) :: f else (n, b) :: set name a f

def names (f : Frame α) : List Text := f.map Prod.fst

@[simp] theorem get?_set_self (f : Frame α) (name : Text) (a : α) :
    (f.set name a).get? name = some a := by
  induction f with
  | nil => simp [set, get?]
  | cons p f ih =>
    obtain ⟨n, b⟩ := p
    by_cases h : n = name
    · simp [set, get?, h]
    · have h' : (name == n) = false := by simpa using Ne.symm h
      simpa [set, get?, h, List.lookup_cons, h'] using ih

theorem get?_set_of_ne (f : Frame α) {name other : Text} (a : α) (h : other ≠ name) :
    (f.set name a).get? other = f.get? other := by
  have hne : (other == name) = false := by simpa using h
  induction f with
  | nil => simp [set, get?, List.lookup_cons, hne]
  | cons p f ih =>
    obtain ⟨n, b⟩ := p
    by_cases hn : n = name
    · simp [set, get?, List.lookup_cons, hn, hne]
    · by_cases ho : other = n
      · subst ho
        simp [set, get?, hn]
      · have h' : (other == n) = false := by simpa using ho
        simpa [set, get?, hn, List.lookup_cons, h'] using ih

end Frame

/-- Frames around an outermost one. -/
structure Scope (α : Type) where
  /-- The frames inside the outermost one, the innermost first. -/
  inner : List (Frame α) := []
  outermost : Frame α := []
deriving DecidableEq, Repr, Inhabited

namespace Scope
variable {α : Type}

def empty : Scope α := {}

/-- All frames, from the innermost outwards. -/
def frames (s : Scope α) : List (Frame α) := s.inner ++ [s.outermost]

/-- The binding of a name in the innermost frame that has one. -/
def get? (s : Scope α) (name : Text) : Option α := s.frames.findSome? (·.get? name)

/-- Binds a name in the innermost frame. -/
def set (s : Scope α) (name : Text) (a : α) : Scope α :=
  match s.inner with
  | [] => { s with outermost := s.outermost.set name a }
  | f :: fs => { s with inner := f.set name a :: fs }

/-- Opens a frame inside all others. -/
def push (s : Scope α) : Scope α := { s with inner := [] :: s.inner }

/-- Closes the innermost frame, unless it is the outermost one. -/
def pop? (s : Scope α) : Option (Scope α) :=
  match s.inner with
  | [] => none
  | _ :: fs => some { s with inner := fs }

/-- Every visible name once, from the innermost frame outwards; a name bound in several frames
stands where the innermost of them has it. -/
def keys (s : Scope α) : List Text :=
  s.frames.foldl (fun seen f => seen ++ f.names.filter (!seen.contains ·)) []

/-- Every visible name with its binding. -/
def bindings (s : Scope α) : List (Text × α) :=
  s.keys.filterMap fun name => (s.get? name).map (name, ·)

@[simp] theorem get?_empty (name : Text) : (empty : Scope α).get? name = none := rfl

@[simp] theorem get?_set_self (s : Scope α) (name : Text) (a : α) :
    (s.set name a).get? name = some a := by
  unfold set get? frames
  cases s.inner <;> simp

@[simp] theorem pop?_push (s : Scope α) : s.push.pop? = some s := rfl

end Scope
end Reckoner
