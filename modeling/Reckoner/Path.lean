import Reckoner.Text

/-!
# File paths

Paths are cleaned without looking at any file system: empty and dot components are dropped, and a
component before two dots is cancelled by them.
-/
namespace Reckoner
namespace Path

/-- The separator of components. -/
abbrev separator : UInt8 := Text.byte '/'

/-- The path that stays where it is. -/
def here : Text := "."

/-- The component that leads upwards. -/
def up : Text := ".."

/-- Adds a component to a cleaned path, whose last component comes first. Nothing leads out of the
root of a rooted path. -/
def addComponent (rooted : Bool) (done : List Text) (component : Text) : List Text :=
  if component = [] ∨ component = here then done
  else if component = up then
    match done with
    | [] => if rooted then [] else [up]
    | last :: before => if last = up then up :: done else before
  else component :: done

/-- The shortest path that leads to the same place. -/
def clean (path : Text) : Text :=
  let rooted := path.head? == some separator
  let components := ((path.splitOn separator).foldl (addComponent rooted) []).reverse
  let joined := Text.join [separator] components
  if rooted then separator :: joined else if joined = [] then here else joined

/-- A path inside another one. -/
def append (base path : Text) : Text :=
  if base = [] then (if path = [] then [] else clean path)
  else if path = [] then clean base
  else clean (base ++ separator :: path)

/-- The components of a path. -/
def components (path : Text) : List Text := path.splitOn separator

/-- The ending of the last component from its last dot on. -/
def ending (path : Text) : Text :=
  let name := (components path).getLast?.getD []
  match name.reverse.span (· != Text.byte '.') with
  | (_, []) => []
  | (tail, dot :: _) => dot :: tail.reverse

end Path
end Reckoner
