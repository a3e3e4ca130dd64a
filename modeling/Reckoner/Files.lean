import Reckoner.Path

/-!
# Files

A file is looked up by following its path component by component from the working directory or from
the root. Hardly anything outside of the working directory is known.
-/
namespace Reckoner

/-- Why there is no text at a path. -/
inductive FileError where
  | missing
  /-- A file stands where the path needs a directory. -/
  | notDirectory
  | nameTooLong
  /-- The path leads to a directory. -/
  | isDirectory
deriving DecidableEq, Repr

namespace FileError

def message : FileError → String
  | missing => "no such file or directory"
  | notDirectory => "not a directory"
  | nameTooLong => "file name too long"
  | isDirectory => "is a directory"

/-- The message for a path. A directory can be opened, but not be read. -/
def text (path : Text) (e : FileError) : Text :=
  (if e = isDirectory then Text.ofString "read " else "open ") ++ path ++ ": "
    ++ Text.ofString e.message

end FileError

/-- Files by their paths from the working directory, which are clean. -/
abbrev Files := List (Text × Text)

namespace Files

/-- What is known to stand outside of the working directory, by its path from the root: the file that
is always empty. -/
def system : Files := [("dev/null", [])]

/-- Where a path has led so far. -/
inductive Spot where
  /-- A directory, by its components from the root or from the working directory, the last first. -/
  | directory (rooted : Bool) (components : List Text)
  /-- So many directories above the working directory. -/
  | above (levels : Nat)
  | file (text : Text)

/-- What stands at some components, the last of which comes first. -/
def spotAt (files : Files) (rooted : Bool) (components : List Text) : Except FileError Spot :=
  let path := Text.join [Path.separator] components.reverse
  match files.lookup path with
  | some text => .ok (.file text)
  | none =>
    if files.any fun (name, _) => (path ++ [Path.separator]).isPrefixOf name then
      .ok (.directory rooted components)
    else .error .missing

/-- The directory around a directory. Nothing leads out of the root. -/
def outer (rooted : Bool) : List Text → Spot
  | [] => if rooted then .directory true [] else .above 1
  | _ :: components => .directory rooted components

/-- The longest name that a component may have. -/
def maxName : Nat := 255

/-- The length that no path may reach. -/
def maxPath : Nat := 4096

/-- Follows one component of a path. -/
def follow (files : Files) (spot : Spot) (component : Text) : Except FileError Spot :=
  match spot with
  | .file _ => .error .notDirectory
  | .directory rooted components =>
    if component = [] ∨ component = Path.here then .ok spot
    else if component = Path.up then .ok (outer rooted components)
    else if maxName < component.length then .error .nameTooLong
    else spotAt (if rooted then system else files) rooted (component :: components)
  | .above levels =>
    if component = [] ∨ component = Path.here then .ok spot
    else if component = Path.up then .ok (.above (levels + 1))
    else if maxName < component.length then .error .nameTooLong
    else .error .missing

/-- The text of the file at a path. -/
def find (files : Files) (path : Text) : Except FileError Text := do
  if path = [] then throw .missing
  if maxPath ≤ path.length then throw .nameTooLong
  let rooted := path.head? == some Path.separator
  match ← (Path.components path).foldlM (follow files) (.directory rooted []) with
  | .file text => return text
  | _ => throw .isDirectory

end Files
end Reckoner
