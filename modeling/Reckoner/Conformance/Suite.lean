import Reckoner.Conformance.Case
import Reckoner.Files
import Reckoner.Yaml.Decode

/-!
# Conformance suites

The cases of a directory are those of all its `.yaml` files, at any depth, in the order of their
paths. One file that cannot be read spoils the directory.
-/
namespace Reckoner
namespace Conformance
open Yaml

/-- A named list of cases. -/
structure Suite where
  name : Text := []
  cases : List Case := []

/-- Why a directory cannot be loaded. -/
inductive LoadError where
  | noDirectory (directory : Text)
  | unreadable (directory path : Text) (error : Yaml.Error)

def LoadError.text : LoadError → Text
  | noDirectory directory =>
    "loading conformance tests from " ++ directory ++ ": lstat " ++ directory
      ++ ": no such file or directory"
  | unreadable directory path error =>
    "loading conformance tests from " ++ directory ++ ": parsing " ++ path ++ ": " ++ error.text

/-- What the value of a skip field says: only truth values and strings have a meaning. -/
def skipOf : Meaning → Skip
  | .null => .absent
  | .bool on => .flag on
  | .text t => .reason t
  | _ => .other

/-- The skip field of a case, which may hold anything. -/
def skipField : Decode.Field Case where
  name := "skip"
  read n s := do
    match ← Decode.anything (← read).depth n with
    | some meaning => return { s with skip := skipOf meaning }
    | none => return s

/-- A list of texts. -/
def textsShape : Decode.Shape (List Text) := Decode.listShape "[]string" Decode.textShape.read

/-- The fields of an expectation. -/
def expectationFields : List (Decode.Field Expectation) := [
  .of "output" Decode.optionalTextShape fun t s => { s with output := t },
  .of "errors" Decode.optionalTextShape fun t s => { s with errors := t },
  .of "contains" textsShape fun ts s => { s with contains := ts },
  .of "reports" textsShape fun ts s => { s with reports := ts },
  .of "match" Decode.textShape fun t s => { s with pattern := t },
  .of "fails" Decode.boolShape fun b s => { s with fails := b }]

/-- The fields of a case. -/
def caseFields : List (Decode.Field Case) := [
  .of "name" Decode.textShape fun t s => { s with name := t },
  .of "description" Decode.textShape fun _ s => s,
  skipField,
  .of "mode" Decode.textShape fun t s => { s with mode := t },
  .of "input" Decode.textShape fun t s => { s with input := t },
  .record "expect" "conformance.Expectation" false expectationFields Case.expect
    fun e s => { s with expect := e }]

/-- A list of cases. -/
def casesShape : Decode.Shape (List Case) :=
  Decode.listShape "[]conformance.TestCase"
    (Decode.record "conformance.TestCase" false caseFields {})

/-- The fields of a suite. -/
def suiteFields : List (Decode.Field Suite) := [
  .of "name" Decode.textShape fun t s => { s with name := t },
  .of "description" Decode.textShape fun _ s => s,
  .of "tests" casesShape fun cs s => { s with cases := cs }]

/-- Reads a suite from a text. -/
def Suite.ofText (t : Text) : Except Yaml.Error Suite :=
  Yaml.decode (Decode.record "conformance.TestSuite" false suiteFields) {} t

/-- The order of paths: component by component. -/
def pathLe (a b : Text) : Bool :=
  let as := Path.components a
  let bs := Path.components b
  as = bs || as < bs

/-- Loads the cases of a directory. -/
def load (directory : Text) (files : Files) : Except LoadError (List Located) := do
  let start := directory ++ [Path.separator]
  let inside := files.filter fun (path, _) => start.isPrefixOf path
  if inside.isEmpty && !files.any (fun (path, _) => path == directory) then
    throw (.noDirectory directory)
  let suites := (inside.filter fun (path, _) => Path.ending path = Text.ofString ".yaml").mergeSort
    fun a b => pathLe a.1 b.1
  let loaded ← suites.mapM fun (path, text) =>
    match Suite.ofText text with
    | .error e => throw (.unreadable directory path e)
    | .ok suite => return suite.cases.map fun test =>
      { file := path.drop start.length, suite := suite.name, test : Located }
  return loaded.flatten

end Conformance
end Reckoner
