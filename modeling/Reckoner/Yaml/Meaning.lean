import Reckoner.Number.Decimal
import Reckoner.Text.Base64
import Reckoner.Text.Quoted
import Reckoner.Yaml.Timestamp

/-!
# What nodes mean

A tag says what a node is to be taken for. A plain scalar without one means a truth value, a number,
a timestamp or nothing at all if it is spelled like one, and is a string otherwise.
-/
namespace Reckoner
namespace Yaml

/-- What a node is taken for. -/
inductive Tag where
  | null | bool | int | float | str | timestamp | merge | binary | seq | map
  /-- A tag that has no meaning here. -/
  | other (name : Text)
deriving DecidableEq, Repr

namespace Tag

/-- The tags that have a meaning, by their short names. -/
def known : List (String × Tag) :=
  [("!!null", null), ("!!bool", bool), ("!!int", int), ("!!float", float), ("!!str", str),
    ("!!timestamp", timestamp), ("!!merge", merge), ("!!binary", binary), ("!!seq", seq),
    ("!!map", map)]

/-- What the short names of those tags stand for. -/
def familyName : Text := "tag:yaml.org,2002:"

/-- The tag of a name, in its short or its long form. -/
def ofName (name : Text) : Tag :=
  let short := if familyName.isPrefixOf name then "!!" ++ name.drop familyName.length else name
  match known.find? fun (known, _) => Text.ofString known == short with
  | some (_, tag) => tag
  | none => other short

/-- The short name of a tag. -/
def name : Tag → Text
  | other name => name
  | tag =>
    match known.find? fun (_, known) => known == tag with
    | some (name, _) => name
    | none => []

end Tag

/-- What a node without a type to fit means. -/
inductive Meaning where
  | null
  | bool (b : Bool)
  | int (n : Int)
  | float (x : Number)
  | timestamp (t : Text)
  | text (t : Text)
  | list (items : List Meaning)
  /-- A table, and whether all its keys are strings. -/
  | table (named : Bool) (entries : List (Meaning × Meaning))
deriving Inhabited

/-! ## Spellings -/

/-- The spellings of the truth values. -/
def truth? (t : Text) : Option Bool :=
  if (["true", "True", "TRUE"].map Text.ofString).contains t then some true
  else if (["false", "False", "FALSE"].map Text.ofString).contains t then some false
  else none

/-- The spellings of nothing. -/
def isNull (t : Text) : Bool := (["", "~", "null", "Null", "NULL"].map Text.ofString).contains t

/-- The spellings of infinities and of what is not a number. -/
def specialFloat? (t : Text) : Option Number :=
  if ([".nan", ".NaN", ".NAN"].map Text.ofString).contains t then some Number.nan
  else if ([".inf", ".Inf", ".INF", "+.inf", "+.Inf", "+.INF"].map Text.ofString).contains t then
    some (Number.infinity false)
  else if (["-.inf", "-.Inf", "-.INF"].map Text.ofString).contains t then
    some (Number.infinity true)
  else none

/-- Whether a text has a minus sign in front, and the text without its sign. -/
def splitSign (t : Text) : Bool × Text :=
  match t with
  | b :: bs =>
    if b = Text.byte '-' then (true, bs) else if b = Text.byte '+' then (false, bs) else (false, t)
  | [] => (false, [])

/-- The value of digits of a base, if there are some and nothing else. -/
def digits? (base : Nat) (t : Text) : Option Nat :=
  if t.isEmpty then none
  else t.foldl (fun acc b => do
    let n ← acc
    let c := Text.lowerByte b
    let d := if Text.isDigit c then c.toNat - 48 else if 97 ≤ c ∧ c ≤ 102 then c.toNat - 87 else 16
    if d < base then some (n * base + d) else none) (some 0)

/-- The value of an unsigned integer: in decimal, in another base after a mark for it, or in octal
after a zero. -/
def natural? (t : Text) : Option Nat :=
  match t with
  | z :: m :: ds =>
    if z ≠ Text.byte '0' then digits? 10 t
    else
      let mark := Text.lowerByte m
      if mark = Text.byte 'x' then digits? 16 ds
      else if mark = Text.byte 'o' then digits? 8 ds
      else if mark = Text.byte 'b' then digits? 2 ds
      else digits? 8 (m :: ds)
  | _ => digits? 10 t

/-- An integer from its sign and its absolute value, if it is one of 64 bits: below zero down to
`-2 ^ 63`, and without a sign also up to `2 ^ 64 - 1`. -/
def word? (signed negative : Bool) (n : Nat) : Option Int :=
  if negative then (if n ≤ Number.signUnit then some (-n) else none)
  else if n < Number.signUnit ∨ (!signed ∧ n < 2 * Number.signUnit) then some n
  else none

/-- The value of an integer; a sign may also follow the mark of a base. -/
def integer? (t : Text) : Option Int := do
  let (negative, rest) := splitSign t
  match natural? rest with
  | some n => word? (rest != t) negative n
  | none =>
    let base ← if (Text.ofString "0b").isPrefixOf t then some 2
      else if (Text.ofString "0o").isPrefixOf t then some 8 else none
    let digits := t.drop 2
    let (negative, rest) := splitSign digits
    if rest = digits then none else word? true negative (← digits? base rest)

/-- The number nearest to a decimal, unless it is too large for any. -/
def finite? (negative : Bool) (d : Decimal) : Option Number :=
  let places := d.exponent + (Text.ofNat d.digits).length
  if d.digits = 0 ∨ places < -400 then some (Number.ofMagnitude negative 0)
  else if 400 < places then none
  else
    let x := Number.ofMagnitude negative d.magnitude
    if x.isInfinite then none else some x

/-- The value of a decimal with a point or an exponent or both. -/
def decimal? (t : Text) : Option Number := do
  let (negative, plain) := splitSign t
  let whole := plain.takeWhile Text.isDigit
  let afterWhole := plain.dropWhile Text.isDigit
  let (fraction, rest) := match afterWhole with
    | b :: bs =>
      if b = Text.byte '.' then (bs.takeWhile Text.isDigit, bs.dropWhile Text.isDigit)
      else ([], afterWhole)
    | [] => ([], [])
  if whole.isEmpty && fraction.isEmpty then none
  let exponent : Int ← match rest with
    | [] => some 0
    | b :: bs =>
      if Text.lowerByte b ≠ Text.byte 'e' then none
      else
        let (below, digits) := splitSign bs
        (digits? 10 digits).map fun n => if below then -(n : Int) else n
  finite? negative ⟨Number.digitsValue (whole ++ fraction), exponent - fraction.length⟩

/-- Whether every underscore stands between digits; the byte before the text is given. -/
def separates (before : UInt8) : Text → Bool
  | [] => true
  | b :: bs =>
    (b != Text.byte '_' || (Text.isDigit before && Text.isDigit (bs.headD 0))) && separates b bs

/-- What a plain scalar means, and whether a timestamp counts as one. -/
def plainMeaning (dates : Bool) (t : Text) : Tag × Meaning :=
  let joined := t.filter (· != Text.byte '_')
  let first := t.headD 0
  if isNull t then (.null, .null)
  else
    match truth? t, specialFloat? t with
    | some b, _ => (.bool, .bool b)
    | none, some x => (.float, .float x)
    | none, none =>
      if first = Text.byte '.' then
        match if separates 0 t then decimal? joined else none with
        | some x => (.float, .float x)
        | none => (.str, .text t)
      else if Text.isDigit first ∨ first = Text.byte '+' ∨ first = Text.byte '-' then
        if dates && Timestamp.isValid t then (.timestamp, .timestamp t)
        else
          match integer? joined, decimal? joined with
          | some n, _ => (.int, .int n)
          | none, some x => (.float, .float x)
          | none, none => (.str, .text t)
      else (.str, .text t)

/-! ## Shown values -/

namespace Meaning

mutual

/-- A value with its type, as it is shown when it cannot be a key. -/
def shown : Meaning → Text
  | null => "interface \x7b\x7d(nil)"
  | bool b => if b then "true" else "false"
  | int n => if n < Number.signUnit then Text.ofInt n else "0x" ++ Text.ofHex 0 n.toNat
  | float x => x.text
  | timestamp t => t
  | text t => t.quote
  | list items => "[]interface \x7b\x7d\x7b" ++ Text.join ", " (shownItems items) ++ "\x7d"
  | table named entries =>
    (if named then Text.ofString "map[string]" else "map[interface \x7b\x7d]")
      ++ "interface \x7b\x7d\x7b"
      ++ Text.join ", " ((shownEntries entries).mergeSort fun s t => decide (s ≤ t))
      ++ "\x7d"

/-- The items of a list, each as it is shown. -/
def shownItems : List Meaning → List Text
  | [] => []
  | item :: items => shown item :: shownItems items

/-- The entries of a table, each as it is shown. -/
def shownEntries : List (Meaning × Meaning) → List Text
  | [] => []
  | (key, value) :: entries => (shown key ++ ":" ++ shown value) :: shownEntries entries

end

/-- The type of a value that cannot be looked up. -/
def unhashable? : Meaning → Option String
  | list _ => some "[]interface \x7b\x7d"
  | table named _ => some (if named then "map[string]interface \x7b\x7d"
      else "map[interface \x7b\x7d]interface \x7b\x7d")
  | _ => none

/-- Whether two keys are the same. Lists and tables are no keys. -/
def sameKey : Meaning → Meaning → Bool
  | null, null => true
  | bool a, bool b => a == b
  | int a, int b => a == b
  | float a, float b => a.eq b
  | timestamp a, timestamp b => a == b
  | text a, text b => a == b
  | _, _ => false

end Meaning
end Yaml
end Reckoner
