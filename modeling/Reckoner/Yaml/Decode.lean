import Reckoner.Yaml.Node.Parser

/-!
# Records from documents

A record is filled field by field from a mapping. What does not fit is collected, so that all
mistakes of a document are reported together; nothing leaves a field as it was. A mapping may merge
others into itself, whose entries count where it has none of its own.
-/
namespace Reckoner
namespace Yaml

/-! ## Errors -/

/-- Why a document does not fit a record. -/
inductive Mismatch where
  /-- A node is not of the type that a place asks for. -/
  | type (line : Nat) (tag : Tag) (value : Text) (target : String)
  | unknownField (line : Nat) (name : Text) (target : String)
  | repeatedField (line : Nat) (name : Text) (target : String)
  | duplicateKey (line : Nat) (key : Text) (first : Nat)

/-- The start of a long value. -/
def abridged (value : Text) : Text := if 10 < value.length then value.take 7 ++ "..." else value

def Mismatch.text : Mismatch → Text
  | type line tag value target =>
    let shown : Text := if tag = .seq ∨ tag = .map then value
      else " \x60" ++ abridged value ++ "\x60"
    "line " ++ Text.ofNat line ++ ": cannot unmarshal " ++ tag.name ++ shown ++ " into "
      ++ Text.ofString target
  | unknownField line name target =>
    "line " ++ Text.ofNat line ++ ": field " ++ name ++ " not found in type "
      ++ Text.ofString target
  | repeatedField line name target =>
    "line " ++ Text.ofNat line ++ ": field " ++ name ++ " already set in type "
      ++ Text.ofString target
  | duplicateKey line key first =>
    "line " ++ Text.ofNat line ++ ": mapping key " ++ key.quote ++ " already defined at line "
      ++ Text.ofNat first

/-- Why no record could be read. -/
inductive Error where
  /-- The text could not be read at all. -/
  | input (message : Text)
  | malformed (m : Malformed)
  | mismatches (ms : List Mismatch)
  /-- A scalar does not mean what its tag says. -/
  | wrongTag (found : Tag) (value : Text) (tag : Tag)
  | badBase64
  | mergeOfScalar
  | selfReference (name : Text)
  | tooManyAliases
  | badKey (key : Meaning)
  /-- A key of a given type cannot be compared with those of a merged mapping. -/
  | unhashable (type : String)

def Error.text : Error → Text
  | input message => "yaml: input error: " ++ message
  | malformed m => "yaml: " ++ m.text
  | mismatches ms => "yaml: unmarshal errors:" ++ ms.flatMap fun m => Text.ofString "\n  " ++ m.text
  | wrongTag found value tag =>
    "yaml: cannot decode " ++ found.name ++ " \x60" ++ value ++ "\x60 as a " ++ tag.name
  | badBase64 => "yaml: !!binary value contains invalid base64 data"
  | mergeOfScalar => "yaml: map merge requires map or sequence of maps as the value"
  | selfReference name => "yaml: anchor '" ++ name ++ "' value contains itself"
  | tooManyAliases => "yaml: document contains excessive aliasing"
  | badKey key => "yaml: invalid map key: " ++ key.shown
  | unhashable type => "yaml: runtime error: hash of unhashable type " ++ Text.ofString type

/-! ## Decoders -/

/-- What a decoder remembers. -/
structure Progress where
  mismatches : List Mismatch := []
  /-- How many nodes have been visited, with the document itself, and how many of them from within
  an alias. -/
  visited : Nat := 1
  repeated : Nat := 0
  /-- The aliases that are being visited. -/
  active : List Nat := []
  /-- The keys that a merged mapping does not set, while one is merged. -/
  settled : Option (List Meaning) := none

/-- A decoder of the nodes of a document. -/
abbrev Decode := ReaderT Document (StateT Progress (Except Error))

namespace Decode

def report (m : Mismatch) : Decode Unit := modify fun p =>
  { p with mismatches := p.mismatches ++ [m] }

/-- Whether too many of the nodes visited are repetitions: more than 99 in 100 of a small document,
and fewer of a large one. -/
def isExcessive (visited repeated : Nat) : Bool :=
  let beyond := min (visited - 400000) 3600000
  100 < repeated && 1000 < visited && visited * (356400000 - 89 * beyond) < repeated * 360000000

/-- Counts a visit to a node. -/
def count : Decode Unit := do
  let p ← get
  let p := { p with
    visited := p.visited + 1
    repeated := if p.active.isEmpty then p.repeated else p.repeated + 1 }
  if isExcessive p.visited p.repeated then throw .tooManyAliases
  set p

/-- Visits a node, or the node that an alias stands for, which must not contain the alias. -/
def visit {α : Type} (body : Node → Decode α) (n : Node) : Decode α := do
  count
  match n with
  | .reference _ name anchor number =>
    if (← get).active.contains number then throw (.selfReference name)
    modify fun p => { p with active := number :: p.active }
    count
    let a ← body ((← read).target anchor)
    modify fun p => { p with active := p.active.filter (· != number) }
    return a
  | n => body n

/-- What a scalar means. A tag that has no meaning here leaves the text as it is. -/
def scalarMeaning (tag : Tag) (value : Text) : Except Error Meaning :=
  match tag with
  | .str | .merge | .seq | .map | .other _ => .ok (.text value)
  | .binary =>
    match Text.ofBase64? value with
    | some bytes => .ok (.text bytes)
    | none => .error .badBase64
  | .null | .bool | .int | .float | .timestamp =>
    match plainMeaning (tag == .timestamp) value with
    | (.int, .int n) =>
      if tag = .int then .ok (.int n)
      else if tag = .float ∧ n < Number.signUnit then
        .ok (.float (Number.ofMagnitude (decide (n < 0)) (Number.magnitudeOfRatio n.natAbs 1)))
      else .error (.wrongTag .int value tag)
    | (found, meaning) => if found = tag then .ok meaning else .error (.wrongTag found value tag)

/-- The keys of a mapping that were defined before, each with every earlier definition. -/
def duplicates : List Node → List Mismatch
  | [] => []
  | k :: ks =>
    (ks.filter k.sameKey).map (fun k' => .duplicateKey k'.line k'.value k.line) ++ duplicates ks

/-- Which nodes fit a type. A node that fits may still leave things as they were, which gives no
value. -/
structure Shape (α : Type) where
  /-- The name of the type. -/
  target : String
  /-- The name of the type for a node that is said to be nothing. -/
  targetOfNull : String := target
  /-- What a scalar, given by its text and its meaning, is read as, if it fits. -/
  scalar : Text → Meaning → Option (Option α)
  sequence : Option (List Node → Decode (Option α)) := none
  mapping : Option (List (Node × Node) → Decode (Option α)) := none

/-- Reads a node of a type, if it fits and says anything. A mapping with a key defined twice is not
read at all. -/
def Shape.read {α : Type} (shape : Shape α) : Node → Decode (Option α) :=
  let mismatch (line : Nat) (tag : Tag) (value : Text) : Decode (Option α) := do
    report (.type line tag value (if tag = .null then shape.targetOfNull else shape.target))
    return none
  visit fun n =>
    match n with
    | .scalar line tag value => do
      match shape.scalar value (← scalarMeaning tag value) with
      | some a => return a
      | none => mismatch line tag value
    | .sequence line tag items =>
      match shape.sequence with
      | some f => f items
      | none => mismatch line tag []
    | .mapping line tag entries => do
      let repeated := duplicates (entries.map Prod.fst)
      if repeated.isEmpty then
        match shape.mapping with
        | some f => f entries
        | none => mismatch line tag []
      else
        repeated.forM report
        return none
    | .reference _ _ _ _ => return none

/-- A text; numbers and truth values fit by their spelling. -/
def textShape : Shape Text where
  target := "string"
  scalar value
    | .null => some none
    | .text t => some (some t)
    | _ => some (some value)

/-- The words that are truth values where one is asked for. -/
def truthWord? (t : Text) : Option Bool :=
  if (["y", "Y", "yes", "Yes", "YES", "on", "On", "ON"].map Text.ofString).contains t then some true
  else if (["n", "N", "no", "No", "NO", "off", "Off", "OFF"].map Text.ofString).contains t then
    some false
  else none

/-- A truth value, which may also be spelled by a word. -/
def boolShape : Shape Bool where
  target := "bool"
  scalar
    | _, .null => some none
    | _, .bool b => some (some b)
    | _, .text t => (truthWord? t).map some
    | _, _ => none

/-- A text or nothing. -/
def optionalTextShape : Shape (Option Text) where
  target := "string"
  targetOfNull := "*string"
  scalar value
    | .null => some (some none)
    | .text t => some (some (some t))
    | _ => some (some (some value))

/-- A list, whose items are read by themselves; items that say nothing are left out. -/
def listShape {α : Type} (target : String) (item : Node → Decode (Option α)) : Shape (List α) where
  target
  scalar
    | _, .null => some (some [])
    | _, _ => none
  sequence := some fun items => do
    let read ← items.mapM item
    return some (read.filterMap id)

/-! ## Merging -/

/-- Whether a key is settled, if a mapping is being merged; from now on it is. -/
def settle (key : Meaning) : StateT (Option (List Meaning)) Decode Bool := do
  match ← get with
  | none => return false
  | some keys =>
    if let some type := key.unhashable? then throw (.unhashable type)
    if keys.any key.sameKey then return true
    set (some (key :: keys))
    return false

/-- The node that is merged into a mapping: the last one, if there are several. -/
def mergedNode? (entries : List (Node × Node)) : Option Node :=
  (entries.filter (·.1.isMerge)).getLast?.map Prod.snd

/-- Reads the entries of a mapping that are its own one after another, as the state of a value. Within
them nothing is being merged. -/
def ownEntries {σ : Type} (entry : Node → Node → σ → StateT (Option (List Meaning)) Decode σ)
    (entries : List (Node × Node)) (s : σ) : Decode σ := do
  let settled := (← get).settled
  modify fun p => { p with settled := none }
  let own := entries.filter (!·.1.isMerge)
  let (s, settled) ← (own.foldlM (fun s (key, value) => entry key value s) s).run settled
  modify fun p => { p with settled }
  return s

/-- Reads a node that is merged into a mapping, given how a mapping, or an alias of one, is read. -/
def mergeNode {σ : Type} (fill : Node → σ → Decode σ) (n : Node) (s : σ) : Decode σ := do
  let isMapping (n : Node) : Decode Bool := do
    match n with
    | .mapping _ _ _ => return true
    | .reference _ _ anchor _ =>
      match (← read).target anchor with
      | .mapping _ _ _ => return true
      | _ => return false
    | _ => return false
  let one (s : σ) (n : Node) : Decode σ := do
    if !(← isMapping n) then throw .mergeOfScalar
    fill n s
  match n with
  | .sequence _ _ items => items.foldlM one s
  | n => one s n

/-- Merges a node into a mapping with given keys, which are settled. -/
def merge {σ : Type} (key : Node → Decode (Option Meaning)) (fill : Node → σ → Decode σ)
    (entries : List (Node × Node)) (n : Node) (s : σ) : Decode σ := do
  match (← get).settled with
  | some _ => mergeNode fill n s
  | none =>
    let keys ← entries.filterMapM fun (k, _) => key k
    for k in keys do
      if let some type := k.unhashable? then throw (.unhashable type)
    modify fun p => { p with settled := some keys }
    let s ← mergeNode fill n s
    modify fun p => { p with settled := none }
    return s

/-! ## Values of any type -/

/-- Whether the keys of a mapping are all strings. -/
def isNamed (entries : List (Node × Node)) : Decode Bool :=
  entries.allM fun (key, _) => do
    let key ← match key with
      | .reference _ _ anchor _ => pure ((← read).target anchor)
      | key => pure key
    match key with
    | .scalar _ .str _ | .scalar _ .merge _ => return true
    | _ => return false

/-- Reads any node, to a given depth. -/
def anything : Nat → Node → Decode (Option Meaning)
  | 0, _ => return none
  | fuel + 1, n =>
    let part := anything fuel
    let value (n : Node) : Decode Meaning := return (← part n).getD .null
    let fillTable (named : Bool) (entries : List (Node × Node))
        (table : List (Meaning × Meaning)) : Decode (List (Meaning × Meaning)) :=
      ownEntries (fun k v table => do
        let key ← if named then (·.map Meaning.text) <$> textShape.read k else part k
        match key with
        | none => return table
        | some key =>
          if ← settle key then return table
          if key.unhashable?.isSome then throw (.badKey key)
          let value ← value v
          return table.filter (!·.1.sameKey key) ++ [(key, value)]) entries table
    let shape : Shape Meaning := {
      target := "interface \x7b\x7d"
      scalar := fun _ meaning => some (some meaning)
      sequence := some fun items => return some (.list (← items.filterMapM part))
      mapping := some fun entries => do
        let named ← isNamed entries
        let table ← fillTable named entries []
        match mergedNode? entries with
        | none => return some (.table named table)
        | some merged =>
          let fill (n : Node) (table : List (Meaning × Meaning)) :
              Decode (List (Meaning × Meaning)) := do
            match ← part n with
            | some (.table _ more) =>
              return table ++ more.filter fun (key, _) => !table.any (·.1.sameKey key)
            | _ => return table
          return some (.table named (← merge part fill entries merged table)) }
    shape.read n

/-! ## Records -/

/-- A field of a record. -/
structure Field (σ : Type) where
  name : String
  read : Node → σ → Decode σ

/-- A field that is read as a given shape and put into the record. -/
def Field.of {σ α : Type} (name : String) (shape : Shape α) (put : α → σ → σ) : Field σ where
  name
  read n s := do
    match ← shape.read n with
    | some a => return put a s
    | none => return s

/-- Reads an entry of a mapping into a record of which some fields have been read. -/
def recordEntry {σ : Type} (target : String) (strict : Bool) (fields : List (Field σ))
    (key value : Node) (s : σ × List String) :
    StateT (Option (List Meaning)) Decode (σ × List String) := do
  match ← textShape.read key with
  | none => return s
  | some name =>
    if ← settle (.text name) then return s
    match fields.find? fun f => Text.ofString f.name == name with
    | some f =>
      if s.2.contains f.name then
        report (.repeatedField key.line name target)
        return s
      else return (← f.read value s.1, f.name :: s.2)
    | none =>
      if strict then report (.unknownField key.line name target)
      return s

/-- A record, which may be merged from others to a given depth; unknown keys are reported if the
reading is strict. -/
def recordWithin {σ : Type} (target : String) (strict : Bool) (fields : List (Field σ)) :
    Nat → σ → Shape σ
  | 0, _ => { target, scalar := fun _ _ => none }
  | fuel + 1, old => {
      target
      scalar := fun
        | _, .null => some none
        | _, _ => none
      mapping := some fun entries => do
        let (s, _) ← ownEntries (recordEntry target strict fields) entries (old, [])
        match mergedNode? entries with
        | none => return some s
        | some merged =>
          let fill (n : Node) (s : σ) : Decode σ := do
            return (← (recordWithin target strict fields fuel s).read n).getD s
          return some (← merge (anything (← read).depth) fill entries merged s) }

/-- Reads a record over an old one. -/
def record {σ : Type} (target : String) (strict : Bool) (fields : List (Field σ)) (old : σ)
    (n : Node) : Decode (Option σ) := do
  (recordWithin target strict fields (← read).depth old).read n

/-- A field that is a record itself. -/
def Field.record {σ τ : Type} (name target : String) (strict : Bool) (fields : List (Field τ))
    (get : σ → τ) (put : τ → σ → σ) : Field σ where
  name
  read n s := do
    match ← Decode.record target strict fields (get s) n with
    | some t => return put t s
    | none => return s

end Decode

/-- Reads a record from the first document of a text; without a document it stays as it was. -/
def decode {α : Type} (decoder : α → Node → Decode (Option α)) (start : α) (t : Text) :
    Except Error α :=
  match Document.ofText t with
  | .error m => .error (.malformed m)
  | .ok none => .ok start
  | .ok (some d) => do
    let (a, p) ← ((decoder start d.root).run d).run {}
    if p.mismatches.isEmpty then return a.getD start else throw (.mismatches p.mismatches)

end Yaml
end Reckoner
