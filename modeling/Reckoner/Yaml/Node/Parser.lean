import Reckoner.Yaml.Node
import Reckoner.Yaml.Token.Lexer

/-!
# Reading documents

The structure of a document is read from its tokens. Only the first document of a text is read, but
since tokens are found ahead of their use, a problem shortly after its end may still show.
-/
namespace Reckoner
namespace Yaml

/-- The state of reading a document. -/
structure Reading where
  lexer : Lexer
  /-- What the handles of tags stand for. -/
  handles : List (Text × Text) := []
  /-- The numbers of the anchors, the latest first. -/
  anchors : List (Text × Nat) := []
  /-- The nodes that have an anchor, as far as they have been read. -/
  anchored : List (Nat × Node) := []
  aliases : Nat := 0

/-- A reader of tokens. -/
abbrev Read := StateT Reading (Except Malformed)

namespace Read

/-- Finds tokens. -/
def lex {α : Type} (step : Lex α) : Read α := do
  let r ← get
  let (a, lexer) ← step.run r.lexer
  set { r with lexer }
  return a

/-- The next token. -/
def peek : Read Token := lex Lex.peek

/-- Takes the next token. -/
def take : Read Unit := lex Lex.take

/-- Fails at a token because of a construct that begins at a given place. -/
def fail {α : Type} (context : Mark) (t : Token) (problem : GrammarProblem) : Read α :=
  throw (.grammar context.line t.start.line problem)

/-- Nothing, at a token. -/
def nullAt (t : Token) : Node := .null (t.start.line + 1)

/-! ## Directives -/

/-- The handles that need no directive. -/
def commonHandles : List (Text × Text) := [("!", "!"), ("!!", Tag.familyName)]

/-- Reads directives, in at most `fuel` steps. -/
def directivesWithin (versioned : Bool) : Nat → Read Unit
  | 0 => return
  | fuel + 1 => do
    let t ← peek
    match t.sign with
    | .version major minor =>
      if versioned then fail {} t .duplicateVersion
      if major ≠ 1 ∨ minor ≠ 1 then fail {} t .version
      take
      directivesWithin true fuel
    | .handle name meaning =>
      if ((← get).handles.lookup name).isSome then fail {} t .duplicateHandle
      modify fun r => { r with handles := r.handles ++ [(name, meaning)] }
      take
      directivesWithin versioned fuel
    | _ => modify fun r => { r with handles := r.handles ++ commonHandles }

/-! ## Properties of nodes -/

/-- What stands before the content of a node. -/
structure Properties where
  anchor : Option Text := none
  /-- The handle and the rest of a tag, and the token that they come from. -/
  tag : Option (Text × Text × Token) := none

/-- Reads an anchor and a tag, which come in any order. -/
def properties : Read Properties := do
  let t ← peek
  match t.sign with
  | .anchor name =>
    take
    let next ← peek
    match next.sign with
    | .tag handle suffix =>
      take
      return { anchor := some name, tag := some (handle, suffix, next) }
    | _ => return { anchor := some name }
  | .tag handle suffix =>
    take
    let next ← peek
    match next.sign with
    | .anchor name =>
      take
      return { anchor := some name, tag := some (handle, suffix, t) }
    | _ => return { tag := some (handle, suffix, t) }
  | _ => return {}

/-- The full name of the tag of a node that begins at a given place. -/
def tagName (start : Mark) (p : Properties) : Read (Option Text) := do
  match p.tag with
  | none => return none
  | some ([], suffix, _) => return some suffix
  | some (handle, suffix, t) =>
    match (← get).handles.lookup handle with
    | some meaning => return some (meaning ++ suffix)
    | none => fail start t .undefinedHandle

/-- The tag of a name, if it says anything. -/
def tagOr (usual : Tag) : Option Text → Tag
  | none => usual
  | some name => if name = Text.ofString "!" then usual else .ofName name

/-- A scalar on a line. Without a tag it is a string, unless it is plain. -/
def scalarNode (line : Nat) (tag : Option Text) (value : Text) (plain : Bool) : Node :=
  let usual := if !plain then .str
    else if value = Text.ofString "<<" then .merge
    else (plainMeaning true value).1
  .scalar line (tagOr usual tag) value

/-- The node that an alias stands for, which must have been begun. -/
def aliasNode (line : Nat) (name : Text) : Read Node := do
  let r ← get
  match r.anchors.lookup name with
  | none => throw (.unknownAnchor name)
  | some anchor =>
    set { r with aliases := r.aliases + 1 }
    return .reference line name anchor r.aliases

/-- Reads a node that has an anchor, which is known already inside the node. -/
def withAnchor (anchor : Option Text) (content : Read Node) : Read Node := do
  match anchor with
  | none => content
  | some name =>
    let number := (← get).anchors.length
    modify fun r => { r with anchors := (name, number) :: r.anchors }
    let n ← content
    modify fun r => { r with anchored := (number, n) :: r.anchored }
    return n

/-! ## Nodes -/

mutual

/-- Reads a node: only outside brackets may it be a block, and only as a key or a value in a mapping
may the items of a sequence stand in the column of what is around them. -/
def readNode : Nat → Bool → Bool → Read Node
  | 0, _, _ => return .null 0
  | fuel + 1, block, indentless => do
    let t ← peek
    match t.sign with
    | .reference name =>
      take
      aliasNode (t.start.line + 1) name
    | _ =>
      let p ← properties
      let tag ← tagName t.start p
      withAnchor p.anchor (readContent fuel block indentless t.start tag p.anchor.isSome)

/-- Reads the content of a node that begins at a given place and has been told its tag. -/
def readContent : Nat → Bool → Bool → Mark → Option Text → Bool → Read Node
  | 0, _, _, _, _, _ => return .null 0
  | fuel + 1, block, indentless, start, tag, anchored => do
    let line := start.line + 1
    let t ← peek
    match t.sign, block, indentless with
    | .blockEntry, _, true => return .sequence line (tagOr .seq tag) (← readIndentless fuel)
    | .scalar value plain, _, _ =>
      take
      return scalarNode line tag value plain
    | .flowSequenceStart, _, _ =>
      take
      return .sequence line (tagOr .seq tag) (← readFlowItems fuel t.start true)
    | .flowMappingStart, _, _ =>
      take
      return .mapping line (tagOr .map tag) (← readFlowEntries fuel t.start true)
    | .blockSequenceStart, true, _ =>
      take
      return .sequence line (tagOr .seq tag) (← readBlockItems fuel t.start)
    | .blockMappingStart, true, _ =>
      take
      return .mapping line (tagOr .map tag) (← readBlockEntries fuel t.start)
    | _, _, _ =>
      if anchored || tag.isSome then return scalarNode line tag [] true
      else fail start t .nodeContent

/-- Reads the items of a block. -/
def readBlockItems : Nat → Mark → Read (List Node)
  | 0, _ => return []
  | fuel + 1, context => do
    let t ← peek
    match t.sign with
    | .blockEntry =>
      take
      let item ← match (← peek).sign with
        | .blockEntry | .blockEnd => pure (nullAt t)
        | _ => readNode fuel true false
      return item :: (← readBlockItems fuel context)
    | .blockEnd =>
      take
      return []
    | _ => fail context t .entryMark

/-- Reads the items of a sequence that is not indented. -/
def readIndentless : Nat → Read (List Node)
  | 0 => return []
  | fuel + 1 => do
    let t ← peek
    match t.sign with
    | .blockEntry =>
      take
      let item ← match (← peek).sign with
        | .blockEntry | .key | .value | .blockEnd => pure (nullAt t)
        | _ => readNode fuel true false
      return item :: (← readIndentless fuel)
    | _ => return []

/-- Reads the entries of a block. -/
def readBlockEntries : Nat → Mark → Read (List (Node × Node))
  | 0, _ => return []
  | fuel + 1, context => do
    let t ← peek
    match t.sign with
    | .key =>
      take
      let key ← readBlockPart fuel t
      let mark ← peek
      let value ← match mark.sign with
        | .value => do
          take
          readBlockPart fuel mark
        | _ => pure (nullAt mark)
      return (key, value) :: (← readBlockEntries fuel context)
    | .blockEnd =>
      take
      return []
    | _ => fail context t .key

/-- Reads a key or a value of a block after its mark, if there is one. -/
def readBlockPart : Nat → Token → Read Node
  | 0, mark => return nullAt mark
  | fuel + 1, mark => do
    match (← peek).sign with
    | .key | .value | .blockEnd => return nullAt mark
    | _ => readNode fuel true true

/-- Reads the items between square brackets. An item with a colon in it is a mapping. -/
def readFlowItems : Nat → Mark → Bool → Read (List Node)
  | 0, _, _ => return []
  | fuel + 1, context, first => do
    let t ← peek
    let t ← match first, t.sign with
      | false, .flowEntry => do
        take
        peek
      | false, .flowSequenceEnd | true, _ => pure t
      | false, _ => fail context t .flowSequence
    match t.sign with
    | .flowSequenceEnd =>
      take
      return []
    | .key =>
      take
      let entry ← readPair fuel
      let item := Node.mapping (t.start.line + 1) .map [entry]
      return item :: (← readFlowItems fuel context false)
    | _ =>
      let item ← readNode fuel false false
      return item :: (← readFlowItems fuel context false)

/-- Reads the only entry of a mapping that is an item between square brackets. A mark that stands in
the place of the key is passed over. -/
def readPair : Nat → Read (Node × Node)
  | 0 => return (.null 0, .null 0)
  | fuel + 1 => do
    let t ← peek
    let key ← match t.sign with
      | .value | .flowEntry | .flowSequenceEnd => do
        take
        pure (nullAt t)
      | _ => readNode fuel false false
    let mark ← peek
    let value ← match mark.sign with
      | .value => do
        take
        match (← peek).sign with
        | .flowEntry | .flowSequenceEnd => pure (nullAt mark)
        | _ => readNode fuel false false
      | _ => pure (nullAt mark)
    return (key, value)

/-- Reads the entries between curly brackets. A key that is not marked has no value. -/
def readFlowEntries : Nat → Mark → Bool → Read (List (Node × Node))
  | 0, _, _ => return []
  | fuel + 1, context, first => do
    let t ← peek
    let t ← match first, t.sign with
      | false, .flowEntry => do
        take
        peek
      | false, .flowMappingEnd | true, _ => pure t
      | false, _ => fail context t .flowMapping
    match t.sign with
    | .flowMappingEnd =>
      take
      return []
    | .key =>
      take
      let key ← readFlowPart fuel true
      let mark ← peek
      let value ← match mark.sign with
        | .value => do
          take
          readFlowPart fuel false
        | _ => pure (nullAt mark)
      return (key, value) :: (← readFlowEntries fuel context false)
    | _ =>
      let key ← readNode fuel false false
      let value := nullAt (← peek)
      return (key, value) :: (← readFlowEntries fuel context false)

/-- Reads a key or a value between curly brackets after its mark, if there is one. -/
def readFlowPart : Nat → Bool → Read Node
  | 0, _ => return .null 0
  | fuel + 1, isKey => do
    let t ← peek
    match t.sign, isKey with
    | .value, true | .flowEntry, _ | .flowMappingEnd, _ => return nullAt t
    | _, _ => readNode fuel false false

end

/-! ## Documents -/

/-- Reads the root of a document, after the mark that begins it. -/
def readRoot (fuel : Nat) : Read Node := do
  let t ← peek
  match t.sign with
  | .version _ _ | .handle _ _ | .documentStart | .documentEnd | .streamEnd => return nullAt t
  | _ => readNode fuel true false

/-- Reads the first document, if there is one. -/
def firstDocument (fuel : Nat) : Read (Option Node) := do
  let _ ← peek
  take
  match (← peek).sign with
  | .streamEnd => return none
  | .version _ _ | .handle _ _ | .documentStart =>
    directivesWithin false fuel
    let t ← peek
    if t.sign ≠ .documentStart then fail {} t .documentStart
    take
    let root ← readRoot fuel
    let _ ← peek
    return some root
  | _ =>
    directivesWithin false fuel
    let root ← readNode fuel true false
    let _ ← peek
    return some root

end Read

/-- Reads the first document of a text, if there is one. -/
def Document.ofText (t : Text) : Except Malformed (Option Document) := do
  let source := Source.ofText t
  let fuel := 8 * source.chars.length + 64
  let (root, r) ← (Read.firstDocument fuel).run { lexer := .ofSource source }
  return root.map fun root => { root, anchored := r.anchored, depth := (r.aliases + 2) * fuel }

end Yaml
end Reckoner
