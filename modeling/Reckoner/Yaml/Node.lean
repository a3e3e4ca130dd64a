import Reckoner.Yaml.Meaning

/-!
# Documents

A document is a tree of scalars, sequences and mappings, each with the line that it starts on and
its tag. A node with an anchor can be repeated elsewhere by an alias, even inside itself; aliases
therefore refer to nodes by number.
-/
namespace Reckoner
namespace Yaml

/-- A node of a document. Lines count from 1. -/
inductive Node where
  | scalar (line : Nat) (tag : Tag) (value : Text)
  | sequence (line : Nat) (tag : Tag) (items : List Node)
  | mapping (line : Nat) (tag : Tag) (entries : List (Node × Node))
  /-- The node with an anchor, given by the number of the anchor; the aliases of a document are
  numbered as well. -/
  | reference (line : Nat) (name : Text) (anchor number : Nat)
deriving Inhabited

namespace Node

def line : Node → Nat
  | scalar l _ _ | sequence l _ _ | mapping l _ _ | reference l _ _ _ => l

/-- The text of a scalar or the name of an alias; other nodes have none. -/
def value : Node → Text
  | scalar _ _ value => value
  | reference _ name _ _ => name
  | sequence _ _ _ | mapping _ _ _ => []

/-- Nothing, on a given line. -/
def null (line : Nat) : Node := scalar line .null []

/-- Whether two nodes are the same key: scalars with the same text and aliases of the same name are,
and so are any two sequences and any two mappings. -/
def sameKey : Node → Node → Bool
  | scalar _ _ a, scalar _ _ b => a == b
  | reference _ a _ _, reference _ b _ _ => a == b
  | sequence _ _ _, sequence _ _ _ => true
  | mapping _ _ _, mapping _ _ _ => true
  | _, _ => false

/-- Whether a node is the key under which another mapping is merged into one. -/
def isMerge : Node → Bool
  | scalar _ .merge value => value == Text.ofString "<<"
  | _ => false

end Node

/-- A document with its anchors. -/
structure Document where
  root : Node
  /-- The nodes that have an anchor, by its number. -/
  anchored : List (Nat × Node) := []
  /-- A bound for the depth to which nodes can be visited without visiting an alias from within
  itself. -/
  depth : Nat

namespace Document

/-- The node with an anchor. -/
def target (d : Document) (anchor : Nat) : Node := (d.anchored.lookup anchor).getD (.null 0)

end Document
end Yaml
end Reckoner
