import Reckoner.Yaml.Malformed

/-!
# Tokens of documents

The indentation of blocks shows in tokens of its own, so that the structure of a document can be
read from its tokens alone.
-/
namespace Reckoner
namespace Yaml

/-- What a token is. -/
inductive Sign where
  | streamStart | streamEnd
  /-- The version that a document asks for. -/
  | version (major minor : Nat)
  /-- What a tag handle stands for. -/
  | handle (name meaning : Text)
  | documentStart | documentEnd
  | blockSequenceStart | blockMappingStart | blockEnd
  | flowSequenceStart | flowSequenceEnd | flowMappingStart | flowMappingEnd
  | blockEntry | flowEntry | key | value
  | reference (name : Text)
  | anchor (name : Text)
  | tag (handle suffix : Text)
  /-- A scalar, and whether it stands without quotes and outside a block. -/
  | scalar (value : Text) (plain : Bool)
deriving DecidableEq, Repr, Inhabited

/-- A token and the place where it begins. -/
structure Token where
  sign : Sign
  start : Mark
deriving DecidableEq, Repr, Inhabited

end Yaml
end Reckoner
