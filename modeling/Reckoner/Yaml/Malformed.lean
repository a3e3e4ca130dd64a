import Reckoner.Yaml.Source

/-!
# Malformed documents

What can be wrong with the text of a document. A problem is reported with the line on which the
construct that has it begins or, if that is the first line, with the line on which it shows; the
first line is not mentioned.
-/
namespace Reckoner
namespace Yaml

/-- A place in a document: how many characters come before it, and its line and column, which count
from 0. -/
structure Mark where
  index : Nat := 0
  line : Nat := 0
  column : Nat := 0
deriving DecidableEq, Repr, Inhabited

/-- How deeply collections may be nested. -/
def maxDepth : Nat := 10000

/-- A problem that shows before the structure of the document is known. -/
inductive LexicalProblem where
  | startOfToken | endOfStream | documentMark | unknownEscape | hexDigit | escapedPoint
  | missingColon | valueContext | keyContext | entryContext | depth
  | tabIndentation | blockTab | blockIndentation | lineEnd
  | anchorName | tagMark | tagUri | tagClose | tagSpace | tagSpaceOrBreak
  | uriOctet | uriLeading | uriTrailing
  | directiveName | directiveCharacter | unknownDirective
  | versionDot | versionNumber | versionLength
deriving DecidableEq, Repr

def LexicalProblem.message : LexicalProblem → String
  | startOfToken => "found character that cannot start any token"
  | endOfStream => "found unexpected end of stream"
  | documentMark => "found unexpected document indicator"
  | unknownEscape => "found unknown escape character"
  | hexDigit => "did not find expected hexdecimal number"
  | escapedPoint => "found invalid Unicode character escape code"
  | missingColon => "could not find expected ':'"
  | valueContext => "mapping values are not allowed in this context"
  | keyContext => "mapping keys are not allowed in this context"
  | entryContext => "block sequence entries are not allowed in this context"
  | depth => "exceeded max depth of 10000"
  | tabIndentation => "found a tab character that violates indentation"
  | blockTab => "found a tab character where an indentation space is expected"
  | blockIndentation => "found an indentation indicator equal to 0"
  | lineEnd => "did not find expected comment or line break"
  | anchorName => "did not find expected alphabetic or numeric character"
  | tagMark => "did not find expected '!'"
  | tagUri => "did not find expected tag URI"
  | tagClose => "did not find the expected '>'"
  | tagSpace => "did not find expected whitespace"
  | tagSpaceOrBreak => "did not find expected whitespace or line break"
  | uriOctet => "did not find URI escaped octet"
  | uriLeading => "found an incorrect leading UTF-8 octet"
  | uriTrailing => "found an incorrect trailing UTF-8 octet"
  | directiveName => "could not find expected directive name"
  | directiveCharacter => "found unexpected non-alphabetical character"
  | unknownDirective => "found unknown directive name"
  | versionDot => "did not find expected digit or '.' character"
  | versionNumber => "did not find expected version number"
  | versionLength => "found extremely long version number"

/-- A problem with the structure of a document. -/
inductive GrammarProblem where
  | nodeContent | entryMark | key | flowSequence | flowMapping | documentStart
  | duplicateVersion | version | duplicateHandle | undefinedHandle
deriving DecidableEq, Repr

def GrammarProblem.message : GrammarProblem → String
  | nodeContent => "did not find expected node content"
  | entryMark => "did not find expected '-' indicator"
  | key => "did not find expected key"
  | flowSequence => "did not find expected ',' or ']'"
  | flowMapping => "did not find expected ',' or '\x7d'"
  | documentStart => "did not find expected <document start>"
  | duplicateVersion => "found duplicate %YAML directive"
  | version => "found incompatible YAML document"
  | duplicateHandle => "found duplicate %TAG directive"
  | undefinedHandle => "found undefined tag handle"

/-- Why a text is not a document. Lines count from 0: that on which the construct begins, and that
on which the problem shows. -/
inductive Malformed where
  | encoding (fault : EncodingFault)
  | lexical (context shown : Nat) (problem : LexicalProblem)
  | grammar (context shown : Nat) (problem : GrammarProblem)
  | unknownAnchor (name : Text)

namespace Malformed

/-- The line to report, unless it is the first. -/
def line? (context shown : Nat) : Option Nat :=
  if context ≠ 0 then some context else if shown ≠ 0 then some shown else none

/-- A message with the number of its line, if there is one. -/
def located (number : Option Nat) (message : String) : Text :=
  match number with
  | some n => "line " ++ Text.ofNat n ++ ": " ++ Text.ofString message
  | none => message

/-- The message. Lexical problems are numbered from 1; problems with the structure keep the count
from 0. -/
def text : Malformed → Text
  | encoding fault => fault.message
  | lexical context shown problem => located ((line? context shown).map (· + 1)) problem.message
  | grammar context shown problem => located (line? context shown) problem.message
  | unknownAnchor name => "unknown anchor '" ++ name ++ "' referenced"

end Malformed
end Yaml
end Reckoner
