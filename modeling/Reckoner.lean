import Reckoner.Checker
import Reckoner.Coded
import Reckoner.CommandLine.Calculator
import Reckoner.CommandLine.Dump
import Reckoner.CommandLine.Options
import Reckoner.Conformance.Case
import Reckoner.Conformance.Pattern
import Reckoner.Conformance.Suite
import Reckoner.Edit
import Reckoner.Expr
import Reckoner.Fault
import Reckoner.Files
import Reckoner.Interpreter
import Reckoner.Machine
import Reckoner.Main
import Reckoner.Number
import Reckoner.Number.Decimal
import Reckoner.Number.Power
import Reckoner.Number.Rounding
import Reckoner.Parser
import Reckoner.Parser.Grammar
import Reckoner.Parser.Log
import Reckoner.Parser.State
import Reckoner.Path
import Reckoner.Position
import Reckoner.Proofs.Agreement
import Reckoner.Proofs.Chunks
import Reckoner.Proofs.Completeness
import Reckoner.Proofs.Consistency
import Reckoner.Proofs.Continuation
import Reckoner.Proofs.Coverage
import Reckoner.Proofs.Defects
import Reckoner.Proofs.Discipline
import Reckoner.Proofs.Effect
import Reckoner.Proofs.Entries
import Reckoner.Proofs.Extending
import Reckoner.Proofs.Faults
import Reckoner.Proofs.Joining
import Reckoner.Proofs.Layouts
import Reckoner.Proofs.Listening
import Reckoner.Proofs.Listings
import Reckoner.Proofs.Lossless
import Reckoner.Proofs.Meaning
import Reckoner.Proofs.Moving
import Reckoner.Proofs.Neighbours
import Reckoner.Proofs.Positions
import Reckoner.Proofs.Prediction
import Reckoner.Proofs.Preserving
import Reckoner.Proofs.Reading
import Reckoner.Proofs.Refactoring
import Reckoner.Proofs.Rendering
import Reckoner.Proofs.Reports
import Reckoner.Proofs.Resolving
import Reckoner.Proofs.Rewriting
import Reckoner.Proofs.Running
import Reckoner.Proofs.Simplified
import Reckoner.Proofs.Simplifying
import Reckoner.Proofs.Soundness
import Reckoner.Proofs.Sources
import Reckoner.Proofs.Spelling
import Reckoner.Proofs.Tracing
import Reckoner.Proofs.Transcripts
import Reckoner.Proofs.Typing
import Reckoner.Proofs.Unambiguous
import Reckoner.Proofs.Verdicts
import Reckoner.Scope
import Reckoner.Session
import Reckoner.Session.Lines
import Reckoner.Setting
import Reckoner.Settings
import Reckoner.Simplify
import Reckoner.Stmt
import Reckoner.SyntaxError
import Reckoner.Text
import Reckoner.Text.Base64
import Reckoner.Text.Quoted
import Reckoner.Text.Shown
import Reckoner.Text.Space
import Reckoner.Token
import Reckoner.Token.Lexer
import Reckoner.Token.Stream
import Reckoner.Transcript
import Reckoner.Tree
import Reckoner.Ty
import Reckoner.Value
import Reckoner.Yaml.Decode
import Reckoner.Yaml.Malformed
import Reckoner.Yaml.Meaning
import Reckoner.Yaml.Node
import Reckoner.Yaml.Node.Parser
import Reckoner.Yaml.Source
import Reckoner.Yaml.Timestamp
import Reckoner.Yaml.Token
import Reckoner.Yaml.Token.Cursor
import Reckoner.Yaml.Token.Lexer
import Reckoner.Yaml.Token.Property
import Reckoner.Yaml.Token.Scalar
import Reckoner.Proofs.Insertions
import Reckoner.Proofs.Atomicity
import Reckoner.Proofs.Nesting
import Reckoner.Proofs.Undeclared
import Reckoner.Proofs.Contents
import Reckoner.Proofs.Blame
import Reckoner.Proofs.Lookahead
import Reckoner.Proofs.Magnitudes
import Reckoner.Proofs.Ordering
import Reckoner.Proofs.Marks
import Reckoner.Proofs.Rereading
import Reckoner.Proofs.Numerals
import Reckoner.Proofs.Shortest
import Reckoner.Proofs.Scoping
import Reckoner.Proofs.Demand
import Reckoner.Proofs.Spans
import Reckoner.Proofs.Evaluation
import Reckoner.Proofs.Spacing
