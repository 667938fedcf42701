import Reckoner.Arith.Labelled
import Reckoner.Arith.Parser
import Reckoner.Arith.Token
import Reckoner.Arith.Tree
import Reckoner.Arith.Value
import Reckoner.Assoc
import Reckoner.Command.Options
import Reckoner.Command.Perform
import Reckoner.Command.Request
import Reckoner.Data.Numeric
import Reckoner.Data.Presentation
import Reckoner.Data.Value
import Reckoner.Document.Line
import Reckoner.Document.Pass
import Reckoner.Document.Run
import Reckoner.Fault
import Reckoner.Files.Path
import Reckoner.Files.Tree
import Reckoner.Formula.Builtin
import Reckoner.Formula.Call
import Reckoner.Formula.Canonical
import Reckoner.Formula.Evaluate
import Reckoner.Formula.Function
import Reckoner.Formula.Scope
import Reckoner.Formula.Substitution
import Reckoner.Formula.Thousands
import Reckoner.Journal.Attribution
import Reckoner.Journal.Draft
import Reckoner.Journal.Event
import Reckoner.Journal.Log
import Reckoner.Journal.Query
import Reckoner.Journal.Redaction
import Reckoner.Journal.RunLog
import Reckoner.Journal.Stamp
import Reckoner.Journal.Version
import Reckoner.Journal.Warnings
import Reckoner.Json.Reader
import Reckoner.Json.Writer
import Reckoner.Main
import Reckoner.Number.Binary
import Reckoner.Number.Display
import Reckoner.Number.Elementary
import Reckoner.Number.Layout
import Reckoner.Number.Reading
import Reckoner.Number.Shortest
import Reckoner.Number.Sum
import Reckoner.Proofs.Arith.Accepted
import Reckoner.Proofs.Arith.Grammar
import Reckoner.Proofs.Arith.Lexed
import Reckoner.Proofs.Arith.Offsets
import Reckoner.Proofs.Arith.Outcome
import Reckoner.Proofs.Arith.Position
import Reckoner.Proofs.Arith.Stack
import Reckoner.Proofs.Assoc
import Reckoner.Proofs.Document.Acyclic
import Reckoner.Proofs.Document.Breakdowns
import Reckoner.Proofs.Document.Budget
import Reckoner.Proofs.Document.Converged
import Reckoner.Proofs.Document.Counts
import Reckoner.Proofs.Document.Dependencies
import Reckoner.Proofs.Document.Entries
import Reckoner.Proofs.Document.Forms
import Reckoner.Proofs.Document.InOrder
import Reckoner.Proofs.Document.Lines
import Reckoner.Proofs.Document.Passes
import Reckoner.Proofs.Document.Standings
import Reckoner.Proofs.Document.WellFormed
import Reckoner.Proofs.Except
import Reckoner.Proofs.Files.Directories
import Reckoner.Proofs.Formula.Mentions
import Reckoner.Proofs.Formula.Splices
import Reckoner.Proofs.Formula.ArgumentValue
import Reckoner.Proofs.Formula.Arguments
import Reckoner.Proofs.Formula.Breakdowns
import Reckoner.Proofs.Formula.CallCommas
import Reckoner.Proofs.Formula.CallFaults
import Reckoner.Proofs.Formula.CallPlaces
import Reckoner.Proofs.Formula.CallText
import Reckoner.Proofs.Formula.CanonicalAgain
import Reckoner.Proofs.Formula.CanonicalText
import Reckoner.Proofs.Formula.Cleaned
import Reckoner.Proofs.Formula.Depth
import Reckoner.Proofs.Formula.Depths
import Reckoner.Proofs.Formula.Dressed
import Reckoner.Proofs.Formula.DressedLayout
import Reckoner.Proofs.Formula.DressedOutcome
import Reckoner.Proofs.Formula.DressedValues
import Reckoner.Proofs.Formula.Enclosed
import Reckoner.Proofs.Formula.EnclosedRounds
import Reckoner.Proofs.Formula.Evaluated
import Reckoner.Proofs.Formula.Expression
import Reckoner.Proofs.Formula.FunctionTable
import Reckoner.Proofs.Formula.HalfUp
import Reckoner.Proofs.Formula.Insensitive
import Reckoner.Proofs.Formula.JoinedArguments
import Reckoner.Proofs.Formula.Kept
import Reckoner.Proofs.Formula.Layout
import Reckoner.Proofs.Formula.LayoutRounds
import Reckoner.Proofs.Formula.Letters
import Reckoner.Proofs.Formula.Lexeme
import Reckoner.Proofs.Formula.Meaning
import Reckoner.Proofs.Formula.Parsed
import Reckoner.Proofs.Formula.Partners
import Reckoner.Proofs.Formula.PlainNumbers
import Reckoner.Proofs.Formula.Rewritten
import Reckoner.Proofs.Formula.RoundText
import Reckoner.Proofs.Formula.Rounds
import Reckoner.Proofs.Formula.ScopeReading
import Reckoner.Proofs.Formula.Segments
import Reckoner.Proofs.Formula.Semantics
import Reckoner.Proofs.Formula.Sentence
import Reckoner.Proofs.Formula.Settled
import Reckoner.Proofs.Formula.Sites
import Reckoner.Proofs.Formula.Spacing
import Reckoner.Proofs.Formula.SplicedCalls
import Reckoner.Proofs.Formula.SplicedNames
import Reckoner.Proofs.Formula.Steady
import Reckoner.Proofs.Formula.Substituted
import Reckoner.Proofs.Formula.SubstitutedText
import Reckoner.Proofs.Formula.Termination
import Reckoner.Proofs.Formula.Tidy
import Reckoner.Proofs.Formula.Undressed
import Reckoner.Proofs.Formula.Ungrouped
import Reckoner.Proofs.Formula.Unnamed
import Reckoner.Proofs.Formula.Unreferenced
import Reckoner.Proofs.Formula.ValueText
import Reckoner.Proofs.Formula.Wordwise
import Reckoner.Proofs.Journal.Damage
import Reckoner.Proofs.Journal.Records
import Reckoner.Proofs.Journal.Reading
import Reckoner.Proofs.Journal.Redaction
import Reckoner.Proofs.Journal.RunFiles
import Reckoner.Proofs.Journal.Search
import Reckoner.Proofs.Journal.Tail
import Reckoner.Proofs.Journal.Writes
import Reckoner.Proofs.Json.Number
import Reckoner.Proofs.Json.Preceded
import Reckoner.Proofs.Json.Quoted
import Reckoner.Proofs.Json.RoundTrip
import Reckoner.Proofs.Number.Alike
import Reckoner.Proofs.Number.Decimal
import Reckoner.Proofs.Number.Difference
import Reckoner.Proofs.Number.Displayed
import Reckoner.Proofs.Number.Insensitive
import Reckoner.Proofs.Number.Nearest
import Reckoner.Proofs.Number.Numeral
import Reckoner.Proofs.Number.Parts
import Reckoner.Proofs.Number.Plain
import Reckoner.Proofs.Number.Rounding
import Reckoner.Proofs.Number.Value
import Reckoner.Proofs.Number.Word
import Reckoner.Proofs.Session.Account
import Reckoner.Proofs.Session.Calls
import Reckoner.Proofs.Session.Failures
import Reckoner.Proofs.Session.OneLine
import Reckoner.Proofs.Session.Project
import Reckoner.Proofs.Session.Sinks
import Reckoner.Proofs.Session.Warnings
import Reckoner.Proofs.Settings
import Reckoner.Proofs.Text.Classes
import Reckoner.Proofs.Text.Digits
import Reckoner.Proofs.Text.Framing
import Reckoner.Proofs.Text.Spans
import Reckoner.Proofs.Yaml.Contents
import Reckoner.Proofs.Yaml.Entries
import Reckoner.Session.Basic
import Reckoner.Session.Calculation
import Reckoner.Session.Project
import Reckoner.Settings
import Reckoner.Text.Alphabetic
import Reckoner.Text.Base64
import Reckoner.Text.Blank
import Reckoner.Text.Casing
import Reckoner.Text.Lines
import Reckoner.Text.Numeric
import Reckoner.Text.Order
import Reckoner.Text.Printable
import Reckoner.Text.Quoted
import Reckoner.Text.Ranges
import Reckoner.Text.Utf8
import Reckoner.Text.Word
import Reckoner.Text.WordEnd
import Reckoner.Yaml.Block
import Reckoner.Yaml.Contents
import Reckoner.Yaml.Cursor
import Reckoner.Yaml.Datum
import Reckoner.Yaml.Kind
import Reckoner.Yaml.Merge
import Reckoner.Yaml.Moment
import Reckoner.Yaml.Node
import Reckoner.Yaml.Part
import Reckoner.Yaml.Plain
import Reckoner.Yaml.Quoted
import Reckoner.Yaml.Scalar
import Reckoner.Yaml.Scan
import Reckoner.Yaml.Token
import Reckoner.Proofs.Command.Annotated
