import MapScript.Text.Letter
import MapScript.Text.Numeral
import MapScript.Text.Printable
import MapScript.Text.Blank
import MapScript.Text.Lines
import MapScript.Text.Quoted
import MapScript.Text.Utf8
import MapScript.Number.Binary64
import MapScript.Number.Basic
import MapScript.Number.Decimal
import MapScript.Number.Format
import MapScript.Number.Shortest
import MapScript.Position
import MapScript.Token.Basic
import MapScript.Diagnostic.Cause
import MapScript.Token.Lexer
import MapScript.Diagnostic.Snippet
import MapScript.Diagnostic.Basic
import MapScript.Token.Compact
import MapScript.Block.Node
import MapScript.Block.Builder
import MapScript.Block.Outline
import MapScript.EngineText
import MapScript.Token.Group
import MapScript.Symbol.Operand
import MapScript.Symbol.Table
import MapScript.Symbol.Expression
import MapScript.Symbol.Evaluation
import MapScript.Symbol.Resolve
import MapScript.Layout
import MapScript.Pattern
import MapScript.Session
import MapScript.Expansion
import MapScript.Placement
import MapScript.RandomCall
import MapScript.Preprocess
import MapScript.Text.Integer
import MapScript.Settings.Value
import MapScript.Settings.Moment
import MapScript.Settings.Toml.Reading
import MapScript.Settings.Toml.Quotation
import MapScript.Settings.Toml.Scalar
import MapScript.Settings.Toml.Table
import MapScript.Settings.Toml.Reader
import MapScript.Settings.Config
import MapScript.Command.Path
import MapScript.Command.FileTree
import MapScript.Command.Arguments
import MapScript.Command.Batch
import MapScript.Editor
import MapScript.Main
import MapScript.Proofs.Lexing.Boundary
import MapScript.Proofs.Compact
import MapScript.Proofs.Lexing.Place
import MapScript.Proofs.Lexing.Prose
import MapScript.Proofs.Lines
import MapScript.Proofs.Division
import MapScript.Proofs.Outcome
import MapScript.Proofs.Symbol.Evaluation
import MapScript.Proofs.Symbol.Resolve
import MapScript.Proofs.Symbol.Congruence
import MapScript.Proofs.Symbol.Meaning
import MapScript.Proofs.Symbol.Trace
import MapScript.Proofs.Symbol.Cycle
import MapScript.Proofs.Symbol.Coherence
import MapScript.Proofs.Symbol.Fault
import MapScript.Proofs.Session
import MapScript.Proofs.Expansion
import MapScript.Proofs.RandomCall
import MapScript.Proofs.Block
import MapScript.Proofs.Grammar.Items
import MapScript.Proofs.Grammar.Acceptance
import MapScript.Proofs.Grammar.BlockTokens
import MapScript.Proofs.Grammar.Coverage
import MapScript.Proofs.Stages
import MapScript.Proofs.Fault
import MapScript.Proofs.Totality
import MapScript.Proofs.EngineText
import MapScript.Proofs.Spelling
import MapScript.Proofs.Lexing.Numeral
import MapScript.Proofs.Separators
import MapScript.Proofs.Directives
import MapScript.Proofs.FixedPoint
import MapScript.Proofs.Written
import MapScript.Proofs.Hoisting
import MapScript.Proofs.Lexing.LineBreak
import MapScript.Proofs.Symbol.Enclosure
import MapScript.Proofs.Copies
import MapScript.Proofs.Symbol.Framing
import MapScript.Proofs.Repetition
import MapScript.Proofs.Symbol.Adjacency
import MapScript.Proofs.Symbol.AreaPlaces
import MapScript.Proofs.Symbol.Areas
import MapScript.Proofs.Symbol.Coordinates
import MapScript.Proofs.Symbol.Remaining
import MapScript.Proofs.Symbol.Replay
import MapScript.Proofs.Symbol.Undeclared
import MapScript.Proofs.Command.FileTree
import MapScript.Proofs.Command.Batch
import MapScript.Proofs.Together
import MapScript.Proofs.Respacing.Row
import MapScript.Proofs.Respacing.Stream
import MapScript.Proofs.Respacing.Block
import MapScript.Proofs.Respacing.Resolve
import MapScript.Proofs.Respacing.Expansion
import MapScript.Proofs.Respacing.Placement
import MapScript.Proofs.Respacing.RandomCall
import MapScript.Proofs.Respacing.Text
import MapScript.Proofs.Lexing.Space
import MapScript.Proofs.Lexing.Lookahead
import MapScript.Proofs.Lexing.LineEnds
import MapScript.Proofs.Respacing.Reading
import MapScript.Proofs.Comments
import MapScript.Proofs.Respacing.LineEnds
import MapScript.Proofs.LineEnds
import MapScript.Proofs.Unrolling
import MapScript.Proofs.CallsInPlace
import MapScript.Proofs.DeclaredCalls
import MapScript.Proofs.Placement.Objects
import MapScript.Proofs.Placement.Markers
import MapScript.Proofs.HeaderProse
import MapScript.Proofs.HeaderLines
import MapScript.Proofs.Truncation
import MapScript.Proofs.GeneratedNames
import MapScript.Proofs.Literals
import MapScript.Proofs.Snippets
import MapScript.Proofs.Number.Rounding
import MapScript.Proofs.Number.Units
import MapScript.Proofs.Number.Quotient
import MapScript.Proofs.Expression.Tree
import MapScript.Proofs.Expression.Reading
import MapScript.Proofs.Expression.Quotient
import MapScript.Proofs.Layout.Grid
import MapScript.Proofs.Layout.Line
import MapScript.Proofs.Layout.Square
import MapScript.Proofs.Restart
import MapScript.Proofs.Symbol.Substitution
import MapScript.Proofs.Symbol.Numbering
import MapScript.Proofs.Lands
import MapScript.Proofs.NulCharacter
import MapScript.Proofs.Symbol.Replaced
import MapScript.Proofs.Symbol.Spliced
import MapScript.Proofs.Symbol.Quiet
import MapScript.Proofs.HoistedParts
import MapScript.Proofs.CallsOnce
import MapScript.Proofs.Enduring
import MapScript.Proofs.SecondReading
import MapScript.Proofs.Lasting
