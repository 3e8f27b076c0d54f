import SqlLayout.Batch
import SqlLayout.Batch.Workers
import SqlLayout.CommandLine
import SqlLayout.Config
import SqlLayout.Dialect
import SqlLayout.Dialect.Cache
import SqlLayout.Discovery
import SqlLayout.Disk
import SqlLayout.Failure
import SqlLayout.FileTree
import SqlLayout.Format
import SqlLayout.Glob
import SqlLayout.Group
import SqlLayout.Group.Balance
import SqlLayout.Group.Reader
import SqlLayout.Keyword
import SqlLayout.Layout
import SqlLayout.Lexeme
import SqlLayout.Lexeme.Operator
import SqlLayout.Lexeme.Quoted
import SqlLayout.LineDiff
import SqlLayout.Main
import SqlLayout.Mode
import SqlLayout.Options
import SqlLayout.ParseError
import SqlLayout.Path
import SqlLayout.Registry
import SqlLayout.Registry.Shipped
import SqlLayout.Render
import SqlLayout.Report
import SqlLayout.Statement
import SqlLayout.Tape
import SqlLayout.Tape.Lexemes
import SqlLayout.Text.Case
import SqlLayout.Text.CaseData
import SqlLayout.Text.Utf8
import SqlLayout.Text.Whitespace
import SqlLayout.Token
import SqlLayout.Tokenize
import SqlLayout.Toml.Digits
import SqlLayout.Toml.Document
import SqlLayout.Toml.Moment
import SqlLayout.Toml.Quoted
import SqlLayout.Toml.Scalar
import SqlLayout.Toml.Table
import SqlLayout.Toml.Value
import SqlLayout.Vocabulary
import SqlLayout.Proofs.Drafting
import SqlLayout.Proofs.Cutting
import SqlLayout.Proofs.Casing
import SqlLayout.Proofs.Scanning
import SqlLayout.Proofs.Wording
import SqlLayout.Proofs.Joining
import SqlLayout.Proofs.Relining
import SqlLayout.Proofs.Respelling
import SqlLayout.Proofs.Safeguard
import SqlLayout.Proofs.Formatting
import SqlLayout.Proofs.RoundTrip
import SqlLayout.Proofs.Content
import SqlLayout.Proofs.Segments
import SqlLayout.Proofs.Spelling
import SqlLayout.Proofs.Literals
import SqlLayout.Proofs.Verbatim
import SqlLayout.Proofs.Document
import SqlLayout.Proofs.FixedPoint
import SqlLayout.Proofs.Script
import SqlLayout.Proofs.Comments
import SqlLayout.Proofs.Descent
import SqlLayout.Proofs.Clauses
import SqlLayout.Proofs.Grammar
import SqlLayout.Proofs.Brackets
import SqlLayout.Proofs.Nesting
import SqlLayout.Proofs.Places
import SqlLayout.Proofs.Overwriting
import SqlLayout.Proofs.Batching
import SqlLayout.Proofs.Weaving
import SqlLayout.Proofs.Erasing
import SqlLayout.Proofs.Caching
import SqlLayout.Proofs.Interleaving
import SqlLayout.Proofs.Contending
import SqlLayout.Proofs.Tiling
import SqlLayout.Proofs.Regapping
import SqlLayout.Proofs.Succession
import SqlLayout.Proofs.Rewinding
import SqlLayout.Proofs.Boundaries
import SqlLayout.Proofs.Positions
import SqlLayout.Proofs.Enclosing
import SqlLayout.Proofs.Discovering
import SqlLayout.Proofs.Distance
import SqlLayout.Proofs.Layering
import SqlLayout.Proofs.Separating
import SqlLayout.Proofs.Faults
import SqlLayout.Proofs.Levels
import SqlLayout.Proofs.Operands
import SqlLayout.Proofs.Framing
import SqlLayout.Proofs.Ascending
import SqlLayout.Proofs.Retrieving
import SqlLayout.Proofs.Closing
