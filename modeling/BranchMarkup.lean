import BranchMarkup.Branch
import BranchMarkup.Chain
import BranchMarkup.Chain.Shape
import BranchMarkup.Chain.Weight
import BranchMarkup.Command
import BranchMarkup.Command.Arguments
import BranchMarkup.Command.Report
import BranchMarkup.Diagnostic
import BranchMarkup.Diagnostic.Sheet
import BranchMarkup.Disk
import BranchMarkup.Disk.Tree
import BranchMarkup.Evaluate
import BranchMarkup.Evaluate.Lazy
import BranchMarkup.Fault
import BranchMarkup.Form
import BranchMarkup.Json
import BranchMarkup.Json.Fault
import BranchMarkup.Json.Read
import BranchMarkup.Json.Scan
import BranchMarkup.Json.Shape
import BranchMarkup.Json.Skip
import BranchMarkup.Main
import BranchMarkup.Number.Binary64
import BranchMarkup.Number.Power
import BranchMarkup.Number.Read
import BranchMarkup.Number.Shortest
import BranchMarkup.Number.Write
import BranchMarkup.Outcome
import BranchMarkup.Parser
import BranchMarkup.Parser.Expr
import BranchMarkup.Parser.State
import BranchMarkup.Path
import BranchMarkup.Printer
import BranchMarkup.Printer.Excerpt
import BranchMarkup.Printer.Piece
import BranchMarkup.Project
import BranchMarkup.Project.Files
import BranchMarkup.Proofs.Building
import BranchMarkup.Proofs.Meaning
import BranchMarkup.Proofs.Terminal
import BranchMarkup.Proofs.Walk
import BranchMarkup.Rewrite
import BranchMarkup.Rewrite.Error
import BranchMarkup.Span
import BranchMarkup.Text.Blank
import BranchMarkup.Text.Bytes
import BranchMarkup.Text.Hidden
import BranchMarkup.Text.Printable
import BranchMarkup.Text.Ranges
import BranchMarkup.Text.Tidy
import BranchMarkup.Text.Width
import BranchMarkup.Token
import BranchMarkup.Token.Scanner
import BranchMarkup.Tree
import BranchMarkup.Tree.Branches
import BranchMarkup.Tree.Decode
import BranchMarkup.Tree.Encode
import BranchMarkup.Tree.Parts
import BranchMarkup.Tree.Read
import BranchMarkup.Tree.Schema
import BranchMarkup.Value
import BranchMarkup.Proofs.Reading.Cursor
import BranchMarkup.Proofs.Reading.Grammar
import BranchMarkup.Proofs.Reading.Frame
import BranchMarkup.Proofs.Reading.Sound
import BranchMarkup.Proofs.Legible
import BranchMarkup.Proofs.Reading.Legible
import BranchMarkup.Proofs.Failure
import BranchMarkup.Proofs.Malformed
import BranchMarkup.Proofs.Reading.Complete
import BranchMarkup.Proofs.Reading.Extent
import BranchMarkup.Proofs.Reading.Tokens
import BranchMarkup.Proofs.Reading.Quote
import BranchMarkup.Proofs.Reading.Place
import BranchMarkup.Printer.Levels
import BranchMarkup.Proofs.Printing.Comments
import BranchMarkup.Tree.Bare
import BranchMarkup.Proofs.Printing.Operand
import BranchMarkup.Proofs.Printing.Expr
import BranchMarkup.Proofs.Printing.Markup
import BranchMarkup.Proofs.Printing.Tree
import BranchMarkup.Proofs.Printing.Imports
import BranchMarkup.Proofs.Printing.Statement
import BranchMarkup.Proofs.Printing.Program
import BranchMarkup.Proofs.Rewritten
import BranchMarkup.Proofs.Roundtrip
import BranchMarkup.Proofs.Nesting
import BranchMarkup.Proofs.Idempotent
import BranchMarkup.Proofs.Flaw
import BranchMarkup.Proofs.Blame
import BranchMarkup.Proofs.Tidy
import BranchMarkup.Proofs.Texts
import BranchMarkup.Proofs.Lines
import BranchMarkup.Proofs.Collapse
import BranchMarkup.Proofs.Alike
import BranchMarkup.Proofs.Ignorable
import BranchMarkup.Proofs.Json.Scalars
import BranchMarkup.Proofs.Json.Written
import BranchMarkup.Proofs.Json.Fits
import BranchMarkup.Proofs.Json.Schema
import BranchMarkup.Proofs.Forms
import BranchMarkup.Proofs.Ledger
import BranchMarkup.Proofs.References
import BranchMarkup.Proofs.Reading.Unmarked
import BranchMarkup.Proofs.Reading.Nested
import BranchMarkup.Proofs.Reading.Layout
import BranchMarkup.Proofs.Mapped
import BranchMarkup.Proofs.Printing.Bare
import BranchMarkup.Proofs.Reprinted
import BranchMarkup.Proofs.Limit
import BranchMarkup.Proofs.Descent
import BranchMarkup.Proofs.Grouping
import BranchMarkup.Proofs.Projects.Growth
import BranchMarkup.Proofs.Projects.Repeats
import BranchMarkup.Proofs.Projects.Search
import BranchMarkup.Proofs.Projects.Rerun
import BranchMarkup.Proofs.Enclosed
import BranchMarkup.Proofs.Reading.Fuel
import BranchMarkup.Proofs.Reading.Loops
import BranchMarkup.Proofs.Ending
import BranchMarkup.Proofs.Reading.Borders
import BranchMarkup.Proofs.Reading.Spans
import BranchMarkup.Proofs.Reading.Edges
import BranchMarkup.Proofs.Extents
import BranchMarkup.Proofs.Number.Exact
import BranchMarkup.Proofs.Number.Whole
import BranchMarkup.Proofs.Projects.Settings
import BranchMarkup.Proofs.Marked
import BranchMarkup.Proofs.Arms
import BranchMarkup.Proofs.Reading.Steps
import BranchMarkup.Proofs.Reading.Goes
import BranchMarkup.Proofs.Reading.Written
import BranchMarkup.Proofs.Reading.Depth
import BranchMarkup.Proofs.Counted
import BranchMarkup.Proofs.Reading.Lexemes
import BranchMarkup.Proofs.Lossless
import BranchMarkup.Proofs.Reading.Spelled
import BranchMarkup.Proofs.Shaped
