import QueryBlocks.Main
import QueryBlocks.Script.Same
import QueryBlocks.Script.Walk
import QueryBlocks.Proofs.Parser.Agree
import QueryBlocks.Proofs.Script.Advance
import QueryBlocks.Proofs.Script.Bare
import QueryBlocks.Proofs.Script.Places
import QueryBlocks.Proofs.Parser.Ensures
import QueryBlocks.Proofs.Script.Sound
import QueryBlocks.Proofs.Script.Lexeme
import QueryBlocks.Proofs.Script.Follow
import QueryBlocks.Proofs.Script.Spelling
import QueryBlocks.Proofs.Script.Written
import QueryBlocks.Proofs.Script.Lead
import QueryBlocks.Proofs.Script.Lines
import QueryBlocks.Proofs.Script.Statements
import QueryBlocks.Proofs.Script.Blocks
import QueryBlocks.Proofs.Script.Members
import QueryBlocks.Proofs.Script.RoundTrip
import QueryBlocks.Proofs.Site.Matched
import QueryBlocks.Proofs.Site.Refill
import QueryBlocks.Proofs.Query.Category
import QueryBlocks.Proofs.Expansion
import QueryBlocks.Proofs.Query.Checked
import QueryBlocks.Proofs.Query.Written
import QueryBlocks.Proofs.Program.Tree
import QueryBlocks.Proofs.Program.Layout
import QueryBlocks.Proofs.Program.Spelling
import QueryBlocks.Proofs.Script.Parsed
import QueryBlocks.Proofs.Query.Valid
import QueryBlocks.Proofs.Program.ReadBack
import QueryBlocks.Proofs.Query.Order
import QueryBlocks.Proofs.Program.Prepared
import QueryBlocks.Proofs.Query.Summary
import QueryBlocks.Proofs.Program.Slots
import QueryBlocks.Proofs.Program.Legible
import QueryBlocks.Proofs.Rejection
import QueryBlocks.Proofs.Script.Unplaced
import QueryBlocks.Proofs.Query.Unplaced
import QueryBlocks.Proofs.Site.Transfer
import QueryBlocks.Proofs.Stable
import QueryBlocks.Proofs.Resolution
import QueryBlocks.Proofs.Query.Classified
import QueryBlocks.Proofs.Query.Reported
import QueryBlocks.Proofs.Query.Inequality
import QueryBlocks.Proofs.Query.Sorted
import QueryBlocks.Proofs.Script.ClosureFree
import QueryBlocks.Proofs.Script.Command
import QueryBlocks.Proofs.Query.Accounted
import QueryBlocks.Proofs.Parser.Append
import QueryBlocks.Proofs.Script.Newline
import QueryBlocks.Proofs.Script.Choice
import QueryBlocks.Proofs.Script.LineBelow
import QueryBlocks.Proofs.Script.Concat
import QueryBlocks.Proofs.Text.Edits
import QueryBlocks.Proofs.Schema.Suggestion
import QueryBlocks.Proofs.Parser.Parallel
import QueryBlocks.Proofs.Script.Pairing
import QueryBlocks.Proofs.Script.InStep
import QueryBlocks.Proofs.Script.Progress
import QueryBlocks.Proofs.Position
import QueryBlocks.Proofs.Script.LineEnds
import QueryBlocks.Proofs.Parser.Gives
import QueryBlocks.Proofs.Script.Located
import QueryBlocks.Proofs.Query.Pointed
import QueryBlocks.Proofs.Reporting
import QueryBlocks.Proofs.Script.Literals
