import BuildScript.Json.Script
import BuildScript.Main
import BuildScript.Proofs.CommandLine.Directory
import BuildScript.Proofs.CommandLine.Modes
import BuildScript.Proofs.Expr.Balance
import BuildScript.Proofs.Expr.Counted
import BuildScript.Proofs.Expr.Enumerated
import BuildScript.Proofs.Expr.Every
import BuildScript.Proofs.Expr.Grouped
import BuildScript.Proofs.Expr.Marks
import BuildScript.Proofs.Expr.Offers
import BuildScript.Proofs.Expr.Place
import BuildScript.Proofs.Expr.Positions
import BuildScript.Proofs.Expr.Refused
import BuildScript.Proofs.Expr.Rewrite
import BuildScript.Proofs.Expr.Shrinking
import BuildScript.Proofs.Expr.Slot
import BuildScript.Proofs.Expr.Spans
import BuildScript.Proofs.Expr.Strip
import BuildScript.Proofs.Expr.Stripping
import BuildScript.Proofs.Expr.Traversal
import BuildScript.Proofs.Json.Reordered
import BuildScript.Proofs.Json.RoundTrip
import BuildScript.Proofs.Layout.Around
import BuildScript.Proofs.Layout.Attached
import BuildScript.Proofs.Layout.Broken
import BuildScript.Proofs.Layout.Canonical
import BuildScript.Proofs.Layout.Entries
import BuildScript.Proofs.Layout.Fused
import BuildScript.Proofs.Layout.Idempotent
import BuildScript.Proofs.Layout.Kept
import BuildScript.Proofs.Layout.Layered
import BuildScript.Proofs.Layout.LineCount
import BuildScript.Proofs.Layout.Lines
import BuildScript.Proofs.Layout.Meaning
import BuildScript.Proofs.Layout.Minimal
import BuildScript.Proofs.Layout.Misfits
import BuildScript.Proofs.Layout.Paragraphs
import BuildScript.Proofs.Layout.Placing
import BuildScript.Proofs.Layout.Quiet
import BuildScript.Proofs.Layout.Relined
import BuildScript.Proofs.Layout.Reread
import BuildScript.Proofs.Layout.Respaced
import BuildScript.Proofs.Layout.RoundTrip
import BuildScript.Proofs.Layout.Settled
import BuildScript.Proofs.Layout.Spelled
import BuildScript.Proofs.Layout.Stripped
import BuildScript.Proofs.Layout.Tidy
import BuildScript.Proofs.Parse.Begins
import BuildScript.Proofs.Parse.Blanked
import BuildScript.Proofs.Parse.Carried
import BuildScript.Proofs.Parse.Comments
import BuildScript.Proofs.Parse.Complete
import BuildScript.Proofs.Parse.Concat
import BuildScript.Proofs.Parse.Enclosed
import BuildScript.Proofs.Parse.Failing
import BuildScript.Proofs.Parse.Fork
import BuildScript.Proofs.Parse.ForkLevels
import BuildScript.Proofs.Parse.ForkStatements
import BuildScript.Proofs.Parse.ForkTokens
import BuildScript.Proofs.Parse.Gap
import BuildScript.Proofs.Parse.LineEnds
import BuildScript.Proofs.Parse.Load
import BuildScript.Proofs.Parse.Marked
import BuildScript.Proofs.Parse.Moved
import BuildScript.Proofs.Parse.Nodes
import BuildScript.Proofs.Parse.Offending
import BuildScript.Proofs.Parse.Places
import BuildScript.Proofs.Parse.Progress
import BuildScript.Proofs.Parse.Quoted
import BuildScript.Proofs.Parse.Reading
import BuildScript.Proofs.Parse.Scan
import BuildScript.Proofs.Parse.Slice
import BuildScript.Proofs.Parse.Sound
import BuildScript.Proofs.Parse.Statement
import BuildScript.Proofs.Parse.Symbol
import BuildScript.Proofs.Parse.Token
import BuildScript.Proofs.Parse.Torn
import BuildScript.Proofs.Parse.Tracked
import BuildScript.Proofs.Parse.Word
import BuildScript.Proofs.Parse.Written
import BuildScript.Session
