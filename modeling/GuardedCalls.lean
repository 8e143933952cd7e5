import GuardedCalls.Main
import GuardedCalls.Proofs.Scan.Stretch
import GuardedCalls.Proofs.Rules.Validation
import GuardedCalls.Proofs.Scan.Site
import GuardedCalls.Proofs.Rewrite.Call
import GuardedCalls.Proofs.Rewrite.Helper
import GuardedCalls.Proofs.Rewrite.Line
import GuardedCalls.Proofs.Rewrite.Splice
import GuardedCalls.Proofs.Rewrite.Standing
import GuardedCalls.Proofs.Rewrite.Batch
import GuardedCalls.Proofs.Rewrite.Order
import GuardedCalls.Proofs.Rewrite.Findings
import GuardedCalls.Proofs.Rewrite.Applied
import GuardedCalls.Proofs.Rewrite.Substitution
import GuardedCalls.Proofs.Rewrite.Survival
import GuardedCalls.Proofs.Rewrite.Inserted
import GuardedCalls.Proofs.Rewrite.Repeat
import GuardedCalls.Proofs.Rewrite.Passes
import GuardedCalls.Proofs.Rewrite.FreeForm
import GuardedCalls.Proofs.Rewrite.Protection
import GuardedCalls.Proofs.Rewrite.Visible
import GuardedCalls.Proofs.Text.Utf8
import GuardedCalls.Proofs.Tree.Basic
import GuardedCalls.Proofs.Tree.Shape
import GuardedCalls.Proofs.Tree.Walk
import GuardedCalls.Proofs.Tree.Path
import GuardedCalls.Proofs.Tree.Replace
import GuardedCalls.Proofs.Workspace.Discovery
import GuardedCalls.Proofs.Workspace.Entry
import GuardedCalls.Proofs.Workspace.Fix
import GuardedCalls.Proofs.Workspace.Convergence
import GuardedCalls.Proofs.Workspace.Independence
import GuardedCalls.Proofs.Workspace.Agreement
import GuardedCalls.Proofs.Workspace.Confinement
import GuardedCalls.Proofs.Rewrite.LineEnding
import GuardedCalls.Proofs.Json.Scalar
import GuardedCalls.Proofs.Json.Reader
import GuardedCalls.Proofs.Report.Document
import GuardedCalls.Proofs.Tree.Write
import GuardedCalls.Proofs.Workspace.Store
import GuardedCalls.Proofs.Rewrite.Pieces
import GuardedCalls.Proofs.Rewrite.Placement
import GuardedCalls.Proofs.Tree.Extension
import GuardedCalls.Proofs.Workspace.Extension
import GuardedCalls.Proofs.Workspace.Size
import GuardedCalls.Proofs.Command.Gate
import GuardedCalls.Proofs.Rewrite.Names
import GuardedCalls.Proofs.Rewrite.Presence
import GuardedCalls.Proofs.Scan.Receiver
import GuardedCalls.Proofs.Scan.Position
import GuardedCalls.Proofs.Scan.Context
import GuardedCalls.Proofs.Scan.Lines
import GuardedCalls.Proofs.Scan.Selection
import GuardedCalls.Proofs.Rules.Blame
import GuardedCalls.Proofs.Text.Order
import GuardedCalls.Proofs.Report.Summary
import GuardedCalls.Proofs.Workspace.Guard
import GuardedCalls.Proofs.Tree.Rearranged
import GuardedCalls.Proofs.Workspace.Search
import GuardedCalls.Proofs.Tree.Spot
import GuardedCalls.Proofs.Tree.Atomic
