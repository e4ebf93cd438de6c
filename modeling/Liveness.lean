import Liveness.Bytes
import Liveness.Bits
import Liveness.Sorting
import Liveness.Fingerprint
import Liveness.Text.Quoted
import Liveness.Text.Blank
import Liveness.Decimal.Fixed
import Liveness.Decimal.Reading
import Liveness.Valuation
import Liveness.Graph.Key
import Liveness.Defect
import Liveness.Histogram
import Liveness.Warning
import Liveness.Config
import Liveness.Signal
import Liveness.Tableau
import Liveness.Property
import Liveness.Model
import Liveness.Lasso
import Liveness.Fault
import Liveness.Graph.Node
import Liveness.Reader
import Liveness.Graph.Record
import Liveness.Store.File
import Liveness.Store.Log
import Liveness.Store.Table
import Liveness.Store.Basic
import Liveness.Store.Checkpoint
import Liveness.Store.Path
import Liveness.Store.Degrees
import Liveness.Store.Drawing
import Liveness.Cycle.Arena
import Liveness.Cycle.Components
import Liveness.Cycle.Walk
import Liveness.Cycle.Search
import Liveness.Builder.Basic
import Liveness.Builder.Late
import Liveness.Builder.Next
import Liveness.Counterexample
import Liveness.Round
import Liveness.Checker
import Liveness.Proofs.Outcome
import Liveness.Proofs.Reachability
import Liveness.Proofs.Cycle.Descent
import Liveness.Proofs.Cycle.Components
import Liveness.Proofs.Bits
import Liveness.Proofs.Reader
import Liveness.Proofs.Property
import Liveness.Proofs.Tableau
import Liveness.Proofs.Graph.Node
import Liveness.Proofs.Graph.Record
import Liveness.Proofs.Graph.Built
import Liveness.Proofs.Graph.Cut
import Liveness.Proofs.Store.Table
import Liveness.Proofs.Store.File
import Liveness.Proofs.Store.Log
import Liveness.Proofs.Store.View
import Liveness.Proofs.Store.Keys
import Liveness.Proofs.Store.Path
import Liveness.Proofs.Store.Overlong
import Liveness.Proofs.Store.Ancestry
import Liveness.Proofs.Store.Reach
import Liveness.Proofs.Store.Edit
import Liveness.Proofs.Store.Plain
import Liveness.Proofs.Store.Snapshot
import Liveness.Proofs.Store.Recovery
import Liveness.Proofs.Cycle.Walk
import Liveness.Proofs.Cycle.Arena
import Liveness.Proofs.Cycle.Tour
import Liveness.Proofs.Cycle.Search
import Liveness.Proofs.Lasso
import Liveness.Proofs.Builder.Lawful
import Liveness.Proofs.Builder.Behaviour
import Liveness.Proofs.Builder.Rules
import Liveness.Proofs.Builder.Frame
import Liveness.Proofs.Builder.Draft
import Liveness.Proofs.Builder.Known
import Liveness.Proofs.Builder.Tracking
import Liveness.Proofs.Builder.Initial
import Liveness.Proofs.Builder.Late
import Liveness.Proofs.Builder.Next
import Liveness.Proofs.Builder.Turn
import Liveness.Proofs.Counterexample
import Liveness.Proofs.Monitor
import Liveness.Proofs.Monitor.Calls
import Liveness.Proofs.Monitor.Ancestry
import Liveness.Proofs.Monitor.Provenance
import Liveness.Proofs.Product
import Liveness.Proofs.Round
import Liveness.Proofs.Checker.Calls
import Liveness.Proofs.Checker.Exhaustive
import Liveness.Proofs.Checker.Report
import Liveness.Proofs.Checker.Trace
import Liveness.Proofs.Checker.Workers
import Liveness.Proofs.Store.Reading
import Liveness.Proofs.Builder.Safe
import Liveness.Proofs.Monitor.Safe
import Liveness.Proofs.Store.Rollback
import Liveness.Proofs.Checker.Checkpoint
import Liveness.Proofs.Monitor.Plain
import Liveness.Proofs.Monitor.Revisit
import Liveness.Proofs.Monitor.Retrace
import Liveness.Proofs.Checker.Retrace
import Liveness.Proofs.Monitor.Orders
import Liveness.Proofs.Cycle.Evidence
import Liveness.Proofs.Lasso.Normal
import Liveness.Proofs.Graph.Canonical
import Liveness.Proofs.Graph.Damage
import Liveness.Proofs.Store.Refusal
import Liveness.Proofs.Monitor.Stutter
import Liveness.Proofs.Monitor.Idle
import Liveness.Proofs.Builder.Blind
import Liveness.Proofs.Builder.Worklist
import Liveness.Proofs.Monitor.Growth
import Liveness.Proofs.Store.Chain
import Liveness.Proofs.Monitor.LateRoots
import Liveness.Proofs.Counterexample.Replay
import Liveness.Proofs.Degrees
import Liveness.Proofs.Graph.Buffer
import Liveness.Proofs.Checker.Isolation
import Liveness.Proofs.Fingerprint
import Liveness.Proofs.Fingerprint.Remainder
import Liveness.Proofs.Valuation
import Liveness.Proofs.Histogram
import Liveness.Proofs.Histogram.Merge
import Liveness.Proofs.Cycle.Shortest
import Liveness.Proofs.Bits.Words
