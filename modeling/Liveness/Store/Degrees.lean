import Liveness.Store.Basic
import Liveness.Histogram

/-!
# Degrees of a graph

How many steps lead out of each node, and how many lead into it. A step may lead to
a node that is in no table; it counts as a node too.
-/

namespace Liveness.Store

/-- All nodes, in the order of their keys. -/
def nodes (s : Store) : Outcome (List Node) := s.keys.mapM s.node

/-- Add degrees to a histogram. -/
def tally (h : Histogram) (degrees : Outcome (List UInt64)) : Outcome Histogram := do
  let (result, h) := h.addAll (← degrees)
  let _ ← Fault.ofDefect result
  return h

end Liveness.Store
