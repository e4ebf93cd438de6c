import Std.Data.ExtTreeMap
import Liveness.Graph.Key
import Liveness.Sorting

/-!
# The table of nodes

The table says for each state whether it was expanded and which points of the
tableau it was reached with, in the order in which they were first seen. A node
that an edge leads to is recorded with the node it was first reached from; once it
is written to the log, the table points to its latest record.
-/

namespace Liveness

/-- What is known of a node. -/
inductive Slot where
  /-- An edge leads to the node, or it is a root; it was never written. -/
  | recorded (parent : Option Key)
  /-- Its latest record is at this place of the log. -/
  | written (offset : Nat)
deriving DecidableEq, Repr

/-- What is known of the nodes of a state. -/
structure Row where
  /-- The state was expanded. -/
  done : Bool := false
  /-- Its nodes by their points, in the order first seen. -/
  slots : List (UInt32 × Slot) := []
deriving DecidableEq, Repr, Inhabited

namespace Row

/-- The points of the state's nodes, in the order first seen. -/
def points (r : Row) : List UInt32 := r.slots.map Prod.fst

/-- What is known of the node at a point. -/
def slot? (r : Row) (point : UInt32) : Option Slot := r.slots.lookup point

/-- The slots with that of a point changed in its place, or added at the end. -/
def putSlot (point : UInt32) (slot : Slot) : List (UInt32 × Slot) → List (UInt32 × Slot)
  | [] => [(point, slot)]
  | (p, t) :: rest => if p = point then (p, slot) :: rest else (p, t) :: putSlot point slot rest

/-- The row with the slot of a point changed or added. -/
def put (r : Row) (point : UInt32) (slot : Slot) : Row :=
  { r with slots := putSlot point slot r.slots }

end Row

/-- What is known of the nodes of all states. -/
abbrev Table := Std.ExtTreeMap Fingerprint Row

namespace Table

/-- The row of a state; a state that never occurred has an empty one. -/
def row (t : Table) (fp : Fingerprint) : Row := t.getD fp {}

/-- What is known of a node. -/
def slot? (t : Table) (k : Key) : Option Slot := (t.row k.fp).slot? k.point

/-- The table with the slot of a node changed or added. -/
def put (t : Table) (k : Key) (slot : Slot) : Table :=
  t.insert k.fp ((t.row k.fp).put k.point slot)

/-- The table with a state marked as expanded. -/
def setDone (t : Table) (fp : Fingerprint) : Table := t.insert fp { t.row fp with done := true }

/-- The keys of all nodes, by state and then by point. -/
def keys (t : Table) : List Key :=
  t.toList.flatMap fun (fp, row) => (sortBy (· ≤ ·) row.points).map (Key.mk fp)

end Table

end Liveness
