import Liveness.Store.Log
import Liveness.Store.Table

/-!
# The store of a behaviour graph

The graph of one property: its nodes in a log, the table that finds them, and its
roots. The number of nodes is counted as they are added, and the number at the
last check is remembered, so that the checker can tell how much the graph has
grown.

Beside the log the store has a checkpoint file with its draft, and drawings. A name of these may
be taken by a folder, and the file cannot be written then. No other failure to write is modelled,
and `Store.addNode` has none.
-/

namespace Liveness

/-- What a name in the store's folder stands for. -/
inductive Entry where
  /-- Nothing. -/
  | absent
  /-- A file. -/
  | file (bytes : Bytes)
  /-- Another folder, which is empty. -/
  | folder
deriving DecidableEq, Repr

/-- The drawings of a graph. -/
structure Drawings where
  /-- The names in the folder that other folders have taken. -/
  taken : List String := []
  /-- The drawings by their numbers. -/
  texts : List (Nat × String) := []
deriving DecidableEq, Repr

/-- The graph of one property. -/
structure Store where
  /-- The folder of the files. -/
  folder : String
  /-- The number of the property. -/
  index : Nat
  /-- The records of the nodes. -/
  log : Log := {}
  /-- Where the nodes are. -/
  table : Table := ∅
  /-- The roots, in the order added. -/
  roots : List Key := []
  /-- The number of nodes. -/
  size : UInt64 := 0
  /-- The number of nodes at the last check, and at least one. -/
  baseline : UInt64 := 1
  /-- The committed checkpoint. -/
  checkpoint : Entry := .absent
  /-- The checkpoint that was begun. -/
  draft : Entry := .absent
  /-- The drawings. -/
  drawings : Drawings := {}

namespace Store

/-- The name of the log of graph `index`. -/
def logName (index : Nat) : String := "dgraph_" ++ toString index

/-- The name of the checkpoint of graph `index`. -/
def checkpointName (index : Nat) : String := "dptr_" ++ toString index

/-- The name of the draft of a checkpoint of graph `index`. -/
def draftName (index : Nat) : String := checkpointName index ++ ".tmp"

/-- The name of drawing `number` of graph `index`. -/
def drawingName (index number : Nat) : String :=
  "dgraph_" ++ toString index ++ "_" ++ toString number ++ ".dot"

/-- What a name stands for at first, given the names taken by folders. -/
def entryAt (taken : List String) (name : String) : Entry :=
  if taken.contains name then .folder else .absent

/-- An empty store in a folder in which some names are taken by other folders. -/
def create (folder : String) (taken : List String) (index : Nat) : Outcome Store :=
  if taken.contains (logName index) then .error (.error (.file .isFolder))
  else .ok {
    folder := folder
    index := index
    checkpoint := entryAt taken (checkpointName index)
    draft := entryAt taken (draftName index)
    drawings := { taken := taken } }

/-- The store with the graph forgotten and the log continued at the end of its
file, as when its files are opened again. -/
def reopen (s : Store) : Store :=
  { s with log := .ofFile s.log.file, table := ∅, roots := [], size := 0, baseline := 1 }

/-- What is known of a node. -/
def slot? (s : Store) (k : Key) : Option Slot := s.table.slot? k

/-- Whether no edge leads to a node and it is no root. -/
def isUnseen (s : Store) (k : Key) : Bool := (s.slot? k).isNone

/-- Whether a node was written. -/
def isWritten (s : Store) (k : Key) : Bool :=
  match s.slot? k with
  | some (.written _) => true
  | _ => false

/-- Add a node that was never seen. -/
def insert (s : Store) (k : Key) (slot : Slot) : Store :=
  { s with table := s.table.put k slot, size := s.size + 1 }

/-- Record that an edge leads from `parent` to a node; the first parent stays. -/
def record (s : Store) (k parent : Key) : Store :=
  if s.isUnseen k then s.insert k (.recorded (some parent)) else s

/-- Record a node, and tell whether it was never seen before. -/
def recordNew (s : Store) (k parent : Key) : Bool × Store := (s.isUnseen k, s.record k parent)

/-- Make a node a root. -/
def addRoot (s : Store) (k : Key) : Store :=
  let s := if s.isUnseen k then s.insert k (.recorded none) else s
  if s.roots.contains k then s else { s with roots := s.roots ++ [k] }

/-- The node with a key: its latest record, or a node without steps. -/
def node (s : Store) (k : Key) : Outcome Node :=
  match s.slot? k with
  | some (.written offset) => s.log.read offset
  | some (.recorded parent) => .ok { key := k, parent := parent }
  | none => .ok { key := k, parent := none }

/-- Write a node; it replaces what was written with its key. -/
def addNode (s : Store) (n : Node) : Store :=
  let (offset, log) := s.log.append n.encode
  let s := { s with log := log }
  if s.isUnseen n.key then s.insert n.key (.written offset)
  else { s with table := s.table.put n.key (.written offset) }

/-- Whether a state was expanded. -/
def isDone (s : Store) (fp : Fingerprint) : Bool := (s.table.row fp).done

/-- Mark a state as expanded. -/
def setDone (s : Store) (fp : Fingerprint) : Store := { s with table := s.table.setDone fp }

/-- The points of a state's nodes, in the order first seen. -/
def pointsAt (s : Store) (fp : Fingerprint) : List UInt32 := (s.table.row fp).points

/-- The keys of all nodes, by state and then by point. -/
def keys (s : Store) : List Key := s.table.keys

/-- Remember the number of nodes as that of the last check. -/
def markChecked (s : Store) : Store := { s with baseline := max s.size 1 }

/-- The growth since the last check, relative to the size then. -/
def growth (s : Store) : Float :=
  (s.size.toFloat - s.baseline.toFloat) / s.baseline.toFloat

/-- Forget all nodes. -/
def reset (s : Store) : Store :=
  { s with log := s.log.truncate 0, table := ∅, roots := [], size := 0, baseline := 1 }

end Store

end Liveness
