import Liveness.Store.Basic

/-!
# Checkpoints

A checkpoint lets a later run go on with the graph. It is taken in two phases:
`begin` writes the table, the roots and the length of the log to a draft, and
`commit` gives the draft the name of the checkpoint. `recover` reads the
checkpoint, cuts the log back to the length it had then, and restores the rest.

```text
"DPTR", version: 4, log length: 8, number of nodes: 8, at the last check: 8
number of roots: 4, the roots: fingerprint 8 and point 4 each
number of states: 8, each state: fingerprint 8, expanded 1, number of nodes 4,
  each node: point 4, then 0 (recorded), 1 and a parent (recorded), or 2 and a
  place in the log: 8 (written)
```

A recovery that fails leaves the store as it was.
-/

namespace Liveness

/-- What a checkpoint holds. -/
structure Snapshot where
  /-- The length of the log. -/
  logLen : Nat
  /-- The number of nodes. -/
  size : UInt64
  /-- The number of nodes at the last check. -/
  baseline : UInt64
  /-- The roots. -/
  roots : List Key
  /-- The states with their rows. -/
  rows : List (Fingerprint × Row)
deriving DecidableEq, Repr

namespace Snapshot

/-- The first bytes of a checkpoint. -/
def magic : List UInt8 := [0x44, 0x50, 0x54, 0x52]

/-- The version of the format. -/
def version : UInt32 := 1

/-- The bytes of what is known of a node. -/
def encodeSlot : Slot → List UInt8
  | .recorded none => [0]
  | .recorded (some parent) => 1 :: parent.encode
  | .written offset => 2 :: toBytes 8 offset

/-- The bytes of a node of a row. -/
def encodePoint (entry : UInt32 × Slot) : List UInt8 := bytes32 entry.1 ++ encodeSlot entry.2

/-- The bytes of a state with its row. -/
def encodeRow (entry : Fingerprint × Row) : List UInt8 :=
  bytes64 entry.1 ++ [if entry.2.done then 1 else 0] ++ toBytes 4 entry.2.slots.length ++
    entry.2.slots.flatMap encodePoint

/-- The bytes before the states. -/
def encodeHead (c : Snapshot) : List UInt8 :=
  magic ++ bytes32 version ++ toBytes 8 c.logLen ++ bytes64 c.size ++ bytes64 c.baseline ++
    toBytes 4 c.roots.length ++ c.roots.flatMap Key.encode

/-- The bytes of a checkpoint. -/
def encode (c : Snapshot) : List UInt8 :=
  c.encodeHead ++ toBytes 8 c.rows.length ++ c.rows.flatMap encodeRow

/-- Take what is known of a node; its record must lie in a log of the given
length. -/
def readSlot (logLen : Nat) : Reader Slot := do
  let tag ← Reader.byte
  if tag = 0 then return .recorded none
  else if tag = 1 then return .recorded (some (← Reader.key))
  else if tag = 2 then
    let offset ← Reader.number 8
    if logLen ≤ offset then throw (.corrupt offset .pointerBeyondLog)
    else return .written offset
  else Reader.fail (.slotTag tag)

/-- Take a node of a row. -/
def readPoint (logLen : Nat) : Reader (UInt32 × Slot) := do
  let point ← Reader.word32
  let slot ← readSlot logLen
  return (point, slot)

/-- Take a state with its row. -/
def readRow (logLen : Nat) : Reader (Fingerprint × Row) := do
  let fp ← Reader.word64
  let done ← Reader.byte
  let count ← Reader.number 4
  let slots ← Reader.many (readPoint logLen) count
  return (fp, { done := done != 0, slots := slots })

/-- Take the bytes before the states. -/
def readHead : Reader Snapshot := do
  if (← Reader.take 4) ≠ magic then Reader.fail .notCheckpoint
  else
    let found ← Reader.word32
    if found ≠ version then throw (.corrupt 4 (.version found))
    else
      let logLen ← Reader.number 8
      let size ← Reader.word64
      let baseline ← Reader.word64
      let count ← Reader.number 4
      let roots ← Reader.many Reader.key count
      return { logLen := logLen, size := size, baseline := baseline, roots := roots, rows := [] }

/-- Take a checkpoint; what follows it is ignored. -/
def reader : Reader Snapshot := do
  let head ← readHead
  let count ← Reader.number 8
  let rows ← Reader.many (readRow head.logLen) count
  return { head with rows := rows }

/-- The checkpoint in the bytes of a file. -/
def decode (bytes : List UInt8) : Outcome Snapshot := reader.read 0 bytes

/-- The table with the checkpoint's rows; of a repeated state the last row
counts. -/
def table (c : Snapshot) : Table := c.rows.foldl (fun t (fp, row) => t.insert fp row) ∅

end Snapshot

/-- An order of the states in the checkpoints of graphs: a table does not say in which one it is walked
through. -/
structure RowOrder where
  /-- The rows of the graph with an index, arranged. -/
  arrange : Nat → List (Fingerprint × Row) → List (Fingerprint × Row)
  perm : ∀ index rows, (arrange index rows).Perm rows

/-- The order of the fingerprints. -/
instance : Inhabited RowOrder := ⟨⟨fun _ rows => rows, fun _ _ => .refl _⟩⟩

namespace Store

/-- What a checkpoint of the store holds, with the states in the given order. -/
def snapshot (o : RowOrder) (s : Store) : Snapshot where
  logLen := s.log.len
  size := s.size
  baseline := s.baseline
  roots := s.roots
  rows := o.arrange s.index s.table.toList

/-- Fail because of a file operation. -/
def failFile {α : Type} (cause : FileError) : Change Store α := throw (.error (.file cause))

/-- Begin a checkpoint: write the draft. -/
def begin (o : RowOrder) : Change Store Unit := do
  let s ← get
  match s.draft with
  | .folder => failFile .isFolder
  | _ => set { s with draft := .file (s.snapshot o).encode.toArray }

/-- Commit a checkpoint: give the draft the name of the checkpoint. -/
def commit : Change Store Unit := do
  let s ← get
  match s.draft, s.checkpoint with
  | .absent, _ => failFile .notFound
  | .file _, .folder => failFile .isFolder
  | .folder, .file _ => failFile .notFolder
  | draft, _ => set { s with checkpoint := draft, draft := .absent }

/-- The path of the checkpoint. -/
def checkpointPath (s : Store) : String := s.folder ++ "/" ++ checkpointName s.index

/-- The store with the graph of a checkpoint. -/
def restore (s : Store) (c : Snapshot) : Store :=
  { s with
    log := s.log.truncate c.logLen
    table := c.table
    roots := c.roots
    size := c.size
    baseline := c.baseline }

/-- Read a checkpoint back. -/
def loadCheckpoint (s : Store) : Outcome Snapshot :=
  match s.checkpoint with
  | .absent => .error (.error (.missingCheckpoint s.checkpointPath))
  | .folder => .error (.error (.file .isFolder))
  | .file bytes => do
    let c ← Snapshot.decode bytes.toList
    if s.log.len < c.logLen then .error (.corrupt c.logLen .logTooShort) else .ok c

/-- Restore the graph of the last committed checkpoint. -/
def recover : Change Store Unit := do
  let s ← get
  let c ← Outcome.lift s.loadCheckpoint
  set (s.restore c)

end Store

end Liveness
