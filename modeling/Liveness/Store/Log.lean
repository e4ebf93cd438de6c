import Liveness.Graph.Record
import Liveness.Store.File

/-!
# The log of records

Nodes are kept in a file that only grows: a record is the length of a node's bytes
and the bytes. A node that changes gets a new record, and the old one stays behind
unused.

A log knows how long it is by itself, and writes at that place. A file that was
cut or extended by someone else is noticed only when the bytes of a record are not
there. To write never fails: a disk that is full or lost is not modelled, so what is
said of all calls is said of those whose records could be written.
-/

namespace Liveness

/-- The records of a graph's nodes. -/
structure Log where
  /-- The bytes of the file. -/
  file : File := .empty
  /-- Where the next record goes. -/
  len : Nat := 0
deriving DecidableEq, Repr

namespace Log

/-- The bytes before the node of a record. -/
def headLen : Nat := 4

/-- The log on a file, to be continued at its end. -/
def ofFile (file : File) : Log := ⟨file, file.size⟩

/-- Append a record: where it is, and the log with it. -/
def append (l : Log) (body : List UInt8) : Nat × Log :=
  (l.len, ⟨l.file.write l.len (toBytes headLen body.length ++ body), l.len + headLen + body.length⟩)

/-- How many bytes of a long record are looked at first. -/
def frontLen : Nat := 65536

/-- Whether the node of a long record ends within the first bytes, and the record goes on. -/
def endsEarly (l : Log) (offset bodyLen : Nat) : Bool :=
  if frontLen < bodyLen ∧ offset + headLen + bodyLen ≤ l.file.size then
    match Node.decode offset (l.file.slice (offset + headLen) frontLen) with
    | .error (.corrupt _ .trailing) => true
    | _ => false
  else false

/-- The node of the record at a place. A record that goes on after its node is damaged, and the rest of
a long one is not looked at then. -/
def read (l : Log) (offset : Nat) : Outcome Node :=
  if l.len < offset + headLen then .error (.corrupt offset (.beyondLog l.len))
  else do
    let head ← l.file.read offset headLen
    let bodyLen := ofBytes head
    if l.len < offset + headLen + bodyLen then .error (.corrupt offset (.overrun bodyLen))
    else if l.endsEarly offset bodyLen then .error (.corrupt offset .trailing)
    else
      let body ← l.file.read (offset + headLen) bodyLen
      Node.decode offset body

/-- Cut the log, and with it the file, to a length. -/
def truncate (l : Log) (n : Nat) : Log := ⟨l.file.resize n, n⟩

end Log

end Liveness
