import Liveness.Defect
import Liveness.Lasso

/-!
# Faults

An operation that does not return a result ends in a fault: an error, which its
caller should expect, or a defect, which means that the library was misused or
that its files were replaced by others.
-/

namespace Liveness

/-- Why a file operation fails. -/
inductive FileError where
  /-- There is no such file. -/
  | notFound
  /-- A folder has the name of the file. -/
  | isFolder
  /-- A file has the name of the folder. -/
  | notFolder
  /-- The file ends before the bytes that were asked for. -/
  | tooShort
deriving DecidableEq, Repr

/-- The text of a failed file operation. -/
def FileError.message : FileError → String
  | notFound => "No such file or directory (os error 2)"
  | isFolder => "Is a directory (os error 21)"
  | notFolder => "Not a directory (os error 20)"
  | tooShort => "failed to fill whole buffer"

/-- What is wrong with stored bytes. -/
inductive Damage where
  /-- At byte `position` there are not `needed` more bytes. -/
  | truncated (needed position : Nat)
  /-- The mark of a node's parent is neither zero nor one. -/
  | parentTag (tag : UInt8)
  /-- The words of a node's steps do not make whole steps. -/
  | raggedSteps
  /-- Bytes follow the end of a record. -/
  | trailing
  /-- A record is said to start beyond the end of the log. -/
  | beyondLog (len : Nat)
  /-- A record is said to be longer than the rest of the log. -/
  | overrun (len : Nat)
  /-- The file does not start as a checkpoint does. -/
  | notCheckpoint
  /-- The checkpoint has another version. -/
  | version (found : UInt32)
  /-- A checkpointed record lies beyond the checkpointed log. -/
  | pointerBeyondLog
  /-- The mark of a table entry is none of the three. -/
  | slotTag (tag : UInt8)
  /-- The log is shorter than when the checkpoint was made. -/
  | logTooShort
  /-- The parents of a node lead round in a circle. -/
  | parentCycle (node : Key)
deriving DecidableEq, Repr

/-- The text of a damage. -/
def Damage.message : Damage → String
  | truncated needed position =>
    "truncated record (need " ++ toString needed ++ " bytes at " ++ toString position ++ ")"
  | parentTag tag => "bad parent tag " ++ toString tag.toNat
  | raggedSteps => "transition words not a multiple of the element length"
  | trailing => "trailing bytes after record"
  | beyondLog len => "offset beyond end of log (" ++ toString len ++ ")"
  | overrun len => "record length " ++ toString len ++ " overruns log"
  | notCheckpoint => "not a pointer table checkpoint"
  | version found => "unsupported checkpoint version " ++ toString found.toNat
  | pointerBeyondLog => "checkpointed pointer beyond log"
  | slotTag tag => "bad slot tag " ++ toString tag.toNat
  | logTooShort => "graph file shorter than checkpoint"
  | parentCycle node => "parent cycle through " ++ node.describe

/-- A violation of a property, without the states themselves. -/
structure Violation where
  /-- The name of the property. -/
  property : String
  /-- The fingerprints of the counterexample's states. -/
  path : List Fingerprint
  /-- How the counterexample goes on from its last state. -/
  ending : Ending
  /-- The counterexample in print. -/
  text : String
deriving DecidableEq, Repr

/-- A failure that a caller should expect. -/
inductive Error where
  /-- A file could not be read or written. -/
  | file (cause : FileError)
  /-- Stored bytes cannot be read; `offset` is where they start. -/
  | corrupt (offset : Nat) (damage : Damage)
  /-- No checkpoint was committed at `path`. -/
  | missingCheckpoint (path : String)
  /-- A node that the graph refers to is not in it. -/
  | unknownNode (node : Key)
  /-- A counterexample could not be put together. -/
  | reconstruction (cause : Reconstruction)
  /-- The behaviour to check has no states. -/
  | emptyTrace
  /-- The search of a property failed. -/
  | searchFailed (property message : String)
  /-- A property was found violated while the graph grew. -/
  | violated (violation : Violation)
  /-- The behaviour to check violates a property. -/
  | traceViolated (violation : Violation)
deriving DecidableEq, Repr

/-- The text of an error. -/
def Error.message : Error → String
  | file cause => "disk graph I/O error: " ++ cause.message
  | corrupt offset damage =>
    "corrupt graph record at offset " ++ toString offset ++ ": " ++ damage.message
  | missingCheckpoint path => "no committed checkpoint at " ++ path
  | unknownNode node => "unknown behavior graph node " ++ node.describe
  | reconstruction cause => "failed to reconstruct counterexample: " ++ cause.message
  | emptyTrace => "cannot check an empty behavior"
  | searchFailed property message =>
    "liveness worker for property '" ++ property ++ "' failed: " ++ message
  | violated v => "temporal property '" ++ v.property ++ "' violated"
  | traceViolated v => "temporal property '" ++ v.property ++ "' violated by the checked behavior"

/-- Why an operation returns no result. -/
inductive Fault where
  /-- An error, which a caller should expect. -/
  | error (cause : Error)
  /-- A broken precondition. -/
  | defect (cause : Defect)
deriving DecidableEq, Repr

/-- A computation that ends in a result or a fault and changes nothing. -/
abbrev Outcome := Except Fault

/-- A computation on a state that keeps what it has done when it ends in a
fault. -/
abbrev Change (σ : Type) := ExceptT Fault (StateM σ)

namespace Fault

/-- The fault of damaged bytes at an offset. -/
def corrupt (offset : Nat) (damage : Damage) : Fault := .error (.corrupt offset damage)

/-- A defect in place of a result. -/
def ofDefect {α : Type} (r : Except Defect α) : Outcome α := r.mapError .defect

/-- A failed reconstruction in place of a result. -/
def ofReconstruction {α : Type} (r : Except Reconstruction α) : Outcome α :=
  r.mapError fun cause => .error (.reconstruction cause)

end Fault

/-- Do a computation that changes nothing as part of one that may. -/
def Outcome.lift {σ α : Type} (r : Outcome α) : Change σ α := fun s => (r, s)

end Liveness
