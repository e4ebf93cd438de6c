import Liveness.Proofs.Graph.Record

/-!
# Nodes that can be made

A node starts without checks and steps, and is changed only by the operations on nodes.
However they are mixed, its buffer holds whole steps and its row of state checks has no
stray bits, so that a record gives back the node itself (`Built.normal_eq`), with a
buffer that has no spare room.
-/

namespace Liveness.Node

variable {n : Node}

/-- The nodes that the operations on nodes give. -/
inductive Built : Node → Prop
  | new (key : Key) (parent : Option Key) : Built { key, parent }
  | setState {n : Node} {bits : Bits} : Built n → bits.Built → Built (n.setState bits)
  | addStep {n m : Node} {target : Key} {width : Nat} {row : Bits} {offset hint : Nat} : Built n →
      n.addStep target width row offset hint = (.ok (), m) → Built m
  | trim {n : Node} : Built n → Built n.trim

theorem Built.whole (h : n.Built) : n.Whole := by
  induction h with
  | new key parent => exact whole_of_size_eq_zero rfl
  | setState _ _ ih => exact ih
  | addStep _ hm ih => exact (addStep_spec ih hm).1
  | trim _ ih => exact ih

theorem Built.clean (h : n.Built) : n.stateBits.Clean := by
  induction h with
  | new key parent => exact Bits.clean_zeros 0
  | setState _ hbits _ => exact hbits.clean
  | addStep hn hm ih => exact (addStep_spec hn.whole hm).2.2.2.stateBits ▸ ih
  | trim _ ih => exact ih

/-- What is read of a node that can be made is the node. -/
theorem Built.normal_eq (h : n.Built) : n.normal = n.trim := by
  rw [normal, Node.trim, h.clean.ofFn_get]

end Liveness.Node
