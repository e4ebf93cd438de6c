import Mathlib.Logic.Relation

/-!
# Reachability in a graph

The vertices of a graph are numbers, and its edges are given by a function from a vertex to
the list of its successors. A *component* is a class of vertices each of which can be
reached from each other.
-/

namespace Liveness

variable {succ : Nat → List Nat} {c : List Nat} {n u v w : Nat}

/-- The vertex `v` can be reached from `u`. -/
def Reaches (succ : Nat → List Nat) : Nat → Nat → Prop :=
  Relation.ReflTransGen fun u v => v ∈ succ u

/-- What can be reached from a set that no edge leaves is in the set. -/
theorem Reaches.mem_of_closed {p : Nat → Prop} (hclosed : ∀ u, p u → ∀ v ∈ succ u, p v) (h : Reaches succ u v)
    (hu : p u) : p v := by
  induction h with
  | refl => exact hu
  | tail _ hedge ih => exact hclosed _ ih _ hedge

/-- Each of two vertices can be reached from the other. -/
def Mutual (succ : Nat → List Nat) (u v : Nat) : Prop := Reaches succ u v ∧ Reaches succ v u

theorem Mutual.refl (v : Nat) : Mutual succ v v := ⟨.refl, .refl⟩

theorem Mutual.symm (h : Mutual succ u v) : Mutual succ v u := ⟨h.2, h.1⟩

theorem Mutual.trans (h : Mutual succ u v) (h' : Mutual succ v w) : Mutual succ u w :=
  ⟨Relation.ReflTransGen.trans h.1 h'.1, Relation.ReflTransGen.trans h'.2 h.2⟩

/-- The vertices are those from which one of them, and which from it, can be reached,
each listed once. -/
structure IsComponent (succ : Nat → List Nat) (component : List Nat) : Prop where
  nodup : component.Nodup
  mem_iff : ∃ v, ∀ x, x ∈ component ↔ Mutual succ v x

theorem IsComponent.mutual (h : IsComponent succ c) (hu : u ∈ c) (hv : v ∈ c) : Mutual succ u v := by
  obtain ⟨w, hw⟩ := h.mem_iff
  exact ((hw u).mp hu).symm.trans ((hw v).mp hv)

theorem IsComponent.mem_of_mutual (h : IsComponent succ c) (hu : u ∈ c) (huv : Mutual succ u v) : v ∈ c := by
  obtain ⟨w, hw⟩ := h.mem_iff
  exact (hw v).mpr (((hw u).mp hu).trans huv)

theorem IsComponent.ne_nil (h : IsComponent succ c) : c ≠ [] := by
  obtain ⟨v, hv⟩ := h.mem_iff
  exact List.ne_nil_of_mem ((hv v).mpr (.refl v))

end Liveness
