import Liveness.Property
import Liveness.Store.Basic

/-!
# The graph of a store

The steps of a store's graph are those in the records of its written nodes; a node that
was only recorded is an end. The cycle search is about the part of the graph that can
be reached from the roots along these steps. A *fair cycle* is a closed walk there that
meets a fairness condition and comes through an accepting node.
-/

namespace Liveness

variable {σ : Type}

namespace Store

/-- The record of the written node `k` has the step `e`. -/
def HasStep (s : Store) (k : Key) (e : Step) : Prop :=
  s.isWritten k = true ∧ ∃ n, s.node k = .ok n ∧ e ∈ n.steps

/-- The node `k` can be reached from a root. -/
inductive Reachable (s : Store) : Key → Prop where
  /-- A root is reached. -/
  | root {k : Key} : k ∈ s.roots → Reachable s k
  /-- A step leads on. -/
  | step {k : Key} {e : Step} : Reachable s k → s.HasStep k e → Reachable s e.target

/-- The steps lead from the first node to the last, one after the other. -/
def IsWalk (s : Store) : Key → List Step → Key → Prop
  | k, [], l => k = l
  | k, e :: es, l => s.HasStep k e ∧ IsWalk s e.target es l

end Store

/-- A violating cycle may come through `k` as its accepting node; without a tableau through
any node. -/
def Property.AcceptsAt (p : Property σ) (k : Key) : Prop :=
  match p.tableau with
  | none => True
  | some t => t.isAccepting k.point.toNat = true

/-- The steps `es` lead from `k` round to `k` in the reachable part of a graph, and meet a
fairness condition of a property. Every node of the round is the target of a step of it. -/
structure Store.FairCycle (s : Store) (p : Property σ) (m : Fairness) (k : Key) (es : List Step) : Prop where
  reachable : s.Reachable k
  walk : s.IsWalk k es k
  nonempty : es ≠ []
  everyStep : ∀ e ∈ es, ∀ i ∈ m.everyStep, e.actions.get i = true
  accepting : ∃ e ∈ es, p.AcceptsAt e.target
  someState : ∀ i ∈ m.someState, ∃ e ∈ es, ∃ n, s.node e.target = .ok n ∧ n.stateBits.get i = true
  someStep : ∀ i ∈ m.someStep, ∃ e ∈ es, e.actions.get i = true

end Liveness
