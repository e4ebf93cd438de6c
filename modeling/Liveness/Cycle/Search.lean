import Liveness.Cycle.Components
import Liveness.Cycle.Walk
import Liveness.Store.Path

/-!
# The cycle search

A property is violated if its graph has, reachable from a root, a cycle through an
accepting node that meets one of the fairness conditions. For one condition the
search keeps the edges that meet the checks on every step and looks at the strongly
connected components of what is left. A component with an accepting node, with a
node for each state check and an edge for each action check that must occur, holds
such a cycle: from the accepting node through each of them and back.
-/

namespace Liveness

namespace Arena

/-- The strongly connected components along the edges that meet the conditions on
every step. -/
def componentsOf (a : Arena) (m : Fairness) : List (List Nat) :=
  let next := (Array.range a.size).map (a.next m)
  components (fun v => next.getD v []) a.size

/-- Whether a component has an edge inside it. -/
def isCyclic (a : Arena) (m : Fairness) (component : List Nat) : Bool :=
  match component with
  | [v] => (a.next m v).contains v
  | _ => true

/-- The nodes of a component in the order of their keys. -/
def sorted (a : Arena) (component : List Nat) : List Nat :=
  sortBy (fun u v =>
    match a.vertices[u]?, a.vertices[v]? with
    | some x, some y => x.key.le y.key
    | _, _ => true) component

/-- The first edge inside a component on which an action check holds. -/
def edgeWith? (a : Arena) (m : Fairness) (component : List Nat) (check : Nat) :
    Option (Nat × Nat) :=
  component.findSome? fun v =>
    ((a.successors m v).find? fun e => component.contains e.target && e.actions.get check).map
      fun e => (v, e.target)

/-- Lengthen a walk to a node. -/
def visit (a : Arena) (m : Fairness) (component : List Nat) (walk : List Nat × Nat)
    (goal : Nat) : Option (List Nat × Nat) := do
  let nodes ← a.walk m component.contains walk.2 goal false
  return (walk.1 ++ nodes, goal)

/-- Lengthen a walk to an edge and along it. -/
def traverse (a : Arena) (m : Fairness) (component : List Nat) (walk : List Nat × Nat)
    (edge : Nat × Nat) : Option (List Nat × Nat) := do
  let nodes ← a.walk m component.contains walk.2 edge.1 false
  return (walk.1 ++ nodes ++ [edge.2], edge.2)

/-- A cycle inside a component that is a violation, as the nodes from the first
accepting one to itself. -/
def fairCycle? (a : Arena) (m : Fairness) (component : List Nat) : Option (List Nat) := do
  guard (a.isCyclic m component)
  let nodes := a.sorted component
  let start ← nodes.find? a.accepting
  let goals ← (m.someState.filter fun i => !(a.stateBits start).get i).mapM fun i =>
    nodes.find? fun v => (a.stateBits v).get i
  let edges ← m.someStep.mapM (a.edgeWith? m nodes)
  let walk ← goals.foldlM (a.visit m nodes) ([start], start)
  let walk ← edges.foldlM (a.traverse m nodes) walk
  let back ← a.walk m nodes.contains walk.2 start (walk.1.length == 1)
  return walk.1 ++ back

/-- A cycle that meets a fairness condition, from the first component that has one. -/
def cycleFor? (a : Arena) (m : Fairness) : Option (List Nat) :=
  (a.componentsOf m).findSome? (a.fairCycle? m)

/-- The keys of the nodes with the given numbers. -/
def keysOf (a : Arena) (vs : List Nat) : List Key :=
  vs.filterMap fun v => a.vertices[v]?.map Vertex.key

end Arena

/-- A violation of a property that its graph shows, if there is one. -/
def Store.findViolation {σ : Type} (s : Store) (p : Property σ) : Outcome (Option Lasso) := do
  let a ← Arena.load s p
  match p.conditions.findSome? fun m => (a.cycleFor? m).map a.keysOf with
  | some (start :: rest) =>
    let path ← s.pathTo start
    let lasso ← Fault.ofReconstruction (Lasso.ofCycle path ((start :: rest).map Key.fp))
    return some lasso
  | _ => return none

end Liveness
