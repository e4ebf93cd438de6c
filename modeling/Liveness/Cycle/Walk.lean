import Liveness.Cycle.Arena

/-!
# Walks inside a component

A shortest walk from one node to another that stays inside a set of nodes, found
breadth first. Each node that is found is noted with the node it was found from, and
the walk is read off these notes from its end. The source is never noted, so that a
walk may come back to it.
-/

namespace Liveness

/-- The nodes found, each with the node it was found from, the last one first. -/
abbrev Origins := List (Nat × Nat)

namespace Walk

/-- The nodes after `source` on the way to `v`, the last one first, each looked up from
the one after it. There is none if a node was not found or they are more than `fuel`. -/
def wayTo (source : Nat) (origins : Origins) : Nat → Nat → Option (List Nat)
  | 0, v => if v = source then some [] else none
  | fuel + 1, v =>
    if v = source then some []
    else (origins.lookup v).bind fun u => (wayTo source origins fuel u).map (v :: ·)

/-- Look at the successors of the node `v`: the nodes found up to there, if the goal is
one of the successors, or else the nodes found and the queue after all of them. -/
def scan (member : Nat → Bool) (source goal v : Nat) :
    List Nat → Origins → List Nat → Except Origins (Origins × List Nat)
  | [], origins, queue => .ok (origins, queue)
  | w :: ws, origins, queue =>
    if !member w || (origins.lookup w).isSome then scan member source goal v ws origins queue
    else if w = goal then .error origins
    else if w = source then scan member source goal v ws origins queue
    else scan member source goal v ws ((w, v) :: origins) (queue ++ [w])

/-- Search from the nodes of the queue in turn, at most `fuel` of them. No node stands
twice on a way, so that it is not longer than the notes. -/
def search (next : Nat → List Nat) (member : Nat → Bool) (source goal : Nat) :
    Nat → Origins → List Nat → Option (List Nat)
  | 0, _, _ => none
  | _, _, [] => none
  | fuel + 1, origins, v :: queue =>
    match scan member source goal v (next v) origins queue with
    | .error origins => (wayTo source origins origins.length v).map fun way => (goal :: way).reverse
    | .ok (origins, queue) => search next member source goal fuel origins queue

end Walk

/-- A shortest walk from `source` to `goal` along allowed edges into members, as the
nodes after `source`. With `atLeastOne` a walk from a node to itself takes an edge. -/
def Arena.walk (a : Arena) (m : Fairness) (member : Nat → Bool) (source goal : Nat)
    (atLeastOne : Bool) : Option (List Nat) :=
  if source = goal ∧ atLeastOne = false then some []
  else Walk.search (a.next m) member source goal (a.size + 1) [] [source]

end Liveness
