import Liveness.Store.Basic

/-!
# Paths to a node

Every node but the roots remembers the node it was first reached from, so a path
to a node is found by going back from parent to parent. Records that were read are
remembered, so that no record is read twice on the paths of one cache.

Damaged files may send the walk round in a circle. A path has no more nodes than
the graph, so a longer walk is such a circle.
-/

namespace Liveness

/-- The parents read so far, by the place of the record. -/
structure PathCache where
  /-- The records read, with the parents in them. -/
  parents : List (Nat × Option Key) := []
deriving DecidableEq, Repr

/-- The number of records read. -/
def PathCache.size (c : PathCache) : Nat := c.parents.length

namespace Store

/-- The node that a node was first reached from. -/
def parentOf (s : Store) (k : Key) : Change PathCache (Option Key) :=
  match s.slot? k with
  | none => throw (.error (.unknownNode k))
  | some (.recorded parent) => return parent
  | some (.written offset) => do
    match (← get).parents.lookup offset with
    | some parent => return parent
    | none =>
      let n ← Outcome.lift (s.log.read offset)
      modify fun c => { c with parents := (offset, n.parent) :: c.parents }
      return n.parent

/-- Go back from a node to a root, at most `fuel` nodes; `path` are the states after
the node. The path asked for is that to `goal`. -/
def walkBack (s : Store) (goal : Key) :
    Nat → Option Key → List Fingerprint → Change PathCache (List Fingerprint)
  | _, none, path => return path
  | 0, some _, _ => throw (.corrupt 0 (.parentCycle goal))
  | fuel + 1, some k, path => do
    let parent ← s.parentOf k
    s.walkBack goal fuel parent (k.fp :: path)

/-- The states on the way from a root to a node, the root first. -/
def path (s : Store) (k : Key) : Change PathCache (List Fingerprint) := do
  let limit ← Outcome.lift (Fault.ofDefect (addWords s.size.toNat 1))
  s.walkBack k (limit + 1) (some k) []

/-- The path to a node, read with a cache of its own. -/
def pathTo (s : Store) (k : Key) : Outcome (List Fingerprint) := (s.path k {}).1

end Store

end Liveness
