import Liveness.Store.Basic
import Liveness.Property

/-!
# The reachable graph in memory

Before the cycle search the part of a graph that can be reached from its roots is
read into memory. Its nodes are numbered in the order in which a breadth-first
search from the roots meets them. Only written nodes have edges; a node that was
merely recorded is an end.
-/

namespace Liveness

/-- An edge of the graph in memory. -/
structure Edge where
  /-- The number of the node it leads to. -/
  target : Nat
  /-- The action checks on it. -/
  actions : Bits
deriving DecidableEq, Repr

/-- A node of the graph in memory. -/
structure Vertex where
  /-- The node's key. -/
  key : Key
  /-- Whether a violating cycle must come through such a node. -/
  accepting : Bool
  /-- The state checks. -/
  stateBits : Bits := .empty
  /-- The edges out of it. -/
  edges : List Edge := []
deriving DecidableEq, Repr

/-- The graph in memory; the number of a node is its position. -/
structure Arena where
  /-- The nodes. -/
  vertices : Array Vertex := #[]
deriving DecidableEq, Repr

namespace Arena

/-- The number of nodes. -/
def size (a : Arena) : Nat := a.vertices.size

/-- The number of the node with a key. -/
def find? (a : Arena) (k : Key) : Option Nat := a.vertices.findIdx? fun v => v.key == k

/-- Whether the node with a number is accepting. -/
def accepting (a : Arena) (v : Nat) : Bool := (a.vertices[v]?.map Vertex.accepting).getD false

/-- The state checks of the node with a number. -/
def stateBits (a : Arena) (v : Nat) : Bits := (a.vertices[v]?.map Vertex.stateBits).getD .empty

/-- The edges out of the node with a number. -/
def edges (a : Arena) (v : Nat) : List Edge := (a.vertices[v]?.map Vertex.edges).getD []

/-- Whether an edge meets the conditions on every step. -/
def allowed (m : Fairness) (e : Edge) : Bool := m.everyStep.all e.actions.get

/-- The edges out of a node that meet the conditions on every step. -/
def successors (a : Arena) (m : Fairness) (v : Nat) : List Edge := (a.edges v).filter (allowed m)

/-- Where those edges lead. -/
def next (a : Arena) (m : Fairness) (v : Nat) : List Nat := (a.successors m v).map Edge.target

variable {σ : Type}

/-- Whether a node of a property's graph is accepting; without a tableau each is. -/
def accepts (p : Property σ) (k : Key) : Except Defect Bool :=
  match p.tableau with
  | none => .ok true
  | some t => Tableau.Node.accepting <$> t.node k.point

/-- The number of the node with a key, added to the graph if it is new. -/
def intern (p : Property σ) (a : Arena) (k : Key) : Outcome (Nat × Arena) :=
  match a.find? k with
  | some v => .ok (v, a)
  | none => do
    let accepting ← Fault.ofDefect (accepts p k)
    return (a.size, ⟨a.vertices.push { key := k, accepting := accepting }⟩)

/-- The edges of the given steps, their targets added to the graph. -/
def internSteps (p : Property σ) : Arena → List Step → Outcome (List Edge × Arena)
  | a, [] => .ok ([], a)
  | a, e :: rest => do
    let (v, a) ← a.intern p e.target
    let (edges, a) ← internSteps p a rest
    return (⟨v, e.actions⟩ :: edges, a)

/-- Give the node with a number its state checks and edges. -/
def expand (s : Store) (p : Property σ) (a : Arena) (v : Nat) : Outcome Arena :=
  match a.vertices[v]? with
  | none => .ok a
  | some vertex =>
    if s.isWritten vertex.key then do
      let n ← s.node vertex.key
      let (edges, a) ← internSteps p a n.steps
      return ⟨a.vertices.modify v fun vertex =>
        { vertex with stateBits := n.stateBits, edges := edges }⟩
    else .ok a

/-- Expand the nodes from number `start` on, then the nodes found that way, and so
on for at most `fuel` rounds. Every round but the last expands a written node. -/
def grow (s : Store) (p : Property σ) : Nat → Nat → Arena → Outcome Arena
  | 0, _, a => .ok a
  | fuel + 1, start, a =>
    if start < a.size then do
      let b ← (List.range' start (a.size - start)).foldlM (expand s p) a
      grow s p fuel a.size b
    else .ok a

/-- The graph of the roots alone. -/
def ofRoots (s : Store) (p : Property σ) : Outcome Arena :=
  s.roots.foldlM (fun a k => do return (← a.intern p k).2) {}

/-- The part of a property's graph that can be reached from its roots. -/
def load (s : Store) (p : Property σ) : Outcome Arena := do
  let a ← ofRoots s p
  grow s p (s.keys.length + 1) 0 a

end Arena

end Liveness
