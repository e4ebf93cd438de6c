/-!
# Strongly connected components

The components of a graph whose nodes are numbers are found in one depth-first search, on an
explicit path in place of a recursion. Each node is numbered as it is met and goes on a
stack, where it stays until its component is found. Its *low link* is the least number of a
node on the stack that it was found to lead to, along edges looked at so far. A node whose
low link is its own number when it is left leads back to nothing below it on the stack, and
the nodes from the top of the stack down to it are a component.

The components come out with those that lead nowhere else first.
-/

namespace Liveness

/-- What is known of a node that was met. -/
structure Mark where
  /-- The number of nodes met before. -/
  number : Nat
  /-- The low link. -/
  low : Nat
  /-- The node is on the stack. -/
  stacked : Bool
deriving DecidableEq, Repr

/-- The mark with the low link lowered to a number. -/
def Mark.lower (number : Nat) (m : Mark) : Mark := { m with low := min m.low number }

/-- The mark of a node that was taken from the stack. -/
def Mark.unstack (m : Mark) : Mark := { m with stacked := false }

/-- A search for components in its course. -/
structure Descent where
  /-- The marks of the nodes that were met. -/
  marks : Array (Option Mark)
  /-- The number of nodes met. -/
  count : Nat := 0
  /-- The nodes met that have no component yet, the last one first. -/
  stack : List Nat := []
  /-- The nodes on the way to the last one entered and not left, the last one first, each
  with the number of its edges looked at. -/
  path : List (Nat × Nat) := []
  /-- The components, the last one first. -/
  found : List (List Nat) := []
deriving DecidableEq, Repr

namespace Descent

/-- The mark of a node, if it was met. -/
def mark? (s : Descent) (v : Nat) : Option Mark := s.marks.getD v none

/-- The search with another path. -/
def setPath (s : Descent) (path : List (Nat × Nat)) : Descent := { s with path := path }

/-- Enter a node that was not met before. -/
def enter (s : Descent) (v : Nat) : Descent :=
  { s with
    marks := s.marks.setIfInBounds v (some ⟨s.count, s.count, true⟩)
    count := s.count + 1
    stack := v :: s.stack
    path := (v, 0) :: s.path }

/-- Lower the low link of a node to a number. -/
def lower (s : Descent) (v number : Nat) : Descent :=
  { s with marks := s.marks.modify v (Option.map (Mark.lower number)) }

/-- A list down to the first `v`, and the rest of it. -/
def cutAt (v : Nat) : List Nat → List Nat × List Nat
  | [] => ([], [])
  | w :: rest =>
    if w = v then ([w], rest)
    else
      let (top, rest) := cutAt v rest
      (w :: top, rest)

/-- Make a component of the nodes from the top of the stack down to `v`. -/
def close (s : Descent) (v : Nat) : Descent :=
  let (component, rest) := cutAt v s.stack
  { s with
    marks := component.foldl (fun marks w => marks.modify w (Option.map Mark.unstack)) s.marks
    stack := rest
    found := component :: s.found }

/-- Look at an edge from `v` to `w`. -/
def look (s : Descent) (v w : Nat) : Descent :=
  match s.mark? w with
  | none => s.enter w
  | some m => if m.stacked then s.lower v m.number else s

/-- Lower the low link of the last node of the path, if there is one, to a number. -/
def lowerLast (s : Descent) (number : Nat) : Descent :=
  match s.path with
  | [] => s
  | (u, _) :: _ => s.lower u number

/-- Leave the node `v`, which was taken from the path. -/
def leave (s : Descent) (v : Nat) : Descent :=
  match s.mark? v with
  | none => s
  | some m =>
    let s := s.lowerLast m.low
    if m.low = m.number then s.close v else s

/-- Look at the next edge of the last node of the path, or leave it if there is none. -/
def step (succ : Nat → List Nat) (s : Descent) : Descent :=
  match s.path with
  | [] => s
  | (v, i) :: rest =>
    match (succ v)[i]? with
    | some w => (s.setPath ((v, i + 1) :: rest)).look v w
    | none => (s.setPath rest).leave v

/-- Go on until the path is empty, at most `fuel` steps. -/
def run (succ : Nat → List Nat) : Nat → Descent → Descent
  | 0, s => s
  | fuel + 1, s => if s.path.isEmpty then s else run succ fuel (s.step succ)

/-- Search from a node, unless it was met before. -/
def search (succ : Nat → List Nat) (fuel : Nat) (s : Descent) (v : Nat) : Descent :=
  if (s.mark? v).isSome then s else run succ fuel (s.enter v)

end Descent

/-- The strongly connected components of a graph of `n` nodes. No edge leads from a
component to a later one. There is a step for each edge and one for each node. -/
def components (succ : Nat → List Nat) (n : Nat) : List (List Nat) :=
  let fuel := (List.range n).foldl (fun k v => k + ((succ v).length + 1)) 0
  ((List.range n).foldl (Descent.search succ fuel) { marks := Array.replicate n none }).found.reverse

end Liveness
