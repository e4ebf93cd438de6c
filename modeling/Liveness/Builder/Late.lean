import Liveness.Builder.Basic

/-!
# Late expansions

A node can turn up after its state was expanded: another state leads to it with
another point of the tableau. Such a node is expanded at once, and so are the nodes
found that way. The model is asked for the successors of the state again.

The behaviour may also stay in the state while it moves in the tableau. If that leads
to an accepting point that allows the state, staying there for ever is a violation; the
node is written, and the other expansions are given up.
-/

namespace Liveness

/-- A node that is still to be expanded. -/
structure Expansion (σ : Type) where
  /-- The state. -/
  state : σ
  /-- The node. -/
  key : Key

namespace Builder

variable {σ : Type} [ModelState σ]

/-- A node in the course of its expansion, with the expansions still to do. -/
abbrev Growth (σ : Type) := Node × List (Expansion σ)

/-- Add the steps that stay in the state and move to the given points: the node and the
expansions to do, and whether one of the points is accepting. -/
def stutter (p : Property σ) (t : Tableau σ) (e : Expansion σ) (row : Bits) (total : Nat) :
    List (UInt32 × Nat) → Growth σ → Build (Growth σ × Bool)
  | [], g => return (g, false)
  | (point, i) :: rest, (n, work) => do
    let tnode ← sure (t.node point)
    if tnode.allows e.state then
      let target := ⟨e.key.fp, point⟩
      let (n, new) ← link n target p.width row (.ok 0) (subWords total i) e.key
      let work := if new then ⟨e.state, target⟩ :: work else work
      if tnode.accepting then return ((n, work), true)
      else stutter p t e row total rest (n, work)
    else stutter p t e row total rest (n, work)

/-- Add the step to a state at one point. `room` is how many steps may come. -/
def lateStep (p : Property σ) (t : Tableau σ) (e : Expansion σ) (s : σ) (row : Bits) (done : Bool)
    (room : Except Defect Nat) (g : Growth σ) (point : UInt32) : Build (Growth σ) := do
  let tnode ← sure (t.node point)
  if tnode.allows s then
    let target := ⟨fingerprint s, point⟩
    let (n, new) ← link g.1 target p.width row (.ok 0) room e.key
    return (n, if new && done then ⟨s, target⟩ :: g.2 else g.2)
  else return g

/-- Add the steps to a successor at all points. -/
def lateSteps (p : Property σ) (t : Tableau σ) (e : Expansion σ) (points : List UInt32)
    (total : Nat) (g : Growth σ) (successor : σ × Nat) : Build (Growth σ) := do
  let (s, i) := successor
  let row := p.actionBits e.state s
  let done ← asks fun store => store.isDone (fingerprint s)
  points.zipIdx.foldlM (fun g (point, j) =>
    lateStep p t e s row done (subWords total (i * points.length + j)) g point) g

/-- Expand one node: the node itself if it shows a violation, or else the expansions to
do after it. -/
def expandOne (p : Property σ) (m : Model σ) (t : Tableau σ) (e : Expansion σ)
    (work : List (Expansion σ)) : Build (Except Key (List (Expansion σ))) := do
  let tnode ← sure (t.node e.key.point)
  let n ← ask fun s => s.node e.key
  let before := n.degree
  let points := tnode.successors
  let row := p.actionBits e.state e.state
  let (g, violated) ←
    stutter p t e row points.length points.zipIdx (n.setState (p.stateBits e.state), work)
  if violated then
    if before < g.1.degree then onStore fun s => s.addNode g.1.trim
    return .error e.key
  else
    let successors := m.successors e.state
    let g ← successors.zipIdx.foldlM
      (lateSteps p t e points (successors.length * points.length)) g
    if before < g.1.degree then
      onStore fun s => s.addNode g.1.trim
      snapshot p
    return .ok g.2

/-- Expand nodes until none is left or one shows a violation, at most `fuel` of them. -/
def expandAll (p : Property σ) (m : Model σ) (t : Tableau σ) :
    Nat → List (Expansion σ) → Build (Option Key)
  | _, [] => return none
  | 0, _ => return none
  | fuel + 1, e :: work => do
    match ← expandOne p m t e work with
    | .error key => return some key
    | .ok work => expandAll p m t fuel work

/-- Expand nodes until none is left or one shows a violation. Each expansion is that of
a node which no edge led to before, of a state that was expanded, so there are at most as
many as states times points. -/
def expandLate (p : Property σ) (m : Model σ) (t : Tableau σ) (work : List (Expansion σ)) :
    Build (Option Key) := do
  let states ← asks fun s => s.table.size
  expandAll p m t (states * t.size) work

end Builder

end Liveness
