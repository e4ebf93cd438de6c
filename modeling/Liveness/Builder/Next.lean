import Liveness.Builder.Late
import Liveness.Store.Path

/-!
# Adding states

The exploration of the model hands over its initial states and, for each state it
expands, the successors. With a tableau the state's node at each point gets an edge to
each successor at each following point that allows it; without one there is a single
edge to each successor.
-/

namespace Liveness.Builder

variable {σ : Type} [ModelState σ]

/-- Add the roots of an initial state. -/
def addInitial (p : Property σ) (s : σ) (fp : Fingerprint) (store : Store) : Store :=
  match p.tableau with
  | none => store.addRoot ⟨fp, Key.noPoint⟩
  | some t =>
    (t.initial.filter fun n => n.allows s).foldl (fun store n => store.addRoot ⟨fp, n.index⟩) store

/-- Which node of a tableau allows which successor: bit `index * count + i` for successor
`i` of `count`. -/
def consistency (t : Tableau σ) (successors : List σ) : Except Defect Bits :=
  t.nodes.toList.foldlM (fun row n =>
    successors.zipIdx.foldlM (fun row (s, i) =>
      if n.allows s then
        (row.set (n.index.toNat * successors.length + i)).mapError Defect.ofMisuse
      else .ok row) row) (.zeros (t.size * successors.length))

/-- What is known when a state is expanded. -/
structure Batch (σ : Type) where
  /-- The successors. -/
  successors : List σ
  /-- The results of the checks. -/
  checks : StepChecks
  /-- Which points allow which successors. -/
  consistent : Bits
  /-- How many steps may be added in all. -/
  room : Nat

/-- Add the step to a successor at one point. `used` is how many successors came before. -/
def nextStep (b : Batch σ) (used : Nat) (s : σ) (i : Nat) (done : Bool) (g : Growth σ)
    (point : UInt32) : Build (Growth σ) := do
  if b.consistent.get (point.toNat * b.successors.length + i) then
    let target := ⟨fingerprint s, point⟩
    let (n, new) ← link g.1 target b.checks.width b.checks.actions (mulWords i b.checks.width)
      (.ok (b.room - (used + i))) g.1.key
    return (n, if new && done then ⟨s, target⟩ :: g.2 else g.2)
  else return g

/-- Add the steps to a successor at all points. -/
def nextSteps (b : Batch σ) (used : Nat) (points : List UInt32) (g : Growth σ)
    (successor : σ × Nat) : Build (Growth σ) := do
  let (s, i) := successor
  let done ← asks fun store => store.isDone (fingerprint s)
  points.foldlM (nextStep b used s i done) g

/-- Expand the node of a state at its `j`-th point: the expansions to do after it. -/
def expandPoint (p : Property σ) (t : Tableau σ) (b : Batch σ) (fp : Fingerprint)
    (revisits : Bool) (work : List (Expansion σ)) (point : UInt32 × Nat) :
    Build (List (Expansion σ)) := do
  let (point, j) := point
  let tnode ← sure (t.node point)
  let n ← ask fun s => s.node ⟨fp, point⟩
  let g ← b.successors.zipIdx.foldlM
    (nextSteps b (j * b.successors.length) tnode.successors) (n.setState b.checks.state, work)
  keep p g.1 n.degree revisits
  return g.2

/-- Add the steps of a state to a graph with a tableau. -/
def addProduct (p : Property σ) (m : Model σ) (t : Tableau σ) (fp : Fingerprint)
    (successors : List σ) (checks : StepChecks) (revisits : Bool) : Build (Option Lasso) := do
  let consistent ← sure (consistency t successors)
  onStore fun s => s.setDone fp
  let points ← asks fun s => s.pointsAt fp
  let batch := ⟨successors, checks, consistent, points.length * successors.length⟩
  let work ← points.zipIdx.foldlM (expandPoint p t batch fp revisits) []
  match ← expandLate p m t work with
  | none => return none
  | some key =>
    let path ← ask fun s => s.pathTo key
    match path.getLast? with
    | none => return none
    | some last => some <$> Outcome.lift (Fault.ofReconstruction (Lasso.ofCycle path [last, last]))

/-- Add the step to a successor in a graph without a tableau. -/
def plainStep (checks : StepChecks) (count : Nat) (n : Node) (successor : Fingerprint × Nat) :
    Build Node := do
  let (fp, i) := successor
  let (n, _) ← link n ⟨fp, Key.noPoint⟩ checks.width checks.actions (mulWords i checks.width)
    (subWords count i) n.key
  return n

/-- Add the steps of a state to a graph without a tableau. -/
def addPlain (p : Property σ) (fp : Fingerprint) (successors : List Fingerprint)
    (checks : StepChecks) (revisits : Bool) : Build Unit := do
  onStore fun s => s.setDone fp
  let n ← ask fun s => s.node ⟨fp, Key.noPoint⟩
  let grown ← successors.zipIdx.foldlM (plainStep checks successors.length)
    (n.setState checks.state)
  keep p grown n.degree revisits

/-- Add the steps from a state to its successors. The result is a violation, if a late
expansion showed one. -/
def addNext (p : Property σ) (m : Model σ) (fp : Fingerprint) (successors : List σ)
    (checks : StepChecks) (revisits : Bool) : Build (Option Lasso) :=
  match p.tableau with
  | some t => addProduct p m t fp successors checks revisits
  | none => do
    addPlain p fp (successors.map fingerprint) checks revisits
    return none

end Liveness.Builder
