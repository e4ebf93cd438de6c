import Liveness.Store.Drawing
import Liveness.Property
import Liveness.Model
import Liveness.Warning

/-!
# Building a behaviour graph

The builder of a property's graph holds the store, the number of the next drawing if
the graph is drawn, and the warnings so far. What all ways of adding nodes share is
here: adding an edge that is new, and writing a node back.
-/

namespace Liveness

/-- A graph under construction. -/
structure Builder where
  /-- The graph. -/
  store : Store
  /-- The number of the next drawing, if changes are drawn. -/
  nextDrawing : Option Nat := none
  /-- The warnings so far. -/
  warnings : List Warning := []

/-- A change of a graph under construction. -/
abbrev Build := Change Builder

namespace Builder

variable {σ : Type}

/-- Change the store. -/
def onStore (f : Store → Store) : Build Unit := modify fun b => { b with store := f b.store }

/-- Ask the store. -/
def asks {α : Type} (f : Store → α) : Build α := do return f (← get).store

/-- Ask the store for something that may fail. -/
def ask {α : Type} (f : Store → Outcome α) : Build α := do Outcome.lift (f (← get).store)

/-- Do a change of the store as part of building. -/
def inStore {α : Type} (c : Change Store α) : Build α := fun b =>
  let (result, store) := c b.store
  (result, { b with store := store })

/-- A result, or a defect that ends the building. -/
def sure {α : Type} (r : Except Defect α) : Build α := Outcome.lift (Fault.ofDefect r)

/-- Add a warning. -/
def warn (w : Warning) : Build Unit := modify fun b => { b with warnings := b.warnings ++ [w] }

/-- Draw the graph, if changes are drawn. -/
def snapshot (p : Property σ) : Build Unit := do
  match (← get).nextDrawing with
  | none => return
  | some number =>
    modify fun b => { b with nextDrawing := some (number + 1) }
    inStore (Store.saveDrawing p.tableau number)

/-- Add a step to a node; a broken precondition ends the building. -/
def addStep (n : Node) (target : Key) (width : Nat) (row : Bits) (offset hint : Nat) :
    Build Node :=
  match n.addStep target width row offset hint with
  | (.ok _, n) => return n
  | (.error d, _) => throw (.defect d)

/-- Add a step from a node to `target` unless it has one: the node, and whether
`target` was never seen before. A target that was not seen is recorded as reached from
`origin`. -/
def link (n : Node) (target : Key) (width : Nat) (row : Bits) (offset hint : Except Defect Nat)
    (origin : Key) : Build (Node × Bool) := do
  let unseen ← asks fun s => s.isUnseen target
  if unseen || !n.hasTarget target then
    let n ← addStep n target width row (← sure offset) (← sure hint)
    if unseen then onStore fun s => s.record target origin
    return (n, unseen)
  else return (n, false)

/-- Write a node back if it has more steps than `before`, or none at all. Otherwise the
state was expanded again in vain, which is a defect unless states may be revisited. -/
def keep (p : Property σ) (n : Node) (before : Nat) (revisits : Bool) : Build Unit := do
  if (before = 0 ∧ n.degree = 0) ∨ before < n.degree then
    onStore fun s => s.addNode n.trim
    snapshot p
  else
    warn (.expandedAgain p.name n.key n.degree)
    if !revisits then throw (.defect (.nonMonotonic n.key))

end Builder

end Liveness
