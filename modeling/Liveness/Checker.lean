import Liveness.Builder.Next
import Liveness.Store.Checkpoint
import Liveness.Store.Degrees
import Liveness.Counterexample
import Liveness.Config
import Liveness.Signal
import Liveness.Round

/-!
# The checker

The checker watches the exploration of a model and checks a list of properties on it.
Every state that the exploration hands over goes to the graph of every property. A check
searches all graphs; a violation is turned into a counterexample and reported once.

A single behaviour can be checked by itself (`checkTrace`): each of its states may be
repeated, the last one for ever, and the graphs are empty again afterwards.
-/

namespace Liveness

/-- A property with its graph. -/
structure Monitor (σ : Type) where
  /-- The property. -/
  property : Property σ
  /-- Its graph. -/
  builder : Builder

namespace Monitor

variable {σ : Type} [ModelState σ]

/-- The graph. -/
def store (w : Monitor σ) : Store := w.builder.store

/-- Change the graph. -/
def mapStore (w : Monitor σ) (f : Store → Store) : Monitor σ :=
  { w with builder := { w.builder with store := f w.builder.store } }

/-- Do a change of the graph under construction. -/
def build {α : Type} (c : Build α) : Change (Monitor σ) α := fun w =>
  let (result, builder) := c w.builder
  (result, { w with builder := builder })

/-- Do a change of the graph. -/
def change {α : Type} (c : Change Store α) : Change (Monitor σ) α := build (Builder.inStore c)

/-- A monitor on an empty graph. -/
def create (c : Config) (taken : List String) (p : Property σ) (index : Nat) :
    Outcome (Monitor σ) := do
  let store ← Store.create c.folder taken index
  return ⟨p, { store := store, nextDrawing := if c.drawing then some 0 else none }⟩

/-- The monitor on the files of its graph, to be recovered. -/
def reopen (c : Config) (w : Monitor σ) : Monitor σ :=
  ⟨w.property, { store := w.store.reopen, nextDrawing := if c.drawing then some 0 else none }⟩

/-- Add an initial state. -/
def addInitial (s : σ) (fp : Fingerprint) (w : Monitor σ) : Monitor σ :=
  w.mapStore (Builder.addInitial w.property s fp)

/-- Add the steps from a state to its successors, with the results of the checks. -/
def addChecked (m : Model σ) (fp : Fingerprint) (successors : List σ) (checks : StepChecks)
    (revisits : Bool) : Change (Monitor σ) (Option Lasso) := do
  build (Builder.addNext (← get).property m fp successors checks revisits)

/-- Add the steps from a state to its successors. -/
def addNext (m : Model σ) (s : σ) (fp : Fingerprint) (successors : List σ) (revisits : Bool) :
    Change (Monitor σ) (Option Lasso) := do
  let checks ← Outcome.lift (Fault.ofDefect ((← get).property.evaluate s successors))
  addChecked m fp successors checks revisits

/-- Search the graph for a violation. -/
def search (w : Monitor σ) : Outcome (Option Lasso) := w.store.findViolation w.property

end Monitor

/-- The result of a check. -/
inductive CheckResult (σ : Type) where
  /-- No property is violated so far. -/
  | noError
  /-- A property is violated. -/
  | violated (counterexample : Counterexample σ)
  /-- Nothing is checked. -/
  | notApplicable

/-- The properties under check. -/
structure Checker (σ : Type) where
  /-- The properties with their graphs. -/
  monitors : List (Monitor σ)
  /-- The settings. -/
  config : Config
  /-- The signal shared with other searches. -/
  signal : Signal := {}
  /-- The warnings so far, in the order given. -/
  warnings : List Warning := []

namespace Checker

variable {σ : Type} [ModelState σ]

/-- A checker on empty graphs in a folder in which some names are taken. -/
def create (properties : List (Property σ)) (config : Config) (taken : List String) :
    Outcome (Checker σ) := do
  let monitors ← properties.zipIdx.mapM fun (p, i) => Monitor.create config taken p i
  return { monitors := monitors, config := config }

/-- The checker on the files of its graphs, to be recovered. -/
def reopen (c : Checker σ) : Checker σ :=
  { c with monitors := c.monitors.map (Monitor.reopen c.config) }

/-- The number of nodes of each graph. -/
def sizes (c : Checker σ) : List UInt64 := c.monitors.map fun w => w.store.size

/-- The number of nodes of all graphs, which is a machine word. -/
def totalSize (c : Checker σ) : Except Defect Nat :=
  c.sizes.foldlM (fun n size => addWords n size.toNat) 0

/-- Take over the warnings of the monitors. -/
def gather (c : Checker σ) : Checker σ :=
  { c with
    monitors := c.monitors.map fun w => { w with builder := { w.builder with warnings := [] } }
    warnings := c.warnings ++ c.monitors.flatMap fun w => w.builder.warnings }

/-- Change the monitors in turn, up to the first fault. -/
def eachOf (f : Change (Monitor σ) Unit) :
    List (Monitor σ) → Except Fault Unit × List (Monitor σ)
  | [] => (.ok (), [])
  | w :: ws =>
    match f w with
    | (.ok _, w') =>
      let rest := eachOf f ws
      (rest.1, w' :: rest.2)
    | (.error e, w') => (.error e, w' :: ws)

/-- Change the monitors in turn, up to the first fault. -/
def each (f : Change (Monitor σ) Unit) : Change (Checker σ) Unit := fun c =>
  let (result, monitors) := eachOf f c.monitors
  (result, { c with monitors := monitors })

/-- Begin a checkpoint of every graph. -/
def begin (o : RowOrder) : Change (Checker σ) Unit := each (Monitor.change (Store.begin o))

/-- Commit a checkpoint of every graph. -/
def commit : Change (Checker σ) Unit := each (Monitor.change Store.commit)

/-- Recover every graph from its checkpoint. The number of nodes of all graphs is a
machine word; if it is not, that shows only once they are recovered. -/
def recover : Change (Checker σ) Unit := do
  each (Monitor.change Store.recover)
  let _ ← Outcome.lift (Fault.ofDefect (← get).totalSize)

/-- Forget all nodes. -/
def reset (c : Checker σ) : Checker σ :=
  { c with monitors := c.monitors.map fun w => w.mapStore Store.reset }

/-- Add an initial state to every graph. -/
def addInitial (s : σ) (fp : Fingerprint) (c : Checker σ) : Checker σ :=
  { c with monitors := c.monitors.map (Monitor.addInitial s fp) }

/-- Add the steps of a state to the graphs in turn, up to the first fault or violation:
the violation with the name of its property. -/
def addSteps (f : Change (Monitor σ) (Option Lasso)) :
    List (Monitor σ) → Outcome (Option (String × Lasso)) × List (Monitor σ)
  | [] => (.ok none, [])
  | w :: ws =>
    match f w with
    | (.error e, w') => (.error e, w' :: ws)
    | (.ok (some lasso), w') => (.ok (some (w.property.name, lasso)), w' :: ws)
    | (.ok none, w') =>
      let rest := addSteps f ws
      (rest.1, w' :: rest.2)

/-- Report a counterexample, unless one was reported before. -/
def report : Change (Checker σ) Unit :=
  modify fun c => { c with signal := c.signal.claim.2 }

/-- Add the steps from a state to its successors to every graph. A violation that shows
is reported and ends the run. -/
def addNextWith (m : Model σ) (resolve : Resolver σ) (s : σ) (fp : Fingerprint)
    (successors : List σ) (revisits : Bool) : Change (Checker σ) Unit := do
  let c ← get
  let (found, monitors) := addSteps (Monitor.addNext m s fp successors revisits) c.monitors
  set (gather { c with monitors := monitors })
  match ← Outcome.lift found with
  | none => return
  | some (name, lasso) =>
    let counterexample ← Outcome.lift (Counterexample.ofLasso resolve name lasso)
    report
    let violation ← Outcome.lift (Fault.ofDefect counterexample.violation)
    throw (.error (.violated violation))

/-- Add the steps from a state to its successors to every graph. -/
def addNext (m : Model σ) (s : σ) (fp : Fingerprint) (successors : List σ) :
    Change (Checker σ) Unit := do
  addNextWith m (Counterexample.replay m) s fp successors (← get).config.simulation

/-- Whether some graph has grown enough since its last check. -/
def isDue (c : Checker σ) : Bool := c.monitors.any fun w => c.config.threshold < w.store.growth

/-- The search of the property with a number. -/
def verdict (c : Checker σ) (i : Nat) : Verdict :=
  match c.monitors[i]? with
  | some w => w.store.verdict w.property
  | none => .clean

/-- The name of the property with a number. -/
def nameOf (c : Checker σ) (i : Nat) : String := (c.monitors[i]?.map (·.property.name)).getD ""

/-- The round of searches of all graphs. -/
def round (c : Checker σ) : Round :=
  Round.run c.verdict c.monitors.length (c.config.workerCount c.monitors.length)

/-- Search all graphs. The first violation is reported; if there is none, the first failed
search is the fault; if there is none either, the graphs count as checked. -/
def checkWith (resolve : Resolver σ) : Change (Checker σ) (CheckResult σ) := do
  let c ← get
  let _ ← Outcome.lift (Fault.ofDefect c.totalSize)
  let round := c.round
  match round.violations, round.failures with
  | (i, lasso) :: _, _ =>
    let counterexample ← Outcome.lift (Counterexample.ofLasso resolve (c.nameOf i) lasso)
    report
    return .violated counterexample
  | [], (i, message) :: _ => throw (.error (.searchFailed (c.nameOf i) message))
  | [], [] =>
    set { c with monitors := c.monitors.map fun w : Monitor σ => w.mapStore Store.markChecked }
    return .noError

/-- A check while the states are explored: if it is forced, or if it is due in the periodic
mode. -/
def check (m : Model σ) (force : Bool) : Change (Checker σ) (CheckResult σ) := do
  let c ← get
  if force || (c.config.mode == .periodic && c.isDue) then checkWith (Counterexample.replay m)
  else return .noError

/-- The check of all states. -/
def finalCheck (m : Model σ) : Change (Checker σ) (CheckResult σ) := do
  if (← get).config.mode = .off then return .notApplicable
  else checkWith (Counterexample.replay m)

/-- The steps of a behaviour: each state with itself and the next one as successors, the
last one with itself. -/
def traceSteps : List σ → List (σ × List σ)
  | [] => []
  | [s] => [(s, [s])]
  | s :: t :: rest => (s, [s, t]) :: traceSteps (t :: rest)

/-- Check a behaviour on the graphs as they are. -/
def checkTraceHere (m : Model σ) (first : σ) (trace : List σ) : Change (Checker σ) Unit := do
  let resolve := Counterexample.lookUp trace
  modify (addInitial first (fingerprint first))
  (traceSteps trace).forM fun (s, successors) =>
    addNextWith m resolve s (fingerprint s) successors true
  match ← checkWith resolve with
  | .violated counterexample =>
    let violation ← Outcome.lift (Fault.ofDefect counterexample.violation)
    throw (.error (.traceViolated violation))
  | _ => return

/-- A violation of a behaviour that was handed over to be checked. -/
def asTraceFault : Fault → Fault
  | .error (.violated v) => .error (.traceViolated v)
  | fault => fault

/-- Check a behaviour by itself. The graphs are empty afterwards, unless a precondition was
broken. -/
def checkTrace (m : Model σ) (trace : List σ) : Change (Checker σ) Unit :=
  match trace with
  | [] => throw (.error .emptyTrace)
  | first :: rest => fun c =>
    match checkTraceHere m first (first :: rest) c with
    | (.ok _, c) => (.ok (), c.reset)
    | (.error (.defect d), c) => (.error (.defect d), c)
    | (.error fault, c) => (.error (asTraceFault fault), c.reset)

/-- The histogram of the degrees of all graphs. -/
def degrees (name : String) (f : Store → Outcome (List UInt64)) (c : Checker σ) :
    Outcome Histogram :=
  c.monitors.foldlM (fun h w => Store.tally h (f w.store)) { name := name }

end Checker

end Liveness
