import Liveness.Tableau
import Liveness.Text.Quoted

/-!
# Properties

A property to check: the tableau of its violations, if it needs one, the checks
whose results are stored with the graph, and the fairness conditions under which a
cycle is a violation.

A `Fairness` names checks by their index. A cycle meets it if each check of
`someState` holds at some node, each of `someStep` on some edge and each of
`everyStep` on every edge of it.
-/

namespace Liveness

/-- One way in which a cycle can be a violation. -/
structure Fairness where
  /-- State checks that hold somewhere on the cycle. -/
  someState : List Nat := []
  /-- Action checks that hold on some edge of the cycle. -/
  someStep : List Nat := []
  /-- Action checks that hold on every edge of the cycle. -/
  everyStep : List Nat := []
deriving DecidableEq, Repr, Inhabited

/-- Whether any cycle meets the conditions. -/
def Fairness.isTrivial (m : Fairness) : Bool :=
  m.someState.isEmpty && m.someStep.isEmpty && m.everyStep.isEmpty

/-- A property of behaviours. -/
structure Property (σ : Type) where
  /-- The name in reports. -/
  name : String
  /-- The automaton of its violations; without one any fair cycle of states is a
  violation. -/
  tableau : Option (Tableau σ) := none
  /-- Checks on states. -/
  stateChecks : List (σ → Bool) := []
  /-- Checks on steps. -/
  actionChecks : List (σ → σ → Bool) := []
  /-- The fairness conditions; none is the same as one trivial one. -/
  fairness : List Fairness := []

/-- The results of a property's checks on a state and the steps out of it. -/
structure StepChecks where
  /-- The state checks of the state. -/
  state : Bits
  /-- The action checks, `width` bits for each successor in order. -/
  actions : Bits
  /-- The number of action checks. -/
  width : Nat
deriving DecidableEq, Repr

namespace Property

variable {σ : Type}

/-- The number of action checks. -/
def width (p : Property σ) : Nat := p.actionChecks.length

/-- The fairness conditions, the implicit trivial one included. -/
def conditions (p : Property σ) : List Fairness :=
  if p.fairness.isEmpty then [{}] else p.fairness

/-- Write truth values into a row from a position on, up to the first defect. -/
def write (row : Bits) (offset : Nat) (vs : List Bool) : Except Defect Bits :=
  vs.zipIdx.foldlM (fun row (v, i) => do
    let position ← addWords offset i
    (row.put position v).mapError Defect.ofMisuse) row

/-- The state checks on a state. -/
def stateBits (p : Property σ) (s : σ) : Bits := .ofList (p.stateChecks.map (· s))

/-- The action checks on a step. -/
def actionBits (p : Property σ) (s t : σ) : Bits := .ofList (p.actionChecks.map (· s t))

/-- Write the action checks on a step into a row from a position on. -/
def writeActions (p : Property σ) (s t : σ) (row : Bits) (offset : Nat) : Except Defect Bits :=
  write row offset (p.actionChecks.map (· s t))

/-- Write the action checks on the steps to each of the successors, each at its
own place. -/
def writeSteps (p : Property σ) (s : σ) (successors : List σ) (row : Bits) :
    Except Defect Bits :=
  successors.zipIdx.foldlM (fun row (t, i) => p.writeActions s t row (i * p.width)) row

/-- All checks on a state and the steps to its successors. -/
def evaluate (p : Property σ) (s : σ) (successors : List σ) : Except Defect StepChecks := do
  let actions ← p.writeSteps s successors (.zeros (p.width * successors.length))
  return ⟨p.stateBits s, actions, p.width⟩

/-- A list of numbers as shown to a person. -/
def describeIndices (is : List Nat) : String :=
  "[" ++ ", ".intercalate (is.map fun i => toString i) ++ "]"

/-- A fairness condition as shown to a person. -/
def describeFairness (m : Fairness) : String :=
  "FairnessModel \x7b ae_state: " ++ describeIndices m.someState ++ ", ae_action: " ++
    describeIndices m.someStep ++ ", ea_action: " ++ describeIndices m.everyStep ++ " \x7d"

/-- The property as shown to a person. -/
def describe (p : Property σ) : String :=
  let tableau := match p.tableau with
    | none => "None"
    | some t => "Some(" ++ t.describe ++ ")"
  "OrderOfSolution \x7b name: " ++ Text.quote p.name ++ ", tableau: " ++ tableau ++
    ", state_checks: " ++ toString p.stateChecks.length ++ ", action_checks: " ++
    toString p.actionChecks.length ++ ", fairness: [" ++
    ", ".intercalate (p.fairness.map describeFairness) ++ "] \x7d"

end Property

end Liveness
