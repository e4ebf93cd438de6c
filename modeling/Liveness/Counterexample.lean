import Liveness.Model
import Liveness.Fault

/-!
# Counterexamples

A lasso names states by their fingerprints; a counterexample has the states
themselves. They are found by following the model from an initial state, or among
states that are known anyway.
-/

namespace Liveness

/-- A behaviour that violates a property. -/
structure Counterexample (σ : Type) where
  /-- The name of the property. -/
  property : String
  /-- The states of the path. -/
  states : List σ
  /-- How the behaviour goes on from the last state. -/
  ending : Ending

/-- Where the states of a counterexample are found. -/
abbrev Resolver (σ : Type) := List Fingerprint → Except Reconstruction (List σ)

namespace Counterexample

variable {σ : Type} [ModelState σ]

/-- The first of some states with a fingerprint. -/
def withFingerprint? (states : List σ) (fp : Fingerprint) : Option σ :=
  states.find? fun s => fingerprint s == fp

/-- Follow the model from a state along fingerprints; a state may stay as it is. -/
def follow (m : Model σ) : σ → List Fingerprint → Except Reconstruction (List σ)
  | _, [] => .ok []
  | s, fp :: fps => do
    let t ←
      if fingerprint s = fp then .ok s
      else
        match withFingerprint? (m.next s) fp with
        | some t => .ok t
        | none => .error (.noSuccessor (fingerprint s) fp)
    let rest ← follow m t fps
    return t :: rest

/-- The states of a behaviour of the model with the given fingerprints. -/
def replay (m : Model σ) : Resolver σ
  | [] => .ok []
  | fp :: fps =>
    match withFingerprint? m.initial fp with
    | none => .error (.noInitial fp)
    | some s => do
      let rest ← follow m s fps
      return s :: rest

/-- The known states with the given fingerprints; of known states with the same
fingerprint the last one. -/
def lookUp (known : List σ) : Resolver σ := fun fps =>
  fps.mapM fun fp =>
    match withFingerprint? known.reverse fp with
    | some s => .ok s
    | none => .error (.unknownState fp)

/-- The counterexample of a lasso. -/
def ofLasso (resolve : Resolver σ) (property : String) (l : Lasso) :
    Outcome (Counterexample σ) := do
  let states ← Fault.ofReconstruction (resolve l.path)
  return ⟨property, states, l.ending⟩

/-- The fingerprints of the states. -/
def path (c : Counterexample σ) : List Fingerprint := c.states.map fingerprint

/-- The lines of the states, numbered from one. -/
def stateLines (c : Counterexample σ) : String :=
  String.join (c.states.zipIdx.map fun (s, i) =>
    "State " ++ toString (i + 1) ++ ":\n" ++ ModelState.text s ++ "\n\n")

/-- The last line. The number of a state is a machine word. -/
def lastLine : Ending → Except Defect String
  | .stuttering => .ok "Stuttering"
  | .backTo i => do return "Back to state " ++ toString (← addWords i 1)

/-- The counterexample in print. -/
def text (c : Counterexample σ) : Except Defect String := do
  let last ← lastLine c.ending
  return "Temporal property '" ++ c.property ++ "' is violated by the behavior:\n" ++
    c.stateLines ++ last

/-- The violation that the counterexample shows. -/
def violation (c : Counterexample σ) : Except Defect Violation := do
  return ⟨c.property, c.path, c.ending, ← c.text⟩

end Counterexample

end Liveness
