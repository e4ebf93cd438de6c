import Liveness.Valuation

/-!
# Models

What the checker asks of the system under check: its initial states, the
successors of a state, and which states belong to the part of the system that is
explored. States are known by their fingerprints and are printed in
counterexamples.
-/

namespace Liveness

/-- States that the checker can tell apart and print. -/
class ModelState (σ : Type) where
  /-- The identity of a state. -/
  fingerprint : σ → Fingerprint
  /-- A state in a counterexample. -/
  text : σ → String

export ModelState (fingerprint)

instance : ModelState Valuation := ⟨Valuation.fingerprint, Valuation.text⟩

/-- A system of states and steps. -/
structure Model (σ : Type) where
  /-- The states a behaviour may start in. -/
  initial : List σ
  /-- The states that may follow a state. -/
  next : σ → List σ
  /-- Whether a state belongs to the explored part. -/
  inside : σ → Bool := fun _ => true

/-- The successors of a state that the exploration follows. -/
def Model.successors {σ : Type} (m : Model σ) (s : σ) : List σ := (m.next s).filter m.inside

end Liveness
