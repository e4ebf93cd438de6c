import Liveness.Graph.Key

/-!
# Warnings

What the library tells a person without failing: settings that it ignores, and
states that were expanded again in vain.
-/

namespace Liveness

/-- Something worth telling that is no failure. -/
inductive Warning where
  /-- The growth threshold of the environment is no number from zero up. -/
  | threshold (raw : String)
  /-- The number of workers of the environment is no positive count. -/
  | workers (raw : String)
  /-- The mode of the environment is unknown; `reason` says so. -/
  | mode (reason : String)
  /-- Node `node` of a property was expanded again and still has `steps` steps. -/
  | expandedAgain (property : String) (node : Key) (steps : Nat)
deriving DecidableEq, Repr

/-- The text of a warning. -/
def Warning.message : Warning → String
  | threshold raw => "ignoring invalid TLA2_LIVENESS_THRESHOLD '" ++ raw ++ "'"
  | workers raw => "ignoring invalid TLA2_LIVENESS_WORKERS '" ++ raw ++ "'"
  | mode reason => "ignoring TLA2_LIVENESS_MODE: " ++ reason
  | expandedAgain property node steps =>
    "state expanded again without new transitions property=" ++ property ++ " node=" ++
      node.describe ++ " successors=" ++ toString steps

end Liveness
