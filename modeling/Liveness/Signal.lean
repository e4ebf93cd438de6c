/-!
# The shared signal

All searches of one run share a signal: that they should stop, and that a
violation was reported. The first to claim the report makes it; everyone stops
then.
-/

namespace Liveness

/-- What the searches of one run share. -/
structure Signal where
  /-- The searches should stop. -/
  stopped : Bool := false
  /-- A violation was reported. -/
  reported : Bool := false
deriving DecidableEq, Repr, Inhabited

namespace Signal

/-- Ask the searches to stop. -/
def stop (s : Signal) : Signal := { s with stopped := true }

/-- Claim the report: whether it was yet to be made, and the signal after it. -/
def claim (s : Signal) : Bool × Signal := (!s.reported, ⟨true, true⟩)

end Signal

end Liveness
