import Liveness.Fingerprint

/-!
# Lassos

A lasso is an infinite sequence of states written down finitely: a path, and where
it goes on from its end. The search finds a path to the start of a cycle and the
cycle itself; `Lasso.ofCycle` brings them into normal form.

Repeating a state finitely often is no step of a behaviour, so equal neighbours
are merged. Then the loop is moved back: while the state before the loop is also
the last state of the path, the path loses its last state and the loop starts one
state earlier.
-/

namespace Liveness

/-- How a lasso goes on from its last state. -/
inductive Ending where
  /-- With the state at this index. -/
  | backTo (index : Nat)
  /-- With the last state, for ever. -/
  | stuttering
deriving DecidableEq, Repr

/-- The ending as shown to a person. -/
def Ending.describe : Ending → String
  | backTo i => "BackTo(" ++ toString i ++ ")"
  | stuttering => "Stuttering"

/-- An infinite sequence of states given by a path and its ending. -/
structure Lasso where
  /-- The states of the path. -/
  path : List Fingerprint
  /-- What follows the path. -/
  ending : Ending
deriving DecidableEq, Repr

/-- Why a counterexample cannot be put together. -/
inductive Reconstruction where
  /-- There is no path to the cycle. -/
  | emptyPath
  /-- The cycle does not start and end at the end of the path. -/
  | brokenCycle (start : Fingerprint)
  /-- No initial state has the first fingerprint. -/
  | noInitial (fp : Fingerprint)
  /-- The state `source` has no successor with fingerprint `target`. -/
  | noSuccessor (source target : Fingerprint)
  /-- No known state has the fingerprint. -/
  | unknownState (fp : Fingerprint)
deriving DecidableEq, Repr

/-- The text of a failed reconstruction. -/
def Reconstruction.message : Reconstruction → String
  | emptyPath => "empty counterexample prefix"
  | brokenCycle start => "cycle does not start and end at " ++ start.hex
  | noInitial fp => "no initial state with fingerprint " ++ fp.hex
  | noSuccessor source target =>
    "state " ++ source.hex ++ " has no successor with fingerprint " ++ target.hex
  | unknownState fp => "unknown state " ++ fp.hex

namespace Lasso

/-- Merge equal neighbours. -/
def squeeze : List Fingerprint → List Fingerprint
  | [] => []
  | [a] => [a]
  | a :: b :: rest => if a = b then squeeze (b :: rest) else a :: squeeze (b :: rest)

/-- Move the loop of a path back while the state before it is the last one: the
path left, and where the loop starts in it. -/
def rewind : Nat → List Fingerprint → List Fingerprint × Nat
  | 0, path => (path, 0)
  | loop + 1, path =>
    if path[loop]? = path.getLast? then rewind loop path.dropLast else (path, loop + 1)

/-- A path with a loop to `loop`; a loop of the last state alone is stuttering. -/
def close (path : List Fingerprint) (loop : Nat) : Lasso :=
  ⟨path, if loop + 1 = path.length then .stuttering else .backTo loop⟩

/-- The lasso in normal form of a path to a state and a cycle from that state to
itself. -/
def ofCycle (path cycle : List Fingerprint) : Except Reconstruction Lasso :=
  match path.getLast? with
  | none => .error .emptyPath
  | some start =>
    if cycle.head? = some start ∧ cycle.getLast? = some start then
      let merged := squeeze (path ++ cycle.tail)
      let loop := (squeeze path).length - 1
      if loop + 1 = merged.length then .ok (close merged loop)
      else
        let (path, loop) := rewind loop merged.dropLast
        .ok (close path loop)
    else .error (.brokenCycle start)

end Lasso

end Liveness
