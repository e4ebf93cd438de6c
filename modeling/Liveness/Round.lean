import Liveness.Cycle.Search

/-!
# A round of searches

In a round the graph of every property is searched once. A pool of workers takes the
properties from a common queue and puts what it found into a common list, so the list is
in the order in which the searches end. The round is reported by property.
-/

namespace Liveness

/-- What the search of one property came to. -/
inductive Verdict where
  /-- No violation. -/
  | clean
  /-- A violation. -/
  | violation (lasso : Lasso)
  /-- The search failed. -/
  | failure (message : String)
deriving DecidableEq, Repr

/-- Search the graph of a property. A broken precondition fails the search only. -/
def Store.verdict {σ : Type} (s : Store) (p : Property σ) : Verdict :=
  match s.findViolation p with
  | .ok none => .clean
  | .ok (some lasso) => .violation lasso
  | .error (.error e) => .failure e.message
  | .error (.defect d) => .failure ("panic: " ++ d.message)

/-- Workers at their searches. -/
structure Pool where
  /-- The properties not taken yet. -/
  queue : List Nat
  /-- The busy workers, each with its property. -/
  busy : List (Nat × Nat) := []
  /-- The searches that ended, in order. -/
  ended : List (Nat × Verdict) := []
deriving DecidableEq, Repr

namespace Pool

/-- A worker's turn: it ends its search, or takes the next property. -/
def turn (verdict : Nat → Verdict) (pool : Pool) (worker : Nat) : Pool :=
  match pool.busy.lookup worker with
  | some i =>
    { pool with
      busy := pool.busy.filter fun entry => entry.1 != worker
      ended := pool.ended ++ [(i, verdict i)] }
  | none =>
    match pool.queue with
    | [] => pool
    | i :: rest => { pool with queue := rest, busy := (worker, i) :: pool.busy }

/-- The pool after the given turns. -/
def run (verdict : Nat → Verdict) (pool : Pool) (turns : List Nat) : Pool :=
  turns.foldl (turn verdict) pool

/-- Turns of all workers, one after the other, until `properties` searches have ended. -/
def turns (workers properties : Nat) : List Nat :=
  (List.replicate (2 * properties) (List.range workers)).flatten

end Pool

/-- What a round of searches came to, each list in the order of the properties. -/
structure Round where
  /-- The violations. -/
  violations : List (Nat × Lasso)
  /-- The failures. -/
  failures : List (Nat × String)
deriving DecidableEq, Repr

namespace Round

/-- The violation of a search that ended. -/
def violation? : Nat × Verdict → Option (Nat × Lasso)
  | (i, .violation lasso) => some (i, lasso)
  | _ => none

/-- The failure of a search that ended. -/
def failure? : Nat × Verdict → Option (Nat × String)
  | (i, .failure message) => some (i, message)
  | _ => none

/-- The round of the searches that ended. -/
def ofEnded (ended : List (Nat × Verdict)) : Round where
  violations := sortBy (fun a b => a.1 ≤ b.1) (ended.filterMap violation?)
  failures := sortBy (fun a b => a.1 ≤ b.1) (ended.filterMap failure?)

/-- Search the graphs of a number of properties with a number of workers. -/
def run (verdict : Nat → Verdict) (properties workers : Nat) : Round :=
  let workers := max 1 (min workers properties)
  let pool := Pool.run verdict ⟨List.range properties, [], []⟩ (Pool.turns workers properties)
  .ofEnded pool.ended

end Round

end Liveness
