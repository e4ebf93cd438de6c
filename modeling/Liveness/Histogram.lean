import Std.Data.ExtTreeMap
import Liveness.Defect
import Liveness.Decimal.Fixed

/-!
# Histograms of degrees

How many nodes of a graph have each degree, with the number of nodes and the sum
of the degrees. Counts are machine words; a sample that would carry a count past
the last word is a defect, and what was counted before it stays counted. So after
a defect the buckets may hold more samples than were counted in all, and a
percentile that adds up the buckets may leave the machine word too.
-/

namespace Liveness

/-- The number of samples of each degree. -/
structure Histogram where
  /-- What the degrees are degrees of. -/
  name : String
  /-- The count of each degree that occurs. -/
  buckets : Std.ExtTreeMap UInt64 Nat := ∅
  /-- The number of samples. -/
  observations : Nat := 0
  /-- The sum of the samples. -/
  sum : Nat := 0
deriving DecidableEq

namespace Histogram

/-- The number of samples of one degree. -/
def count (h : Histogram) (degree : UInt64) : Nat := h.buckets.getD degree 0

/-- Count `n` more samples of one degree. -/
def addBucket (h : Histogram) (degree : UInt64) (n : Nat) : Except Defect Histogram := do
  let total ← addWords (h.count degree) n
  return { h with buckets := h.buckets.insert degree total }

/-- Count `n` more samples in all. -/
def addObservations (h : Histogram) (n : Nat) : Except Defect Histogram := do
  let total ← addWords h.observations n
  return { h with observations := total }

/-- Add `n` to the sum, which has two machine words. -/
def addSum (h : Histogram) (n : Nat) : Except Defect Histogram :=
  if h.sum + n < wordLimit * wordLimit then .ok { h with sum := h.sum + n }
  else .error .addOverflow

/-- Do the steps in order, up to the first defect. -/
def applyAll (h : Histogram) :
    List (Histogram → Except Defect Histogram) → Except Defect Unit × Histogram
  | [] => (.ok (), h)
  | step :: steps =>
    match step h with
    | .ok h' => h'.applyAll steps
    | .error d => (.error d, h)

/-- Add a sample. -/
def add (h : Histogram) (degree : UInt64) : Except Defect Unit × Histogram :=
  h.applyAll [(·.addBucket degree 1), (·.addObservations 1), (·.addSum degree.toNat)]

/-- Add samples in order, up to the first defect. -/
def addAll (h : Histogram) : List UInt64 → Except Defect Unit × Histogram
  | [] => (.ok (), h)
  | d :: ds =>
    match h.add d with
    | (.ok _, h') => h'.addAll ds
    | failed => failed

/-- Count the samples of another histogram too. -/
def merge (h other : Histogram) : Except Defect Unit × Histogram :=
  h.applyAll
    ((other.buckets.toList.map fun (degree, n) => (·.addBucket degree n)) ++
      [(·.addObservations other.observations), (·.addSum other.sum)])

/-- The smallest degree. -/
def min? (h : Histogram) : Option UInt64 := h.buckets.minKey?

/-- The largest degree. -/
def max? (h : Histogram) : Option UInt64 := h.buckets.maxKey?

/-- The mean degree. -/
def mean? (h : Histogram) : Option Float :=
  if 0 < h.observations then some (Float.ofNat h.sum / Float.ofNat h.observations) else none

/-- `p` brought into the interval from zero to one. -/
def clamp (p : Float) : Float := if p < 0 then 0 else if 1 < p then 1 else p

/-- The first degree at which `rank` samples have been seen, `seen` of them
before the list. The count of those seen is a machine word. -/
def atRank (rank : Nat) : Nat → List (UInt64 × Nat) → Except Defect (Option UInt64)
  | _, [] => .ok none
  | seen, (degree, n) :: rest => do
    let seen ← addWords seen n
    if rank ≤ seen then return some degree else atRank rank seen rest

/-- The smallest degree that at least the share `p` of the samples do not
exceed. -/
def percentile (h : Histogram) (p : Float) : Except Defect (Option UInt64) :=
  if h.observations = 0 then .ok none
  else do
    let rank := max (Float.ofNat h.observations * clamp p).ceil.toUInt64.toNat 1
    return (← atRank rank 0 h.buckets.toList).or h.max?

/-- The lower median. -/
def median (h : Histogram) : Except Defect (Option UInt64) := h.percentile 0.5

/-- The histogram in one line. -/
def text (h : Histogram) : Except Defect String := do
  match h.min?, h.max?, h.mean?, ← h.median with
  | some least, some most, some mean, some median =>
    let high := (← h.percentile 0.95).getD most
    return h.name ++ ": " ++ toString h.observations ++ " nodes, min " ++ toString least.toNat ++
      ", max " ++ toString most.toNat ++ ", mean " ++ Decimal.twoPlaces mean ++
      ", median " ++ toString median.toNat ++ ", 95th percentile " ++ toString high.toNat
  | _, _, _, _ => return h.name ++ ": no nodes"

end Histogram

end Liveness
