import Liveness.Bits
import Liveness.Graph.Key

/-!
# Defects

A defect is a use of the library that breaks one of its preconditions, such as an
index outside a tableau. It ends the operation at once; what the operation had
done before stays done. Failures that a caller should expect are errors instead.
-/

namespace Liveness

/-- A broken precondition. -/
inductive Defect where
  /-- A write at position `index` of a row of `len` bits. -/
  | bitRange (index len : Nat)
  /-- An index outside a sequence of `len` elements. -/
  | indexRange (len index : Nat)
  /-- A range that ends outside a sequence of `len` elements. -/
  | sliceRange (len stop : Nat)
  /-- A step with `given` action checks at a node whose steps have `width`. -/
  | mixedWidths (node : Key) (width given : Nat)
  /-- A state was expanded again and gained no steps. -/
  | nonMonotonic (node : Key)
  /-- A sum that is no machine word. -/
  | addOverflow
  /-- A difference below zero. -/
  | subOverflow
  /-- A product that is no machine word. -/
  | mulOverflow
  /-- A buffer larger than memory can be. -/
  | capacityOverflow
deriving DecidableEq, Repr

namespace Defect

/-- The text of a defect. -/
def message : Defect → String
  | bitRange i len => "bit index " ++ toString i ++ " out of range " ++ toString len
  | indexRange len i =>
    "index out of bounds: the len is " ++ toString len ++ " but the index is " ++ toString i
  | sliceRange len stop =>
    "range end index " ++ toString stop ++ " out of range for slice of length " ++ toString len
  | mixedWidths k width given =>
    "assertion `left == right` failed: mixed action widths in " ++ k.describe ++
      "\n  left: " ++ toString width ++ "\n right: " ++ toString given
  | nonMonotonic k => "non-monotonic expansion of " ++ k.describe
  | addOverflow => "attempt to add with overflow"
  | subOverflow => "attempt to subtract with overflow"
  | mulOverflow => "attempt to multiply with overflow"
  | capacityOverflow => "capacity overflow"

/-- The defect of a misused row of bits. -/
def ofMisuse : Bits.Misuse → Defect
  | .outOfRange i len => bitRange i len
  | .overflow => addOverflow

end Defect

/-- A sum of machine words. -/
def addWords (a b : Nat) : Except Defect Nat :=
  if a + b < wordLimit then .ok (a + b) else .error .addOverflow

/-- A product of machine words. -/
def mulWords (a b : Nat) : Except Defect Nat :=
  if a * b < wordLimit then .ok (a * b) else .error .mulOverflow

/-- A difference that must not go below zero. -/
def subWords (a b : Nat) : Except Defect Nat :=
  if b ≤ a then .ok (a - b) else .error .subOverflow

end Liveness
