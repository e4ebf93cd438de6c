import Liveness.Fingerprint

/-!
# Keys of the behaviour graph

A node of the behaviour graph is a state together with a point of the property's
tableau. A property without a tableau has one node per state; its point is the
reserved index `Key.noPoint`.
-/

namespace Liveness

/-- The identity of a node: a state and a point of the tableau. -/
structure Key where
  /-- The fingerprint of the state. -/
  fp : Fingerprint
  /-- The index of the tableau's node. -/
  point : UInt32
deriving DecidableEq, Repr, Inhabited

namespace Key

/-- The point of every node when there is no tableau. -/
def noPoint : UInt32 := 0xFFFFFFFF

/-- Whether `k` comes before or is `l`: by state, then by point. -/
def le (k l : Key) : Bool := k.fp < l.fp || (k.fp == l.fp && k.point ≤ l.point)

/-- The state and the point, without the point where there is no tableau. -/
def inner (k : Key) : String :=
  if k.point = noPoint then k.fp.hex else k.fp.hex ++ ", t" ++ toString k.point.toNat

/-- A key in a listing. -/
def label (k : Key) : String := "(" ++ k.inner ++ ")"

/-- A key in a message. -/
def describe (k : Key) : String := "BG(" ++ k.inner ++ ")"

end Key

end Liveness
