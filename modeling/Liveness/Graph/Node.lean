import Liveness.Defect

/-!
# Nodes of the behaviour graph

A node has a key, the node it was first reached from, the results of the state
checks on its state, and its steps. The steps are kept in one buffer of 32-bit
words, so that a node is written as one record:

```text
high half of the target's fingerprint, low half, target's point, action checks ...
```

All steps of a node have the same number of action checks, which is set by the
first. The buffer grows by the room that the caller says it will need, and
`Node.trim` gives back what was not used.
-/

namespace Liveness

/-- A step to another node, with the action checks on it. -/
structure Step where
  /-- Where the step leads. -/
  target : Key
  /-- The results of the action checks. -/
  actions : Bits
deriving DecidableEq, Repr

/-- A node with the steps out of it. -/
structure Node where
  /-- The identity of the node. -/
  key : Key
  /-- The node it was first reached from; a root has none. -/
  parent : Option Key
  /-- The results of the state checks. -/
  stateBits : Bits := .empty
  /-- The number of action checks on each step. -/
  width : Nat := 0
  /-- The words of the steps, one step after the other. -/
  words : Array UInt32 := #[]
  /-- The number of words the buffer has room for. -/
  capacity : Nat := 0
deriving DecidableEq, Repr

namespace Node

/-- The words before the action checks of a step. -/
def headLen : Nat := 3

/-- The words for a number of action checks. -/
def actionWords (width : Nat) : Nat := (width + 31) / 32

/-- The words of one step with a number of action checks. -/
def stepLen (width : Nat) : Nat := headLen + actionWords width

/-- The number of words in use. -/
def used (n : Node) : Nat := n.words.size

/-- The number of steps. -/
def degree (n : Node) : Nat := n.used / stepLen n.width

/-- Word `j` of step `i`. -/
def word (n : Node) (i j : Nat) : UInt32 := n.words.getD (i * stepLen n.width + j) 0

/-- Where step `i` leads. -/
def target (n : Node) (i : Nat) : Key := ⟨.join (n.word i 0) (n.word i 1), n.word i 2⟩

/-- The action checks on step `i`. -/
def actions (n : Node) (i : Nat) : Bits :=
  .ofFn n.width fun a => (n.word i (headLen + a / 32)).toNat.testBit (a % 32)

/-- Where the steps lead, in order. -/
def targets (n : Node) : List Key := (List.range n.degree).map n.target

/-- The steps in order. -/
def steps (n : Node) : List Step :=
  (List.range n.degree).map fun i => ⟨n.target i, n.actions i⟩

/-- Step `i`, which must exist. -/
def step (n : Node) (i : Nat) : Except Defect Step :=
  if i < n.degree then .ok ⟨n.target i, n.actions i⟩
  else .error (.sliceRange n.used ((i + 1) * stepLen n.width))

/-- Whether a step leads to `k`. -/
def hasTarget (n : Node) (k : Key) : Bool := n.targets.contains k

/-- Store the results of the state checks. -/
def setState (n : Node) (bits : Bits) : Node := { n with stateBits := bits }

/-- Give back the room that is not in use. -/
def trim (n : Node) : Node := { n with capacity := n.used }

/-- Whether two nodes are equal, the room of their buffers aside. -/
def same (n m : Node) : Bool := n.trim == m.trim

/-- The most words a buffer can have. -/
def maxCapacity : Nat := 0x7FFFFFFFFFFFFFFF / 4

/-- Make room for a step: a buffer without it grows by `hint` steps. -/
def reserve (n : Node) (hint : Nat) : Except Defect Node :=
  if n.capacity - n.used < stepLen n.width then do
    let room ← mulWords (stepLen n.width) (max hint 1)
    if n.used + room ≤ maxCapacity then return { n with capacity := n.used + room }
    else throw .capacityOverflow
  else .ok n

/-- The word `w` of the action checks on a step, read from a row at `offset`. -/
def packActions (width : Nat) (row : Bits) (offset w : Nat) : UInt32 :=
  UInt32.ofNat (pack 32 fun b => 32 * w + b < width && row.get (offset + (32 * w + b)))

/-- The first `count` words of the action checks on a step. -/
def actionRow (width : Nat) (row : Bits) (offset count : Nat) : List UInt32 :=
  (List.range count).map (packActions width row offset)

/-- Append words to the buffer. -/
def append (n : Node) (ws : List UInt32) : Node := { n with words := n.words ++ ws.toArray }

/-- The first words of a step. -/
def head (target : Key) : List UInt32 := [target.fp.high, target.fp.low, target.point]

/-- The node with another number of action checks, unless it has steps. -/
def widen (n : Node) (width : Nat) : Node := if n.words.isEmpty then { n with width := width } else n

/-- Append a step to `target` whose action checks are the `width` bits of `row`
from `offset` on. The caller expects to add `hint` steps from here on. On a
position that is no machine word the words before it are already appended. -/
def addStep (n : Node) (target : Key) (width : Nat) (row : Bits) (offset hint : Nat) :
    Except Defect Unit × Node :=
  let n := n.widen width
  if n.width ≠ width then (.error (.mixedWidths n.key n.width width), n)
  else
    match n.reserve hint with
    | .error d => (.error d, n)
    | .ok n =>
      let n := n.append (head target)
      if width = 0 ∨ offset + width ≤ wordLimit then
        (.ok (), n.append (actionRow width row offset (actionWords width)))
      else
        (.error .addOverflow, n.append (actionRow width row offset ((wordLimit - offset) / 32)))

/-- The node as shown to a person. -/
def describe (n : Node) : String :=
  let parent := match n.parent with
    | none => "None"
    | some k => "Some(" ++ k.describe ++ ")"
  "GraphNode \x7b key: " ++ n.key.describe ++ ", parent: " ++ parent ++ ", state_bits: " ++
    n.stateBits.describe ++ ", targets: [" ++ ", ".intercalate (n.targets.map Key.describe) ++
    "] \x7d"

end Node

end Liveness
