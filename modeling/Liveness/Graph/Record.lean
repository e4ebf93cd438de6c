import Liveness.Graph.Node
import Liveness.Reader

/-!
# Records of nodes

The bytes of a node:

```text
fingerprint: 8, point: 4
0, or 1 and the parent's fingerprint: 8 and point: 4
number of state checks: 4, their results, eight to a byte
number of action checks: 4, number of words of the steps: 4, the words: 4 each
```

A record is read as a whole: too few bytes, and bytes after its end, are damage.
-/

namespace Liveness.Node

/-- A row of bits, eight to a byte. -/
def bitBytes (b : Bits) : List UInt8 :=
  (List.range ((b.len + 7) / 8)).map fun j => UInt8.ofNat (pack 8 fun i => b.get (8 * j + i))

/-- The row of `len` bits in the given bytes. -/
def ofBitBytes (len : Nat) (bytes : List UInt8) : Bits :=
  let bytes := bytes.toArray
  .ofFn len fun i => (bytes.getD (i / 8) 0).toNat.testBit (i % 8)

/-- The bytes of an optional key. -/
def encodeParent : Option Key → List UInt8
  | none => [0]
  | some k => 1 :: k.encode

/-- The bytes of a node. -/
def encode (n : Node) : List UInt8 :=
  n.key.encode ++ encodeParent n.parent ++
    toBytes 4 n.stateBits.len ++ bitBytes n.stateBits ++
    toBytes 4 n.width ++ toBytes 4 n.used ++ n.words.toList.flatMap bytes32

/-- Take an optional key. -/
def readParent : Reader (Option Key) := do
  let tag ← Reader.byte
  if tag = 0 then return none
  else if tag = 1 then return some (← Reader.key)
  else Reader.fail (.parentTag tag)

/-- Take a node and nothing after it. -/
def reader : Reader Node := do
  let key ← Reader.key
  let parent ← readParent
  let stateLen ← Reader.number 4
  let stateBytes ← Reader.take ((stateLen + 7) / 8)
  let width ← Reader.number 4
  let used ← Reader.number 4
  if used % stepLen width ≠ 0 then Reader.fail .raggedSteps
  else
    let words ← Reader.many Reader.word32 used
    if ← Reader.atEnd then
      return {
        key := key
        parent := parent
        stateBits := ofBitBytes stateLen stateBytes
        width := width
        words := words.toArray
        capacity := used }
    else Reader.fail .trailing

/-- The node in the bytes of a record that starts at an offset of its file. -/
def decode (offset : Nat) (bytes : List UInt8) : Outcome Node := reader.read offset bytes

end Liveness.Node
