/-!
# Bytes

Numbers as bytes, least significant byte first, and rows of truth values as the
bits of a number, bit `0` first. Records of the graph log and the checkpoint
files are made of nothing else.

* `toBytes`, `ofBytes` write a natural number with a given number of bytes and
  read it back.
* `pack` is the number whose bits are the given truth values.
-/

namespace Liveness

/-- The contents of a file. -/
abbrev Bytes := Array UInt8

/-- The `width` low bytes of `n`, least significant first. -/
def toBytes : Nat → Nat → List UInt8
  | 0, _ => []
  | width + 1, n => UInt8.ofNat n :: toBytes width (n / 256)

/-- The number whose bytes are the given ones, least significant first. -/
def ofBytes : List UInt8 → Nat
  | [] => 0
  | b :: bs => b.toNat + 256 * ofBytes bs

/-- A 32-bit word as four bytes. -/
def bytes32 (w : UInt32) : List UInt8 := toBytes 4 w.toNat

/-- A 64-bit word as eight bytes. -/
def bytes64 (w : UInt64) : List UInt8 := toBytes 8 w.toNat

/-- The number below `2 ^ width` whose bit `i` is `f i`. -/
def pack : Nat → (Nat → Bool) → Nat
  | 0, _ => 0
  | width + 1, f => (f 0).toNat + 2 * pack width fun i => f (i + 1)

/-- A word of the machine holds the numbers below this one, which is `2 ^ 64`. -/
def wordLimit : Nat := 0x10000000000000000

@[simp] theorem length_toBytes (width n : Nat) : (toBytes width n).length = width := by
  induction width generalizing n with
  | zero => rfl
  | succ width ih => simp [toBytes, ih]

end Liveness
