import Liveness.Bytes

/-!
# Rows of bits

A fixed number of truth values kept in 64-bit words. The results of a property's
checks are rows of bits: one bit per check for a state, one bit per check and
successor for the steps out of it.

A row is read at any position, and beyond its length every bit is false. It is
written only inside its length; a write elsewhere is a `Misuse`.
-/

namespace Liveness

/-- A row of `len` bits, sixty-four to a word, bit `0` lowest in the first word. -/
structure Bits where
  /-- The number of bits. -/
  len : Nat
  /-- The words that hold them. -/
  words : Array UInt64
deriving DecidableEq, Repr, Inhabited

namespace Bits

/-- A use of a row that it does not allow. -/
inductive Misuse where
  /-- A write at position `index` of a row of `len` bits. -/
  | outOfRange (index len : Nat)
  /-- A position that is no machine word. -/
  | overflow
deriving DecidableEq, Repr

/-- The row of `len` false bits. -/
def zeros (len : Nat) : Bits := ⟨len, Array.replicate ((len + 63) / 64) 0⟩

/-- The empty row. -/
def empty : Bits := zeros 0

/-- Whether a row has no bits. -/
def isEmpty (b : Bits) : Bool := b.len == 0

/-- The word in which only bit `k` is set. -/
def unit (k : Nat) : UInt64 := 1 <<< UInt64.ofNat k

/-- Bit `k` of a word. -/
def bit (w : UInt64) (k : Nat) : Bool := w &&& unit k != 0

/-- Bit `i`; beyond the length it is false. -/
def get (b : Bits) (i : Nat) : Bool :=
  i < b.len && bit (b.words.getD (i / 64) 0) (i % 64)

/-- The row with bit `i` true, for `i` inside the row. -/
def mark (b : Bits) (i : Nat) : Bits :=
  { b with words := b.words.modify (i / 64) (· ||| unit (i % 64)) }

/-- The row with bit `i` false, for `i` inside the row. -/
def unmark (b : Bits) (i : Nat) : Bits :=
  { b with words := b.words.modify (i / 64) (· &&& ~~~ unit (i % 64)) }

/-- Make bit `i` true. -/
def set (b : Bits) (i : Nat) : Except Misuse Bits :=
  if i < b.len then .ok (b.mark i) else .error (.outOfRange i b.len)

/-- Make bit `i` false. -/
def clear (b : Bits) (i : Nat) : Except Misuse Bits :=
  if i < b.len then .ok (b.unmark i) else .error (.outOfRange i b.len)

/-- Write `value` to bit `i`. -/
def put (b : Bits) (i : Nat) (value : Bool) : Except Misuse Bits :=
  if value then b.set i else b.clear i

/-- The row of `len` bits whose bit `i` is `f i`. -/
def ofFn (len : Nat) (f : Nat → Bool) : Bits :=
  (List.range len).foldl (fun b i => if f i then b.mark i else b) (zeros len)

/-- The row of the given bits. -/
def ofArray (bs : Array Bool) : Bits := ofFn bs.size fun i => bs.getD i false

/-- The row of the given bits. -/
def ofList (bs : List Bool) : Bits := ofArray bs.toArray

/-- The bits in order. -/
def toList (b : Bits) : List Bool := (List.range b.len).map b.get

/-- The positions of the true bits, in order. -/
def ones (b : Bits) : List Nat := (List.range b.len).filter b.get

/-- The number of true bits of a word. -/
def population (w : UInt64) : Nat := (List.range 64).countP (bit w)

/-- The number of true bits. -/
def count (b : Bits) : Nat := b.words.toList.foldl (fun n w => n + population w) 0

/-- The `len` bits from position `offset` on. Every position read is a machine
word. -/
def slice (b : Bits) (offset len : Nat) : Except Misuse Bits :=
  if len = 0 ∨ offset + len ≤ wordLimit then .ok (ofFn len fun i => b.get (offset + i))
  else .error .overflow

/-- The bits as digits, bit `0` first. -/
def digits (b : Bits) : String :=
  String.ofList (b.toList.map fun v => if v then '1' else '0')

/-- The row as shown to a person. -/
def describe (b : Bits) : String := "BitVector[" ++ b.digits ++ "]"

end Bits

end Liveness
