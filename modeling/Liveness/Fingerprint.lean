import Liveness.Bytes

/-!
# Fingerprints of states

A state is known to the checker by a 64-bit fingerprint alone: equal fingerprints
count as equal states.

The hash here computes fingerprints of composite values one component at a time.
It is the remainder of a polynomial over the two-element field, kept with the
coefficient of the highest power in the lowest bit: appending one bit multiplies
by the variable and reduces modulo `polynomial` (`advance`). A byte is eight such
steps, done at once from a table of 256 remainders.
-/

namespace Liveness

/-- The identity of a state. -/
abbrev Fingerprint := UInt64

/-- The digits of a number in base sixteen, lower case, at least `width` of them. -/
def hexDigits (width n : Nat) : String :=
  let ds := Nat.toDigits 16 n
  String.ofList (List.replicate (width - ds.length) '0' ++ ds)

namespace Fingerprint

/-- The high half. -/
def high (fp : Fingerprint) : UInt32 := (fp >>> 32).toUInt32

/-- The low half. -/
def low (fp : Fingerprint) : UInt32 := fp.toUInt32

/-- The fingerprint with the given halves. -/
def join (high low : UInt32) : Fingerprint := (high.toUInt64 <<< 32) ||| low.toUInt64

/-- Sixteen hexadecimal digits. -/
def hex (fp : Fingerprint) : String := hexDigits 16 fp.toNat

/-- The fingerprint as shown to a person. -/
def describe (fp : Fingerprint) : String := "FP(" ++ fp.hex ++ ")"

/-- The irreducible polynomial the hash reduces by, and its value before any
component. -/
def polynomial : UInt64 := 0x911498AE0E66BAD6

/-- Multiply a remainder by the variable. -/
def advance (t : UInt64) : UInt64 := (t >>> 1) ^^^ (if t &&& 1 != 0 then polynomial else 0)

/-- The remainders of the first `n` powers, from `t` on. -/
def powersFrom : Nat → UInt64 → List UInt64
  | 0, _ => []
  | n + 1, t => t :: powersFrom n (advance t)

/-- The remainders of the powers `0` to `71`; power `0` is the highest bit. -/
def powers : Array UInt64 := (powersFrom 72 0x8000000000000000).toArray

/-- What a byte contributes once it is shifted out: the sum of a power for each
of its bits. -/
def byteRemainder (byte : Nat) : UInt64 :=
  (List.range 8).foldl (fun v k => if byte.testBit k then v ^^^ powers.getD (71 - k) 0 else v) 0

/-- The contribution of each byte. -/
def byteTable : Array UInt64 := (Array.range 256).map byteRemainder

/-- Append a byte. -/
def extendByte (fp : UInt64) (b : UInt8) : UInt64 :=
  (fp >>> 8) ^^^ byteTable.getD ((b.toUInt64 ^^^ fp) &&& 0xFF).toNat 0

/-- Append bytes in order. -/
def extendBytes (fp : UInt64) (bs : List UInt8) : UInt64 := bs.foldl extendByte fp

/-- Append an integer: its eight bytes in two's complement, lowest first. -/
def extendInt (fp : UInt64) (x : Int64) : UInt64 := extendBytes fp (bytes64 x.toUInt64)

/-- The 16-bit units of a character: itself, or a surrogate pair above the basic
plane. -/
def units (c : Char) : List UInt16 :=
  if c.toNat < 0x10000 then [UInt16.ofNat c.toNat]
  else
    let n := c.toNat - 0x10000
    [UInt16.ofNat (0xD800 + n / 0x400), UInt16.ofNat (0xDC00 + n % 0x400)]

/-- The byte each 16-bit unit of a text contributes: its low one. -/
def textBytes (s : String) : List UInt8 := (s.toList.flatMap units).map UInt16.toUInt8

/-- Append a text. -/
def extendText (fp : UInt64) (s : String) : UInt64 := extendBytes fp (textBytes s)

end Fingerprint

end Liveness
