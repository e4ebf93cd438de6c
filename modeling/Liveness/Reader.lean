import Liveness.Fault

/-!
# Reading stored bytes

A reader takes values off the front of a row of bytes. It knows where the bytes
start in their file and how many it has taken, so that it can say where it found
too few.
-/

namespace Liveness

/-- The bytes a reader has left. -/
structure Cursor where
  /-- Where the bytes start in their file. -/
  offset : Nat
  /-- The bytes left. -/
  rest : List UInt8
  /-- The number of bytes taken. -/
  position : Nat := 0
deriving DecidableEq, Repr

/-- A computation that takes values off a row of bytes. -/
abbrev Reader := StateT Cursor Outcome

namespace Reader

/-- Run a reader on bytes that start at an offset of their file. -/
def read {α : Type} (r : Reader α) (offset : Nat) (bytes : List UInt8) : Outcome α :=
  Prod.fst <$> r ⟨offset, bytes, 0⟩

/-- Fail because of a damage. -/
def fail {α : Type} (damage : Damage) : Reader α := fun c => .error (.corrupt c.offset damage)

/-- Take `n` bytes. -/
def take (n : Nat) : Reader (List UInt8) := fun c =>
  if (c.rest.take n).length = n then
    .ok (c.rest.take n, { c with rest := c.rest.drop n, position := c.position + n })
  else .error (.corrupt c.offset (.truncated n c.position))

/-- Whether all bytes are taken. -/
def atEnd : Reader Bool := fun c => .ok (c.rest.isEmpty, c)

/-- Take a number of `n` bytes. -/
def number (n : Nat) : Reader Nat := do return ofBytes (← take n)

/-- Take a byte. -/
def byte : Reader UInt8 := do return UInt8.ofNat (← number 1)

/-- Take a 32-bit word. -/
def word32 : Reader UInt32 := do return UInt32.ofNat (← number 4)

/-- Take a 64-bit word. -/
def word64 : Reader UInt64 := do return UInt64.ofNat (← number 8)

/-- Take a key. -/
def key : Reader Key := do
  let fp ← word64
  let point ← word32
  return ⟨fp, point⟩

/-- Take `n` values with the same reader. -/
def many {α : Type} (r : Reader α) : Nat → Reader (List α)
  | 0 => return []
  | n + 1 => do
    let a ← r
    let as ← many r n
    return a :: as

end Reader

/-- The bytes of a key. -/
def Key.encode (k : Key) : List UInt8 := bytes64 k.fp ++ bytes32 k.point

end Liveness
