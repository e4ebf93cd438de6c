/-!
# Decimals with a fixed number of places

A floating-point number is an integer times a power of two. Written with two
places it is that exact value rounded to the nearest hundredth, a half going to
the even neighbour.
-/

namespace Liveness.Decimal

/-- The integer nearest to `num / den`; of two equally near the even one. -/
def roundDiv (num den : Nat) : Nat :=
  let q := num / den
  let r := num % den
  if 2 * r < den then q
  else if den < 2 * r then q + 1
  else q + q % 2

/-- A finite number `± digits * 2 ^ exponent`. -/
structure Binary where
  /-- Whether it is below zero, or the negative zero. -/
  negative : Bool
  /-- The integer factor. -/
  digits : Nat
  /-- The power of two. -/
  exponent : Int
deriving DecidableEq, Repr

/-- The exact value of a floating-point number, if it is finite. -/
def Binary.ofFloat? (x : Float) : Option Binary :=
  let bits := x.toBits.toNat
  let exponent : Nat := (bits >>> 52) % 2048
  let fraction : Nat := bits % (1 <<< 52)
  let negative := bits >>> 63 = 1
  if exponent = 2047 then none
  else if exponent = 0 then some ⟨negative, fraction, -1074⟩
  else some ⟨negative, fraction + (1 <<< 52), (exponent : Int) - 1075⟩

/-- The number of hundredths nearest to the absolute value. -/
def Binary.hundredths (b : Binary) : Nat :=
  if 0 ≤ b.exponent then (b.digits <<< b.exponent.toNat) * 100
  else roundDiv (b.digits * 100) (1 <<< (-b.exponent).toNat)

/-- Two decimal digits. -/
def twoDigits (n : Nat) : String :=
  if n < 10 then "0" ++ toString n else toString n

/-- A number with two places. -/
def twoPlaces (x : Float) : String :=
  match Binary.ofFloat? x with
  | some b =>
    let n := b.hundredths
    (if b.negative then "-" else "") ++ toString (n / 100) ++ "." ++ twoDigits (n % 100)
  | none => if x.isNaN then "NaN" else if x < 0 then "-inf" else "inf"

end Liveness.Decimal
