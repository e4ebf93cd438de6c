import Liveness.Bytes

/-!
# Reading numbers

Two grammars of numbers in settings.

* A count is an optional plus sign and decimal digits, below `2 ^ 64`.
* A real number is an optional sign followed by `inf`, `infinity` or `nan` in any
  case, or by decimal digits with at most one point and at least one digit, and
  an optional exponent. It stands for the nearest floating-point number.
-/

namespace Liveness.Decimal

/-- The value of one decimal digit. -/
def digitValue (c : Char) : Nat := c.toNat - '0'.toNat

/-- The number that a row of decimal digits writes. -/
def digitsValue (cs : List Char) : Nat := cs.foldl (fun n c => 10 * n + digitValue c) 0

/-- A row of decimal digits, not empty. -/
def isNumeral (cs : List Char) : Bool := !cs.isEmpty && cs.all Char.isDigit

/-- Read a count below `2 ^ 64`. -/
def readCount? (s : String) : Option Nat :=
  let cs := match s.toList with
    | '+' :: rest => rest
    | cs => cs
  if isNumeral cs && digitsValue cs < wordLimit then some (digitsValue cs) else none

/-- The floating-point number nearest to `digits * 10 ^ exponent`. Numbers beyond
the range are infinite, and those too small are zero. -/
def nearestFloat (digits : Nat) (exponent : Int) : Float :=
  let size := (Nat.toDigits 10 digits).length + exponent
  if digits = 0 ∨ size < -400 then 0
  else if 400 < size then 1 / 0
  else if 0 ≤ exponent then Float.ofScientific digits false exponent.toNat
  else Float.ofScientific digits true (-exponent).toNat

/-- The exponent of a number without its mark: an optional sign and digits. -/
def readExponent? (cs : List Char) : Option Int :=
  let (negative, ds) := match cs with
    | '-' :: rest => (true, rest)
    | '+' :: rest => (false, rest)
    | cs => (false, cs)
  if isNumeral ds then
    some (if negative then -(digitsValue ds : Int) else (digitsValue ds : Int))
  else none

/-- Read a real number without sign. -/
def readUnsigned? (cs : List Char) : Option Float :=
  let word := String.ofList (cs.map Char.toLower)
  if word = "inf" ∨ word = "infinity" then some (1 / 0)
  else if word = "nan" then some (0 / 0)
  else
    let whole := cs.takeWhile Char.isDigit
    let rest := cs.dropWhile Char.isDigit
    let (fraction, rest) := match rest with
      | '.' :: rest => (rest.takeWhile Char.isDigit, rest.dropWhile Char.isDigit)
      | rest => ([], rest)
    let digits := whole ++ fraction
    if digits.isEmpty then none
    else
      let exponent? := match rest with
        | [] => some 0
        | c :: rest => if c = 'e' ∨ c = 'E' then readExponent? rest else none
      exponent?.map fun e => nearestFloat (digitsValue digits) (e - fraction.length)

/-- Read a real number. -/
def readReal? (s : String) : Option Float :=
  match s.toList with
  | '-' :: rest => (readUnsigned? rest).map fun x => -x
  | '+' :: rest => readUnsigned? rest
  | cs => readUnsigned? cs

end Liveness.Decimal
