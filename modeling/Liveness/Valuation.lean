import Std.Data.ExtTreeMap
import Liveness.Fingerprint
import Liveness.Text.Quoted

/-!
# Valuations

The states of small models: finitely many variables, each with an integer value.
The variables are kept in the order of their names, so that a valuation has one
fingerprint however it was put together. The fingerprint is computed when the
valuation is made.
-/

namespace Liveness

/-- Variables with their values, in the order of the names. -/
abbrev Variables := Std.ExtTreeMap String Int64

/-- The fingerprint of variables: their number, then each name and value. -/
def Variables.fingerprint (vars : Variables) : Fingerprint :=
  vars.toList.foldl
    (fun fp (name, value) => Fingerprint.extendInt (Fingerprint.extendText fp name) value)
    (Fingerprint.extendInt Fingerprint.polynomial (Int64.ofNat vars.size))

/-- A state that gives a value to each of its variables. -/
structure Valuation where
  /-- The variables. -/
  vars : Variables
  /-- The fingerprint of the state. -/
  fingerprint : Fingerprint
  /-- The fingerprint is that of the variables. -/
  fingerprint_eq : fingerprint = vars.fingerprint

namespace Valuation

/-- The valuation of the given variables. -/
def ofVariables (vars : Variables) : Valuation := ⟨vars, vars.fingerprint, rfl⟩

/-- The valuation of the given pairs; of a repeated name the last value counts. -/
def ofPairs (pairs : List (String × Int64)) : Valuation :=
  ofVariables (pairs.foldl (fun vars (name, value) => vars.insert name value) ∅)

instance : Inhabited Valuation := ⟨ofPairs []⟩

/-- Two valuations are the same state if their fingerprints are equal. -/
instance : BEq Valuation := ⟨fun s t => s.fingerprint == t.fingerprint⟩

/-- The value of a variable. -/
def get? (s : Valuation) (name : String) : Option Int64 := s.vars[name]?

/-- The valuation with one variable changed or added. -/
def insert (s : Valuation) (name : String) (value : Int64) : Valuation :=
  ofVariables (s.vars.insert name value)

/-- The number of variables. -/
def size (s : Valuation) : Nat := s.vars.size

/-- The variables with their values, in the order of the names. -/
def toList (s : Valuation) : List (String × Int64) := s.vars.toList

/-- One line per variable, as conjuncts. -/
def text (s : Valuation) : String :=
  "\n".intercalate (s.toList.map fun (name, value) => "/\\ " ++ name ++ " = " ++ toString value.toInt)

/-- The valuation on one line. -/
def describe (s : Valuation) : String :=
  "\x7b" ++ ", ".intercalate
    (s.toList.map fun (name, value) => Text.quote name ++ ": " ++ toString value.toInt) ++ "\x7d"

end Valuation

end Liveness
