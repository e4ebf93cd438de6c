import Liveness.Warning
import Liveness.Text.Blank
import Liveness.Decimal.Reading

/-!
# Settings

When the properties are checked, with how many workers, and where the graphs are
kept. Settings can be overridden from the environment; a value that cannot be
read is ignored with a warning.
-/

namespace Liveness

/-- When the properties are checked. -/
inductive Mode where
  /-- From time to time while the states are explored, and at the end. -/
  | periodic
  /-- Only at the end. -/
  | finalOnly
  /-- Never. -/
  | off
deriving DecidableEq, Repr, Inhabited

namespace Mode

/-- Why a text names no mode. -/
def unknown (word : String) : String := "unknown liveness mode '" ++ word ++ "'"

/-- The mode that a text names, blanks and case aside. -/
def parse (s : String) : Except String Mode :=
  let word := Text.lower (Text.trim s)
  if word = "periodic" ∨ word = "default" then .ok periodic
  else if word = "final" then .ok finalOnly
  else if word = "off" then .ok off
  else .error (unknown word)

/-- The name of a mode in settings. -/
def name : Mode → String
  | periodic => "periodic"
  | finalOnly => "final"
  | off => "off"

/-- The mode as shown to a person. -/
def describe : Mode → String
  | periodic => "Periodic"
  | finalOnly => "FinalOnly"
  | off => "Off"

end Mode

/-- The settings that all properties share. -/
structure Config where
  /-- The folder of the graphs' files. -/
  folder : String
  /-- The relative growth of a graph after which a periodic check is due. -/
  threshold : Float := 0.1
  /-- How many properties may be searched at the same time. -/
  workers : Nat := 1
  /-- Search one property after the other. -/
  sequential : Bool := false
  /-- When the properties are checked. -/
  mode : Mode := .periodic
  /-- States may be expanded again with other successors. -/
  simulation : Bool := false
  /-- Draw each graph after every change. -/
  drawing : Bool := false

namespace Config

/-- Allow `n` workers, and at least one. -/
def withWorkers (c : Config) (n : Nat) : Config := { c with workers := max n 1 }

/-- The number of workers for a number of properties. -/
def workerCount (c : Config) (properties : Nat) : Nat :=
  if c.sequential then 1 else max (min properties c.workers) 1

/-- Override the threshold: a number from zero up. -/
def readThreshold (c : Config) (raw : String) : Config × List Warning :=
  match Decimal.readReal? (Text.trim raw) with
  | some t => if 0 ≤ t then ({ c with threshold := t }, []) else (c, [.threshold raw])
  | none => (c, [.threshold raw])

/-- Override the number of workers: a positive count. -/
def readWorkers (c : Config) (raw : String) : Config × List Warning :=
  match Decimal.readCount? (Text.trim raw) with
  | some n => if 0 < n then ({ c with workers := n }, []) else (c, [.workers raw])
  | none => (c, [.workers raw])

/-- Override the mode. -/
def readMode (c : Config) (raw : String) : Config × List Warning :=
  match Mode.parse raw with
  | .ok mode => ({ c with mode := mode }, [])
  | .error reason => (c, [.mode reason])

/-- Override whether graphs are drawn. -/
def readDrawing (c : Config) (raw : String) : Config × List Warning :=
  ({ c with drawing := ["1", "true", "TRUE", "yes"].contains (Text.trim raw) }, [])

/-- Apply an override if its variable is set. -/
def override (read : Config → String → Config × List Warning) (value : Option String)
    (start : Config × List Warning) : Config × List Warning :=
  match value with
  | none => start
  | some raw => ((read start.1 raw).1, start.2 ++ (read start.1 raw).2)

/-- The settings with the overrides of an environment, and the warnings about the
values that were ignored. -/
def withEnvironment (c : Config) (env : String → Option String) : Config × List Warning :=
  override readDrawing (env "TLA2_LIVENESS_DEBUG") <|
  override readMode (env "TLA2_LIVENESS_MODE") <|
  override readWorkers (env "TLA2_LIVENESS_WORKERS") <|
  override readThreshold (env "TLA2_LIVENESS_THRESHOLD") (c, [])

end Config

end Liveness
