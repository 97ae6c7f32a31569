import TemporalMonitor.Json.Reader

/-!
# Verdicts

What a monitor says about the observations so far: that the property holds however they go on, that
it fails however they go on, or neither.
-/

namespace TemporalMonitor

/-- A verdict on the observations so far. -/
inductive Status where
  /-- The property holds of every continuation. -/
  | satisfied
  /-- The property fails of every continuation. -/
  | violated
  /-- The property holds of some continuations and fails of others. -/
  | inconclusive
deriving DecidableEq, Repr

namespace Status

/-- Whether the verdict cannot change any more. -/
def isFinal : Status → Bool
  | .inconclusive => false
  | _ => true

/-- The text of a verdict. -/
def render : Status → String
  | .satisfied => "true"
  | .violated => "false"
  | .inconclusive => "inconclusive"

/-- The verdict with a text. -/
def ofText? : String → Option Status
  | "true" => some .satisfied
  | "false" => some .violated
  | "inconclusive" => some .inconclusive
  | _ => none

theorem ofText?_render (s : Status) : ofText? s.render = some s := by cases s <;> rfl

/-- The verdict of a JSON document. -/
def parse? (text : String) : Option Status :=
  ((Json.parse? text).bind Json.constant?).bind ofText?

end Status

end TemporalMonitor
