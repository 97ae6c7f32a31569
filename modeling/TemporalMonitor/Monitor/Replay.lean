import TemporalMonitor.Monitor.Basic
import TemporalMonitor.Trace

/-!
# Replaying traces

Feeding the observations of a trace to a monitor, from where it is. The first error ends the replay.

## Main definitions

* `Monitor.feed` — the verdicts after each of several observations
* `Report` — the outcome of a replay
* `Monitor.replay`
-/

namespace TemporalMonitor

/-- The outcome of a replay. -/
structure Report where
  /-- The verdicts after each observation. -/
  verdicts : List Status
  finalStatus : Status
  /-- After how many observations the verdict was final, if it was. -/
  decidedAt : Option Nat
deriving DecidableEq, Repr

/-- Whether the verdict became final. -/
def Report.isDecided (r : Report) : Bool := r.decidedAt.isSome

namespace Monitor

/-- Takes several observations and gives the verdict after each, up to the first error. -/
def feed (m : Monitor) : List Valuation → Monitor × Except MonitorError (List Status)
  | [] => (m, .ok [])
  | v :: vs =>
    match m.step v with
    | (m, .error e) => (m, .error e)
    | (m, .ok status) =>
      match m.feed vs with
      | (m, .error e) => (m, .error e)
      | (m, .ok verdicts) => (m, .ok (status :: verdicts))

/-- The number of observations before the verdict is final, given the verdict before the first
observation and those after each. -/
def decidedAt (before : Status) (verdicts : List Status) : Option Nat :=
  (before :: verdicts).findIdx? Status.isFinal

/-- Feeds a trace to a monitor. -/
def replay (m : Monitor) (t : Trace) : Monitor × Except MonitorError Report :=
  match m.feed (t.steps.map Observation.valuation) with
  | (after, .error e) => (after, .error e)
  | (after, .ok verdicts) => (after, .ok ⟨verdicts, after.status, decidedAt m.status verdicts⟩)

end Monitor

end TemporalMonitor
