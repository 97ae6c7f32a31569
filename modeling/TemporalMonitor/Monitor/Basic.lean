import TemporalMonitor.Monitor.Status
import TemporalMonitor.Synthesis.Basic

/-!
# Monitors

A monitor steps two deterministic automata together, one for a property and one for its negation.
Each accepts while the observations so far can be continued as it demands, so the verdict is final
once one of them does not accept any more, or has no node to go to.

If the automata are not deterministic, or neither accepts, there is no verdict. The monitor is then
poisoned, and stays so until it is reset.

## Main definitions

* `MonitorAutomata` — the two automata
* `Monitor`, `Monitor.start`, `Monitor.step`, `Monitor.reset`
* `MonitorError` — why there is no verdict
-/

namespace TemporalMonitor

/-- One of the two automata. -/
inductive Side where
  /-- The automaton of the property. -/
  | positive
  /-- The automaton of its negation. -/
  | negative
deriving DecidableEq, Repr

/-- What the side is called. -/
def Side.render : Side → String
  | .positive => "positive"
  | .negative => "negative"

/-- Why a monitor gives no verdict. -/
inductive MonitorError where
  /-- An observation leads to several nodes. -/
  | nonDeterministic (side : Side) (state : String) (successors : Nat)
  /-- Neither automaton accepts. -/
  | noVerdict (steps : Nat) (positive negative : String)
  /-- There was an error before. -/
  | poisoned
  /-- The automata cannot be built. -/
  | construction (cause : SynthesisError)
deriving DecidableEq

/-- The message shown for the error. -/
def MonitorError.message : MonitorError → String
  | .nonDeterministic side state successors =>
    side.render ++ " automaton has " ++ toString successors ++ " successors from state " ++ state ++
      " on one observation"
  | .noVerdict steps positive negative =>
    "neither automaton accepts after " ++ toString steps ++ " steps (positive at " ++ positive ++
      ", negative at " ++ negative ++ ")"
  | .poisoned => "monitor was poisoned by an earlier failure and must be recreated"
  | .construction cause => "monitor construction failed: " ++ cause.message

/-! ### The automata of a monitor -/

/-- The deterministic automata of a property and of its negation, with their initial nodes. -/
structure MonitorAutomata where
  /-- The automaton of the property. -/
  positive : PowerSetAutomaton
  /-- The automaton of its negation. -/
  negative : PowerSetAutomaton
  positiveStart : NodeId
  negativeStart : NodeId
  positive_initial : positive.graph.initial = some positiveStart
  negative_initial : negative.graph.initial = some negativeStart

namespace MonitorAutomata

/-- Puts two automata together, which must have initial nodes. -/
def ofPair (positive negative : PowerSetAutomaton) : Except SynthesisError MonitorAutomata :=
  match hp : positive.graph.initial, hn : negative.graph.initial with
  | some p, some n => .ok ⟨positive, negative, p, n, hp, hn⟩
  | _, _ => .error (.missingInitialNode .monitor)

/-- Builds the automata of a formula and of its negation. -/
def build (options : SynthesisOptions) (f : Formula) : Except SynthesisError MonitorAutomata := do
  let (positive, _) ← f.synthesize options
  let (negative, _) ← f.negate.synthesize options
  ofPair positive negative

end MonitorAutomata

/-! ### Pointers -/

/-- Where a monitor is in one of its automata. -/
inductive Pointer where
  | on (node : NodeId)
  /-- Nowhere: some observation had no successor. -/
  | stuck
deriving DecidableEq, Repr

/-- Follows an observation. -/
def Pointer.advance (a : PowerSetAutomaton) (side : Side) (v : Valuation) :
    Pointer → Except MonitorError Pointer
  | .stuck => .ok .stuck
  | .on node =>
    match (a.graph.post (Guard.holds v) node).toList with
    | [] => .ok .stuck
    | [next] => .ok (.on next)
    | targets => .error (.nonDeterministic side (a.graph.nameOf node) targets.length)

/-! ### Monitors -/

/-- A monitor: two automata, where it is in them, and what it has found. -/
structure Monitor where
  automata : MonitorAutomata
  /-- Where it is in the automaton of the property. -/
  positive : Pointer
  /-- Where it is in the automaton of the negation. -/
  negative : Pointer
  status : Status
  /-- The number of observations since the start. -/
  steps : Nat
  /-- Whether there was an error since the start. -/
  poisoned : Bool

namespace Monitor

/-- The verdict where the monitor is. -/
def verdict (m : Monitor) : Except MonitorError Status :=
  match m.positive, m.negative with
  | .stuck, _ => .ok .violated
  | .on _, .stuck => .ok .satisfied
  | .on p, .on n =>
    match m.automata.positive.isAccepting p, m.automata.negative.isAccepting n with
    | true, true => .ok .inconclusive
    | false, true => .ok .violated
    | true, false => .ok .satisfied
    | false, false =>
      .error (.noVerdict m.steps (m.automata.positive.graph.nameOf p)
        (m.automata.negative.graph.nameOf n))

/-- The monitor at the initial nodes, before its first verdict. -/
def atStart (automata : MonitorAutomata) : Monitor :=
  { automata
    positive := .on automata.positiveStart
    negative := .on automata.negativeStart
    status := .inconclusive
    steps := 0
    poisoned := false }

/-- A fresh monitor on given automata. -/
def start (automata : MonitorAutomata) : Except MonitorError Monitor := do
  let m := atStart automata
  return { m with status := ← m.verdict }

/-- A fresh monitor for a formula. -/
def ofFormula (options : SynthesisOptions) (f : Formula) : Except MonitorError Monitor := do
  start (← (MonitorAutomata.build options f).mapError .construction)

/-- Goes back to the initial nodes. -/
def reset (m : Monitor) : Monitor × Except MonitorError Unit :=
  let m := atStart m.automata
  match m.verdict with
  | .ok status => ({ m with status }, .ok ())
  | .error e => ({ m with poisoned := true }, .error e)

/-- Moves the pointers, that of the property first, and takes the verdict. -/
def advance (m : Monitor) (v : Valuation) : Monitor × Except MonitorError Status :=
  match m.positive.advance m.automata.positive .positive v with
  | .error e => (m, .error e)
  | .ok positive =>
    let m := { m with positive }
    match m.negative.advance m.automata.negative .negative v with
    | .error e => (m, .error e)
    | .ok negative =>
      let m := { m with negative }
      (m, m.verdict)

/-- Takes an observation. A poisoned monitor does not change, and after a final verdict observations
are only counted. -/
def step (m : Monitor) (v : Valuation) : Monitor × Except MonitorError Status :=
  if m.poisoned then (m, .error .poisoned)
  else
    let m := { m with steps := m.steps + 1 }
    if m.status.isFinal then (m, .ok m.status)
    else
      match m.advance v with
      | (m, .ok status) => ({ m with status }, .ok status)
      | (m, .error e) => ({ m with poisoned := true }, .error e)

end Monitor

end TemporalMonitor
