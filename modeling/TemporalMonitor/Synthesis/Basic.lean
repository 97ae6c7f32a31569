import TemporalMonitor.Automaton.CountingProduct
import TemporalMonitor.Automaton.PowerSet
import TemporalMonitor.Formula.NormalForm
import TemporalMonitor.Tableau.Automaton

/-!
# From formulas to automata

A formula becomes a generalized Büchi automaton by way of its normal form and its tableau. For
monitoring, that automaton becomes a deterministic automaton on finite words, which accepts a word
while some continuation of it satisfies the formula.

## Main definitions

* `SynthesisOptions`
* `Formula.toAutomaton`, `Formula.tableauAutomaton` — the generalized Büchi automaton
* `Formula.synthesize` — the deterministic automaton
-/

namespace TemporalMonitor

/-- How automata are built from formulas. -/
structure SynthesisOptions where
  /-- The largest number of distinct subformulas allowed, if there is a limit. -/
  maxClosureSize : Option Nat := none
  /-- Whether parallel edges of the deterministic automaton are merged. -/
  simplifyTransitions : Bool := true
deriving DecidableEq, Repr

/-- The default options with a limit on the number of distinct subformulas. -/
def SynthesisOptions.bounded (limit : Nat) : SynthesisOptions :=
  { maxClosureSize := some limit }

/-- The sizes of the automata on the way from a formula to a deterministic automaton. -/
structure SynthesisStats where
  generalizedNodes : Nat
  acceptanceSets : Nat
  buchiNodes : Nat
  /-- The nodes of the Büchi automaton that are live. -/
  liveNodes : Nat
  finalNodes : Nat
  finalEdges : Nat
deriving DecidableEq, Repr

namespace Formula

/-- The tableau of a formula in normal form. -/
def tableau (f : Formula) : Except SynthesisError Tableau :=
  (Tableau.build f).mapError .unsupportedOperator

/-- The automaton of a formula in normal form. -/
def tableauAutomaton (f : Formula) :
    Except SynthesisError (GeneralizedBuchiAutomaton Tableau.State) :=
  f.tableau.map Tableau.toAutomaton

/-- Checks the number of distinct subformulas of a formula against a limit. -/
def checkClosureSize (limit : Option Nat) (f : Formula) : Except SynthesisError Unit :=
  match limit with
  | none => .ok ()
  | some limit =>
    let size := f.subformulas.size
    if limit < size then .error (.formulaTooLarge size limit) else .ok ()

/-- The automaton of a formula. The limit is on the subformulas of its normal form. -/
def toAutomaton (options : SynthesisOptions) (f : Formula) :
    Except SynthesisError (GeneralizedBuchiAutomaton Tableau.State) := do
  let normal := f.normalize
  normal.checkClosureSize options.maxClosureSize
  normal.tableauAutomaton

/-- The deterministic automaton that accepts the finite words which can be continued to an infinite
word satisfying the formula, and the sizes on the way to it. -/
def synthesize (options : SynthesisOptions) (f : Formula) :
    Except SynthesisError (PowerSetAutomaton × SynthesisStats) := do
  let generalized ← f.toAutomaton options
  let buchi ← generalized.degeneralize
  let live := buchi.project
  let unfolded := { live with graph := live.graph.unfold }
  let final ← if options.simplifyTransitions then unfolded.determinize else unfolded.powerSet
  return (final,
    { generalizedNodes := generalized.graph.size
      acceptanceSets := generalized.acceptance.sets.length
      buchiNodes := buchi.graph.size
      liveNodes := live.accepting.size
      finalNodes := final.graph.size
      finalEdges := final.graph.edgeCount })

end Formula

end TemporalMonitor
