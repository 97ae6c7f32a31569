import TemporalMonitor.Formula.Printer

/-!
# Why synthesis fails

The causes for which no automaton is built from a formula, each with its message, a code that
identifies it, and sometimes a hint.
-/

namespace TemporalMonitor

/-- A construction that needs an initial node. -/
inductive Stage where
  | degeneralize | determinize | monitor
deriving DecidableEq, Repr

/-- What the construction is called. -/
def Stage.title : Stage → String
  | .degeneralize => "degeneralize"
  | .determinize => "determinize"
  | .monitor => "monitor"

/-- Why no automaton is built. -/
inductive SynthesisError where
  /-- The formula is not in normal form. -/
  | unsupportedOperator (formula : Formula)
  /-- The formula has more distinct subformulas than are allowed. -/
  | formulaTooLarge (size limit : Nat)
  /-- A construction was given an automaton without an initial node. -/
  | missingInitialNode (stage : Stage)
deriving DecidableEq, Repr

namespace SynthesisError

/-- The message shown for the error. -/
def message : SynthesisError → String
  | .unsupportedOperator f => "Unsupported operator '" ++ f.title ++ "' in `" ++ f.render ++ "`"
  | .formulaTooLarge size limit =>
    "Formula has " ++ toString size ++ " distinct sub-formulas, above the limit of " ++
      toString limit
  | .missingInitialNode stage =>
    stage.title ++ " received an automaton without an initial node"

/-- The code that identifies the kind of error. -/
def code : SynthesisError → String
  | .unsupportedOperator _ => "ltlmon::translate::unsupported_operator"
  | .formulaTooLarge _ _ => "ltlmon::translate::formula_too_large"
  | .missingInitialNode _ => "ltlmon::translate::missing_initial_node"

/-- What can be done about the error. -/
def help : SynthesisError → Option String
  | .unsupportedOperator _ =>
    some "the tableau only accepts the reduced basis; normalize the formula first"
  | .formulaTooLarge _ _ => some "raise `max_closure_size` or split the property"
  | .missingInitialNode _ => none

end SynthesisError

end TemporalMonitor
