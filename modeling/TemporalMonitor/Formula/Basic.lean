import TemporalMonitor.SortedSet

/-!
# Linear temporal formulas

Formulas are built from the two constants and named propositions by four unary and nine binary
operators. The operators beyond the usual ones are entailment `f => g`, which abbreviates
"always, if `f` then `g`", congruence `f <=> g`, which is entailment both ways, and weak until
`f W g`, which does not insist that `g` ever holds.

## Main definitions

* `Formula` — the formulas
* `Formula.operands`, `Formula.size`, `Formula.propositions` — their parts
* `Formula.isLiteral` — propositions and their negations
-/

namespace TemporalMonitor

/-- An operator with one operand. -/
inductive UnaryOp where
  | not | next | eventually | always
deriving DecidableEq, Repr

/-- An operator with two operands. -/
inductive BinaryOp where
  | and | or | implies | iff | entails | congruent | until | release | weakUntil
deriving DecidableEq, Repr

/-- A formula of linear temporal logic. -/
inductive Formula where
  /-- The constant that always holds. -/
  | verum
  /-- The constant that never holds. -/
  | falsum
  | prop (name : String)
  | unary (op : UnaryOp) (arg : Formula)
  | binary (op : BinaryOp) (lhs rhs : Formula)
deriving DecidableEq, Repr

/-- What the operator is called. -/
def UnaryOp.title : UnaryOp → String
  | .not => "negation"
  | .next => "next"
  | .eventually => "finally"
  | .always => "globally"

/-- What the operator is called. -/
def BinaryOp.title : BinaryOp → String
  | .and => "conjunction"
  | .or => "disjunction"
  | .implies => "implication"
  | .iff => "equivalence"
  | .entails => "strong implication"
  | .congruent => "strong equivalence"
  | .until => "until"
  | .release => "release"
  | .weakUntil => "unless"

/-! ### The operators as functions on formulas -/

/-- The negation of a formula. -/
@[match_pattern] abbrev Formula.not (f : Formula) : Formula := .unary .not f

/-- The formula holds at the next instant. -/
@[match_pattern] abbrev Formula.next (f : Formula) : Formula := .unary .next f

/-- The formula holds at some instant from now on. -/
@[match_pattern] abbrev Formula.eventually (f : Formula) : Formula := .unary .eventually f

/-- The formula holds at every instant from now on. -/
@[match_pattern] abbrev Formula.always (f : Formula) : Formula := .unary .always f

/-- Both formulas hold. -/
@[match_pattern] abbrev Formula.and (f g : Formula) : Formula := .binary .and f g

/-- At least one of the formulas holds. -/
@[match_pattern] abbrev Formula.or (f g : Formula) : Formula := .binary .or f g

/-- If the first formula holds, so does the second. -/
@[match_pattern] abbrev Formula.implies (f g : Formula) : Formula := .binary .implies f g

/-- Both formulas hold or neither does. -/
@[match_pattern] abbrev Formula.iff (f g : Formula) : Formula := .binary .iff f g

/-- The first formula implies the second at every instant from now on. -/
@[match_pattern] abbrev Formula.entails (f g : Formula) : Formula := .binary .entails f g

/-- The formulas agree at every instant from now on. -/
@[match_pattern] abbrev Formula.congruent (f g : Formula) : Formula := .binary .congruent f g

/-- The second formula holds at some instant, and the first until then. -/
@[match_pattern] abbrev Formula.until (f g : Formula) : Formula := .binary .until f g

/-- The second formula holds up to and including the first instant, if any, where the first does. -/
@[match_pattern] abbrev Formula.release (f g : Formula) : Formula := .binary .release f g

/-- The first formula holds until the second does, or for ever. -/
@[match_pattern] abbrev Formula.weakUntil (f g : Formula) : Formula := .binary .weakUntil f g

namespace Formula

/-! ### Parts of a formula -/

/-- What the outermost symbol is called. -/
def title : Formula → String
  | .verum => "true"
  | .falsum => "false"
  | .prop _ => "proposition"
  | .unary op _ => op.title
  | .binary op _ _ => op.title

/-- The immediate operands, left to right. -/
def operands : Formula → List Formula
  | .unary _ f => [f]
  | .binary _ f g => [f, g]
  | _ => []

/-- The number of symbols. -/
def size : Formula → Nat
  | .unary _ f => f.size + 1
  | .binary _ f g => f.size + g.size + 1
  | _ => 1

/-- The names of the propositions in a formula. -/
def propositions : Formula → SortedSet String
  | .prop name => {name}
  | .unary _ f => f.propositions
  | .binary _ f g => f.propositions ∪ g.propositions
  | _ => ∅

/-- Whether the formula is a proposition or the negation of one. -/
def isLiteral : Formula → Bool
  | .prop _ => true
  | .not (.prop _) => true
  | _ => false

end Formula

end TemporalMonitor
