import TemporalMonitor.Formula.Basic

/-!
# Negation normal form

Every formula is equivalent to one built from the constants, propositions and negated propositions
by conjunction, disjunction, next, until and release alone. Pushing a negation inwards swaps the
members of each pair of dual operators, so `normalize` and `negate` are defined together.

## Main definitions

* `Formula.normalize`, `Formula.negate` — the normal form of a formula and of its negation
* `Formula.isNormalized` — being in normal form

## Main results

* `Formula.isNormalized_normalize`, `Formula.isNormalized_negate` — both results are normal forms
-/

namespace TemporalMonitor

namespace Formula

mutual

/-- The normal form of a formula. -/
def normalize : Formula → Formula
  | .verum => .verum
  | .falsum => .falsum
  | .prop name => .prop name
  | .not f => f.negate
  | .next f => .next f.normalize
  | .eventually f => .until .verum f.normalize
  | .always f => .release .falsum f.normalize
  | .and f g => .and f.normalize g.normalize
  | .or f g => .or f.normalize g.normalize
  | .implies f g => .or f.negate g.normalize
  | .iff f g => .or (.and f.normalize g.normalize) (.and f.negate g.negate)
  | .entails f g => .release .falsum (.or f.negate g.normalize)
  | .congruent f g =>
    .release .falsum (.or (.and f.normalize g.normalize) (.and f.negate g.negate))
  | .until f g => .until f.normalize g.normalize
  | .release f g => .release f.normalize g.normalize
  | .weakUntil f g => .or (.until f.normalize g.normalize) (.release .falsum f.normalize)

/-- The normal form of the negation of a formula. -/
def negate : Formula → Formula
  | .verum => .falsum
  | .falsum => .verum
  | .prop name => .not (.prop name)
  | .not f => f.normalize
  | .next f => .next f.negate
  | .eventually f => .release .falsum f.negate
  | .always f => .until .verum f.negate
  | .and f g => .or f.negate g.negate
  | .or f g => .and f.negate g.negate
  | .implies f g => .and f.normalize g.negate
  | .iff f g => .and (.or f.negate g.negate) (.or f.normalize g.normalize)
  | .entails f g => .until .verum (.and f.normalize g.negate)
  | .congruent f g =>
    .until .verum (.and (.or f.negate g.negate) (.or f.normalize g.normalize))
  | .until f g => .release f.negate g.negate
  | .release f g => .until f.negate g.negate
  | .weakUntil f g => .and (.release f.negate g.negate) (.until .verum f.negate)

end

/-- Whether a formula is in normal form: negations stand before propositions only, and no operator
occurs but conjunction, disjunction, next, until and release. -/
def isNormalized : Formula → Bool
  | .verum | .falsum | .prop _ | .not (.prop _) => true
  | .next f => f.isNormalized
  | .and f g | .or f g | .until f g | .release f g => f.isNormalized && g.isNormalized
  | _ => false

/-! ### The results are normal forms -/

theorem isNormalized_normalize_and_negate (f : Formula) :
    f.normalize.isNormalized = true ∧ f.negate.isNormalized = true := by
  induction f with
  | unary op f ih => cases op <;> simp [normalize, negate, isNormalized, ih]
  | binary op f g ihf ihg => cases op <;> simp [normalize, negate, isNormalized, ihf, ihg]
  | _ => simp [normalize, negate, isNormalized]

theorem isNormalized_normalize (f : Formula) : f.normalize.isNormalized = true :=
  f.isNormalized_normalize_and_negate.1

theorem isNormalized_negate (f : Formula) : f.negate.isNormalized = true :=
  f.isNormalized_normalize_and_negate.2

end Formula

end TemporalMonitor
