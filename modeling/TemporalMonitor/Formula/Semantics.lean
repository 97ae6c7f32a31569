import TemporalMonitor.Formula.Basic
import TemporalMonitor.Valuation

/-!
# Satisfaction

When a formula holds at an instant of an infinite word.

## Main definitions

* `Formula.HoldsAt` — satisfaction at an instant
* `Formula.Holds` — satisfaction at the first instant
-/

namespace TemporalMonitor

namespace Formula

/-- The formula holds at instant `i` of the infinite word `w`. -/
def HoldsAt (w : OmegaWord) : Formula → Nat → Prop
  | .verum, _ => True
  | .falsum, _ => False
  | .prop name, i => w i name = true
  | .not f, i => ¬ f.HoldsAt w i
  | .next f, i => f.HoldsAt w (i + 1)
  | .eventually f, i => ∃ j, i ≤ j ∧ f.HoldsAt w j
  | .always f, i => ∀ j, i ≤ j → f.HoldsAt w j
  | .and f g, i => f.HoldsAt w i ∧ g.HoldsAt w i
  | .or f g, i => f.HoldsAt w i ∨ g.HoldsAt w i
  | .implies f g, i => f.HoldsAt w i → g.HoldsAt w i
  | .iff f g, i => f.HoldsAt w i ↔ g.HoldsAt w i
  | .entails f g, i => ∀ j, i ≤ j → f.HoldsAt w j → g.HoldsAt w j
  | .congruent f g, i => ∀ j, i ≤ j → (f.HoldsAt w j ↔ g.HoldsAt w j)
  | .until f g, i => ∃ j, i ≤ j ∧ g.HoldsAt w j ∧ ∀ k, i ≤ k → k < j → f.HoldsAt w k
  | .release f g, i => ∀ j, i ≤ j → g.HoldsAt w j ∨ ∃ k, i ≤ k ∧ k < j ∧ f.HoldsAt w k
  | .weakUntil f g, i =>
    (∃ j, i ≤ j ∧ g.HoldsAt w j ∧ ∀ k, i ≤ k → k < j → f.HoldsAt w k) ∨
      ∀ j, i ≤ j → f.HoldsAt w j

/-- The formula holds of the infinite word. -/
def Holds (w : OmegaWord) (f : Formula) : Prop := f.HoldsAt w 0

end Formula

end TemporalMonitor
