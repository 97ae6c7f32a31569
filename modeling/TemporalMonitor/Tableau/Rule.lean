import TemporalMonitor.Formula.Basic

/-!
# Expansion of obligations

What it takes for a formula to hold now, in terms of its operands now and of formulas at the next
instant. Until and release leave a choice: either their outcome is settled now, or they are put off.

## Main definitions

* `Tableau.Obligations` — formulas to hold now, and at the next instant
* `Tableau.Rule` — what becomes of an obligation
* `Tableau.rule` — the rule for a formula, if there is one
-/

namespace TemporalMonitor

namespace Tableau

/-- Formulas that have to hold now, and formulas that have to hold at the next instant. -/
structure Obligations where
  now : List Formula
  later : List Formula
deriving DecidableEq

/-- What becomes of an obligation to be met now. -/
inductive Rule where
  /-- It cannot be met. -/
  | impossible
  /-- It is met unless its opposite is an obligation too. -/
  | literal (opposite : Formula)
  /-- It is met by meeting other obligations. -/
  | extend (obligations : Obligations)
  /-- It is met by meeting the obligations of either alternative. -/
  | choice (first second : Obligations)
deriving DecidableEq

/-- The rule for a formula. Formulas outside the normal form have none. -/
def rule : Formula → Option Rule
  | .verum => some (.extend ⟨[], []⟩)
  | .falsum => some .impossible
  | .prop name => some (.literal (.not (.prop name)))
  | .not (.prop name) => some (.literal (.prop name))
  | .next f => some (.extend ⟨[], [f]⟩)
  | .and f g => some (.extend ⟨[f, g], []⟩)
  | .or f g => some (.choice ⟨[f], []⟩ ⟨[g], []⟩)
  | .until f g => some (.choice ⟨[f], [.until f g]⟩ ⟨[g], []⟩)
  | .release f g => some (.choice ⟨[g], [.release f g]⟩ ⟨[f, g], []⟩)
  | _ => none

end Tableau

end TemporalMonitor
