import TemporalMonitor.Literal

/-!
# Guards

A guard says when an edge of an automaton may be taken. It is a cube, or the guard that is never
met. A cube built by `Guard.ofCube` is consistent, but a guard can also be given by a cube that is
not: such a guard counts as a cube although no valuation meets it.

## Main definitions

* `Guard`, `Guard.ofCube`, `Guard.always`
* `Guard.holds` — being met by a valuation
* `Guard.conjoin`, `Guard.isDisjointFrom`, `Guard.isImpliedBy`
* `Guard.render` — the text of a guard
-/

namespace TemporalMonitor

/-- When an edge may be taken. -/
inductive Guard where
  /-- The edge may be taken when every literal of the cube is satisfied. -/
  | cube (c : Cube)
  /-- The edge may never be taken. -/
  | never
deriving DecidableEq

namespace Guard

/-- The guard that every valuation meets. -/
def always : Guard := .cube ∅

/-- The guard of a cube; an inconsistent cube gives the guard that is never met. -/
def ofCube (c : Cube) : Guard := if Cube.isConsistent c then .cube c else .never

/-- Whether the guard is a cube. -/
def isCube : Guard → Bool
  | .cube _ => true
  | .never => false

/-- Whether a valuation meets the guard. -/
def holds (v : Valuation) : Guard → Bool
  | .cube c => Cube.holds v c
  | .never => false

/-- The guard that is met when both are. -/
def conjoin : Guard → Guard → Guard
  | .cube c, .cube d => ofCube (c ∪ d)
  | _, _ => .never

/-- Whether no valuation meets both guards. -/
def isDisjointFrom (g h : Guard) : Bool := !(g.conjoin h).isCube

/-- Whether a cube is consistent and demands at least as much as the guard. -/
def isImpliedBy (c : Cube) : Guard → Bool
  | .cube d => Cube.isConsistent c && Cube.implies c d
  | .never => false

/-- The text of a guard. -/
def render : Guard → String
  | .cube c => Cube.render c
  | .never => "false"

/-! ### Order -/

/-- Cubes come first, in their own order. -/
protected def compare : Guard → Guard → Ordering
  | .cube c, .cube d => compare c d
  | .cube _, .never => .lt
  | .never, .cube _ => .gt
  | .never, .never => .eq

instance : Ord Guard := ⟨Guard.compare⟩

instance : Std.TransOrd Guard where
  eq_swap {g h} := by
    cases g <;> cases h <;> first | rfl | exact Std.OrientedOrd.eq_swap (α := Cube)
  isLE_trans {g h k} := by
    cases g <;> cases h <;> cases k <;>
      first
      | exact Std.TransOrd.isLE_trans (α := Cube)
      | exact fun _ _ => rfl
      | exact fun h _ => absurd h Bool.false_ne_true
      | exact fun _ h => absurd h Bool.false_ne_true

instance : Std.LawfulEqOrd Guard where
  compare_self := Std.ReflOrd.compare_self (α := Guard)
  eq_of_compare {g h} he := by
    cases g <;> cases h
    · exact congrArg Guard.cube (Std.LawfulEqOrd.eq_of_compare (α := Cube) he)
    · cases he
    · cases he
    · rfl

end Guard

end TemporalMonitor
