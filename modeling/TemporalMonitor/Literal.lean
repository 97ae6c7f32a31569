import TemporalMonitor.SortedSet
import TemporalMonitor.Valuation

/-!
# Literals and cubes

A literal is a proposition or its negation. A cube is a finite set of literals, read as their
conjunction; the empty cube is always satisfied. A cube may be inconsistent, demanding a
proposition and its negation at once, in which case no valuation satisfies it.

## Main definitions

* `Literal`, `Literal.negated`, `Literal.holds`
* `Cube`, `Cube.isConsistent`, `Cube.holds`, `Cube.implies`, `Cube.intersects`
* `Literal.render`, `Cube.render` — their text
-/

namespace TemporalMonitor

/-- A proposition, or its negation. -/
structure Literal where
  name : String
  /-- Whether the proposition itself is meant. -/
  positive : Bool
deriving DecidableEq, Repr

namespace Literal

/-- Literals are compared by name, and a negation precedes its proposition. -/
instance : Ord Literal := ⟨compareLex (compareOn name) (compareOn positive)⟩

instance : Std.TransOrd Literal :=
  inferInstanceAs (Std.TransCmp (compareLex (compareOn name) (compareOn positive)))

instance : Std.LawfulEqOrd Literal where
  compare_self := Std.ReflOrd.compare_self (α := Literal)
  eq_of_compare {a b} h := by
    obtain ⟨hn, hp⟩ := compareLex_eq_eq.mp h
    cases a
    cases b
    cases Std.LawfulEqOrd.eq_of_compare (α := String) hn
    cases Std.LawfulEqOrd.eq_of_compare (α := Bool) hp
    rfl

/-- The opposite literal. -/
def negated (l : Literal) : Literal := { l with positive := !l.positive }

/-- Whether a valuation satisfies the literal. -/
def holds (v : Valuation) (l : Literal) : Bool := v l.name == l.positive

/-- The text of a literal: the name, after an exclamation mark if it is negated. -/
def render (l : Literal) : String := if l.positive then l.name else "!" ++ l.name

end Literal

/-- A finite set of literals, read as their conjunction. -/
abbrev Cube := SortedSet Literal

namespace Cube

/-- Whether no literal stands beside its opposite. -/
def isConsistent (c : Cube) : Bool := c.all (fun l => !c.contains l.negated)

/-- Whether a valuation satisfies every literal. -/
def holds (v : Valuation) (c : Cube) : Bool := c.all (Literal.holds v)

/-- Whether every literal of `d` is one of `c`, so that `c` demands at least as much. -/
def implies (c d : Cube) : Bool := d.subset c

/-- Whether some valuation satisfies both cubes. -/
def intersects (c d : Cube) : Bool :=
  isConsistent c && isConsistent d && c.all (fun l => !d.contains l.negated)

/-- The names of the propositions in a cube. -/
def propositions (c : Cube) : SortedSet String := c.map Literal.name

/-- The text of a cube: its literals joined by conjunction signs, or `true` if there are none. -/
def render (c : Cube) : String :=
  if c.isEmpty then "true" else " && ".intercalate (c.toList.map Literal.render)

end Cube

end TemporalMonitor
