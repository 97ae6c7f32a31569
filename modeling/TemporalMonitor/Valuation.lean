/-!
# Valuations and infinite words

A valuation says which propositions hold at one instant. An infinite word gives one valuation per
instant, and its suffix from an instant on is again an infinite word.
-/

namespace TemporalMonitor

/-- Which propositions hold at one instant. -/
abbrev Valuation := String → Bool

/-- One valuation for every instant. -/
abbrev OmegaWord := Nat → Valuation

/-- The infinite word that starts with the given instants and goes on as `w`. -/
def OmegaWord.prepend (u : List Valuation) (w : OmegaWord) : OmegaWord := fun i =>
  match u[i]? with
  | some v => v
  | none => w (i - u.length)

end TemporalMonitor
