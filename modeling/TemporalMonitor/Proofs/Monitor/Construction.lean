import TemporalMonitor.Proofs.Monitor
import TemporalMonitor.Proofs.Monitor.Calls
import TemporalMonitor.Proofs.Tableau.NormalForm

/-!
# When monitors can be built

The only reason for which no monitor is built from a formula is a limit on the number of distinct
subformulas. It is applied to the normal form of the formula first and to that of its negation then.
The other errors do not occur: normal forms have tableaux, no construction on the way to a
deterministic automaton loses the initial node, and before the first observation the formula holds
of some infinite word or fails of one, so that there is a first verdict.

## Main definitions

* `Formula.closureSize` — the number of distinct subformulas

## Main results

* `Formula.exists_synthesize`, `Formula.synthesize_of_lt` — when automata are synthesized
* `Monitor.exists_start` — there is a first verdict
* `Monitor.ofFormula_outcome` — when monitors are built from formulas
-/

namespace TemporalMonitor

/-! ### Initial nodes -/

theorem OmegaAutomaton.exists_degeneralize {κ : Type} {a : GeneralizedBuchiAutomaton κ}
    {start : NodeId} (hstart : a.graph.initial = some start) :
    ∃ b, a.degeneralize = .ok b ∧ ∃ start', b.graph.initial = some start' := by
  rcases degeneralize_eq hstart with ⟨-, h⟩ | ⟨set, -, h⟩ | ⟨set, sets, -, h⟩
  · exact ⟨_, h, start, hstart⟩
  · exact ⟨_, h, start, hstart⟩
  · exact ⟨_, h, 0, rfl⟩

theorem FiniteAutomaton.exists_determinize {κ : Type} {a : FiniteAutomaton κ} {start : NodeId}
    (hstart : a.graph.initial = some start) : ∃ d, a.determinize = .ok d := by
  obtain ⟨d, hd⟩ := exists_powerSet hstart
  exact ⟨_, by rw [determinize, hd]⟩

namespace Formula

variable {options : SynthesisOptions} {f : Formula}

/-! ### Synthesis -/

/-- The number of distinct subformulas. -/
noncomputable def closureSize (f : Formula) : Nat := {g : Formula | g.IsSubformula f}.ncard

theorem exists_toAutomaton (hsize : ∀ limit, options.maxClosureSize = some limit →
    f.normalize.closureSize ≤ limit) :
    ∃ a, f.toAutomaton options = .ok a ∧ ∃ start, a.graph.initial = some start := by
  obtain ⟨t, ht⟩ := Tableau.exists_build_of_isNormalized f.isNormalized_normalize
  refine ⟨t.toAutomaton, ?_, 0, rfl⟩
  have hcheck : f.normalize.checkClosureSize options.maxClosureSize = .ok () := by
    cases hlimit : options.maxClosureSize with
    | none => rfl
    | some limit =>
      have hle := hsize limit hlimit
      rw [closureSize, ← size_subformulas] at hle
      rw [checkClosureSize]
      exact if_neg (Nat.not_lt.mpr hle)
  simp only [toAutomaton, hcheck, tableauAutomaton, tableau, ht]
  rfl

/-- Where the limit is kept, an automaton is synthesized. -/
theorem exists_synthesize (hsize : ∀ limit, options.maxClosureSize = some limit →
    f.normalize.closureSize ≤ limit) : ∃ result, f.synthesize options = .ok result := by
  obtain ⟨generalized, hgen, start, hstart⟩ := exists_toAutomaton hsize
  obtain ⟨buchi, hbuchi, start', hstart'⟩ := OmegaAutomaton.exists_degeneralize hstart
  have hunfolded : (FiniteAutomaton.graph
      { buchi.project with graph := buchi.project.graph.unfold }).initial = some start' := hstart'
  obtain ⟨d, hd⟩ := FiniteAutomaton.exists_powerSet hunfolded
  obtain ⟨d', hd'⟩ := FiniteAutomaton.exists_determinize hunfolded
  -- with and without simplifying
  cases hsimplify : options.simplifyTransitions with
  | false =>
    simp only [synthesize, hgen, hbuchi, hd, hsimplify, bind, Except.bind]
    exact ⟨_, rfl⟩
  | true =>
    simp only [synthesize, hgen, hbuchi, hd', hsimplify, bind, Except.bind]
    exact ⟨_, rfl⟩

theorem synthesize_of_lt {limit : Nat} (hlimit : options.maxClosureSize = some limit)
    (hsize : limit < f.normalize.closureSize) :
    f.synthesize options = .error (.formulaTooLarge f.normalize.closureSize limit) := by
  rw [closureSize, ← size_subformulas] at hsize ⊢
  simp [synthesize, toAutomaton, checkClosureSize, hlimit, hsize, bind, Except.bind]

end Formula

/-! ### The automata of a monitor -/

namespace MonitorAutomata

variable {options : SynthesisOptions} {f : Formula}

theorem exists_build {positive negative : PowerSetAutomaton} {stats stats' : SynthesisStats}
    (hpositive : f.synthesize options = .ok (positive, stats))
    (hnegative : f.negate.synthesize options = .ok (negative, stats')) :
    ∃ automata, build options f = .ok automata := by
  obtain ⟨_, _, -, -, -, hsubset⟩ := Formula.stages_of_synthesize hpositive
  obtain ⟨_, _, -, -, -, hsubset'⟩ := Formula.stages_of_synthesize hnegative
  obtain ⟨p, hp, -⟩ := hsubset.exists_initial
  obtain ⟨n, hn, -⟩ := hsubset'.exists_initial
  exact ⟨⟨positive, negative, p, n, hp, hn⟩,
    build_eq_ok_iff.mpr ⟨⟨stats, hpositive⟩, stats', hnegative⟩⟩

end MonitorAutomata

/-! ### Monitors -/

namespace Monitor

variable {f : Formula} {automata : MonitorAutomata} {p n : FiniteAutomaton CountedNode}

/-- Before the first observation there is a verdict. -/
theorem exists_start (hwatch : automata.Watch f p n) : ∃ m, start automata = .ok m := by
  have hpos : (atStart automata).positive.Follows p automata.positive [] :=
    hwatch.positive.initial _ automata.positive_initial
  have hneg : (atStart automata).negative.Follows n automata.negative [] :=
    hwatch.negative.initial _ automata.negative_initial
  obtain ⟨s, hs, -⟩ := exists_verdict (m := atStart automata) hwatch hpos hneg
  exact ⟨_, start_eq_ok_iff.mpr ⟨s, hs, rfl⟩⟩

variable {options : SynthesisOptions} {limit : Nat}

theorem exists_ofFormula (hsize : ∀ limit, options.maxClosureSize = some limit →
    f.normalize.closureSize ≤ limit ∧ f.negate.closureSize ≤ limit) :
    ∃ m, ofFormula options f = .ok m := by
  have hnegative : ∀ limit, options.maxClosureSize = some limit →
      f.negate.normalize.closureSize ≤ limit := by
    intro limit hlimit
    rw [f.normalize_negate]
    exact (hsize limit hlimit).2
  obtain ⟨⟨d, stats⟩, hd⟩ := Formula.exists_synthesize fun limit hlimit => (hsize limit hlimit).1
  obtain ⟨⟨d', stats'⟩, hd'⟩ := Formula.exists_synthesize hnegative
  obtain ⟨automata, hbuild⟩ := MonitorAutomata.exists_build hd hd'
  obtain ⟨p, n, hwatch⟩ := MonitorAutomata.exists_watch_of_build hbuild
  obtain ⟨m, hm⟩ := exists_start hwatch
  exact ⟨m, by simp [ofFormula, hbuild, Except.mapError, bind, Except.bind, hm]⟩

theorem ofFormula_of_lt (hlimit : options.maxClosureSize = some limit)
    (hsize : limit < f.normalize.closureSize) : ofFormula options f =
      .error (.construction (.formulaTooLarge f.normalize.closureSize limit)) := by
  have hd := Formula.synthesize_of_lt hlimit hsize
  simp [ofFormula, MonitorAutomata.build, hd, Except.mapError, bind, Except.bind]

theorem ofFormula_of_negate_lt (hlimit : options.maxClosureSize = some limit)
    (hsize : f.normalize.closureSize ≤ limit) (hsize' : limit < f.negate.closureSize) :
    ofFormula options f =
      .error (.construction (.formulaTooLarge f.negate.closureSize limit)) := by
  have hpositive : ∀ limit, options.maxClosureSize = some limit →
      f.normalize.closureSize ≤ limit := by
    intro limit' hlimit'
    rw [hlimit] at hlimit'
    exact Option.some.inj hlimit' ▸ hsize
  have hd' : f.negate.synthesize options =
      .error (.formulaTooLarge f.negate.closureSize limit) := by
    have hlt : limit < f.negate.normalize.closureSize := f.normalize_negate.symm ▸ hsize'
    rw [Formula.synthesize_of_lt hlimit hlt, f.normalize_negate]
  obtain ⟨result, hd⟩ := Formula.exists_synthesize hpositive
  simp [ofFormula, MonitorAutomata.build, hd, hd', Except.mapError, bind, Except.bind]

theorem exists_ofFormula_eq_error (hlimit : options.maxClosureSize = some limit)
    (hsize : ¬ (f.normalize.closureSize ≤ limit ∧ f.negate.closureSize ≤ limit)) :
    ∃ size, ofFormula options f = .error (.construction (.formulaTooLarge size limit)) := by
  by_cases hpositive : f.normalize.closureSize ≤ limit
  · have hnegative : limit < f.negate.closureSize := by
      by_contra hle
      exact hsize ⟨hpositive, Nat.not_lt.mp hle⟩
    exact ⟨_, ofFormula_of_negate_lt hlimit hpositive hnegative⟩
  · exact ⟨_, ofFormula_of_lt hlimit (Nat.not_le.mp hpositive)⟩

/-- A monitor is built from a formula exactly if there is no limit on the number of distinct
subformulas, or the normal forms of the formula and of its negation keep it. Otherwise the error
reports the limit and how many subformulas there are, in the normal form of the formula if these
are too many already, and else in that of its negation. There is no other error. -/
theorem ofFormula_outcome (options : SynthesisOptions) (f : Formula) :
    ((∃ m, ofFormula options f = .ok m) ↔ ∀ limit, options.maxClosureSize = some limit →
      f.normalize.closureSize ≤ limit ∧ f.negate.closureSize ≤ limit) ∧
    (∀ limit, options.maxClosureSize = some limit →
      (limit < f.normalize.closureSize → ofFormula options f =
        .error (.construction (.formulaTooLarge f.normalize.closureSize limit))) ∧
      (f.normalize.closureSize ≤ limit → limit < f.negate.closureSize → ofFormula options f =
        .error (.construction (.formulaTooLarge f.negate.closureSize limit)))) ∧
    ∀ e, ofFormula options f = .error e →
      ∃ size limit, e = .construction (.formulaTooLarge size limit) := by
  refine ⟨⟨?_, exists_ofFormula⟩, ?_, ?_⟩
  · intro ⟨m, hm⟩ limit hlimit
    by_contra hsize
    obtain ⟨size, herror⟩ := exists_ofFormula_eq_error hlimit hsize
    rw [hm] at herror
    cases herror
  · intro limit hlimit
    exact ⟨ofFormula_of_lt hlimit, ofFormula_of_negate_lt hlimit⟩
  · intro e he
    by_cases hsize : ∀ limit, options.maxClosureSize = some limit →
        f.normalize.closureSize ≤ limit ∧ f.negate.closureSize ≤ limit
    · obtain ⟨m, hm⟩ := exists_ofFormula hsize
      rw [hm] at he
      cases he
    · simp only [not_forall] at hsize
      obtain ⟨limit, hlimit, hsize⟩ := hsize
      obtain ⟨size, herror⟩ := exists_ofFormula_eq_error hlimit hsize
      rw [he] at herror
      exact ⟨size, limit, Except.error.inj herror⟩

/-- The negation of the formula has two more subformulas than the formula itself, so a limit of four
is kept by one of the normal forms only. -/
theorem ofFormula_waitsUntilServed :
    Formula.waitsUntilServed.normalize.closureSize = 3 ∧
    Formula.waitsUntilServed.negate.closureSize = 5 ∧
    ofFormula (.bounded 2) .waitsUntilServed = .error (.construction (.formulaTooLarge 3 2)) ∧
    ofFormula (.bounded 4) .waitsUntilServed = .error (.construction (.formulaTooLarge 5 4)) ∧
    ∃ m, ofFormula (.bounded 5) .waitsUntilServed = .ok m := by
  have hnormalize : Formula.waitsUntilServed.normalize.closureSize = 3 := by
    rw [Formula.closureSize, ← Formula.size_subformulas]
    decide +kernel
  have hnegate : Formula.waitsUntilServed.negate.closureSize = 5 := by
    rw [Formula.closureSize, ← Formula.size_subformulas]
    decide +kernel
  obtain ⟨-, htwo, -⟩ := ofFormula_outcome (.bounded 2) .waitsUntilServed
  obtain ⟨-, hfour, -⟩ := ofFormula_outcome (.bounded 4) .waitsUntilServed
  obtain ⟨hfive, -⟩ := ofFormula_outcome (.bounded 5) .waitsUntilServed
  refine ⟨hnormalize, hnegate, ?_, ?_, hfive.mpr ?_⟩
  · rw [← hnormalize]
    exact (htwo 2 rfl).1 (by omega)
  · rw [← hnegate]
    exact (hfour 4 rfl).2 (by omega) (by omega)
  · intro limit hlimit
    obtain rfl : 5 = limit := Option.some.inj hlimit
    exact ⟨by omega, by omega⟩

end Monitor

end TemporalMonitor
