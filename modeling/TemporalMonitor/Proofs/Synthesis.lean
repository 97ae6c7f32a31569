import TemporalMonitor.Proofs.Automaton.CountingProduct
import TemporalMonitor.Proofs.Automaton.Determinization
import TemporalMonitor.Proofs.Automaton.Projection
import TemporalMonitor.Proofs.Tableau.Automaton

/-!
# The deterministic automaton of a formula

Every stage on the way from a formula to a deterministic automaton keeps what is accepted: the
generalized Büchi automaton accepts the models of the formula, counting acceptance sets keeps them,
the projection accepts their finite prefixes, and unfolding and the subset construction keep those.

## Main definitions

* `PowerSetAutomaton.Anticipates` — following an automaton for the prefixes of models

## Main results

* `Formula.anticipates_of_synthesize` — the deterministic automaton follows such an automaton
* `Formula.synthesize_accepts_iff` — the words that the deterministic automaton accepts
-/

namespace TemporalMonitor

/-- The automaton follows the sets of nodes of one that accepts exactly the finite words that can be
continued to an infinite word of which the formula holds. -/
def PowerSetAutomaton.Anticipates (d : PowerSetAutomaton) (f : Formula) : Prop :=
  ∃ a : FiniteAutomaton CountedNode, a.Determinizes d ∧
    ∀ word, a.accepts word = true ↔ ∃ w, f.Holds (.prepend word w)

/-! ### Unfolding -/

theorem FiniteAutomaton.run_unfold {κ : Type} (a : FiniteAutomaton κ) (word : List Valuation) :
    FiniteAutomaton.run { a with graph := a.graph.unfold } word = a.run word := by
  have hpost : ∀ v ids,
      a.graph.unfold.postSet (Guard.holds v) ids = a.graph.postSet (Guard.holds v) ids := by
    intro v ids
    ext j
    simp only [Graph.mem_postSet_holds, Graph.step_unfold]
  simp only [run, runFrom, hpost]
  rfl

namespace Formula

variable {options : SynthesisOptions} {f : Formula} {d : PowerSetAutomaton}
  {stats : SynthesisStats}

/-! ### Stage by stage -/

/-- The automaton comes from the subset construction whatever the options are: they decide only
whether parallel edges are merged at the end. -/
theorem exists_powerSet_of_synthesize (h : f.synthesize options = .ok (d, stats)) :
    ∃ generalized buchi subsets, f.toAutomaton options = .ok generalized ∧
      generalized.degeneralize = .ok buchi ∧
      FiniteAutomaton.powerSet { buchi.project with graph := buchi.project.graph.unfold } =
        .ok subsets ∧
      (d = subsets ∨ d = { subsets with graph := subsets.graph.simplify }) := by
  obtain ⟨generalized, hgen, h⟩ := exists_ok_of_bind h
  obtain ⟨buchi, hbuchi, h⟩ := exists_ok_of_bind h
  dsimp only at h
  split at h <;> obtain ⟨final, hfinal, h⟩ := exists_ok_of_bind h <;>
    obtain ⟨rfl, -⟩ := Prod.mk.inj (Except.ok.inj h)
  · unfold FiniteAutomaton.determinize at hfinal
    split at hfinal
    · rename_i subsets hsubsets
      exact ⟨generalized, buchi, subsets, hgen, hbuchi, hsubsets, .inr (Except.ok.inj hfinal).symm⟩
    · cases hfinal
  · exact ⟨generalized, buchi, final, hgen, hbuchi, hfinal, .inl rfl⟩

theorem stages_of_synthesize (h : f.synthesize options = .ok (d, stats)) :
    ∃ generalized buchi, f.toAutomaton options = .ok generalized ∧
      generalized.degeneralize = .ok buchi ∧
      FiniteAutomaton.Determinizes
        { buchi.project with graph := buchi.project.graph.unfold } d ∧
      FiniteAutomaton.IsSubsetAutomaton
        { buchi.project with graph := buchi.project.graph.unfold } d := by
  obtain ⟨generalized, buchi, subsets, hgen, hbuchi, hsubsets, rfl | rfl⟩ :=
    exists_powerSet_of_synthesize h
  · exact ⟨generalized, buchi, hgen, hbuchi, FiniteAutomaton.determinizes_powerSet hsubsets,
      FiniteAutomaton.isSubsetAutomaton_powerSet hsubsets⟩
  · have hmerged : FiniteAutomaton.determinize
        { buchi.project with graph := buchi.project.graph.unfold } =
          .ok { subsets with graph := subsets.graph.simplify } := by
      rw [FiniteAutomaton.determinize, hsubsets]
    exact ⟨generalized, buchi, hgen, hbuchi, FiniteAutomaton.determinizes_determinize hmerged,
      FiniteAutomaton.isSubsetAutomaton_determinize hmerged⟩

/-- The guards of the Büchi automaton of a formula are consistent cubes, or never hold. -/
theorem isConsistent_of_stages {generalized : GeneralizedBuchiAutomaton Tableau.State}
    {buchi : BuchiAutomaton CountedNode} (hgen : f.toAutomaton options = .ok generalized)
    (hbuchi : generalized.degeneralize = .ok buchi) :
    ∀ id, ∀ e ∈ buchi.graph.edgesOf id, ∀ c, e.guard = .cube c → Cube.isConsistent c = true := by
  intro id e he c hc
  -- the guards come from the literals of states, and `Guard.ofCube` keeps consistent ones only
  obtain ⟨i, e', he', hguard⟩ := OmegaAutomaton.exists_edge_of_degeneralize hbuchi he
  obtain ⟨t, -, -, rfl⟩ := exists_faithful_of_toAutomaton hgen
  rw [Tableau.edgesOf_toAutomaton] at he'
  split at he'
  · obtain ⟨r, -, -, hr⟩ := Tableau.mem_edgesFrom.mp he'
    rw [hc, hr] at hguard
    exact Guard.isConsistent_of_ofCube_eq hguard
  · cases he'

theorem accepts_iff_holds {generalized : GeneralizedBuchiAutomaton Tableau.State}
    (hgen : f.toAutomaton options = .ok generalized) {w : OmegaWord} :
    generalized.Accepts w ↔ f.Holds w := by
  obtain ⟨t, ht, hroot, rfl⟩ := exists_faithful_of_toAutomaton hgen
  rw [OmegaAutomaton.accepts_generalized_iff, ht.exists_fairRun_iff_holds, hroot, holds_normalize]

/-- Unfolding keeps the words that the projection accepts, which are the prefixes of models. -/
theorem accepts_unfold_project_iff {generalized : GeneralizedBuchiAutomaton Tableau.State}
    {buchi : BuchiAutomaton CountedNode} (hgen : f.toAutomaton options = .ok generalized)
    (hbuchi : generalized.degeneralize = .ok buchi) (word : List Valuation) :
    FiniteAutomaton.accepts { buchi.project with graph := buchi.project.graph.unfold } word = true ↔
      ∃ w, f.Holds (.prepend word w) := by
  have haccepts : FiniteAutomaton.accepts
      { buchi.project with graph := buchi.project.graph.unfold } word =
        buchi.project.accepts word := by
    rw [FiniteAutomaton.accepts, FiniteAutomaton.run_unfold]
    rfl
  rw [haccepts, OmegaAutomaton.accepts_project_iff,
    OmegaAutomaton.exists_mem_run_live_iff (isConsistent_of_stages hgen hbuchi)]
  refine exists_congr fun w => ?_
  rw [OmegaAutomaton.accepts_of_degeneralize_eq_ok hbuchi, accepts_iff_holds hgen]

theorem anticipates_of_synthesize (h : f.synthesize options = .ok (d, stats)) :
    PowerSetAutomaton.Anticipates d f := by
  obtain ⟨generalized, buchi, hgen, hbuchi, hdet, -⟩ := stages_of_synthesize h
  exact ⟨_, hdet, accepts_unfold_project_iff hgen hbuchi⟩

/-- Whatever the options, the automaton of a formula has an initial node, passes the test for
determinism, and accepts the finite words that can be continued to an infinite word of which the
formula holds. -/
theorem synthesize_accepts_iff (options : SynthesisOptions) (f : Formula) (d : PowerSetAutomaton)
    (stats : SynthesisStats) (h : f.synthesize options = .ok (d, stats)) :
    (∃ start, d.graph.initial = some start ∧ start < d.graph.size) ∧
      d.graph.isDeterministic = true ∧
      ∀ word, d.accepts word = true ↔ ∃ w, f.Holds (.prepend word w) := by
  obtain ⟨generalized, buchi, hgen, hbuchi, -, hsubset⟩ := stages_of_synthesize h
  refine ⟨hsubset.exists_initial, hsubset.isDeterministic, fun word => ?_⟩
  rw [hsubset.accepts_eq]
  exact accepts_unfold_project_iff hgen hbuchi word

theorem synthesize_waitsUntilServed_accepts_iff : ∃ d stats d' stats',
    waitsUntilServed.synthesize {} = .ok (d, stats) ∧
      waitsUntilServed.synthesize { simplifyTransitions := false } = .ok (d', stats') ∧
      d.graph.isDeterministic = true ∧ d'.graph.isDeterministic = true ∧
      ∀ word, (d.accepts word = true ↔ ∃ w, waitsUntilServed.Holds (.prepend word w)) ∧
        (d'.accepts word = true ↔ ∃ w, waitsUntilServed.Holds (.prepend word w)) := by
  obtain ⟨⟨d, stats⟩, hd⟩ :=
    exists_ok_of_isOk (x := waitsUntilServed.synthesize {}) (by decide +kernel)
  obtain ⟨⟨d', stats'⟩, hd'⟩ :=
    exists_ok_of_isOk (x := waitsUntilServed.synthesize { simplifyTransitions := false })
      (by decide +kernel)
  obtain ⟨-, hdet, haccepts⟩ := synthesize_accepts_iff {} _ d stats hd
  obtain ⟨-, hdet', haccepts'⟩ := synthesize_accepts_iff _ _ d' stats' hd'
  exact ⟨d, stats, d', stats', hd, hd', hdet, hdet',
    fun word => ⟨haccepts word, haccepts' word⟩⟩

end Formula

end TemporalMonitor
