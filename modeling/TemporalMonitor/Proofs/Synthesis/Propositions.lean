import TemporalMonitor.Proofs.Formula.NormalForm
import TemporalMonitor.Proofs.Graph.Propositions
import TemporalMonitor.Proofs.Synthesis

/-!
# The propositions of a formula and of its automata

The guards of a tableau are made of the literals among the subformulas, so they mention propositions
of the formula only. No later stage brings in others: counting acceptance sets and projecting keep
the guards, and the subset construction takes guards of its members, or cuts them.

## Main definitions

* `Formula.StagesWithin` — all guards on the way to a deterministic automaton are about some
  propositions only

## Main results

* `Formula.propositions_subset_of_toAutomaton` — the automaton of a formula
* `OmegaAutomaton.propositions_subset_of_degeneralize`,
  `FiniteAutomaton.propositions_subset_of_powerSet` — the stages after it
* `Formula.stagesWithin_of_synthesize` — the propositions of the formula suffice
-/

namespace TemporalMonitor

/-! ### Tableaux -/

namespace Formula

variable {f g : Formula} {l : Literal}

theorem propositions_subset_of_isSubformula (h : g.IsSubformula f) :
    g.propositions ⊆ f.propositions := by
  intro name hname
  rw [mem_propositions_iff] at hname ⊢
  exact hname.trans h

theorem name_mem_propositions (h : f.toLiteral? = some l) : l.name ∈ f.propositions := by
  unfold toLiteral? at h
  split at h
  · cases h
    exact SortedSet.mem_singleton.mpr rfl
  · cases h
    exact SortedSet.mem_singleton.mpr rfl
  · cases h

end Formula

/-- The guards of the automaton of a tableau are made of literals among the subformulas. -/
theorem Tableau.Faithful.propositions_toAutomaton_subset {t : Tableau} (ht : t.Faithful) :
    t.toAutomaton.graph.propositions ⊆ t.root.propositions := by
  refine Graph.propositions_subset_iff.mpr fun i e he => ?_
  rw [edgesOf_toAutomaton] at he
  split at he
  · obtain ⟨q, hq, -, hguard⟩ := mem_edgesFrom.mp he
    rw [hguard]
    refine Guard.propositions_ofCube_subset (Cube.propositions_subset_iff.mpr fun l hl => ?_)
    rw [State.literals, SortedSet.mem_ofList, List.mem_filterMap] at hl
    obtain ⟨f, hf, hl⟩ := hl
    rcases List.mem_cons.mp (List.mem_of_getElem? hq) with rfl | hstate
    · -- nothing is recorded in the initial state
      exact absurd hf SortedSet.notMem_empty
    · exact Formula.propositions_subset_of_isSubformula (ht.isSubformula q hstate f hf) l.name
        (Formula.name_mem_propositions hl)
  · cases he

/-! ### Later stages -/

theorem OmegaAutomaton.propositions_subset_of_degeneralize {κ : Type}
    {a : GeneralizedBuchiAutomaton κ} {b : BuchiAutomaton CountedNode}
    (h : a.degeneralize = .ok b) : b.graph.propositions ⊆ a.graph.propositions := by
  refine Graph.propositions_subset_iff.mpr fun i e he => ?_
  obtain ⟨i', e', he', hguard⟩ := exists_edge_of_degeneralize h he
  rw [← hguard]
  exact Graph.propositions_subset_of_mem_edgesOf he'

namespace FiniteAutomaton

variable {κ : Type} {a : FiniteAutomaton κ} {members : SortedSet NodeId}
  {m : Guard × SortedSet NodeId}

theorem propositions_subset_of_mem_guardedTargets (hm : m ∈ a.guardedTargets members) :
    m.1.propositions ⊆ a.graph.propositions := by
  obtain ⟨⟨i, -, e, he, hguard⟩, -⟩ := mem_guardedTargets.mp hm
  rw [← hguard]
  exact Graph.propositions_subset_of_mem_edgesOf he

theorem propositions_subset_of_mem_powerSetSucc (hm : m ∈ a.powerSetSucc members) :
    m.1.propositions ⊆ a.graph.propositions := by
  simp only [powerSetSucc] at hm
  split at hm
  · exact propositions_subset_of_mem_guardedTargets hm
  · -- guards that overlap are cut, and the cubes are the regions of a partition of them
    obtain ⟨c, hc, rfl⟩ := List.mem_map.mp hm
    obtain ⟨r, hr, rfl⟩ := List.mem_map.mp hc
    refine Region.propositions_subset_of_mem_partition (fun i hi => ?_) r hr
    obtain ⟨guard, hguard, rfl⟩ := List.mem_map.mp hi
    rw [SortedSet.mem_toList, SortedSet.mem_ofList] at hguard
    obtain ⟨m', hm', rfl⟩ := List.mem_map.mp hguard
    exact propositions_subset_of_mem_guardedTargets hm'

theorem propositions_subset_of_powerSet {d : PowerSetAutomaton} (h : a.powerSet = .ok d) :
    d.graph.propositions ⊆ a.graph.propositions := by
  obtain ⟨start, -, hgen⟩ := generated_of_powerSet h
  refine Graph.propositions_subset_iff.mpr fun i e he => ?_
  obtain ⟨members, s, hs, hguard⟩ := hgen.exists_guard_eq he
  rw [hguard]
  exact propositions_subset_of_mem_powerSetSucc hs

end FiniteAutomaton

/-! ### Synthesis -/

namespace Formula

variable {options : SynthesisOptions} {f : Formula} {d : PowerSetAutomaton}
  {stats : SynthesisStats}

/-- The guards of the deterministic automaton, and those of the automata on the way to it, mention
propositions of the set only. -/
def StagesWithin (f : Formula) (options : SynthesisOptions) (d : PowerSetAutomaton)
    (ps : SortedSet String) : Prop :=
  ∃ generalized buchi, f.toAutomaton options = .ok generalized ∧
    generalized.degeneralize = .ok buchi ∧ generalized.graph.propositions ⊆ ps ∧
    buchi.graph.propositions ⊆ ps ∧ buchi.project.graph.unfold.propositions ⊆ ps ∧
    d.graph.propositions ⊆ ps

theorem propositions_subset_of_toAutomaton {a : GeneralizedBuchiAutomaton Tableau.State}
    (h : f.toAutomaton options = .ok a) : a.graph.propositions ⊆ f.propositions := by
  obtain ⟨t, ht, hroot, rfl⟩ := exists_faithful_of_toAutomaton h
  rw [← f.propositions_normalize, ← hroot]
  exact ht.propositions_toAutomaton_subset

/-- The stages up to the subset construction mention propositions of the formula only. -/
theorem propositions_subset_of_stages {generalized : GeneralizedBuchiAutomaton Tableau.State}
    {buchi : BuchiAutomaton CountedNode} (hgen : f.toAutomaton options = .ok generalized)
    (hbuchi : generalized.degeneralize = .ok buchi)
    (hd : FiniteAutomaton.powerSet { buchi.project with graph := buchi.project.graph.unfold } =
      .ok d) :
    buchi.graph.propositions ⊆ f.propositions ∧
      buchi.project.graph.unfold.propositions ⊆ f.propositions ∧
      d.graph.propositions ⊆ f.propositions := by
  have hcounted := SortedSet.subset_trans
    (OmegaAutomaton.propositions_subset_of_degeneralize hbuchi)
    (propositions_subset_of_toAutomaton hgen)
  have hunfolded := SortedSet.subset_trans buchi.graph.propositions_unfold_subset hcounted
  exact ⟨hcounted, hunfolded,
    SortedSet.subset_trans (FiniteAutomaton.propositions_subset_of_powerSet hd) hunfolded⟩

theorem stagesWithin_of_synthesize (h : f.synthesize options = .ok (d, stats)) :
    f.StagesWithin options d f.propositions := by
  obtain ⟨generalized, buchi, subsets, hgen, hbuchi, hsubsets, hd⟩ :=
    exists_powerSet_of_synthesize h
  obtain ⟨hcounted, hunfolded, hfinal⟩ := propositions_subset_of_stages hgen hbuchi hsubsets
  refine ⟨generalized, buchi, hgen, hbuchi, propositions_subset_of_toAutomaton hgen, hcounted,
    hunfolded, ?_⟩
  rcases hd with rfl | rfl
  · exact hfinal
  · exact SortedSet.subset_trans subsets.graph.propositions_simplify_subset hfinal

end Formula

end TemporalMonitor
