import TemporalMonitor.Proofs.Automaton.CountingProduct

/-!
# The nodes and edges of the counting product

The counting product is drawn while it is explored: a pair of a node and an index gets its node when
it is met first, and its edges when it is looked at. What comes out is stated here against the rule
of counting alone: one node for every pair that can be met under the rule, and for each of them the
edges of its base in order, with the same guards.

## Main definitions

* `OmegaAutomaton.Counts` — the rule by which the awaited index moves
* `OmegaAutomaton.MetCounting` — the pairs that can be met under the rule
* `OmegaAutomaton.IsCountingProduct` — a graph with the nodes and edges that the rule asks for

## Main results

* `OmegaAutomaton.metCounting_iff_reaches` — the successors that are followed obey the rule
* `OmegaAutomaton.degeneralize_isCountingProduct` — degeneralizing draws such a graph
-/

namespace TemporalMonitor

namespace OmegaAutomaton

variable {κ : Type} {a : GeneralizedBuchiAutomaton κ} {start n : NodeId} {i j : Nat}
variable {c : CountedNode} {g : Graph CountedNode}

/-! ### The rule of counting -/

/-- Leaving node `n` while set `i` is awaited: if `n` is in the set, the next one in turn is awaited
from then on, and otherwise the same one. -/
inductive Counts (a : GeneralizedBuchiAutomaton κ) (n : NodeId) (i : Nat) : Nat → Prop
  | turn {set : SortedSet NodeId} : a.acceptance.sets[i]? = some set → n ∈ set →
      Counts a n i ((i + 1) % a.acceptance.sets.length)
  | stay : (∀ set, a.acceptance.sets[i]? = some set → ¬ n ∈ set) → Counts a n i i

/-- The pairs of a node and an index that can be met from `start`, where set 0 is awaited first. -/
inductive MetCounting (a : GeneralizedBuchiAutomaton κ) (start : NodeId) : CountedNode → Prop
  | start : MetCounting a start ⟨start, 0⟩
  | leave {n : NodeId} {i j : Nat} {e : Edge} : MetCounting a start ⟨n, i⟩ →
      e ∈ a.graph.edgesOf n → a.Counts n i j → MetCounting a start ⟨e.target, j⟩

theorem counts_iff : a.Counts n i j ↔ j = a.nextIndex ⟨n, i⟩ := by
  constructor
  · rintro (⟨hset, hmem⟩ | hnone)
    · simp [nextIndex, hset, hmem]
    · unfold nextIndex
      split
      · rename_i set hset
        rw [if_neg (hnone set hset)]
      · rfl
  · rintro rfl
    unfold nextIndex
    split
    · rename_i set hset
      split
      · rename_i hmem
        exact .turn hset hmem
      · rename_i hmem
        refine .stay fun set' hset' => ?_
        obtain rfl := Option.some_inj.mp (hset.symm.trans hset')
        exact hmem
    · rename_i hset
      exact .stay fun set' hset' => absurd (hset.symm.trans hset') (Option.some_ne_none set').symm

/-- Following the successors of pairs meets exactly the pairs that the rule allows. -/
theorem metCounting_iff_reaches :
    a.MetCounting start c ↔ Reaches (fun c => (a.countedSucc c).map Prod.snd) ⟨start, 0⟩ c := by
  constructor
  · intro h
    induction h with
    | start => exact .refl
    | leave _ he hcounts ih =>
      refine .tail ih ?_
      simp only [counts_iff.mp hcounts, countedSucc, List.map_map]
      exact List.mem_map_of_mem he
  · intro h
    refine h.mem_of_closed (S := a.MetCounting start) ?_ .start
    rintro ⟨n, i⟩ hmet d hd
    rw [countedSucc, List.map_map] at hd
    obtain ⟨e, he, rfl⟩ := List.mem_map.mp hd
    exact hmet.leave he (counts_iff.mpr rfl)

theorem MetCounting.index_lt (h : a.MetCounting start c) (hk : 0 < a.acceptance.sets.length) :
    c.index < a.acceptance.sets.length := by
  induction h with
  | start => exact hk
  | leave _ _ hcounts ih =>
    rw [counts_iff.mp hcounts]
    exact nextIndex_lt ih

/-! ### The graph -/

/-- The graph has exactly one node for every pair that can be met under the rule of counting, and no
other node. The edges of the node of a pair are those of its base, in order and with their guards,
and lead to the nodes of the pairs that the rule gives. -/
structure IsCountingProduct (a : GeneralizedBuchiAutomaton κ) (start : NodeId)
    (g : Graph CountedNode) : Prop where
  exists_initial : ∃ x, g.initial = some x ∧ g.StandsFor x ⟨start, 0⟩
  existsUnique_node : ∀ c, a.MetCounting start c → ∃! x, g.StandsFor x c
  exists_metCounting : ∀ x, x < g.size →
    ∃ c, g.StandsFor x c ∧ a.MetCounting start c ∧ c.index < a.acceptance.sets.length
  edges : ∀ x c, g.StandsFor x c → ∃ j, a.Counts c.base c.index j ∧ List.Forall₂
    (fun e e' => e.guard = e'.guard ∧ g.StandsFor e.target ⟨e'.target, j⟩)
    (g.edgesOf x) (a.graph.edgesOf c.base)

theorem isCountingProduct_of_generated (hk : 0 < a.acceptance.sets.length)
    (hg : Graph.Generated a.countedSucc ⟨start, 0⟩ g) : a.IsCountingProduct start g where
  exists_initial := ⟨0, hg.initial, hg.standsFor_zero⟩
  existsUnique_node c hc := by
    obtain ⟨x, hx⟩ := (hg.exists_iff c).mpr (metCounting_iff_reaches.mp hc)
    exact ⟨x, hx, fun y hy => hg.unique y x c hy hx⟩
  exists_metCounting x hx := by
    have hstands : g.StandsFor x _ := ⟨_, Array.getElem?_eq_getElem hx, rfl⟩
    have hmet := metCounting_iff_reaches.mpr ((hg.exists_iff _).mp ⟨x, hstands⟩)
    exact ⟨_, hstands, hmet, hmet.index_lt hk⟩
  edges x c hx :=
    ⟨a.nextIndex c, counts_iff.mpr rfl, List.forall₂_map_right_iff.mp (hg.edges x c hx)⟩

/-- With two or more sets, an automaton with an initial node becomes a Büchi automaton whose graph
is the counting product. -/
theorem degeneralize_isCountingProduct (a : GeneralizedBuchiAutomaton κ) (start : NodeId)
    (hstart : a.graph.initial = some start) (hk : 2 ≤ a.acceptance.sets.length) :
    ∃ b, a.degeneralize = .ok b ∧ a.IsCountingProduct start b.graph := by
  rcases degeneralize_eq hstart with ⟨hsets, -⟩ | ⟨set, hsets, -⟩ | ⟨set, sets, -, hok⟩
  · simp [hsets] at hk
  · simp [hsets] at hk
  · have hpos : 0 < a.acceptance.sets.length := by omega
    exact ⟨_, hok, isCountingProduct_of_generated hpos (a.generated_countingGraph start hpos)⟩

/-- The pair of the second node with set 0 awaited is met by leaving a node of either set, and it
has one node. -/
theorem degeneralize_alternating_isCountingProduct :
    alternating.graph.initial = some 0 ∧ 2 ≤ alternating.acceptance.sets.length ∧
      alternating.MetCounting 0 ⟨1, 0⟩ ∧
      ∃ b, alternating.degeneralize = .ok b ∧ alternating.IsCountingProduct 0 b.graph ∧
        ∃! x, b.graph.StandsFor x ⟨1, 0⟩ := by
  have hlow : alternating.MetCounting 0 ⟨1, 1⟩ :=
    .leave (e := ⟨1, .cube {⟨"p", true⟩}⟩) .start (by decide +kernel)
      (counts_iff.mpr (by decide +kernel))
  have hmet : alternating.MetCounting 0 ⟨1, 0⟩ :=
    .leave (e := ⟨1, .cube {⟨"p", true⟩}⟩) hlow (by decide +kernel)
      (counts_iff.mpr (by decide +kernel))
  obtain ⟨b, hb, hproduct⟩ := degeneralize_isCountingProduct alternating 0 rfl (by decide)
  exact ⟨rfl, by decide, hmet, b, hb, hproduct, hproduct.existsUnique_node _ hmet⟩

end OmegaAutomaton

end TemporalMonitor
