import Mathlib.Data.List.Pairwise
import Mathlib.Data.List.Sublists
import TemporalMonitor.Automaton.PowerSet
import TemporalMonitor.Proofs.Graph.Discovery
import TemporalMonitor.Proofs.Graph.Unfolding
import TemporalMonitor.Proofs.SortedSet

/-!
# The subset construction follows sets of nodes

At every valuation the edges of a set of nodes lead to exactly the nodes that its members have steps
to: disjoint guards are met one at a time, and a cube cut from overlapping guards is covered by the
guards that are met inside it. A deterministic automaton therefore is in the node of the set that a
word leads to, for as long as that set is not empty.

## Main definitions

* `FiniteAutomaton.Determinizes` — the nodes of one automaton follow the sets of nodes of another

## Main results

* `FiniteAutomaton.snd_eq_postSet`, `FiniteAutomaton.exists_of_mem_postSet` — the edges of a set
* `FiniteAutomaton.generated_of_powerSet` — the nodes are the sets that are met
* `FiniteAutomaton.determinizes_powerSet`, `FiniteAutomaton.determinizes_determinize`
-/

namespace TemporalMonitor

namespace FiniteAutomaton

variable {κ : Type} {a : FiniteAutomaton κ} {members : SortedSet NodeId} {v : Valuation}
  {m : Guard × SortedSet NodeId} {j : NodeId}

/-! ### The edges of a set -/

theorem mem_guardedTargets : m ∈ a.guardedTargets members ↔
    (∃ i ∈ members, ∃ e ∈ a.graph.edgesOf i, e.guard = m.1) ∧ m.1.isCube = true ∧
      m.2 = a.graph.postSet (· == m.1) members := by
  obtain ⟨guard, targets⟩ := m
  simp only [guardedTargets, Graph.guardsOf, List.mem_map, List.mem_filter, List.mem_eraseDups,
    List.mem_flatMap, SortedSet.mem_toList, Prod.mk.injEq]
  constructor
  · rintro ⟨g, ⟨hedge, hcube⟩, rfl, rfl⟩
    exact ⟨hedge, hcube, rfl⟩
  · rintro ⟨hedge, hcube, rfl⟩
    exact ⟨guard, ⟨hedge, hcube⟩, rfl, rfl⟩

theorem mem_targets_iff (hm : m ∈ a.guardedTargets members) :
    j ∈ m.2 ↔ ∃ i ∈ members, ∃ e ∈ a.graph.edgesOf i, e.target = j ∧ e.guard = m.1 := by
  rw [(mem_guardedTargets.mp hm).2.2, Graph.mem_postSet]
  simp

/-- Where a valuation leads is collected from the guards that it meets. -/
theorem mem_postSet_iff : j ∈ a.graph.postSet (Guard.holds v) members ↔
    ∃ m ∈ a.guardedTargets members, m.1.holds v = true ∧ j ∈ m.2 := by
  rw [Graph.mem_postSet]
  constructor
  · rintro ⟨i, hi, e, he, rfl, hholds⟩
    have hm : (e.guard, a.graph.postSet (· == e.guard) members) ∈ a.guardedTargets members :=
      mem_guardedTargets.mpr ⟨⟨i, hi, e, he, rfl⟩, Guard.isCube_of_holds hholds, rfl⟩
    exact ⟨_, hm, hholds, (mem_targets_iff hm).mpr ⟨i, hi, e, he, rfl, rfl⟩⟩
  · rintro ⟨m, hm, hholds, hj⟩
    obtain ⟨i, hi, e, he, htarget, hguard⟩ := (mem_targets_iff hm).mp hj
    exact ⟨i, hi, e, he, htarget, by rw [hguard, hholds]⟩

theorem eq_of_areDisjoint {moves : List (Guard × SortedSet NodeId)} {m' : Guard × SortedSet NodeId}
    (h : areDisjoint moves = true) (hm : m ∈ moves) (hm' : m' ∈ moves) (hv : m.1.holds v = true)
    (hv' : m'.1.holds v = true) : m = m' := by
  by_contra hne
  let R (m n : Guard × SortedSet NodeId) : Prop := ∀ v, ¬ (m.1.holds v = true ∧ n.1.holds v = true)
  -- the list says it of an earlier and a later guard, in this order only
  have hsymm : Std.Symm R := ⟨fun m n h v hv => h v hv.symm⟩
  have hpairwise : moves.Pairwise R :=
    (of_decide_eq_true h).imp fun hdisjoint => Guard.isDisjointFrom_iff.mp hdisjoint
  exact hpairwise.forall hm hm' hne v ⟨hv, hv'⟩

theorem mem_targetsOver {moves : List (Guard × SortedSet NodeId)} {c : Cube} :
    j ∈ targetsOver moves c ↔ ∃ m ∈ moves, m.1.isImpliedBy c = true ∧ j ∈ m.2 := by
  simp only [targetsOver, SortedSet.mem_ofList, List.mem_flatMap, List.mem_filter,
    SortedSet.mem_toList, and_assoc]

/-- Inside a cube cut from overlapping guards, the guards that cover it are met. -/
theorem isImpliedBy_iff_of_mem_disjointCubes {moves : List (Guard × SortedSet NodeId)} {c : Cube}
    (hc : c ∈ disjointCubes moves) (hv : Cube.holds v c = true) (hm : m ∈ moves) :
    m.1.isImpliedBy c = true ↔ m.1.holds v = true := by
  obtain ⟨r, hr, rfl⟩ := List.mem_map.mp hc
  refine (Region.divides_partition _).isImpliedBy_iff_holds hr (i := (m.1, 0)) ?_ hv
  refine List.mem_map.mpr ⟨m.1, ?_, rfl⟩
  exact SortedSet.mem_ofList.mpr (List.mem_map_of_mem hm)

theorem exists_mem_disjointCubes {moves : List (Guard × SortedSet NodeId)} (hm : m ∈ moves)
    (hv : m.1.holds v = true) : ∃ c ∈ disjointCubes moves, Cube.holds v c = true := by
  have hitem : (m.1, 0) ∈ (SortedSet.ofList (moves.map Prod.fst)).toList.map fun g => (g, 0) :=
    List.mem_map.mpr ⟨m.1, SortedSet.mem_ofList.mpr (List.mem_map_of_mem hm), rfl⟩
  obtain ⟨r, hr, hr'⟩ := (Region.divides_partition _).covered _ hitem v hv
  exact ⟨r.cube, List.mem_map_of_mem hr, hr'⟩

theorem exists_isImpliedBy_of_mem_disjointCubes {moves : List (Guard × SortedSet NodeId)} {c : Cube}
    (hc : c ∈ disjointCubes moves) : ∃ m ∈ moves, m.1.isImpliedBy c = true := by
  obtain ⟨r, hr, rfl⟩ := List.mem_map.mp hc
  have hdiv := Region.divides_partition
    ((SortedSet.ofList (moves.map Prod.fst)).toList.map fun g => (g, 0))
  obtain ⟨p, hp⟩ := hdiv.nonempty r hr
  obtain ⟨i, hi, -, himp⟩ := (hdiv.mem_payloads r hr p).mp hp
  obtain ⟨g, hg, rfl⟩ := List.mem_map.mp hi
  obtain ⟨m, hm, rfl⟩ := List.mem_map.mp (SortedSet.mem_ofList.mp hg)
  exact ⟨m, hm, himp⟩

/-- An edge whose guard is met leads to all nodes that the members have steps to. -/
theorem snd_eq_postSet (hm : m ∈ a.powerSetSucc members) (hv : m.1.holds v = true) :
    m.2 = a.graph.postSet (Guard.holds v) members := by
  ext j
  rw [mem_postSet_iff]
  simp only [powerSetSucc] at hm
  split at hm
  · rename_i hdisjoint
    constructor
    · intro hj
      exact ⟨m, hm, hv, hj⟩
    · -- no valuation meets two disjoint guards
      rintro ⟨m', hm', hv', hj⟩
      rw [eq_of_areDisjoint hdisjoint hm hm' hv hv']
      exact hj
  · -- inside one of the cubes, a guard covers the cube exactly when it is met
    obtain ⟨c, hc, rfl⟩ := List.mem_map.mp hm
    rw [mem_targetsOver]
    refine exists_congr fun m => and_congr_right fun hm => ?_
    rw [isImpliedBy_iff_of_mem_disjointCubes hc hv hm]

/-- Where the members have a step, the set has an edge whose guard is met. -/
theorem exists_of_mem_postSet (hj : j ∈ a.graph.postSet (Guard.holds v) members) :
    ∃ m ∈ a.powerSetSucc members, m.1.holds v = true := by
  obtain ⟨m, hm, hv, -⟩ := mem_postSet_iff.mp hj
  simp only [powerSetSucc]
  split
  · exact ⟨m, hm, hv⟩
  · obtain ⟨c, hc, hcv⟩ := exists_mem_disjointCubes hm hv
    exact ⟨_, List.mem_map_of_mem hc, hcv⟩

/-- Edges lead to targets of the members. -/
theorem exists_edge_of_mem_powerSetSucc (hm : m ∈ a.powerSetSucc members) (hj : j ∈ m.2) :
    ∃ i, ∃ e ∈ a.graph.edgesOf i, e.target = j := by
  have hmove : ∃ m ∈ a.guardedTargets members, j ∈ m.2 := by
    simp only [powerSetSucc] at hm
    split at hm
    · exact ⟨m, hm, hj⟩
    · obtain ⟨c, -, rfl⟩ := List.mem_map.mp hm
      obtain ⟨m, hm, -, hj⟩ := mem_targetsOver.mp hj
      exact ⟨m, hm, hj⟩
  obtain ⟨m, hm, hj⟩ := hmove
  obtain ⟨i, -, e, he, htarget, -⟩ := (mem_targets_iff hm).mp hj
  exact ⟨i, e, he, htarget⟩

/-- No edge leads to the empty set: every guard comes from an edge, every cube from a guard. -/
theorem exists_mem_of_mem_powerSetSucc (hm : m ∈ a.powerSetSucc members) : ∃ j, j ∈ m.2 := by
  have htarget : ∀ m ∈ a.guardedTargets members, ∃ j, j ∈ m.2 := by
    intro m hm
    obtain ⟨⟨i, hi, e, he, hguard⟩, -⟩ := mem_guardedTargets.mp hm
    exact ⟨e.target, (mem_targets_iff hm).mpr ⟨i, hi, e, he, rfl, hguard⟩⟩
  simp only [powerSetSucc] at hm
  split at hm
  · exact htarget m hm
  · obtain ⟨c, hc, rfl⟩ := List.mem_map.mp hm
    obtain ⟨m, hm, himp⟩ := exists_isImpliedBy_of_mem_disjointCubes hc
    obtain ⟨j, hj⟩ := htarget m hm
    exact ⟨j, mem_targetsOver.mpr ⟨m, hm, himp, hj⟩⟩

/-! ### Sets that are met -/

/-- The sets of nodes that are targets of edges or the initial node. -/
def possibleSets (a : FiniteAutomaton κ) (start : NodeId) : List (SortedSet NodeId) :=
  (start :: a.graph.transitions.map (·.edge.target)).sublists.map .ofList

theorem length_possibleSets (a : FiniteAutomaton κ) (start : NodeId) :
    (a.possibleSets start).length = Nat.pow 2 (a.graph.edgeCount + 1) := by
  rw [possibleSets, List.length_map, List.length_sublists, List.length_cons, List.length_map]
  rfl

theorem mem_possibleSets {start : NodeId} {set : SortedSet NodeId}
    (h : ∀ j ∈ set, j ∈ start :: a.graph.transitions.map (·.edge.target)) :
    set ∈ a.possibleSets start := by
  refine List.mem_map.mpr ⟨(start :: a.graph.transitions.map (·.edge.target)).filter (· ∈ set),
    List.mem_sublists.mpr List.filter_sublist, ?_⟩
  ext j
  rw [SortedSet.mem_ofList, List.mem_filter, decide_eq_true_eq]
  exact ⟨And.right, fun hj => ⟨h j hj, hj⟩⟩

/-- Every member of a set that is met is the initial node or the target of an edge. -/
theorem eq_start_or_target_of_reaches {start : NodeId} {set : SortedSet NodeId}
    (h : Reaches (fun k => (a.powerSetSucc k).map Prod.snd) {start} set) (hj : j ∈ set) :
    j = start ∨ ∃ i, ∃ e ∈ a.graph.edgesOf i, e.target = j := by
  cases h with
  | refl => exact .inl (SortedSet.mem_singleton.mp hj)
  | tail _ hmem =>
    obtain ⟨m, hm, rfl⟩ := List.mem_map.mp hmem
    exact .inr (exists_edge_of_mem_powerSetSucc hm hj)

theorem mem_possibleSets_of_reaches {start : NodeId} {set : SortedSet NodeId}
    (h : Reaches (fun k => (a.powerSetSucc k).map Prod.snd) {start} set) :
    set ∈ a.possibleSets start := by
  apply mem_possibleSets
  intro j hj
  rcases eq_start_or_target_of_reaches h hj with rfl | ⟨i, e, he, rfl⟩
  · exact List.mem_cons_self
  · exact List.mem_cons_of_mem _ (List.mem_map.mpr ⟨⟨i, e⟩, Graph.mem_transitions he, rfl⟩)

theorem lt_size_of_reaches {start : NodeId} {set : SortedSet NodeId} (hwf : a.graph.WellFormed)
    (hstart : a.graph.initial = some start)
    (h : Reaches (fun k => (a.powerSetSucc k).map Prod.snd) {start} set) (hj : j ∈ set) :
    j < a.graph.size := by
  rcases eq_start_or_target_of_reaches h hj with rfl | ⟨i, e, he, rfl⟩
  · exact hwf.2 j hstart
  · exact hwf.1 i e he

theorem exists_mem_of_reaches {start : NodeId} {set : SortedSet NodeId}
    (h : Reaches (fun k => (a.powerSetSucc k).map Prod.snd) {start} set) : ∃ j, j ∈ set := by
  cases h with
  | refl => exact ⟨start, SortedSet.mem_singleton.mpr rfl⟩
  | tail _ hmem =>
    obtain ⟨m, hm, rfl⟩ := List.mem_map.mp hmem
    exact exists_mem_of_mem_powerSetSucc hm

/-- The fuel of the subset construction is enough for all sets that are met. -/
theorem generated_of_powerSet {d : PowerSetAutomaton} (h : a.powerSet = .ok d) :
    ∃ start, a.graph.initial = some start ∧ Graph.Generated a.powerSetSucc {start} d.graph := by
  unfold powerSet at h
  split at h
  · cases h
  · rename_i start hstart
    cases h
    exact ⟨start, hstart, Graph.generated_generate (fun _ => mem_possibleSets_of_reaches)
      (Nat.le_of_eq (length_possibleSets a start))⟩

theorem mem_accepting_of_powerSet {d : PowerSetAutomaton} (h : a.powerSet = .ok d) {x : NodeId}
    (hx : d.graph.StandsFor x members) : x ∈ d.accepting ↔ ∃ i ∈ members, i ∈ a.accepting := by
  unfold powerSet at h
  split at h
  · cases h
  · cases h
    obtain ⟨n, hn, rfl⟩ := hx
    have hlt := (Array.getElem?_eq_some_iff.mp hn).1
    rw [SortedSet.mem_ofList, List.mem_filter, hn]
    simp only [SortedSet.any_eq_true, isAccepting, SortedSet.contains_iff, Graph.nodeIds,
      List.mem_range]
    exact ⟨And.right, fun hacc => ⟨hlt, hacc⟩⟩

/-! ### Following sets of nodes -/

/-- The nodes of `d` follow the sets of nodes of `a`. -/
structure Determinizes (a : FiniteAutomaton κ) (d : PowerSetAutomaton) : Prop where
  initial : ∀ x, d.graph.initial = some x → d.graph.StandsFor x (a.run [])
  unique : ∀ x y members, d.graph.StandsFor x members → d.graph.StandsFor y members → x = y
  step : ∀ x y members v, d.graph.StandsFor x members → d.graph.Step v x y →
    d.graph.StandsFor y (a.graph.postSet (Guard.holds v) members)
  exists_step : ∀ x members v j, d.graph.StandsFor x members →
    j ∈ a.graph.postSet (Guard.holds v) members → ∃ y, d.graph.Step v x y
  mem_accepting_iff : ∀ x members, d.graph.StandsFor x members →
    (x ∈ d.accepting ↔ ∃ i ∈ members, i ∈ a.accepting)

theorem determinizes_powerSet {d : PowerSetAutomaton} (h : a.powerSet = .ok d) :
    a.Determinizes d := by
  obtain ⟨start, hstart, hgen⟩ := generated_of_powerSet h
  refine ⟨fun x hx => ?_, hgen.unique, fun x y members v hx hstep => ?_,
    fun x members v j hx hj => ?_, fun x members => mem_accepting_of_powerSet h⟩
  · obtain rfl : 0 = x := Option.some.inj (hgen.initial.symm.trans hx)
    have hrun : a.run [] = {start} := by
      ext j
      simp [run, runFrom, hstart]
    rw [hrun]
    exact hgen.standsFor_zero
  · obtain ⟨m, hm, hv, hy⟩ := (hgen.step_iff hx).mp hstep
    rw [← snd_eq_postSet hm hv]
    exact hy
  · -- the set that the edge leads to can be reached as well, so it has a node
    obtain ⟨m, hm, hv⟩ := exists_of_mem_postSet hj
    have hreach := (hgen.exists_iff members).mp ⟨x, hx⟩
    obtain ⟨y, hy⟩ := (hgen.exists_iff m.2).mpr (hreach.tail (List.mem_map_of_mem hm))
    exact ⟨y, (hgen.step_iff hx).mpr ⟨m, hm, hv, hy⟩⟩

theorem standsFor_simplify {g : Graph (SortedSet NodeId)} {x : NodeId} :
    g.simplify.StandsFor x members ↔ g.StandsFor x members := by
  simp only [Graph.StandsFor, Graph.simplify, Graph.mapEdges, Array.getElem?_map,
    Option.map_eq_some_iff]
  constructor
  · rintro ⟨-, ⟨n, hn, rfl⟩, horigin⟩
    exact ⟨n, hn, horigin⟩
  · rintro ⟨n, hn, horigin⟩
    exact ⟨_, ⟨n, hn, rfl⟩, horigin⟩

theorem determinizes_determinize {d : PowerSetAutomaton} (h : a.determinize = .ok d) :
    a.Determinizes d := by
  unfold determinize at h
  split at h
  · rename_i d' hd'
    cases h
    -- simplifying keeps the steps and what the nodes stand for
    have hdet := determinizes_powerSet hd'
    refine ⟨?_, ?_, ?_, ?_, ?_⟩ <;> simp only [standsFor_simplify, Graph.step_simplify]
    · exact hdet.initial
    · exact hdet.unique
    · exact hdet.step
    · exact hdet.exists_step
    · exact hdet.mem_accepting_iff
  · cases h

end FiniteAutomaton

end TemporalMonitor
