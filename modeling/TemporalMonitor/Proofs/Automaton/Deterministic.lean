import TemporalMonitor.Proofs.Automaton.Determinization

/-!
# Determinizing a deterministic automaton

The subset construction changes nothing about an automaton that is deterministic already, except
that nodes which cannot be reached are left out. Its guards may still overlap where they lead to the
same node, so that they are cut into disjoint cubes. Whether they are or not, every edge of the
construction can be taken at some valuation, and at that valuation the one node in the set has one
successor.

## Main results

* `FiniteAutomaton.exists_holds_of_mem_powerSetSucc` — the edges of a set can be taken
* `FiniteAutomaton.mem_powerSetSucc_singleton_iff` — the edges of a set of one node
* `FiniteAutomaton.reaches_singleton_iff` — the sets that are met
* `FiniteAutomaton.powerSet_of_isDeterministic` — what the construction gives
-/

namespace TemporalMonitor

namespace FiniteAutomaton

variable {κ : Type} {a : FiniteAutomaton κ} {members set : SortedSet NodeId} {v : Valuation}
  {m : Guard × SortedSet NodeId} {i j start : NodeId}

theorem isConsistent_of_mem_disjointCubes {moves : List (Guard × SortedSet NodeId)} {c : Cube}
    (hc : c ∈ disjointCubes moves) : Cube.isConsistent c = true := by
  obtain ⟨r, hr, rfl⟩ := List.mem_map.mp hc
  exact (Region.divides_partition _).isConsistent r hr

section

variable (hguards : ∀ i, ∀ e ∈ a.graph.edgesOf i, ∀ c, e.guard = .cube c →
  Cube.isConsistent c = true)

include hguards

/-- If the guards of an automaton are consistent cubes or never hold, every edge of the subset
construction can be taken at some valuation. -/
theorem exists_holds_of_mem_powerSetSucc (hm : m ∈ a.powerSetSucc members) :
    ∃ v, m.1.holds v = true := by
  simp only [powerSetSucc] at hm
  split at hm
  · obtain ⟨⟨i, -, e, he, hguard⟩, hcube, -⟩ := mem_guardedTargets.mp hm
    cases hc : m.1 with
    | never =>
      rw [hc] at hcube
      cases hcube
    | cube c => exact ⟨_, Cube.holds_model (hguards i e he c (hguard.trans hc))⟩
  · obtain ⟨c, hc, rfl⟩ := List.mem_map.mp hm
    exact ⟨_, Cube.holds_model (isConsistent_of_mem_disjointCubes hc)⟩

variable (hdet : a.graph.isDeterministic = true)

include hdet

omit hguards in
/-- In a deterministic automaton a valuation leads from one node to one node at most. -/
theorem postSet_singleton_eq (h : a.graph.Step v i j) :
    a.graph.postSet (Guard.holds v) {i} = {j} := by
  rw [Graph.postSet_singleton]
  ext k
  rw [Graph.mem_post_holds, SortedSet.mem_singleton]
  constructor
  · intro hk
    exact Graph.isDeterministic_iff.mp hdet v i k j hk h
  · rintro rfl
    exact h

/-- The edges of a set of one node lead to the sets of one successor. -/
theorem mem_powerSetSucc_singleton_iff : set ∈ (a.powerSetSucc {i}).map Prod.snd ↔
    ∃ j ∈ a.graph.post Guard.isCube i, set = {j} := by
  rw [List.mem_map]
  constructor
  · rintro ⟨m, hm, rfl⟩
    -- some node is reached at a valuation at which the edge can be taken
    obtain ⟨v, hv⟩ := exists_holds_of_mem_powerSetSucc hguards hm
    obtain ⟨j, hj⟩ := exists_mem_of_mem_powerSetSucc hm
    rw [snd_eq_postSet hm hv, Graph.postSet_singleton, Graph.mem_post_holds] at hj
    rw [snd_eq_postSet hm hv, postSet_singleton_eq hdet hj]
    obtain ⟨e, he, htarget, hholds⟩ := hj
    exact ⟨j, Graph.mem_post.mpr ⟨e, he, htarget, Guard.isCube_of_holds hholds⟩, rfl⟩
  · rintro ⟨j, hj, rfl⟩
    obtain ⟨e, he, htarget, hcube⟩ := Graph.mem_post.mp hj
    cases hc : e.guard with
    | never =>
      rw [hc] at hcube
      cases hcube
    | cube c =>
      -- at a valuation that the guard is met at, the construction has an edge too
      have hmodel : e.guard.holds c.model = true := by
        rw [hc]
        exact Cube.holds_model (hguards i e he c hc)
      have hpost := postSet_singleton_eq hdet ⟨e, he, htarget, hmodel⟩
      obtain ⟨m, hm, hv⟩ := exists_of_mem_postSet (hpost ▸ SortedSet.mem_singleton.mpr rfl)
      exact ⟨m, hm, (snd_eq_postSet hm hv).trans hpost⟩

/-- The sets that are met have one member each, which can be reached along edges with cubes. -/
theorem reaches_singleton_iff :
    Reaches (fun k => (a.powerSetSucc k).map Prod.snd) {start} set ↔
      ∃ i, set = {i} ∧ Reaches (fun i => (a.graph.post Guard.isCube i).toList) start i := by
  constructor
  · intro h
    induction h with
    | refl => exact ⟨start, rfl, .refl⟩
    | tail _ hmem ih =>
      obtain ⟨i, rfl, hi⟩ := ih
      obtain ⟨j, hj, rfl⟩ := (mem_powerSetSucc_singleton_iff hguards hdet).mp hmem
      exact ⟨j, rfl, hi.tail hj⟩
  · rintro ⟨i, rfl, h⟩
    induction h with
    | refl => exact .refl
    | tail _ hmem ih =>
      exact ih.tail ((mem_powerSetSucc_singleton_iff hguards hdet).mpr ⟨_, hmem, rfl⟩)

end

/-- The successors of the node of a set of one node are the nodes of the sets of one successor. -/
theorem Determinizes.exists_mem_post_iff {d : PowerSetAutomaton} {x : NodeId}
    (h : a.Determinizes d) (hdet : a.graph.isDeterministic = true)
    (hx : d.graph.StandsFor x {i}) :
    (∃ y ∈ d.graph.post (Guard.holds v) x, d.graph.StandsFor y {j}) ↔
      j ∈ a.graph.post (Guard.holds v) i := by
  simp only [Graph.mem_post_holds]
  constructor
  · rintro ⟨y, hy, hj⟩
    have hset := Graph.standsFor_unique (h.step x y _ v hx hy) hj
    have hmem : j ∈ a.graph.postSet (Guard.holds v) {i} := hset ▸ SortedSet.mem_singleton.mpr rfl
    rwa [Graph.postSet_singleton, Graph.mem_post_holds] at hmem
  · intro hstep
    have hset := postSet_singleton_eq hdet hstep
    obtain ⟨y, hy⟩ := h.exists_step x _ v j hx (hset ▸ SortedSet.mem_singleton.mpr rfl)
    exact ⟨y, hy, hset ▸ h.step x y _ v hx hy⟩

/-- If the guards of a deterministic automaton are consistent cubes or never hold, the subset
construction gives the same automaton without the nodes that cannot be reached along cubes: there is
exactly one node for every set of one node that can be reached, and no other. It accepts exactly if
its member does, and at every valuation it has the successors that its member has. -/
theorem powerSet_of_isDeterministic (a : FiniteAutomaton κ) (start : NodeId)
    (hstart : a.graph.initial = some start)
    (hguards : ∀ i, ∀ e ∈ a.graph.edgesOf i, ∀ c, e.guard = .cube c → Cube.isConsistent c = true)
    (hdet : a.graph.isDeterministic = true) :
    ∃ d, a.powerSet = .ok d ∧
      (∃ x, d.graph.initial = some x ∧ d.graph.StandsFor x {start}) ∧
      (∀ set, (∃ x, d.graph.StandsFor x set) ↔
        ∃ i, set = {i} ∧ Reaches (fun i => (a.graph.post Guard.isCube i).toList) start i) ∧
      (∀ x y set, d.graph.StandsFor x set → d.graph.StandsFor y set → x = y) ∧
      ∀ x i, d.graph.StandsFor x {i} →
        (d.isAccepting x = true ↔ a.isAccepting i = true) ∧
        ∀ v j, (∃ y ∈ d.graph.post (Guard.holds v) x, d.graph.StandsFor y {j}) ↔
          j ∈ a.graph.post (Guard.holds v) i := by
  obtain ⟨d, hd⟩ := exists_powerSet hstart
  obtain ⟨start', hstart', hgen⟩ := generated_of_powerSet hd
  obtain rfl : start' = start := Option.some_inj.mp (hstart'.symm.trans hstart)
  refine ⟨d, hd, ⟨0, hgen.initial, hgen.standsFor_zero⟩, fun set => ?_, hgen.unique,
    fun x i hx => ⟨?_, fun v j => (determinizes_powerSet hd).exists_mem_post_iff hdet hx⟩⟩
  · rw [hgen.exists_iff, reaches_singleton_iff hguards hdet]
  · rw [isAccepting, isAccepting, SortedSet.contains_iff, SortedSet.contains_iff,
      mem_accepting_of_powerSet hd hx]
    simp

/-- A deterministic automaton with overlapping and repeated guards to one node, a guard that never
holds, and a node that cannot be reached. -/
def sharedTargets : FiniteAutomaton Unit where
  graph :=
    { nodes := #[⟨"idle", ∅, (), [⟨1, .cube {⟨"p", true⟩}⟩, ⟨1, .cube {⟨"q", true⟩}⟩,
          ⟨1, .cube {⟨"p", true⟩}⟩, ⟨0, .cube {⟨"p", false⟩, ⟨"q", false⟩}⟩, ⟨2, .never⟩]⟩,
        ⟨"busy", ∅, (), [⟨0, .always⟩]⟩, ⟨"lost", ∅, (), [⟨1, .always⟩]⟩]
      initial := some 0 }
  accepting := {1, 2}

theorem powerSet_sharedTargets :
    areDisjoint (sharedTargets.guardedTargets {0}) = false ∧
      ∃ d, sharedTargets.powerSet = .ok d ∧ (∃ x, d.graph.StandsFor x {1}) ∧
        (∀ x, ¬ d.graph.StandsFor x {0, 1}) ∧
        ∀ x, d.graph.StandsFor x {0} → d.isAccepting x = false ∧
          ∃ y ∈ d.graph.post (Guard.holds fun _ => true) x, d.graph.StandsFor y {1} := by
  have hdet : sharedTargets.graph.isDeterministic = true := by decide +kernel
  have hguards : ∀ i, ∀ e ∈ sharedTargets.graph.edgesOf i, ∀ c, e.guard = .cube c →
      Cube.isConsistent c = true := by
    intro i e he c hc
    have hi : i < 3 := Graph.lt_size_of_mem_edgesOf he
    have hself : ∀ i < 3, ∀ e ∈ sharedTargets.graph.edgesOf i, e.guard.isCube = true →
        ¬ e.guard.isDisjointFrom e.guard = true := by decide +kernel
    by_contra hnot
    refine hself i hi e he (by rw [hc]; rfl) (Guard.isDisjointFrom_iff.mpr fun v hv => ?_)
    rw [hc] at hv
    exact hnot (Cube.isConsistent_of_holds hv.1)
  obtain ⟨d, hd, -, hsets, -, hnodes⟩ :=
    powerSet_of_isDeterministic sharedTargets 0 rfl hguards hdet
  have hbusy : 1 ∈ sharedTargets.graph.post Guard.isCube 0 := by decide +kernel
  refine ⟨by decide +kernel, d, hd, (hsets {1}).mpr ⟨1, rfl, .single hbusy⟩, fun x hx => ?_,
    fun x hx => ?_⟩
  · obtain ⟨i, hi, -⟩ := (hsets {0, 1}).mp ⟨x, hx⟩
    have hzero : (0 : NodeId) ∈ ({0, 1} : SortedSet NodeId) := by decide
    have hone : (1 : NodeId) ∈ ({0, 1} : SortedSet NodeId) := by decide
    rw [hi, SortedSet.mem_singleton] at hzero hone
    exact absurd (hzero.trans hone.symm) (by decide)
  · obtain ⟨haccepting, hpost⟩ := hnodes x 0 hx
    refine ⟨?_, (hpost (fun _ => true) 1).mpr (by decide +kernel)⟩
    rw [Bool.eq_false_iff, Ne, haccepting]
    decide +kernel

end FiniteAutomaton

end TemporalMonitor
