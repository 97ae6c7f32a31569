import TemporalMonitor.Automaton.CountingProduct
import TemporalMonitor.Proofs.Automaton.Acceptance
import TemporalMonitor.Proofs.Graph.Discovery

/-!
# Counting keeps the accepted words

A run of the product is a run of the automaton together with the indices awaited, which are
determined by the run. The index moves on whenever the awaited set is visited, so it passes through
set 0 for ever exactly when every set is visited for ever.

## Main definitions

* `OmegaAutomaton.indexAt` — the index awaited along a run

## Main results

* `OmegaAutomaton.visitedForever_iff_awaited` — all sets are visited for ever exactly when set 0 is
  visited for ever while it is awaited
* `OmegaAutomaton.degeneralize_accepts_iff` — the Büchi automaton accepts the same words
-/

namespace TemporalMonitor

namespace OmegaAutomaton

variable {κ : Type} {a : GeneralizedBuchiAutomaton κ} {ρ : Nat → NodeId} {w : OmegaWord}

/-! ### The index awaited along a run -/

/-- The index awaited at each position of a run. -/
def indexAt (a : GeneralizedBuchiAutomaton κ) (ρ : Nat → NodeId) : Nat → Nat
  | 0 => 0
  | i + 1 => a.nextIndex ⟨ρ i, indexAt a ρ i⟩

/-- The awaited set is visited at position `i`. -/
def AwaitedAt (a : GeneralizedBuchiAutomaton κ) (ρ : Nat → NodeId) (i : Nat) : Prop :=
  ∃ set, a.acceptance.sets[a.indexAt ρ i]? = some set ∧ ρ i ∈ set

theorem indexAt_succ_of_awaitedAt {i : Nat} (h : a.AwaitedAt ρ i) :
    a.indexAt ρ (i + 1) = (a.indexAt ρ i + 1) % a.acceptance.sets.length := by
  obtain ⟨set, hset, hmem⟩ := h
  simp [indexAt, nextIndex, hset, hmem]

theorem indexAt_succ_of_not_awaitedAt {i : Nat} (h : ¬ a.AwaitedAt ρ i) :
    a.indexAt ρ (i + 1) = a.indexAt ρ i := by
  rw [indexAt, nextIndex]
  split
  · rename_i set hset
    exact if_neg fun hmem => h ⟨set, hset, hmem⟩
  · rfl

theorem indexAt_lt (hk : 0 < a.acceptance.sets.length) (i : Nat) :
    a.indexAt ρ i < a.acceptance.sets.length := by
  induction i with
  | zero => exact hk
  | succ i ih =>
    by_cases h : a.AwaitedAt ρ i
    · rw [indexAt_succ_of_awaitedAt h]
      exact Nat.mod_lt _ hk
    · rw [indexAt_succ_of_not_awaitedAt h]
      exact ih

/-- The index stays the same up to the next visit to the awaited set. -/
theorem indexAt_eq_of_not_awaitedAt {i j : Nat} (hij : i ≤ j)
    (h : ∀ m, i ≤ m → m < j → ¬ a.AwaitedAt ρ m) : a.indexAt ρ j = a.indexAt ρ i := by
  induction j, hij using Nat.le_induction with
  | base => rfl
  | succ j hij ih =>
    rw [indexAt_succ_of_not_awaitedAt (h j hij (Nat.lt_succ_self j))]
    exact ih fun m him hmj => h m him (Nat.lt_succ_of_lt hmj)

/-- If every set is visited for ever, the awaited set is visited again from any position on. -/
theorem exists_awaitedAt (h : ∀ set ∈ a.acceptance.sets, VisitedForever ρ set)
    (hk : 0 < a.acceptance.sets.length) (i : Nat) :
    ∃ j, i ≤ j ∧ a.AwaitedAt ρ j ∧ a.indexAt ρ j = a.indexAt ρ i := by
  have hlt := a.indexAt_lt (ρ := ρ) hk i
  have hget : a.acceptance.sets[a.indexAt ρ i]? = some (a.acceptance.sets.get ⟨_, hlt⟩) := by simp
  obtain ⟨j, hij, hj⟩ := h _ (List.get_mem _ ⟨_, hlt⟩) i
  -- take the first visit from `i` on; the index has not moved until then
  have hex : ∃ m, i ≤ m ∧ a.AwaitedAt ρ m := by
    by_contra hnone
    have hsame := indexAt_eq_of_not_awaitedAt (a := a) (ρ := ρ) hij
      fun m him _ hm => hnone ⟨m, him, hm⟩
    exact hnone ⟨j, hij, _, hsame.symm ▸ hget, hj⟩
  classical
  have hfind := Nat.find_spec hex
  refine ⟨Nat.find hex, hfind.1, hfind.2, ?_⟩
  exact indexAt_eq_of_not_awaitedAt hfind.1 fun m him hlt hm => Nat.find_min hex hlt ⟨him, hm⟩

/-- If every set is visited for ever, index 0 comes back from any position on. -/
theorem exists_indexAt_eq_zero (h : ∀ set ∈ a.acceptance.sets, VisitedForever ρ set)
    (hk : 0 < a.acceptance.sets.length) (i : Nat) : ∃ j, i ≤ j ∧ a.indexAt ρ j = 0 := by
  -- each visit brings the index closer to the end of the list
  induction hn : a.acceptance.sets.length - a.indexAt ρ i generalizing i with
  | zero =>
    have := a.indexAt_lt (ρ := ρ) hk i
    omega
  | succ n ih =>
    obtain ⟨j, hij, hawait, hsame⟩ := exists_awaitedAt h hk i
    have hnext := indexAt_succ_of_awaitedAt hawait
    rw [hsame] at hnext
    by_cases hlast : a.indexAt ρ i + 1 = a.acceptance.sets.length
    · rw [hlast, Nat.mod_self] at hnext
      exact ⟨j + 1, by omega, hnext⟩
    · have hlt := a.indexAt_lt (ρ := ρ) hk i
      rw [Nat.mod_eq_of_lt (by omega)] at hnext
      obtain ⟨m, hjm, hm⟩ := ih (j + 1) (by omega)
      exact ⟨m, by omega, hm⟩

/-- If set 0 is visited for ever while awaited, so is every other set: otherwise the index would
stay where that set is awaited. -/
theorem exists_awaitedAt_index (h : ∀ i, ∃ j, i ≤ j ∧ a.AwaitedAt ρ j ∧ a.indexAt ρ j = 0)
    {n : Nat} (hn : n < a.acceptance.sets.length) (i : Nat) :
    ∃ j, i ≤ j ∧ a.AwaitedAt ρ j ∧ a.indexAt ρ j = n := by
  induction n generalizing i with
  | zero => exact h i
  | succ n ih =>
    obtain ⟨j, hij, hawait, hj⟩ := ih (by omega) i
    have hnext := indexAt_succ_of_awaitedAt hawait
    rw [hj, Nat.mod_eq_of_lt hn] at hnext
    -- without a visit while it is awaited, index `n + 1` would stay for ever
    by_contra hnone
    have hstay : ∀ m, j + 1 ≤ m → a.indexAt ρ m = n + 1 := by
      intro m hm
      induction m, hm using Nat.le_induction with
      | base => exact hnext
      | succ m hm ihm =>
        rw [indexAt_succ_of_not_awaitedAt fun hawait => hnone ⟨m, by omega, hawait, ihm⟩]
        exact ihm
    obtain ⟨m, hm, -, hzero⟩ := h (j + 1)
    have := hstay m hm
    omega

/-- Every set is visited for ever exactly when set 0 is visited for ever while it is awaited. -/
theorem visitedForever_iff_awaited (hk : 0 < a.acceptance.sets.length) :
    (∀ set ∈ a.acceptance.sets, VisitedForever ρ set) ↔
      ∀ i, ∃ j, i ≤ j ∧ a.AwaitedAt ρ j ∧ a.indexAt ρ j = 0 := by
  constructor
  · intro h i
    obtain ⟨m, him, hzero⟩ := exists_indexAt_eq_zero h hk i
    obtain ⟨j, hmj, hawait, hsame⟩ := exists_awaitedAt h hk m
    exact ⟨j, by omega, hawait, hsame.trans hzero⟩
  · intro h set hset i
    obtain ⟨n, hn, rfl⟩ := List.getElem_of_mem hset
    obtain ⟨j, hij, ⟨set, hget, hmem⟩, hj⟩ := exists_awaitedAt_index h hn i
    rw [hj, List.getElem?_eq_getElem hn, Option.some_inj] at hget
    exact ⟨j, hij, hget ▸ hmem⟩

/-! ### The product -/

/-- The counted nodes that can be reached at all. -/
def countedNodes (a : GeneralizedBuchiAutomaton κ) (start : NodeId) : List CountedNode :=
  (start :: a.graph.transitions.map (·.edge.target)).flatMap fun i =>
    (List.range a.acceptance.sets.length).map fun n => ⟨i, n⟩

theorem length_countedNodes (start : NodeId) : (a.countedNodes start).length =
    a.acceptance.sets.length * (a.graph.edgeCount + 1) := by
  simp [countedNodes, List.length_flatMap, Graph.edgeCount, Function.comp_def, List.map_const',
    Nat.mul_add, Nat.mul_comm, Nat.add_comm]

theorem nextIndex_lt {c : CountedNode} (hc : c.index < a.acceptance.sets.length) :
    a.nextIndex c < a.acceptance.sets.length := by
  unfold nextIndex
  split
  · split
    · exact Nat.mod_lt _ (by omega)
    · exact hc
  · exact hc

theorem mem_countedNodes_of_reaches {start : NodeId} (hk : 0 < a.acceptance.sets.length)
    {c : CountedNode} (h : Reaches (fun c => (a.countedSucc c).map Prod.snd) ⟨start, 0⟩ c) :
    c ∈ a.countedNodes start := by
  have hmem : ∀ c : CountedNode, c ∈ a.countedNodes start ↔
      (c.base = start ∨ ∃ t ∈ a.graph.transitions, t.edge.target = c.base) ∧
        c.index < a.acceptance.sets.length := by
    rintro ⟨i, n⟩
    simp [countedNodes]
    grind
  refine h.mem_of_closed (S := (· ∈ a.countedNodes start)) ?_ ((hmem _).mpr ⟨.inl rfl, hk⟩)
  intro c hc d hd
  simp only [countedSucc, List.map_map, List.mem_map, Function.comp] at hd
  obtain ⟨e, he, rfl⟩ := hd
  exact (hmem _).mpr ⟨.inr ⟨_, Graph.mem_transitions he, rfl⟩, nextIndex_lt ((hmem c).mp hc).2⟩

/-- The product has one node for every counted node that can be reached. -/
theorem generated_countingGraph (a : GeneralizedBuchiAutomaton κ) (start : NodeId)
    (hk : 0 < a.acceptance.sets.length) :
    Graph.Generated a.countedSucc ⟨start, 0⟩ (a.countingGraph start) :=
  Graph.generated_generate (U := a.countedNodes start)
    (fun _ h => mem_countedNodes_of_reaches hk h) (a.length_countedNodes start).le

theorem mem_countedAccepting {g : Graph CountedNode} {set : SortedSet NodeId} {id : NodeId} :
    id ∈ countedAccepting g set ↔ ∃ i ∈ set, g.StandsFor id ⟨i, 0⟩ := by
  simp only [countedAccepting, Graph.nodeIds, SortedSet.mem_ofList, List.mem_filter, List.mem_range]
  constructor
  · rintro ⟨-, h⟩
    split at h
    · rename_i n hn
      simp only [Bool.and_eq_true, beq_iff_eq, SortedSet.contains_iff] at h
      refine ⟨n.origin.base, h.2, n, hn, ?_⟩
      rw [← h.1]
    · simp at h
  · rintro ⟨i, hi, n, hn, horigin⟩
    refine ⟨(Array.getElem?_eq_some_iff.mp hn).1, ?_⟩
    simp [hn, horigin, SortedSet.contains_iff, hi]

section Product

variable {start : NodeId} {g : Graph CountedNode} {σ : Nat → NodeId} {set : SortedSet NodeId}
variable {sets : List (SortedSet NodeId)}

/-- The nodes `σ` of the product stand for the nodes `ρ` with the indices awaited along them. -/
def Tracks (a : GeneralizedBuchiAutomaton κ) (g : Graph CountedNode) (σ ρ : Nat → NodeId) : Prop :=
  ∀ i, g.StandsFor (σ i) ⟨ρ i, a.indexAt ρ i⟩

theorem Tracks.isRun_iff (hg : Graph.Generated a.countedSucc ⟨start, 0⟩ g)
    (hstart : a.graph.initial = some start) {acc : Buchi NodeId} (h : a.Tracks g σ ρ) :
    (OmegaAutomaton.mk g acc).IsRun w σ ↔ a.IsRun w ρ := by
  have hinit : g.initial = some (σ 0) ↔ a.graph.initial = some (ρ 0) := by
    rw [hg.initial, hstart, Option.some_inj, Option.some_inj]
    constructor
    · intro hzero
      have hσ := h 0
      rw [← hzero] at hσ
      exact congrArg CountedNode.base (Graph.standsFor_unique hg.standsFor_zero hσ)
    · intro hzero
      have hσ := h 0
      rw [← hzero] at hσ
      exact hg.unique _ _ _ hg.standsFor_zero hσ
  have hstep : ∀ i, g.Step (w i) (σ i) (σ (i + 1)) ↔ a.graph.Step (w i) (ρ i) (ρ (i + 1)) := by
    intro i
    rw [hg.step_iff (h i)]
    simp only [countedSucc, List.mem_map]
    constructor
    · rintro ⟨-, ⟨e, he, rfl⟩, hv, hs⟩
      have heq := Graph.standsFor_unique hs (h (i + 1))
      exact ⟨e, he, congrArg CountedNode.base heq, hv⟩
    · rintro ⟨e, he, htarget, hv⟩
      exact ⟨_, ⟨e, he, rfl⟩, hv, htarget ▸ h (i + 1)⟩
  exact and_congr hinit (forall_congr' hstep)

theorem Tracks.visitedForever_iff (hsets : a.acceptance.sets = set :: sets) (h : a.Tracks g σ ρ) :
    VisitedForever σ (countedAccepting g set) ↔
      ∀ set ∈ a.acceptance.sets, VisitedForever ρ set := by
  rw [visitedForever_iff_awaited (by simp [hsets])]
  refine forall_congr' fun i => exists_congr fun j => and_congr_right fun _ => ?_
  rw [mem_countedAccepting]
  constructor
  · rintro ⟨n, hn, hσ⟩
    have heq := Graph.standsFor_unique (h j) hσ
    have hindex : a.indexAt ρ j = 0 := congrArg CountedNode.index heq
    have hbase : ρ j = n := congrArg CountedNode.base heq
    exact ⟨⟨set, by simp [hindex, hsets], hbase ▸ hn⟩, hindex⟩
  · rintro ⟨⟨set', hget, hmem⟩, hindex⟩
    rw [hindex, hsets, List.getElem?_cons_zero, Option.some_inj] at hget
    have hσ := h j
    rw [hindex] at hσ
    exact ⟨ρ j, hget ▸ hmem, hσ⟩

/-- Every run of the product tracks nodes of the automaton. -/
theorem exists_tracks_of_isRun (hg : Graph.Generated a.countedSucc ⟨start, 0⟩ g)
    {acc : Buchi NodeId} (h : (OmegaAutomaton.mk g acc).IsRun w σ) : ∃ ρ, a.Tracks g σ ρ := by
  have hstands : ∀ i, ∃ c, g.StandsFor (σ i) c := fun i =>
    ⟨_, _, Array.getElem?_eq_getElem (h.lt_size i), rfl⟩
  choose c hc using hstands
  -- the indices in the nodes of the product are the ones counted along the run
  have hindex : ∀ i, (c i).index = a.indexAt (fun i => (c i).base) i := by
    intro i
    induction i with
    | zero =>
      have hzero : (0 : NodeId) = σ 0 := Option.some_inj.mp (hg.initial.symm.trans h.1)
      have hσ := hc 0
      rw [← hzero] at hσ
      rw [Graph.standsFor_unique hσ hg.standsFor_zero]
      rfl
    | succ i ih =>
      obtain ⟨s, hs, -, hσ⟩ := (hg.step_iff (hc i)).mp (h.2 i)
      obtain ⟨e, -, rfl⟩ := List.mem_map.mp hs
      rw [Graph.standsFor_unique (hc (i + 1)) hσ, indexAt, ← ih]
  refine ⟨fun i => (c i).base, fun i => ?_⟩
  rw [← hindex i]
  exact hc i

/-- Every run of the automaton is tracked by nodes of the product. -/
theorem exists_tracked_of_isRun (hg : Graph.Generated a.countedSucc ⟨start, 0⟩ g)
    (hstart : a.graph.initial = some start) (h : a.IsRun w ρ) : ∃ σ, a.Tracks g σ ρ := by
  -- what the run meets is reachable with its indices, so the product has a node for it
  have hreach : ∀ i, Reaches (fun c => (a.countedSucc c).map Prod.snd) ⟨start, 0⟩
      ⟨ρ i, a.indexAt ρ i⟩ := by
    intro i
    induction i with
    | zero =>
      have hzero : start = ρ 0 := Option.some_inj.mp (hstart.symm.trans h.1)
      rw [← hzero]
      exact .refl
    | succ i ih =>
      obtain ⟨e, he, htarget, -⟩ := h.2 i
      refine .tail ih ?_
      simp only [countedSucc, List.map_map, List.mem_map, Function.comp]
      exact ⟨e, he, by rw [htarget, indexAt]⟩
  choose σ hσ using fun i => (hg.exists_iff _).mpr (hreach i)
  exact ⟨σ, hσ⟩

/-- The counting product accepts the words that the automaton accepts. -/
theorem accepts_countingGraph_iff (hstart : a.graph.initial = some start)
    (hsets : a.acceptance.sets = set :: sets) :
    (OmegaAutomaton.mk (a.countingGraph start)
      (Buchi.mk (countedAccepting (a.countingGraph start) set))).Accepts w ↔ a.Accepts w := by
  have hg := a.generated_countingGraph start (by simp [hsets])
  rw [accepts_buchi_iff, accepts_generalized_iff]
  constructor
  · rintro ⟨σ, hrun, hvisit⟩
    obtain ⟨ρ, hρ⟩ := exists_tracks_of_isRun hg hrun
    exact ⟨ρ, (hρ.isRun_iff hg hstart).mp hrun, (hρ.visitedForever_iff hsets).mp hvisit⟩
  · rintro ⟨ρ, hrun, hvisit⟩
    obtain ⟨σ, hσ⟩ := exists_tracked_of_isRun hg hstart hrun
    exact ⟨σ, (hσ.isRun_iff hg hstart).mpr hrun, (hσ.visitedForever_iff hsets).mpr hvisit⟩

end Product

/-! ### No set, and one set -/

theorem edgesOf_withIndexZero {g : Graph κ} {i : NodeId} :
    g.withIndexZero.edgesOf i = g.edgesOf i := by
  unfold Graph.edgesOf Graph.withIndexZero
  rw [Array.getElem?_mapIdx]
  cases g.nodes[i]? <;> rfl

theorem isRun_withIndexZero_iff {acc : Buchi NodeId} :
    (OmegaAutomaton.mk a.graph.withIndexZero acc).IsRun w ρ ↔ a.IsRun w ρ := by
  simp only [IsRun, Graph.Step, edgesOf_withIndexZero]
  rfl

/-- Every run visits the set of all nodes for ever. -/
theorem IsRun.visitedForever_nodeIds (h : a.IsRun w ρ) :
    VisitedForever ρ (.ofList a.graph.nodeIds) := by
  intro i
  refine ⟨i, Nat.le_refl i, ?_⟩
  rw [SortedSet.mem_ofList]
  exact List.mem_range.mpr (h.lt_size i)

/-! ### The Büchi automaton -/

/-- What becomes of an automaton with an initial node: the graph with index 0 where there is nothing
to count, and the counting product otherwise. -/
theorem degeneralize_eq {start : NodeId} (hstart : a.graph.initial = some start) :
    (a.acceptance.sets = [] ∧
        a.degeneralize = .ok ⟨a.graph.withIndexZero, ⟨.ofList a.graph.nodeIds⟩⟩) ∨
      (∃ set, a.acceptance.sets = [set] ∧
        a.degeneralize = .ok ⟨a.graph.withIndexZero, ⟨set⟩⟩) ∨
      ∃ set sets, a.acceptance.sets = set :: sets ∧ a.degeneralize =
        .ok ⟨a.countingGraph start, ⟨countedAccepting (a.countingGraph start) set⟩⟩ := by
  unfold degeneralize
  rw [hstart]
  match hsets : a.acceptance.sets with
  | [] => exact .inl ⟨rfl, rfl⟩
  | [set] => exact .inr (.inl ⟨set, rfl, rfl⟩)
  | set :: set' :: sets => exact .inr (.inr ⟨set, set' :: sets, rfl, rfl⟩)

/-- Whatever Büchi automaton comes out accepts the same words. -/
theorem accepts_of_degeneralize_eq_ok {b : BuchiAutomaton CountedNode}
    (h : a.degeneralize = .ok b) : b.Accepts w ↔ a.Accepts w := by
  cases hstart : a.graph.initial with
  | none => simp [degeneralize, hstart] at h
  | some start =>
    rcases degeneralize_eq hstart with
        ⟨hsets, heq⟩ | ⟨set, hsets, heq⟩ | ⟨set, sets, hsets, heq⟩ <;>
      rw [h, Except.ok.injEq] at heq <;> subst heq
    · -- with no set to visit, every run is accepting
      rw [accepts_buchi_iff, accepts_generalized_iff]
      refine exists_congr fun ρ => ?_
      rw [isRun_withIndexZero_iff]
      refine and_congr_right fun hrun => ?_
      simp [hsets, hrun.visitedForever_nodeIds]
    · rw [accepts_buchi_iff, accepts_generalized_iff]
      refine exists_congr fun ρ => ?_
      rw [isRun_withIndexZero_iff]
      simp [hsets]
    · exact accepts_countingGraph_iff hstart hsets

/-- No guard is made on the way to a Büchi automaton. -/
theorem exists_edge_of_degeneralize {b : BuchiAutomaton CountedNode} (h : a.degeneralize = .ok b)
    {i : NodeId} {e : Edge} (he : e ∈ b.graph.edgesOf i) :
    ∃ i', ∃ e' ∈ a.graph.edgesOf i', e'.guard = e.guard := by
  cases hstart : a.graph.initial with
  | none => simp [degeneralize, hstart] at h
  | some start =>
    rcases degeneralize_eq hstart with ⟨-, heq⟩ | ⟨set, -, heq⟩ | ⟨set, sets, hsets, heq⟩ <;>
      rw [h, Except.ok.injEq] at heq <;> subst heq
    · exact ⟨i, e, edgesOf_withIndexZero ▸ he, rfl⟩
    · exact ⟨i, e, edgesOf_withIndexZero ▸ he, rfl⟩
    · have hgen := generated_countingGraph a start (by simp [hsets])
      obtain ⟨c, s, hs, hguard⟩ := hgen.exists_guard_eq he
      obtain ⟨e', he', rfl⟩ := List.mem_map.mp hs
      exact ⟨_, e', he', hguard.symm⟩

/-- An automaton with an initial node, whatever its graph, guards and sets, becomes a Büchi
automaton that accepts the same infinite words. -/
theorem degeneralize_accepts_iff (a : GeneralizedBuchiAutomaton κ) (start : NodeId)
    (hstart : a.graph.initial = some start) :
    ∃ b, a.degeneralize = .ok b ∧ ∀ w, b.Accepts w ↔ a.Accepts w := by
  have hok : ∃ b, a.degeneralize = .ok b := by
    rcases degeneralize_eq hstart with ⟨_, h⟩ | ⟨_, _, h⟩ | ⟨_, _, _, h⟩ <;> exact ⟨_, h⟩
  obtain ⟨b, hb⟩ := hok
  exact ⟨b, hb, fun w => accepts_of_degeneralize_eq_ok hb⟩

/-- Two nodes, entered by `p` and by `¬ p`, both of which must be met for ever. -/
def alternating : GeneralizedBuchiAutomaton Unit where
  graph :=
    { nodes := #[⟨"low", ∅, (), [⟨0, .cube {⟨"p", false⟩}⟩, ⟨1, .cube {⟨"p", true⟩}⟩]⟩,
        ⟨"high", ∅, (), [⟨0, .cube {⟨"p", false⟩}⟩, ⟨1, .cube {⟨"p", true⟩}⟩]⟩]
      initial := some 0 }
  acceptance := ⟨[{0}, {1}]⟩

theorem degeneralize_alternating : alternating.graph.initial = some 0 ∧
    ∃ b, alternating.degeneralize = .ok b ∧ ∀ w, b.Accepts w ↔ alternating.Accepts w :=
  ⟨rfl, degeneralize_accepts_iff alternating 0 rfl⟩

end OmegaAutomaton

end TemporalMonitor
