import TemporalMonitor.Automaton.Finite
import TemporalMonitor.Proofs.Automaton.Acceptance
import TemporalMonitor.Proofs.Graph.Components

/-!
# Finite prefixes of accepted words

A node is live if it reaches an accepting node on a cycle, along edges whose guards are cubes. The
components come out with those they lead to first, so one pass over them collects the live nodes.
Where every cube is consistent, the edges of such a path can be met one after the other by suitable
valuations. Live nodes are then the ones from which some infinite word is accepted, and the
projection accepts the finite words that have an accepted continuation.

## Main definitions

* `Graph.Linked` — an edge leads from one node to another
* `OmegaAutomaton.Live` — an accepting node on a cycle can be reached
* `OmegaAutomaton.AcceptsFrom` — acceptance of an infinite word from a node

## Main results

* `OmegaAutomaton.mem_liveNodes_iff_live`, `OmegaAutomaton.mem_liveNodes_iff_exists_cycle`
* `OmegaAutomaton.exists_acceptsFrom_iff` — live nodes are those with an accepted word
* `OmegaAutomaton.project_accepts_iff` — the projection accepts the prefixes of accepted words
-/

namespace TemporalMonitor

namespace OmegaWord

variable {v : Valuation} {u u' : List Valuation} {w : OmegaWord}

theorem prepend_cons_succ {i : Nat} : prepend (v :: u) w (i + 1) = prepend u w i := by
  simp only [prepend, List.getElem?_cons_succ, List.length_cons, Nat.add_sub_add_right]

end OmegaWord

/-- Some edge leads from `i` to `j` and its guard is not the one that is never met. -/
def Graph.Linked {κ : Type} (g : Graph κ) (i j : NodeId) : Prop :=
  ∃ e ∈ g.edgesOf i, e.target = j ∧ e.guard ≠ .never

namespace OmegaAutomaton

variable {κ : Type} {a : BuchiAutomaton κ} {v w : NodeId}

/-! ### Live nodes -/

/-- An accepting node on a cycle can be reached along edges whose guards are cubes. -/
def Live (a : BuchiAutomaton κ) (v : NodeId) : Prop :=
  ∃ m ∈ a.acceptance.accepting, Reaches a.cubeSucc v m ∧ OnCycle a.cubeSucc m

theorem mem_cubeSucc :
    w ∈ a.cubeSucc v ↔ ∃ e ∈ a.graph.edgesOf v, e.guard.isCube = true ∧ e.target = w := by
  simp [cubeSucc, and_assoc]

theorem lt_size_of_mem_cubeSucc (h : w ∈ a.cubeSucc v) : v < a.graph.size := by
  obtain ⟨e, he, -⟩ := mem_cubeSucc.mp h
  exact Graph.lt_size_of_mem_edgesOf he

theorem live_iff_inBounds : a.Live v ↔ ∃ m ∈ a.acceptance.accepting,
    Reaches (inBounds a.graph.size a.cubeSucc) v m ∧
      OnCycle (inBounds a.graph.size a.cubeSucc) m := by
  refine exists_congr fun m => and_congr_right fun _ => ?_
  exact (reaches_onCycle_inBounds_iff fun _ _ => lt_size_of_mem_cubeSucc).symm

theorem Live.lt_size (h : a.Live v) : v < a.graph.size := by
  obtain ⟨m, -, hvm, b, hmb, -⟩ := h
  rcases hvm.cases_head with rfl | ⟨c, hvc, -⟩
  · exact lt_size_of_mem_cubeSucc hmb
  · exact lt_size_of_mem_cubeSucc hvc

theorem mem_addLive {live : SortedSet NodeId} {c : List NodeId} :
    v ∈ a.addLive live c ↔ v ∈ live ∨ v ∈ c ∧
      ((isNontrivial a.cubeSucc c = true ∧ ∃ m ∈ c, m ∈ a.acceptance.accepting) ∨
        ∃ x ∈ c, ∃ y ∈ a.cubeSucc x, y ∈ live) := by
  simp only [addLive]
  split
  · rename_i h
    simp only [Bool.or_eq_true, Bool.and_eq_true, List.any_eq_true, SortedSet.contains_iff] at h
    simp [SortedSet.mem_insertMany, h]
  · rename_i h
    simp only [Bool.or_eq_true, Bool.and_eq_true, List.any_eq_true, SortedSet.contains_iff] at h
    simp [h]

/-- A node of a component is live exactly when the component is added, if the live nodes of the
components completed before are known. -/
theorem live_iff_of_mem_component {live : SortedSet NodeId} {later earlier : List (List NodeId)}
    {c : List NodeId}
    (hlisted : Components.Listed a.graph.size a.cubeSucc (later ++ c :: earlier))
    (hall : ∀ w, w < a.graph.size → ∃ d ∈ later ++ c :: earlier, w ∈ d)
    (hlive : ∀ w, w ∈ live ↔ (∃ d ∈ earlier, w ∈ d) ∧ a.Live w) (hv : v ∈ c) :
    a.Live v ↔ (isNontrivial a.cubeSucc c = true ∧ ∃ m ∈ c, m ∈ a.acceptance.accepting) ∨
      ∃ x ∈ c, ∃ y ∈ a.cubeSucc x, y ∈ live := by
  have hc : c ∈ later ++ c :: earlier := by simp
  have hlt := hlisted.lt c hc
  have hmem := hlisted.mem_iff c hc
  constructor
  · rw [live_iff_inBounds]
    rintro ⟨m, hacc, hvm, hcycle⟩
    by_cases hmc : m ∈ c
    · exact .inl ⟨(hlisted.isNontrivial_iff hc hmc).mpr hcycle, m, hmc, hacc⟩
    · -- the path to `m` leaves the component, and only for components completed before
      obtain ⟨x, hx, y, hxy, hyc, hym⟩ := Reaches.exists_leaving (S := (· ∈ c)) hv hvm hmc
      obtain ⟨-, hsucc, hy⟩ := mem_inBounds.mp hxy
      have hlisted_y := (hlisted.mem_of_edge (hall y hy) hx hxy).resolve_left hyc
      refine .inr ⟨x, hx, y, hsucc, (hlive y).mpr ⟨hlisted_y, ?_⟩⟩
      exact live_iff_inBounds.mpr ⟨m, hacc, hym, hcycle⟩
  · rintro (⟨hcycle, m, hm, hacc⟩ | ⟨x, hx, y, hxy, hy⟩)
    · exact live_iff_inBounds.mpr
        ⟨m, hacc, ((hmem v hv m).mp hm).1, (hlisted.isNontrivial_iff hc hm).mp hcycle⟩
    · obtain ⟨m, hacc, hym, hcycle⟩ := live_iff_inBounds.mp ((hlive y).mp hy).2
      -- a live node lies inside the graph, and so does the edge to it
      have hylt := ((hlive y).mp hy).2.lt_size
      have hvx := ((hmem v hv x).mp hx).1
      refine live_iff_inBounds.mpr ⟨m, hacc, ?_, hcycle⟩
      exact (hvx.tail (mem_inBounds.mpr ⟨hlt x hx, hxy, hylt⟩)).trans hym

theorem mem_liveNodes_iff_live : v ∈ a.liveNodes ↔ a.Live v := by
  have hlisted : Components.Listed a.graph.size a.cubeSucc
      (components a.graph.size a.cubeSucc a.graph.nodeIds).reverse := listed_components
  have hall : ∀ w, w < a.graph.size →
      ∃ d ∈ (components a.graph.size a.cubeSucc a.graph.nodeIds).reverse, w ∈ d := by
    intro w hw
    simp only [List.mem_reverse]
    exact exists_mem_components_iff.mpr ⟨w, List.mem_range.mpr hw, hw, .refl⟩
  rw [liveNodes, ← List.foldr_reverse]
  generalize (components a.graph.size a.cubeSucc a.graph.nodeIds).reverse = found at hlisted hall
  -- the live nodes among those of the components completed so far
  have hfold : ∀ later earlier, later ++ earlier = found → ∀ v,
      v ∈ earlier.foldr (fun c live => a.addLive live c) ∅ ↔
        (∃ c ∈ earlier, v ∈ c) ∧ a.Live v := by
    intro later earlier
    induction earlier generalizing later with
    | nil => simp
    | cons c earlier ih =>
      intro hfound v
      have hlive := ih (later ++ [c]) (by simp [hfound])
      rw [List.foldr_cons, mem_addLive, hlive]
      subst hfound
      simp only [List.mem_cons, exists_eq_or_imp]
      constructor
      · rintro (⟨hv, hl⟩ | ⟨hv, hadded⟩)
        · exact ⟨.inr hv, hl⟩
        · exact ⟨.inl hv, (live_iff_of_mem_component hlisted hall hlive hv).mpr hadded⟩
      · rintro ⟨hv | hv, hl⟩
        · exact .inr ⟨hv, (live_iff_of_mem_component hlisted hall hlive hv).mp hl⟩
        · exact .inl ⟨hv, hl⟩
  rw [hfold [] found rfl]
  exact ⟨And.right, fun hl => ⟨hall v hl.lt_size, hl⟩⟩

theorem mem_cubeSucc_iff_linked : w ∈ a.cubeSucc v ↔ a.graph.Linked v w := by
  rw [mem_cubeSucc, Graph.Linked]
  refine exists_congr fun e => and_congr_right fun _ => ?_
  rw [Guard.isCube_iff, and_comm]

/-- The live nodes are those from which an accepting node on a cycle can be reached, where paths and
cycles may use all edges but those that are never taken. -/
theorem mem_liveNodes_iff_exists_cycle (a : BuchiAutomaton κ) (v : NodeId) :
    v ∈ a.liveNodes ↔ ∃ m ∈ a.acceptance.accepting,
      Relation.ReflTransGen a.graph.Linked v m ∧ Relation.TransGen a.graph.Linked m m := by
  rw [mem_liveNodes_iff_live, Live]
  refine exists_congr fun m => and_congr_right fun _ => and_congr ?_ ?_
  · exact reaches_iff_reflTransGen fun _ _ => mem_cubeSucc_iff_linked
  · exact onCycle_iff_transGen fun _ _ => mem_cubeSucc_iff_linked

/-! ### Words accepted from a node -/

/-- Some run from the node on the infinite word visits the accepting set for ever. -/
def AcceptsFrom (a : BuchiAutomaton κ) (w : OmegaWord) (v : NodeId) : Prop :=
  ∃ ρ, ρ 0 = v ∧ (∀ i, a.graph.Step (w i) (ρ i) (ρ (i + 1))) ∧
    VisitedForever ρ a.acceptance.accepting

theorem accepts_iff_acceptsFrom {w : OmegaWord} :
    a.Accepts w ↔ ∃ start, a.graph.initial = some start ∧ a.AcceptsFrom w start := by
  rw [accepts_buchi_iff]
  constructor
  · rintro ⟨ρ, ⟨hinit, hsteps⟩, hvisit⟩
    exact ⟨ρ 0, hinit, ρ, rfl, hsteps, hvisit⟩
  · rintro ⟨start, hinit, ρ, rfl, hsteps, hvisit⟩
    exact ⟨ρ, ⟨hinit, hsteps⟩, hvisit⟩

theorem acceptsFrom_prepend_cons {x : Valuation} {u : List Valuation} {w : OmegaWord} :
    a.AcceptsFrom (.prepend (x :: u) w) v ↔
      ∃ v', a.graph.Step x v v' ∧ a.AcceptsFrom (.prepend u w) v' := by
  constructor
  · rintro ⟨ρ, rfl, hsteps, hvisit⟩
    refine ⟨ρ 1, hsteps 0, fun i => ρ (i + 1), rfl, fun i => ?_, fun i => ?_⟩
    · rw [← OmegaWord.prepend_cons_succ (v := x)]
      exact hsteps (i + 1)
    · obtain ⟨j, hij, hj⟩ := hvisit (i + 1)
      obtain ⟨j, rfl⟩ : ∃ k, j = k + 1 := ⟨j - 1, by omega⟩
      exact ⟨j, by omega, hj⟩
  · -- the run from the next node is put off by one instant
    rintro ⟨v', hstep, ρ, rfl, hsteps, hvisit⟩
    refine ⟨fun i => i.casesOn v ρ, rfl, fun i => ?_, fun i => ?_⟩
    · cases i with
      | zero => exact hstep
      | succ i =>
        rw [OmegaWord.prepend_cons_succ]
        exact hsteps i
    · obtain ⟨j, hij, hj⟩ := hvisit i
      exact ⟨j + 1, by omega, hj⟩

/-- A step is an edge whose guard is a cube. -/
theorem mem_cubeSucc_of_step {x : Valuation} (h : a.graph.Step x v w) : w ∈ a.cubeSucc v := by
  obtain ⟨e, he, htarget, hholds⟩ := h
  exact mem_cubeSucc.mpr ⟨e, he, Guard.isCube_of_holds hholds, htarget⟩

theorem live_of_acceptsFrom {w : OmegaWord} (h : a.AcceptsFrom w v) : a.Live v := by
  obtain ⟨ρ, rfl, hsteps, hvisit⟩ := h
  have hpath : ∀ i, ρ (i + 1) ∈ a.cubeSucc (ρ i) := fun i => mem_cubeSucc_of_step (hsteps i)
  have hmet : ∃ m, m ∈ a.acceptance.accepting ∧ MetForever ρ m := by
    refine exists_metForever (n := a.graph.size) (P := (· ∈ a.acceptance.accepting)) fun i => ?_
    obtain ⟨j, hij, hj⟩ := hvisit i
    exact ⟨j, hij, (hsteps j).lt_size, hj⟩
  obtain ⟨m, hm, hforever⟩ := hmet
  exact ⟨m, hm, reaches_of_met_forever hpath hforever 0, onCycle_of_met_forever hpath hforever⟩

/-- Where every cube is consistent, some valuation takes any edge whose guard is a cube. -/
theorem exists_step_of_mem_cubeSucc
    (hcubes : ∀ id, ∀ e ∈ a.graph.edgesOf id, ∀ c, e.guard = .cube c → Cube.isConsistent c = true)
    (h : w ∈ a.cubeSucc v) : ∃ x, a.graph.Step x v w := by
  obtain ⟨e, he, hcube, htarget⟩ := mem_cubeSucc.mp h
  cases hguard : e.guard with
  | never => simp [hguard, Guard.isCube] at hcube
  | cube c =>
    refine ⟨Cube.model c, e, he, htarget, ?_⟩
    rw [hguard, Guard.holds_cube]
    exact Cube.holds_model (hcubes v e he c hguard)

theorem exists_acceptsFrom_iff
    (hcubes : ∀ id, ∀ e ∈ a.graph.edgesOf id, ∀ c, e.guard = .cube c → Cube.isConsistent c = true) :
    (∃ w, a.AcceptsFrom w v) ↔ a.Live v := by
  constructor
  · rintro ⟨w, h⟩
    exact live_of_acceptsFrom h
  · rintro ⟨m, hm, hvm, hcycle⟩
    -- a valuation for every edge of the path makes up the word
    obtain ⟨ρ, hzero, hpath, hforever⟩ := exists_path_meeting_forever hvm hcycle
    choose w hw using fun i => exists_step_of_mem_cubeSucc hcubes (hpath i)
    exact ⟨w, ρ, hzero, hw, MetForever.visitedForever hforever hm⟩

/-! ### The projection -/

/-- The nodes that a word leads to accept some continuation exactly when the nodes it started from
accept a word that begins with it. -/
theorem exists_mem_runFrom_acceptsFrom_iff {accepting ids : SortedSet NodeId}
    {word : List Valuation} :
    (∃ v ∈ FiniteAutomaton.runFrom ⟨a.graph, accepting⟩ ids word, ∃ w, a.AcceptsFrom w v) ↔
      ∃ w, ∃ v ∈ ids, a.AcceptsFrom (.prepend word w) v := by
  induction word generalizing ids with
  | nil =>
    constructor
    · rintro ⟨v, hv, w, h⟩
      exact ⟨w, v, hv, h⟩
    · rintro ⟨w, v, hv, h⟩
      exact ⟨v, hv, w, h⟩
  | cons x word ih =>
    rw [FiniteAutomaton.runFrom, List.foldl_cons]
    -- the first letter moves the set of nodes, and each run from it takes that step first
    refine (@ih (a.graph.postSet (Guard.holds x) ids)).trans (exists_congr fun w => ?_)
    simp only [Graph.mem_postSet_holds, acceptsFrom_prepend_cons]
    constructor
    · rintro ⟨v', ⟨v, hv, hstep⟩, h⟩
      exact ⟨v, hv, v', hstep, h⟩
    · rintro ⟨v, hv, v', hstep, h⟩
      exact ⟨v', ⟨v, hv, hstep⟩, h⟩

theorem accepts_project_iff {word : List Valuation} :
    a.project.accepts word = true ↔ ∃ v ∈ a.project.run word, a.Live v := by
  simp only [FiniteAutomaton.accepts, SortedSet.any_eq_true, FiniteAutomaton.isAccepting,
    SortedSet.contains_iff, project, mem_liveNodes_iff_live]

/-- A word leads to a live node exactly when it begins an accepted infinite word. -/
theorem exists_mem_run_live_iff
    (hcubes : ∀ id, ∀ e ∈ a.graph.edgesOf id, ∀ c, e.guard = .cube c → Cube.isConsistent c = true)
    {word : List Valuation} :
    (∃ v ∈ a.project.run word, a.Live v) ↔ ∃ w, a.Accepts (.prepend word w) := by
  simp only [← exists_acceptsFrom_iff hcubes]
  refine exists_mem_runFrom_acceptsFrom_iff.trans (exists_congr fun w => ?_)
  simp [accepts_iff_acceptsFrom, SortedSet.mem_ofList, project]

/-- Where every guard is a consistent cube or never holds, the projection accepts the finite words
that can be continued to an infinite word the automaton accepts. -/
theorem project_accepts_iff (a : BuchiAutomaton κ)
    (hcubes : ∀ id, ∀ e ∈ a.graph.edgesOf id, ∀ c, e.guard = .cube c → Cube.isConsistent c = true)
    (word : List Valuation) :
    a.project.accepts word = true ↔ ∃ w, a.Accepts (.prepend word w) := by
  rw [accepts_project_iff]
  exact exists_mem_run_live_iff hcubes

/-- An accepting cycle that is entered by `p` and followed by `¬ p`, beside an edge that is never
taken. -/
def firstOnly : BuchiAutomaton Unit where
  graph :=
    { nodes := #[⟨"start", ∅, (), [⟨0, .never⟩, ⟨1, .cube {⟨"p", true⟩}⟩]⟩,
        ⟨"rest", ∅, (), [⟨1, .cube {⟨"p", false⟩}⟩]⟩]
      initial := some 0 }
  acceptance := ⟨{1}⟩

theorem exists_accepts_firstOnly :
    (∀ id, ∀ e ∈ firstOnly.graph.edgesOf id, ∀ c, e.guard = .cube c → Cube.isConsistent c = true) ∧
      ∃ w, firstOnly.Accepts (.prepend [fun _ => true] w) := by
  have hcubes : ∀ id, ∀ e ∈ firstOnly.graph.edgesOf id, ∀ c, e.guard = .cube c →
      Cube.isConsistent c = true := by
    intro id e he c hc
    have hid : id < 2 := Graph.lt_size_of_mem_edgesOf he
    have hedges : ∀ id < 2, ∀ e ∈ firstOnly.graph.edgesOf id,
        e.guard = .never ∨ e.guard = .cube {⟨"p", true⟩} ∨ e.guard = .cube {⟨"p", false⟩} := by
      decide +kernel
    rcases hedges id hid e he with h | h | h <;> rw [h] at hc <;> cases hc <;> decide +kernel
  exact ⟨hcubes, (project_accepts_iff firstOnly hcubes [fun _ => true]).mp (by decide +kernel)⟩

end OmegaAutomaton

end TemporalMonitor
