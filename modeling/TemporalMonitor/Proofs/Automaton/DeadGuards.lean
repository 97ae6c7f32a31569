import TemporalMonitor.Proofs.Automaton.Projection

/-!
# Guards that no valuation meets

A guard given by an inconsistent cube counts as a cube, and live nodes are found along all edges
whose guards are cubes. A node can thus be live through an edge that is never taken. Collapsing such
guards to the one that is never met keeps every step at every valuation, and with it the words
accepted from each node. The live nodes that remain are exactly those from which some infinite word
is accepted.

## Main definitions

* `Guard.collapse`, `Graph.collapse`, `OmegaAutomaton.collapse` — dead guards are made explicit

## Main results

* `Guard.collapse_cases` — only dead guards change
* `Graph.step_collapse` — the same steps at every valuation
* `OmegaAutomaton.mem_liveNodes_collapse_iff` — the live nodes that remain
* `OmegaAutomaton.liveNodes_collapse_eq_iff` — when there were no others
-/

namespace TemporalMonitor

/-! ### Guards -/

namespace Guard

variable {g : Guard} {v : Valuation}

/-- The guard itself, or the guard that is never met if it is an inconsistent cube. -/
def collapse : Guard → Guard
  | .cube c => .ofCube c
  | .never => .never

@[simp] theorem holds_collapse : g.collapse.holds v = g.holds v := by
  cases g with
  | cube c => exact holds_ofCube
  | never => rfl

/-- A guard that some valuation meets stays as it is, and any other becomes the one that is never
met. -/
theorem collapse_cases (g : Guard) :
    (∃ v, g.holds v = true) ∧ g.collapse = g ∨ (∀ v, ¬ g.holds v = true) ∧ g.collapse = .never := by
  cases g with
  | never => exact .inr ⟨fun _ => Bool.false_ne_true, rfl⟩
  | cube c =>
    by_cases hc : Cube.isConsistent c = true
    · -- a consistent cube is met by its model
      exact .inl ⟨⟨Cube.model c, Cube.holds_model hc⟩, if_pos hc⟩
    · exact .inr ⟨fun _ hv => hc (Cube.isConsistent_of_holds hv), if_neg hc⟩

theorem isConsistent_of_collapse_eq {c : Cube} (h : g.collapse = .cube c) :
    Cube.isConsistent c = true := by
  cases g with
  | never => cases h
  | cube d => exact isConsistent_of_ofCube_eq h

end Guard

/-! ### Graphs -/

/-- The edge with its guard collapsed. -/
def Edge.collapse (e : Edge) : Edge := { e with guard := e.guard.collapse }

namespace Graph

variable {κ : Type} {g : Graph κ} {v : Valuation} {i j : NodeId}

/-- The graph with every guard collapsed. -/
def collapse (g : Graph κ) : Graph κ := g.mapEdges (List.map Edge.collapse)

theorem edgesOf_collapse : g.collapse.edgesOf i = (g.edgesOf i).map Edge.collapse :=
  edgesOf_mapEdges rfl

/-- Collapsing guards keeps the steps at every valuation. -/
theorem step_collapse : g.collapse.Step v i j ↔ g.Step v i j := by
  simp [Step, edgesOf_collapse, Edge.collapse]

/-- No inconsistent cube is left. -/
theorem isConsistent_of_mem_edgesOf_collapse {e : Edge} {c : Cube}
    (he : e ∈ g.collapse.edgesOf i) (hc : e.guard = .cube c) : Cube.isConsistent c = true := by
  rw [edgesOf_collapse] at he
  obtain ⟨d, -, rfl⟩ := List.mem_map.mp he
  exact Guard.isConsistent_of_collapse_eq hc

end Graph

/-! ### Live nodes -/

namespace OmegaAutomaton

variable {κ : Type} {a : BuchiAutomaton κ} {v : NodeId}

/-- The automaton with every guard collapsed. -/
def collapse (a : BuchiAutomaton κ) : BuchiAutomaton κ := { a with graph := a.graph.collapse }

theorem acceptsFrom_collapse {w : OmegaWord} : a.collapse.AcceptsFrom w v ↔ a.AcceptsFrom w v := by
  refine exists_congr fun ρ => and_congr_right fun _ => and_congr_left fun _ => ?_
  exact forall_congr' fun i => Graph.step_collapse

/-- Once dead guards are explicit, the live nodes are those from which some word is accepted. -/
theorem mem_liveNodes_collapse_iff : v ∈ a.collapse.liveNodes ↔ ∃ w, a.AcceptsFrom w v := by
  rw [mem_liveNodes_iff_live, ← exists_acceptsFrom_iff]
  · exact exists_congr fun w => acceptsFrom_collapse
  · intro id e he c hc
    exact Graph.isConsistent_of_mem_edgesOf_collapse he hc

/-- Every node from which some word is accepted is live, whatever the guards are. -/
theorem liveNodes_collapse_subset : a.collapse.liveNodes ⊆ a.liveNodes := by
  intro v hv
  obtain ⟨w, hw⟩ := mem_liveNodes_collapse_iff.mp hv
  exact mem_liveNodes_iff_live.mpr (live_of_acceptsFrom hw)

/-- Collapsing changes the guards that no valuation meets. It never adds a live node. It takes none
away, here or in the projection, exactly if every live node accepts some infinite word, as it does
where every cube is consistent. -/
theorem liveNodes_collapse_eq_iff (a : BuchiAutomaton κ) :
    (∀ g : Guard, (∃ v, g.holds v = true) ∧ g.collapse = g ∨
        (∀ v, ¬ g.holds v = true) ∧ g.collapse = .never) ∧
      a.collapse.liveNodes ⊆ a.liveNodes ∧
      (a.collapse.liveNodes = a.liveNodes ∧ a.collapse.project.accepting = a.project.accepting ↔
        ∀ v ∈ a.liveNodes, ∃ w, a.AcceptsFrom w v) ∧
      ((∀ id, ∀ e ∈ a.graph.edgesOf id, ∀ c, e.guard = .cube c → Cube.isConsistent c = true) →
        a.collapse.liveNodes = a.liveNodes) := by
  have hiff : a.collapse.liveNodes = a.liveNodes ↔ ∀ v ∈ a.liveNodes, ∃ w, a.AcceptsFrom w v := by
    constructor
    · intro heq v hv
      rw [← heq] at hv
      exact mem_liveNodes_collapse_iff.mp hv
    · intro hwords
      ext v
      exact ⟨liveNodes_collapse_subset v, fun hv => mem_liveNodes_collapse_iff.mpr (hwords v hv)⟩
  -- the projection accepts at the live nodes, so its part follows
  refine ⟨Guard.collapse_cases, liveNodes_collapse_subset, (and_iff_left_of_imp id).trans hiff, ?_⟩
  intro hcubes
  apply hiff.mpr
  intro v hv
  exact (exists_acceptsFrom_iff hcubes).mpr (mem_liveNodes_iff_live.mp hv)

/-- An accepting node whose only edge asks for `a` and for its opposite. -/
def contradictoryLoop : BuchiAutomaton Unit where
  graph := ⟨#[⟨"s", ∅, (), [⟨0, .cube {⟨"a", true⟩, ⟨"a", false⟩}⟩]⟩], some 0⟩
  acceptance := ⟨{0}⟩

/-- The node is live through an edge that no valuation takes, and is not once the guard is
collapsed. -/
theorem liveNodes_contradictoryLoop :
    contradictoryLoop.liveNodes = {0} ∧ contradictoryLoop.collapse.liveNodes = ∅ ∧
      ∀ v, contradictoryLoop.graph.post (Guard.holds v) 0 = ∅ := by
  have hdead : ∀ v, ¬ Cube.holds v {⟨"a", true⟩, ⟨"a", false⟩} = true := by
    intro v hv
    -- a valuation that meets the cube would make it consistent
    have hconsistent := Cube.isConsistent_of_holds hv
    revert hconsistent
    decide +kernel
  refine ⟨by decide +kernel, by decide +kernel, fun v => ?_⟩
  ext j
  rw [Graph.mem_post_holds]
  constructor
  · rintro ⟨e, he, -, hv⟩
    obtain rfl := List.mem_singleton.mp he
    exact absurd hv (hdead v)
  · intro hj
    exact absurd hj SortedSet.notMem_empty

end OmegaAutomaton

end TemporalMonitor
