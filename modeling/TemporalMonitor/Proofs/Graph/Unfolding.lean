import Mathlib.Data.List.Pairwise
import TemporalMonitor.Automaton.Omega
import TemporalMonitor.Graph.Unfolding
import TemporalMonitor.Proofs.Guard.Partition

/-!
# Unfolding and simplifying keep the successors

Both rewrites change the edges of a node and keep where each valuation leads. Unfolding takes the
regions of the guards, so this is a fact about partitions. Simplifying drops a cube only when
another one asks for less, and joins two cubes only into one that is satisfied whenever either of
them is. The test for determinism looks at pairs of guards, which is enough to know about every
valuation.

## Main results

* `Graph.step_unfold`, `Graph.step_simplify` — the same steps at every valuation
* `guard_eq_or_apart_of_mem_unfoldEdges` — unfolded guards are the same or disjoint
* `Cube.exists_mem_merge_iff` — merged cubes are satisfied by the same valuations
* `Graph.isDeterministic_iff` — the test for determinism is exact
* `Graph.isDeterministic_iff_size_post_le` — the same in terms of sets of successors
-/

namespace TemporalMonitor

/-! ### Steps and successor sets -/

namespace Graph

variable {κ : Type} {g : Graph κ} {v : Valuation} {i j : NodeId}

theorem mem_post {p : Guard → Bool} :
    j ∈ g.post p i ↔ ∃ e ∈ g.edgesOf i, e.target = j ∧ p e.guard = true := by
  simp only [post, SortedSet.mem_ofList, List.mem_map, List.mem_filter]
  grind

theorem mem_postSet {p : Guard → Bool} {ids : SortedSet NodeId} :
    j ∈ g.postSet p ids ↔ ∃ i ∈ ids, ∃ e ∈ g.edgesOf i, e.target = j ∧ p e.guard = true := by
  simp only [postSet, SortedSet.mem_flatMap, List.mem_map, List.mem_filter]
  grind

theorem mem_post_holds : j ∈ g.post (Guard.holds v) i ↔ g.Step v i j := mem_post

theorem mem_postSet_holds {ids : SortedSet NodeId} :
    j ∈ g.postSet (Guard.holds v) ids ↔ ∃ i ∈ ids, g.Step v i j := mem_postSet

theorem postSet_singleton (g : Graph κ) (p : Guard → Bool) (i : NodeId) :
    g.postSet p {i} = g.post p i := by
  ext j
  simp [mem_postSet, mem_post]

theorem edgesOf_mapEdges {f : List Edge → List Edge} (hf : f [] = []) :
    (g.mapEdges f).edgesOf i = f (g.edgesOf i) := by
  unfold edgesOf mapEdges
  rw [Array.getElem?_map]
  cases g.nodes[i]? with
  | none => exact hf.symm
  | some n => rfl

theorem lt_size_of_mem_edgesOf {e : Edge} (h : e ∈ g.edgesOf i) : i < g.size := by
  unfold edgesOf at h
  split at h
  · rename_i n hn
    exact (Array.getElem?_eq_some_iff.mp hn).1
  · simp at h

theorem mem_transitions {e : Edge} (h : e ∈ g.edgesOf i) : ⟨i, e⟩ ∈ g.transitions := by
  simp only [transitions, nodeIds, List.mem_flatMap, List.mem_range, List.mem_map]
  exact ⟨i, lt_size_of_mem_edgesOf h, e, h, rfl⟩

theorem Step.lt_size (h : g.Step v i j) : i < g.size := by
  obtain ⟨e, he, -⟩ := h
  exact lt_size_of_mem_edgesOf he

end Graph

/-! ### Unfolding -/

section Unfold

variable {es : List Edge} {v : Valuation} {j : NodeId}

theorem mem_unfoldEdges {e : Edge} : e ∈ unfoldEdges es ↔
    ∃ r ∈ partition (es.map fun e => (e.guard, e.target)), e.target ∈ r.payloads ∧
      e.guard = .cube r.cube := by
  obtain ⟨target, guard⟩ := e
  simp only [unfoldEdges, List.mem_flatMap, List.mem_map, SortedSet.mem_toList]
  grind

theorem exists_mem_unfoldEdges_iff : (∃ e ∈ unfoldEdges es, e.target = j ∧ e.guard.holds v = true) ↔
    ∃ e ∈ es, e.target = j ∧ e.guard.holds v = true := by
  have hdiv := Region.divides_partition (es.map fun e => (e.guard, e.target))
  have hitems : (∃ e ∈ es, e.target = j ∧ e.guard.holds v = true) ↔
      ∃ i ∈ es.map (fun e => (e.guard, e.target)), i.2 = j ∧ i.1.holds v = true := by
    simp
  rw [hitems]
  constructor
  · rintro ⟨e, he, rfl, hv⟩
    obtain ⟨r, hr, hmem, hguard⟩ := mem_unfoldEdges.mp he
    rw [hguard, Guard.holds_cube] at hv
    exact (hdiv.mem_payloads_iff_holds hr hv).mp hmem
  · rintro ⟨i, hi, hij, hv⟩
    obtain ⟨r, hr, hvr⟩ := hdiv.covered i hi v hv
    have hmem : j ∈ r.payloads := (hdiv.mem_payloads_iff_holds hr hvr).mpr ⟨i, hi, hij, hv⟩
    exact ⟨⟨j, .cube r.cube⟩, mem_unfoldEdges.mpr ⟨r, hr, hmem, rfl⟩, rfl, hvr⟩

theorem exists_cube_of_mem_unfoldEdges {e : Edge} (he : e ∈ unfoldEdges es) :
    ∃ c, e.guard = .cube c ∧ Cube.isConsistent c = true := by
  obtain ⟨r, hr, -, hguard⟩ := mem_unfoldEdges.mp he
  exact ⟨r.cube, hguard, (Region.divides_partition _).isConsistent r hr⟩

/-- Edges of one region have its cube as their guard, and different regions are disjoint. -/
theorem guard_eq_or_apart_of_mem_unfoldEdges {e f : Edge} (he : e ∈ unfoldEdges es)
    (hf : f ∈ unfoldEdges es) :
    e.guard = f.guard ∨ ∀ v, ¬ (e.guard.holds v = true ∧ f.guard.holds v = true) := by
  obtain ⟨r, hr, -, her⟩ := mem_unfoldEdges.mp he
  obtain ⟨s, hs, -, hfs⟩ := mem_unfoldEdges.mp hf
  rw [her, hfs]
  by_cases hrs : r = s
  · exact .inl (congrArg (Guard.cube ·.cube) hrs)
  · right
    have hsymm : Std.Symm fun r s : Region NodeId => Cube.Apart r.cube s.cube :=
      ⟨fun _ _ => Cube.Apart.symm⟩
    exact (Region.divides_partition _).apart.forall hr hs hrs

/-- Unfolding keeps the steps at every valuation. -/
theorem Graph.step_unfold {κ : Type} {g : Graph κ} {i : NodeId} :
    g.unfold.Step v i j ↔ g.Step v i j := by
  unfold Graph.Step Graph.unfold
  rw [Graph.edgesOf_mapEdges rfl]
  exact exists_mem_unfoldEdges_iff

end Unfold

/-! ### Simplifying -/

namespace Cube

variable {c d e : Cube} {cs : List Cube} {v : Valuation}

theorem mem_dropImplied : c ∈ dropImplied cs ↔ c ∈ cs ∧ ∀ d ∈ cs, d ⊆ c → d = c := by
  simp only [dropImplied, List.mem_filter, Bool.not_eq_true', List.any_eq_false,
    Bool.and_eq_true, bne_iff_ne, implies_iff]
  grind

/-- Dropping implied cubes keeps the valuations: the smallest cubes stay. -/
theorem exists_mem_dropImplied_iff :
    (∃ c ∈ dropImplied cs, Cube.holds v c = true) ↔ ∃ c ∈ cs, Cube.holds v c = true := by
  constructor
  · rintro ⟨c, hc, hv⟩
    exact ⟨c, (mem_dropImplied.mp hc).1, hv⟩
  · rintro ⟨c, hc, hv⟩
    -- a dropped cube is implied by a smaller one, so the descent ends in a cube that stays
    induction hn : c.size using Nat.strong_induction_on generalizing c with
    | _ n ih =>
      by_cases hkept : c ∈ dropImplied cs
      · exact ⟨c, hkept, hv⟩
      · obtain ⟨d, hd, hsub, hne⟩ : ∃ d ∈ cs, d ⊆ c ∧ d ≠ c := by
          simpa [mem_dropImplied, hc] using hkept
        have hlt : d.size < n := hn ▸ SortedSet.size_lt_of_subset_of_ne hsub hne
        exact ih d.size hlt d hd (holds_of_subset hsub hv) rfl

theorem filter_eq_singleton_iff {l : Literal} :
    c.toList.filter (fun m => !d.contains m) = [l] ↔ ∀ m, m ∈ c ∧ ¬ m ∈ d ↔ m = l := by
  have hmem : ∀ m, m ∈ c.toList.filter (fun m => !d.contains m) ↔ m ∈ c ∧ ¬ m ∈ d := by
    intro m
    rw [List.mem_filter, SortedSet.mem_toList]
    simp [← SortedSet.contains_iff]
  have hnodup : (c.toList.filter fun m => !d.contains m).Nodup := c.nodup_toList.filter _
  rw [← List.perm_singleton, List.perm_ext_iff_of_nodup hnodup (List.nodup_singleton l)]
  simp only [hmem, List.mem_singleton]

/-- Two cubes that are joined differ in the sign of one literal. -/
theorem joinAdjacent_eq_some (h : joinAdjacent c d = some e) :
    ∃ l, l ∈ c ∧ l.negated ∈ d ∧ (∀ m ∈ c, m ≠ l → m ∈ d) ∧
      (∀ m ∈ d, m ≠ l.negated → m ∈ c ∧ m ≠ l) ∧ e = c.erase l := by
  unfold joinAdjacent at h
  split at h
  · split at h
    · rename_i l m hl hm
      split at h
      · rename_i hname
        have hcl := filter_eq_singleton_iff.mp hl
        have hdm := filter_eq_singleton_iff.mp hm
        have hlc := (hcl l).mpr rfl
        have hmd := (hdm m).mpr rfl
        -- the two literals have one name and are different, so they are opposite
        have hneg : m = l.negated := by
          have hne : m ≠ l := fun hml => hmd.2 (hml ▸ hlc.1)
          obtain ⟨n, p⟩ := l
          obtain ⟨n', p'⟩ := m
          obtain rfl : n = n' := hname
          cases p <;> cases p' <;> simp_all [Literal.negated]
        subst hneg
        refine ⟨l, hlc.1, hmd.1, fun x hx hxl => ?_, fun x hx hxl => ⟨?_, ?_⟩, ?_⟩
        · by_contra hxd
          exact hxl ((hcl x).mp ⟨hx, hxd⟩)
        · by_contra hxc
          exact hxl ((hdm x).mp ⟨hx, hxc⟩)
        · rintro rfl
          exact hlc.2 hx
        · simpa using h.symm
      · simp at h
    · simp at h
  · simp at h

/-- The joined cube is satisfied exactly when one of the two is. -/
theorem holds_joinAdjacent (h : joinAdjacent c d = some e) :
    Cube.holds v e = true ↔ Cube.holds v c = true ∨ Cube.holds v d = true := by
  obtain ⟨l, hlc, hld, hcd, hdc, rfl⟩ := joinAdjacent_eq_some h
  simp only [holds_iff, SortedSet.mem_erase]
  constructor
  · intro hv
    -- the erased literal decides which of the two cubes is met
    by_cases hl : l.holds v = true
    · left
      intro m hm
      by_cases hml : m = l
      · exact hml ▸ hl
      · exact hv m ⟨hm, hml⟩
    · right
      intro m hm
      by_cases hml : m = l.negated
      · rw [hml, Literal.holds_negated]
        exact hl
      · exact hv m (hdc m hm hml)
  · rintro (hv | hv) m ⟨hm, hml⟩
    · exact hv m hm
    · exact hv m (hcd m hm hml)

theorem findJoint_eq_some {j : Joint} (h : findJoint cs = some j) :
    j.fst ∈ cs ∧ j.snd ∈ cs ∧ joinAdjacent j.fst j.snd = some j.joined := by
  induction cs with
  | nil => simp [findJoint] at h
  | cons c cs ih =>
    unfold findJoint at h
    split at h
    · rename_i k hk
      obtain ⟨d, hd, hj⟩ := List.exists_of_findSome?_eq_some hk
      obtain ⟨e, he, rfl⟩ := Option.map_eq_some_iff.mp hj
      obtain rfl := Option.some_inj.mp h
      exact ⟨List.mem_cons_self, List.mem_cons_of_mem _ hd, he⟩
    · obtain ⟨hf, hs, hj⟩ := ih h
      exact ⟨List.mem_cons_of_mem _ hf, List.mem_cons_of_mem _ hs, hj⟩

theorem mem_apply {j : Joint} :
    c ∈ j.apply cs ↔ (c ∈ cs ∧ c ≠ j.fst ∧ c ≠ j.snd) ∨ c = j.joined := by
  simp only [Joint.apply]
  split
  · rename_i hj
    simp only [List.contains_iff_mem, List.mem_filter, Bool.and_eq_true, bne_iff_ne] at hj ⊢
    exact ⟨.inl, fun hc => hc.elim id fun heq => heq ▸ hj⟩
  · simp

theorem exists_mem_apply_iff {j : Joint} (h : findJoint cs = some j) :
    (∃ c ∈ j.apply cs, Cube.holds v c = true) ↔ ∃ c ∈ cs, Cube.holds v c = true := by
  obtain ⟨hfst, hsnd, hjoin⟩ := findJoint_eq_some h
  have hjoined := holds_joinAdjacent (v := v) hjoin
  constructor
  · rintro ⟨c, hc, hv⟩
    rcases mem_apply.mp hc with ⟨hc, -⟩ | rfl
    · exact ⟨c, hc, hv⟩
    · exact (hjoined.mp hv).elim (fun hv => ⟨_, hfst, hv⟩) fun hv => ⟨_, hsnd, hv⟩
  · rintro ⟨c, hc, hv⟩
    by_cases hcj : c = j.fst ∨ c = j.snd
    · refine ⟨j.joined, mem_apply.mpr (.inr rfl), hjoined.mpr ?_⟩
      rcases hcj with rfl | rfl
      · exact .inl hv
      · exact .inr hv
    · rw [not_or] at hcj
      exact ⟨c, mem_apply.mpr (.inl ⟨hc, hcj⟩), hv⟩

theorem exists_mem_mergeRounds_iff (fuel : Nat) :
    (∃ c ∈ mergeRounds fuel cs, Cube.holds v c = true) ↔ ∃ c ∈ cs, Cube.holds v c = true := by
  induction fuel generalizing cs with
  | zero => rfl
  | succ fuel ih =>
    simp only [mergeRounds]
    split
    · rename_i j hj
      rw [ih, exists_mem_apply_iff hj, exists_mem_dropImplied_iff]
    · exact exists_mem_dropImplied_iff

/-- Merged cubes are satisfied by the same valuations. -/
theorem exists_mem_merge_iff :
    (∃ c ∈ merge cs, Cube.holds v c = true) ↔ ∃ c ∈ cs, Cube.holds v c = true := by
  unfold merge
  rw [exists_mem_mergeRounds_iff]
  simp only [SortedSet.mem_toList, SortedSet.mem_ofList, List.mem_filter]
  constructor
  · rintro ⟨c, ⟨hc, -⟩, hv⟩
    exact ⟨c, hc, hv⟩
  · -- the cubes left out are met by no valuation
    rintro ⟨c, hc, hv⟩
    exact ⟨c, ⟨hc, isConsistent_of_holds hv⟩, hv⟩

end Cube

section Simplify

variable {es : List Edge} {v : Valuation} {j : NodeId}

theorem mem_cubesTo {c : Cube} : c ∈ cubesTo es j ↔ ⟨j, .cube c⟩ ∈ es := by
  simp only [cubesTo, List.mem_filterMap]
  constructor
  · rintro ⟨⟨target, guard⟩, he, hc⟩
    cases guard with
    | never => simp at hc
    | cube d =>
      simp only [Option.ite_none_right_eq_some, Option.some_inj] at hc
      obtain ⟨rfl, rfl⟩ := hc
      exact he
  · intro he
    exact ⟨_, he, by simp⟩

theorem mem_simplifyEdges {e : Edge} : e ∈ simplifyEdges es ↔
    ∃ c ∈ Cube.merge (cubesTo es e.target), e.guard = .cube c := by
  obtain ⟨target, guard⟩ := e
  simp only [simplifyEdges, List.mem_flatMap, List.mem_eraseDups, List.mem_map, List.mem_filter]
  constructor
  · rintro ⟨_, _, c, hc, heq⟩
    cases heq
    exact ⟨c, hc, rfl⟩
  · rintro ⟨c, hc, rfl⟩
    -- a target without cubes has no merged ones
    obtain ⟨d, hd⟩ : ∃ d, d ∈ cubesTo es target := by
      by_contra hnone
      rw [List.eq_nil_iff_forall_not_mem.mpr fun d hd => hnone ⟨d, hd⟩] at hc
      exact List.not_mem_nil hc
    exact ⟨target, ⟨_, ⟨mem_cubesTo.mp hd, rfl⟩, rfl⟩, c, hc, rfl⟩

theorem exists_mem_simplifyEdges_iff :
    (∃ e ∈ simplifyEdges es, e.target = j ∧ e.guard.holds v = true) ↔
      ∃ e ∈ es, e.target = j ∧ e.guard.holds v = true := by
  have hmerged : (∃ e ∈ simplifyEdges es, e.target = j ∧ e.guard.holds v = true) ↔
      ∃ c ∈ Cube.merge (cubesTo es j), Cube.holds v c = true := by
    constructor
    · rintro ⟨⟨target, guard⟩, he, rfl, hv⟩
      obtain ⟨c, hc, rfl⟩ := mem_simplifyEdges.mp he
      exact ⟨c, hc, hv⟩
    · rintro ⟨c, hc, hv⟩
      exact ⟨⟨j, .cube c⟩, mem_simplifyEdges.mpr ⟨c, hc, rfl⟩, rfl, hv⟩
  rw [hmerged, Cube.exists_mem_merge_iff]
  constructor
  · rintro ⟨c, hc, hv⟩
    exact ⟨_, mem_cubesTo.mp hc, rfl, hv⟩
  · rintro ⟨⟨target, guard⟩, he, rfl, hv⟩
    cases guard with
    | never => simp at hv
    | cube c => exact ⟨c, mem_cubesTo.mpr he, hv⟩

/-- Simplifying keeps the steps at every valuation. -/
theorem Graph.step_simplify {κ : Type} {g : Graph κ} {i : NodeId} :
    g.simplify.Step v i j ↔ g.Step v i j := by
  unfold Graph.Step Graph.simplify
  rw [Graph.edgesOf_mapEdges rfl]
  exact exists_mem_simplifyEdges_iff

end Simplify

/-! ### Both rewrites -/

namespace Graph

variable {κ : Type}

/-- What a graph says about its nodes apart from their edges. -/
def withoutEdges (g : Graph κ) : Graph κ :=
  ⟨g.nodes.map fun n => { n with edges := [] }, g.initial⟩

theorem withoutEdges_mapEdges (g : Graph κ) (f : List Edge → List Edge) :
    (g.mapEdges f).withoutEdges = g.withoutEdges := by
  simp [withoutEdges, mapEdges, Function.comp_def]

theorem post_congr {g h : Graph κ} {v : Valuation} {i : NodeId}
    (hstep : ∀ j, g.Step v i j ↔ h.Step v i j) :
    g.post (Guard.holds v) i = h.post (Guard.holds v) i := by
  ext j
  rw [mem_post_holds, mem_post_holds, hstep]

/-- Both rewrites keep the nodes, the initial node and the successors of every node at every
valuation. Unfolding leaves consistent cubes as guards, and two guards of one node are the same or
have no valuation in common. -/
theorem post_unfold_and_simplify (g : Graph κ) :
    g.unfold.withoutEdges = g.withoutEdges ∧ g.simplify.withoutEdges = g.withoutEdges ∧
      ∀ i,
        (∀ v, g.unfold.post (Guard.holds v) i = g.post (Guard.holds v) i ∧
          g.simplify.post (Guard.holds v) i = g.post (Guard.holds v) i) ∧
        ∀ e ∈ g.unfold.edgesOf i,
          (∃ c, e.guard = .cube c ∧ Cube.isConsistent c = true) ∧
          ∀ f ∈ g.unfold.edgesOf i,
            e.guard = f.guard ∨ ∀ v, ¬ (e.guard.holds v = true ∧ f.guard.holds v = true) := by
  refine ⟨g.withoutEdges_mapEdges unfoldEdges, g.withoutEdges_mapEdges simplifyEdges,
    fun i => ⟨fun v => ⟨?_, ?_⟩, fun e he => ?_⟩⟩
  · exact post_congr fun _ => step_unfold
  · exact post_congr fun _ => step_simplify
  · have hedges : g.unfold.edgesOf i = unfoldEdges (g.edgesOf i) := edgesOf_mapEdges rfl
    rw [hedges] at he ⊢
    exact ⟨exists_cube_of_mem_unfoldEdges he, fun f hf =>
      guard_eq_or_apart_of_mem_unfoldEdges he hf⟩

/-- A node with two edges whose guards overlap, a contradictory one and one that is never taken. -/
def overlappingEdges : Graph Unit :=
  ⟨#[⟨"a", ∅, (), [⟨1, .cube {⟨"p", true⟩}⟩, ⟨0, .cube {⟨"q", true⟩}⟩,
      ⟨1, .cube {⟨"q", true⟩, ⟨"q", false⟩}⟩, ⟨0, .never⟩]⟩, ⟨"b", ∅, (), []⟩], some 0⟩

theorem post_unfold_overlappingEdges :
    (∀ v, overlappingEdges.unfold.post (Guard.holds v) 0 =
      overlappingEdges.post (Guard.holds v) 0) ∧
    ∃ e f, e ∈ overlappingEdges.unfold.edgesOf 0 ∧ f ∈ overlappingEdges.unfold.edgesOf 0 ∧
      e.guard ≠ f.guard ∧ ∀ v, ¬ (e.guard.holds v = true ∧ f.guard.holds v = true) := by
  obtain ⟨hpost, hguards⟩ := (post_unfold_and_simplify overlappingEdges).2.2 0
  let e : Edge := ⟨0, .cube {⟨"p", true⟩, ⟨"q", true⟩}⟩
  let f : Edge := ⟨1, .cube {⟨"p", true⟩, ⟨"q", false⟩}⟩
  have he : e ∈ overlappingEdges.unfold.edgesOf 0 := by decide +kernel
  have hf : f ∈ overlappingEdges.unfold.edgesOf 0 := by decide +kernel
  have hne : e.guard ≠ f.guard := by decide
  exact ⟨fun v => (hpost v).1, e, f, he, hf, hne, ((hguards e he).2 f hf).resolve_left hne⟩

end Graph

/-! ### Determinism -/

theorem Edge.compatible_iff {e f : Edge} : e.compatible f = true ↔
    e.target = f.target ∨ ∀ v, ¬ (e.guard.holds v = true ∧ f.guard.holds v = true) := by
  rw [compatible, Bool.or_eq_true, beq_iff_eq, Guard.isDisjointFrom_iff]

/-- The test for determinism is passed exactly when no valuation leads from a node to two others. -/
theorem Graph.isDeterministic_iff {κ : Type} {g : Graph κ} :
    g.isDeterministic = true ↔ ∀ v i j k, g.Step v i j → g.Step v i k → j = k := by
  simp only [isDeterministic, Array.all_eq_true_iff_forall_mem, decide_eq_true_eq]
  constructor
  · rintro h v i j k ⟨e, he, rfl, hev⟩ ⟨f, hf, rfl, hfv⟩
    obtain ⟨n, hn⟩ : ∃ n, g.nodes[(i : Nat)]? = some n :=
      ⟨_, Array.getElem?_eq_getElem (lt_size_of_mem_edgesOf he)⟩
    have hedges : g.edgesOf i = n.edges := by rw [edgesOf, hn]
    -- the list says it of an earlier and a later edge, in this order only
    have hsymm : Std.Symm fun e f : Edge => e.compatible f = true := by
      refine ⟨fun e f hef => ?_⟩
      rw [Edge.compatible_iff] at hef ⊢
      exact hef.imp Eq.symm fun hdisjoint v hv => hdisjoint v hv.symm
    rw [hedges] at he hf
    have hcompatible : e.compatible f = true :=
      (h n (Array.mem_of_getElem? hn)).forall_of_forall
        (fun e _ => Edge.compatible_iff.mpr (.inl rfl)) he hf
    exact (Edge.compatible_iff.mp hcompatible).resolve_right fun hdisjoint =>
      hdisjoint v ⟨hev, hfv⟩
  · intro h n hn
    obtain ⟨i, hi⟩ := Array.mem_iff_getElem?.mp hn
    have hedges : g.edgesOf i = n.edges := by rw [edgesOf, hi]
    refine List.pairwise_of_forall_mem_list fun e he f hf => Edge.compatible_iff.mpr ?_
    rw [← hedges] at he hf
    by_cases htarget : e.target = f.target
    · exact .inl htarget
    · exact .inr fun v hv => htarget (h v i _ _ ⟨e, he, rfl, hv.1⟩ ⟨f, hf, rfl, hv.2⟩)

/-- The test for determinism, which looks at pairs of guards, is passed exactly when every node has
at most one successor at every valuation. -/
theorem Graph.isDeterministic_iff_size_post_le {κ : Type} (g : Graph κ) :
    g.isDeterministic = true ↔ ∀ i < g.size, ∀ v, (g.post (Guard.holds v) i).size ≤ 1 := by
  simp only [isDeterministic_iff, SortedSet.size_le_one_iff, mem_post_holds]
  constructor
  · intro h i _ v j k hj hk
    exact h v i j k hj hk
  · -- only the nodes of the graph have successors
    intro h v i j k hj hk
    exact h i hj.lt_size v j k hj hk

end TemporalMonitor
