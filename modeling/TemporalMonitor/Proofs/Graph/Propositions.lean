import TemporalMonitor.Proofs.Graph.Unfolding

/-!
# The propositions of guards

What a guard says depends on the propositions in it only, and neither way of changing the edges of a
node brings in new ones: cutting cubes into disjoint pieces uses the literals of those cubes and
their opposites, and merging cubes only takes literals away.

## Main definitions

* `Guard.propositions`, `Graph.propositions` — the propositions in guards
* `Valuation.AgreeOn` — having the same values for some propositions

## Main results

* `Region.propositions_subset_of_mem_partition` — the regions of guards
* `Cube.exists_subset_of_mem_merge` — merged cubes are parts of cubes
* `Graph.propositions_unfold_subset`, `Graph.propositions_simplify_subset`
* `Graph.post_eq_of_agreeOn` — valuations that agree on the propositions lead to the same nodes
-/

namespace TemporalMonitor

variable {ps : SortedSet String} {v w : Valuation}

/-- The valuations give the same values to the propositions of the set. -/
def Valuation.AgreeOn (ps : SortedSet String) (v w : Valuation) : Prop :=
  ∀ name ∈ ps, v name = w name

/-! ### Cubes -/

namespace Cube

variable {c d e : Cube} {l : Literal}

theorem propositions_subset_iff : Cube.propositions c ⊆ ps ↔ ∀ l ∈ c, l.name ∈ ps := by
  simp [SortedSet.subset_iff, propositions]

theorem propositions_insert_subset_iff :
    Cube.propositions (insert l c) ⊆ ps ↔ l.name ∈ ps ∧ Cube.propositions c ⊆ ps := by
  simp [propositions_subset_iff]

theorem propositions_union_subset_iff : Cube.propositions (c ∪ d) ⊆ ps ↔
    Cube.propositions c ⊆ ps ∧ Cube.propositions d ⊆ ps := by
  simp [propositions_subset_iff, or_imp, forall_and]

theorem propositions_subset_of_subset (hcd : c ⊆ d) (hd : Cube.propositions d ⊆ ps) :
    Cube.propositions c ⊆ ps :=
  propositions_subset_iff.mpr fun l hl => propositions_subset_iff.mp hd l (hcd l hl)

theorem holds_eq_of_agreeOn (hc : Cube.propositions c ⊆ ps) (h : Valuation.AgreeOn ps v w) :
    Cube.holds v c = Cube.holds w c := by
  rw [Bool.eq_iff_iff, holds_iff, holds_iff]
  refine forall₂_congr fun l hl => ?_
  rw [Literal.holds_iff, Literal.holds_iff, h l.name (propositions_subset_iff.mp hc l hl)]

/-- A piece is made of literals of the cube, of granted literals and of the opposite of a denied
one. -/
theorem propositions_subset_of_mem_denials {ls : List Literal} (hc : Cube.propositions c ⊆ ps)
    (hls : ∀ l ∈ ls, l.name ∈ ps) (he : e ∈ denials c ls) : Cube.propositions e ⊆ ps := by
  -- the cube grows by the literals that are granted, so it varies along the list
  induction ls generalizing c with
  | nil => cases he
  | cons l ls ih =>
    obtain ⟨hl, hls⟩ := List.forall_mem_cons.mp hls
    unfold denials at he
    split at he
    · exact ih hc hls he
    · rcases List.mem_cons.mp he with rfl | he
      · exact propositions_insert_subset_iff.mpr ⟨hl, hc⟩
      · exact ih (propositions_insert_subset_iff.mpr ⟨hl, hc⟩) hls he

theorem propositions_subset_of_mem_difference (hc : Cube.propositions c ⊆ ps)
    (hd : Cube.propositions d ⊆ ps) (he : e ∈ difference c d) : Cube.propositions e ⊆ ps := by
  unfold difference at he
  split at he
  · exact propositions_subset_of_mem_denials hc (propositions_subset_iff.mp hd) he
  · obtain rfl := List.mem_singleton.mp he
    exact hc

end Cube

/-! ### Guards -/

namespace Guard

/-- The names of the propositions in a guard. -/
def propositions : Guard → SortedSet String
  | .cube c => Cube.propositions c
  | .never => ∅

theorem propositions_ofCube_subset {c : Cube} (hc : Cube.propositions c ⊆ ps) :
    (ofCube c).propositions ⊆ ps := by
  unfold ofCube
  split
  · exact hc
  · exact fun name h => absurd h SortedSet.notMem_empty

theorem holds_eq_of_agreeOn {g : Guard} (hg : g.propositions ⊆ ps)
    (h : Valuation.AgreeOn ps v w) : g.holds v = g.holds w := by
  cases g with
  | cube c => exact Cube.holds_eq_of_agreeOn hg h
  | never => rfl

end Guard

/-! ### Regions -/

namespace Region

variable {α : Type} [Ord α] [Std.LawfulEqOrd α] [Std.TransOrd α]

theorem propositions_subset_of_mem_overlay {c : Cube} {p : α} {rs : List (Region α)}
    {rest : List Cube} (hc : Cube.propositions c ⊆ ps)
    (hrs : ∀ r ∈ rs, Cube.propositions r.cube ⊆ ps)
    (hrest : ∀ d ∈ rest, Cube.propositions d ⊆ ps) :
    ∀ r ∈ overlay c p rs rest, Cube.propositions r.cube ⊆ ps := by
  induction rs generalizing rest with
  | nil =>
    intro r hr
    obtain ⟨d, hd, rfl⟩ := List.mem_map.mp hr
    exact hrest d hd
  | cons s rs ih =>
    obtain ⟨hs, hrs⟩ := List.forall_mem_cons.mp hrs
    unfold overlay
    split
    · -- what is left of the cube loses the region, and the region is split along the cube
      have hcut : ∀ d ∈ rest.flatMap (fun d => Cube.difference d s.cube),
          Cube.propositions d ⊆ ps := by
        intro d hd
        obtain ⟨e, he, hde⟩ := List.mem_flatMap.mp hd
        exact Cube.propositions_subset_of_mem_difference (hrest e he) hs hde
      intro r hr
      rcases List.mem_append.mp hr with hr | hr
      · obtain ⟨d, hd, rfl⟩ := List.mem_map.mp hr
        exact Cube.propositions_subset_of_mem_difference hs hc hd
      · rcases List.mem_cons.mp hr with rfl | hr
        · exact Cube.propositions_union_subset_iff.mpr ⟨hs, hc⟩
        · exact ih hrs hcut r hr
    · exact List.forall_mem_cons.mpr ⟨hs, ih hrs hrest⟩

theorem propositions_subset_of_mem_add {guard : Guard} {p : α} {rs : List (Region α)}
    (hguard : guard.propositions ⊆ ps) (hrs : ∀ r ∈ rs, Cube.propositions r.cube ⊆ ps) :
    ∀ r ∈ add rs (guard, p), Cube.propositions r.cube ⊆ ps := by
  cases guard with
  | never => exact hrs
  | cube c =>
    simp only [add]
    split
    · refine propositions_subset_of_mem_overlay hguard hrs fun d hd => ?_
      obtain rfl := List.mem_singleton.mp hd
      exact hguard
    · exact hrs

/-- The regions of guards mention no other propositions than the guards. -/
theorem propositions_subset_of_mem_partition {items : List (Guard × α)}
    (h : ∀ i ∈ items, i.1.propositions ⊆ ps) :
    ∀ r ∈ partition items, Cube.propositions r.cube ⊆ ps := by
  let I (_ : List (Guard × α)) (rs : List (Region α)) : Prop :=
    ∀ r ∈ rs, Cube.propositions r.cube ⊆ ps
  refine foldl_invariant (I := I) (fun r hr => absurd hr List.not_mem_nil) ?_
  rintro done i rest rs rfl hrs
  exact propositions_subset_of_mem_add (h i (by simp)) hrs

end Region

/-! ### Merging -/

namespace Cube

variable {c : Cube} {cs : List Cube}

theorem exists_subset_of_mem_mergeRounds {fuel : Nat} (hc : c ∈ mergeRounds fuel cs) :
    ∃ d ∈ cs, c ⊆ d := by
  induction fuel generalizing cs with
  | zero => exact ⟨c, hc, fun l hl => hl⟩
  | succ fuel ih =>
    simp only [mergeRounds] at hc
    split at hc
    · rename_i j hj
      obtain ⟨d, hd, hcd⟩ := ih hc
      rcases mem_apply.mp hd with ⟨hd, -⟩ | rfl
      · exact ⟨d, (mem_dropImplied.mp hd).1, hcd⟩
      · -- the joined cube is the first of the two without one of its literals
        obtain ⟨hfst, -, hjoin⟩ := findJoint_eq_some hj
        obtain ⟨l, -, -, -, -, heq⟩ := joinAdjacent_eq_some hjoin
        rw [heq] at hcd
        exact ⟨j.fst, (mem_dropImplied.mp hfst).1,
          fun m hm => (SortedSet.mem_erase.mp (hcd m hm)).1⟩
    · exact ⟨c, (mem_dropImplied.mp hc).1, fun l hl => hl⟩

/-- A merged cube is part of one of the cubes. -/
theorem exists_subset_of_mem_merge (hc : c ∈ merge cs) : ∃ d ∈ cs, c ⊆ d := by
  obtain ⟨d, hd, hcd⟩ := exists_subset_of_mem_mergeRounds hc
  rw [SortedSet.mem_toList, SortedSet.mem_ofList, List.mem_filter] at hd
  exact ⟨d, hd.1, hcd⟩

end Cube

/-! ### Edges and graphs -/

theorem propositions_subset_of_mem_unfoldEdges {es : List Edge} {e : Edge}
    (h : ∀ e ∈ es, e.guard.propositions ⊆ ps) (he : e ∈ unfoldEdges es) :
    e.guard.propositions ⊆ ps := by
  obtain ⟨r, hr, -, hguard⟩ := mem_unfoldEdges.mp he
  rw [hguard]
  refine Region.propositions_subset_of_mem_partition (fun i hi => ?_) r hr
  obtain ⟨e, he, rfl⟩ := List.mem_map.mp hi
  exact h e he

theorem propositions_subset_of_mem_simplifyEdges {es : List Edge} {e : Edge}
    (h : ∀ e ∈ es, e.guard.propositions ⊆ ps) (he : e ∈ simplifyEdges es) :
    e.guard.propositions ⊆ ps := by
  obtain ⟨c, hc, hguard⟩ := mem_simplifyEdges.mp he
  obtain ⟨d, hd, hcd⟩ := Cube.exists_subset_of_mem_merge hc
  rw [hguard]
  exact Cube.propositions_subset_of_subset hcd (h _ (mem_cubesTo.mp hd))

namespace Graph

variable {κ : Type} {g : Graph κ} {i : NodeId}

/-- The names of the propositions in the guards of a graph. -/
def propositions (g : Graph κ) : SortedSet String :=
  .ofList (g.transitions.flatMap fun t => t.edge.guard.propositions.toList)

theorem propositions_subset_iff :
    g.propositions ⊆ ps ↔ ∀ i, ∀ e ∈ g.edgesOf i, e.guard.propositions ⊆ ps := by
  simp only [SortedSet.subset_iff, propositions, SortedSet.mem_ofList, List.mem_flatMap,
    SortedSet.mem_toList]
  constructor
  · intro h i e he name hname
    exact h name ⟨⟨i, e⟩, mem_transitions he, hname⟩
  · rintro h name ⟨t, ht, hname⟩
    obtain ⟨i, -, ht⟩ := List.mem_flatMap.mp ht
    obtain ⟨e, he, rfl⟩ := List.mem_map.mp ht
    exact h i e he name hname

theorem propositions_subset_of_mem_edgesOf {e : Edge} (he : e ∈ g.edgesOf i) :
    e.guard.propositions ⊆ g.propositions :=
  propositions_subset_iff.mp (fun _ h => h) i e he

theorem propositions_unfold_subset (g : Graph κ) : g.unfold.propositions ⊆ g.propositions := by
  refine propositions_subset_iff.mpr fun i e he => ?_
  have hedges : g.unfold.edgesOf i = unfoldEdges (g.edgesOf i) := edgesOf_mapEdges rfl
  rw [hedges] at he
  exact propositions_subset_of_mem_unfoldEdges (fun e => propositions_subset_of_mem_edgesOf) he

theorem propositions_simplify_subset (g : Graph κ) :
    g.simplify.propositions ⊆ g.propositions := by
  refine propositions_subset_iff.mpr fun i e he => ?_
  have hedges : g.simplify.edgesOf i = simplifyEdges (g.edgesOf i) := edgesOf_mapEdges rfl
  rw [hedges] at he
  exact propositions_subset_of_mem_simplifyEdges (fun e => propositions_subset_of_mem_edgesOf) he

/-- Valuations that agree on the propositions in the guards lead to the same nodes. -/
theorem post_eq_of_agreeOn (hg : g.propositions ⊆ ps) (h : Valuation.AgreeOn ps v w)
    (i : NodeId) : g.post (Guard.holds v) i = g.post (Guard.holds w) i := by
  ext j
  rw [mem_post, mem_post]
  refine exists_congr fun e => and_congr_right fun he => ?_
  rw [Guard.holds_eq_of_agreeOn (propositions_subset_iff.mp hg i e he) h]

end Graph

end TemporalMonitor
