import Mathlib.Algebra.BigOperators.Group.List.Lemmas
import Mathlib.Algebra.Order.BigOperators.Group.List
import Mathlib.Algebra.Order.Ring.Nat
import TemporalMonitor.Proofs.Graph.Unfolding

/-!
# The normal form of simplified edges

Merging alternates between dropping cubes that ask for more than another one and joining two cubes
that differ in the sign of one literal. Every join shortens the list, so the rounds end, and they
end where nothing can be dropped or joined. A list of that kind is left alone by another merge, so
simplifying twice is no different from simplifying once, up to the order of the edges.

## Main definitions

* `Cube.MergesTo` — the rounds of merging, without a bound on their number
* `Cube.Reduced` — nothing can be dropped or joined
* `Simplified` — the same for edges, parallel ones being compared

## Main results

* `Cube.mergesTo_merge`, `Cube.reduced_merge` — merging ends in a reduced list
* `Cube.mem_merge_of_reduced` — merging keeps what a reduced list holds
* `simplified_simplifyEdges`, `length_simplifyEdges_le`, `perm_simplifyEdges_simplifyEdges`
-/

namespace TemporalMonitor

namespace Cube

variable {c d e : Cube} {cs ds : List Cube} {l : Literal}

/-! ### Adjacent cubes -/

/-- The cubes differ in the sign of one literal and agree in the rest. -/
def Adjacent (c d : Cube) : Prop := ∃ e l, c = insert l e ∧ d = insert l.negated e

theorem Adjacent.symm (h : Adjacent c d) : Adjacent d c := by
  obtain ⟨e, l, rfl, rfl⟩ := h
  exact ⟨e, l.negated, rfl, by rw [Literal.negated_negated]⟩

theorem joinAdjacent_insert (hl : ¬ l ∈ e) (hneg : ¬ l.negated ∈ e) :
    joinAdjacent (insert l e) (insert l.negated e) = some e := by
  have hne := l.negated_ne
  have hfst : (insert l e).toList.filter (fun m => !(insert l.negated e).contains m) = [l] := by
    apply filter_eq_singleton_iff.mpr
    intro m
    simp only [SortedSet.mem_insert]
    grind
  have hsnd : (insert l.negated e).toList.filter (fun m => !(insert l e).contains m) =
      [l.negated] := by
    apply filter_eq_singleton_iff.mpr
    intro m
    simp only [SortedSet.mem_insert]
    grind
  have herase : (insert l e).erase l = e := by
    ext m
    simp only [SortedSet.mem_erase, SortedSet.mem_insert]
    grind
  rw [joinAdjacent, hfst, hsnd, SortedSet.size_insert hl, SortedSet.size_insert hneg]
  simp [herase, Literal.negated]

/-- Two consistent cubes are joined exactly when they are adjacent. -/
theorem adjacent_iff_exists_joinAdjacent (hc : Cube.isConsistent c = true)
    (hd : Cube.isConsistent d = true) : Adjacent c d ↔ ∃ e, joinAdjacent c d = some e := by
  constructor
  · rintro ⟨e, l, rfl, rfl⟩
    -- with one of the two literals in the common part, one of the cubes would have both
    have hl : ¬ l ∈ e := fun hl => isConsistent_iff.mp hd l
      (SortedSet.mem_insert.mpr (.inr hl)) (SortedSet.mem_insert.mpr (.inl rfl))
    have hneg : ¬ l.negated ∈ e := fun hneg => isConsistent_iff.mp hc l
      (SortedSet.mem_insert.mpr (.inl rfl)) (SortedSet.mem_insert.mpr (.inr hneg))
    exact ⟨e, joinAdjacent_insert hl hneg⟩
  · rintro ⟨e, he⟩
    obtain ⟨l, hlc, hld, hcd, hdc, -⟩ := joinAdjacent_eq_some he
    refine ⟨c.erase l, l, ?_, ?_⟩
    · ext m
      simp only [SortedSet.mem_insert, SortedSet.mem_erase]
      grind
    · ext m
      simp only [SortedSet.mem_insert, SortedSet.mem_erase]
      grind

theorem joinAdjacent_self (c : Cube) : joinAdjacent c c = none := by
  cases h : joinAdjacent c c with
  | none => rfl
  | some e =>
    obtain ⟨l, hlc, -, -, hdc, -⟩ := joinAdjacent_eq_some h
    exact absurd rfl (hdc l hlc l.negated_ne.symm).2

theorem findJoint_eq_none_iff :
    findJoint cs = none ↔ cs.Pairwise fun c d => joinAdjacent c d = none := by
  induction cs with
  | nil => simp [findJoint]
  | cons c cs ih =>
    rw [List.pairwise_cons, ← ih, findJoint]
    split
    · rename_i j hj
      obtain ⟨d, hd, hjoin⟩ := List.exists_of_findSome?_eq_some hj
      simp only [reduceCtorEq, false_iff, not_and]
      intro hnone
      simp [hnone d hd] at hjoin
    · rename_i hnone
      rw [List.findSome?_eq_none_iff] at hnone
      exact (and_iff_right fun d hd => Option.map_eq_none_iff.mp (hnone d hd)).symm

/-! ### Rounds of merging -/

/-- Different cubes, each of which can be met. -/
structure Tidy (cs : List Cube) : Prop where
  nodup : cs.Nodup
  isConsistent : ∀ c ∈ cs, Cube.isConsistent c = true

/-- Nothing can be dropped or joined: no cube asks for more than another one, and no two cubes
differ in the sign of one literal only. -/
structure Reduced (cs : List Cube) : Prop extends Tidy cs where
  eq_of_subset : ∀ c ∈ cs, ∀ d ∈ cs, c ⊆ d → c = d
  not_adjacent : ∀ c ∈ cs, ∀ d ∈ cs, ¬ Adjacent c d

theorem tidy_dropImplied (h : Tidy cs) : Tidy (dropImplied cs) where
  nodup := h.nodup.filter _
  isConsistent c hc := h.isConsistent c (List.mem_filter.mp hc).1

theorem tidy_apply {j : Joint} (h : Tidy cs) (hj : findJoint cs = some j) : Tidy (j.apply cs) where
  nodup := by
    have hkept := h.nodup.filter fun c => c != j.fst && c != j.snd
    simp only [Joint.apply]
    split
    · exact hkept
    · rename_i hnew
      refine List.nodup_append.mpr ⟨hkept, List.nodup_singleton _, fun c hc d hd => ?_⟩
      rintro rfl
      rw [List.mem_singleton.mp hd] at hc
      exact hnew (List.contains_iff_mem.mpr hc)
  isConsistent c hc := by
    rcases mem_apply.mp hc with ⟨hc, -⟩ | rfl
    · exact h.isConsistent c hc
    · -- the joined cube is part of the first of the two
      obtain ⟨hfst, -, hjoin⟩ := findJoint_eq_some hj
      obtain ⟨l, -, -, -, -, hjoined⟩ := joinAdjacent_eq_some hjoin
      refine isConsistent_of_subset (fun m hm => ?_) (h.isConsistent _ hfst)
      rw [hjoined, SortedSet.mem_erase] at hm
      exact hm.1

/-- Two cubes leave the list and at most one enters it. -/
theorem length_apply_lt {j : Joint} (hj : findJoint cs = some j) :
    (j.apply cs).length < cs.length := by
  obtain ⟨hfst, hsnd, hjoin⟩ := findJoint_eq_some hj
  have hne : j.fst ≠ j.snd := by
    intro heq
    rw [heq, joinAdjacent_self] at hjoin
    cases hjoin
  let keep : Cube → Bool := fun c => c != j.fst && c != j.snd
  have hgone : 2 ≤ (cs.filter fun c => !keep c).length := by
    have hpair : [j.fst, j.snd].Nodup := by simpa using hne
    have hsub : [j.fst, j.snd] ⊆ cs.filter fun c => !keep c := by
      simp [keep, hfst, hsnd]
    exact (hpair.subperm hsub).length_le
  have hsplit : (cs.filter keep).length + (cs.filter fun c => !keep c).length = cs.length :=
    (List.length_eq_length_filter_add keep).symm
  have hkept : (j.apply cs).length ≤ (cs.filter keep).length + 1 := by
    simp only [Joint.apply]
    split
    · exact Nat.le_succ _
    · simp [keep]
  omega

/-- What is left when no round has anything to join any more. -/
theorem reduced_dropImplied (h : Tidy cs) (hnone : findJoint (dropImplied cs) = none) :
    Reduced (dropImplied cs) where
  toTidy := tidy_dropImplied h
  eq_of_subset c hc d hd := (mem_dropImplied.mp hd).2 c (mem_dropImplied.mp hc).1
  not_adjacent c hc d hd hadj := by
    have hconsistent := (tidy_dropImplied h).isConsistent
    have hpairs : (dropImplied cs).Pairwise fun c d => ¬ Adjacent c d :=
      (findJoint_eq_none_iff.mp hnone).imp_of_mem fun {c d} hc hd hjoin => by
        rw [adjacent_iff_exists_joinAdjacent (hconsistent c hc) (hconsistent d hd), hjoin]
        simp
    -- the search looks at every pair in one order only
    have hsymm : Std.Symm fun c d : Cube => ¬ Adjacent c d := ⟨fun _ _ h h' => h h'.symm⟩
    refine hpairs.forall_of_forall (fun c hc => ?_) hc hd hadj
    rw [adjacent_iff_exists_joinAdjacent (hconsistent c hc) (hconsistent c hc), joinAdjacent_self]
    simp

/-- The rounds of merging, as many as it takes: they go on as long as two cubes can be joined. -/
inductive MergesTo : List Cube → List Cube → Prop
  | done {cs : List Cube} (h : findJoint (dropImplied cs) = none) : MergesTo cs (dropImplied cs)
  | join {cs ds : List Cube} {j : Joint} (h : findJoint (dropImplied cs) = some j)
      (hrest : MergesTo (j.apply (dropImplied cs)) ds) : MergesTo cs ds

theorem MergesTo.reduced (h : MergesTo cs ds) (hcs : Tidy cs) : Reduced ds := by
  induction h with
  | done hnone => exact reduced_dropImplied hcs hnone
  | join hj _ ih => exact ih (tidy_apply (tidy_dropImplied hcs) hj)

theorem length_round_lt {j : Joint} (hj : findJoint (dropImplied cs) = some j) :
    (j.apply (dropImplied cs)).length < cs.length :=
  (length_apply_lt hj).trans_le (List.length_filter_le _ cs)

theorem MergesTo.length_le (h : MergesTo cs ds) : ds.length ≤ cs.length := by
  induction h with
  | done _ => exact List.length_filter_le _ _
  | join hj _ ih => exact ih.trans (length_round_lt hj).le

/-- A round for every cube and one more are enough. -/
theorem mergesTo_mergeRounds {fuel : Nat} (h : cs.length < fuel) :
    MergesTo cs (mergeRounds fuel cs) := by
  induction fuel generalizing cs with
  | zero => exact absurd h (Nat.not_lt_zero _)
  | succ fuel ih =>
    simp only [mergeRounds]
    split
    · rename_i j hj
      exact .join hj (ih ((length_round_lt hj).trans_le (Nat.le_of_lt_succ h)))
    · rename_i hnone
      exact .done hnone

/-- The different consistent cubes of a list, in order. -/
def consistentCubes (cs : List Cube) : List Cube :=
  (SortedSet.ofList (cs.filter Cube.isConsistent)).toList

theorem mem_consistentCubes : c ∈ consistentCubes cs ↔ c ∈ cs ∧ Cube.isConsistent c = true := by
  rw [consistentCubes, SortedSet.mem_toList, SortedSet.mem_ofList, List.mem_filter]

theorem tidy_consistentCubes (cs : List Cube) : Tidy (consistentCubes cs) where
  nodup := SortedSet.nodup_toList _
  isConsistent _ hc := (mem_consistentCubes.mp hc).2

theorem merge_eq : merge cs = mergeRounds ((consistentCubes cs).length + 1) (consistentCubes cs) :=
  rfl

theorem mergesTo_merge (cs : List Cube) : MergesTo (consistentCubes cs) (merge cs) :=
  mergesTo_mergeRounds (Nat.lt_succ_self _)

theorem reduced_merge (cs : List Cube) : Reduced (merge cs) :=
  (mergesTo_merge cs).reduced (tidy_consistentCubes cs)

theorem length_merge_le (cs : List Cube) : (merge cs).length ≤ cs.length :=
  calc (merge cs).length
    _ ≤ (consistentCubes cs).length := (mergesTo_merge cs).length_le
    _ ≤ (cs.filter Cube.isConsistent).length := SortedSet.size_ofList_le _
    _ ≤ cs.length := List.length_filter_le _ _

/-! ### Merging again -/

theorem Reduced.congr (h : Reduced cs) (hds : ds.Nodup) (hmem : ∀ c, c ∈ ds ↔ c ∈ cs) :
    Reduced ds where
  nodup := hds
  isConsistent c hc := h.isConsistent c ((hmem c).mp hc)
  eq_of_subset c hc d hd := h.eq_of_subset c ((hmem c).mp hc) d ((hmem d).mp hd)
  not_adjacent c hc d hd := h.not_adjacent c ((hmem c).mp hc) d ((hmem d).mp hd)

theorem Reduced.mergeRounds_eq (h : Reduced cs) (fuel : Nat) : mergeRounds (fuel + 1) cs = cs := by
  have hkept : dropImplied cs = cs := by
    apply List.filter_eq_self.mpr
    intro c hc
    exact (List.mem_filter.mp (mem_dropImplied.mpr ⟨hc, fun d hd => h.eq_of_subset d hd c hc⟩)).2
  have hnone : findJoint cs = none := by
    cases hj : findJoint cs with
    | none => rfl
    | some j =>
      obtain ⟨hfst, hsnd, hjoin⟩ := findJoint_eq_some hj
      have hadj := (adjacent_iff_exists_joinAdjacent (h.isConsistent _ hfst)
        (h.isConsistent _ hsnd)).mpr ⟨_, hjoin⟩
      exact absurd hadj (h.not_adjacent _ hfst _ hsnd)
  rw [mergeRounds, hkept, hnone]

/-- Merging keeps the cubes of a reduced list. -/
theorem mem_merge_of_reduced (h : Reduced cs) : c ∈ merge cs ↔ c ∈ cs := by
  have hmem : ∀ c, c ∈ consistentCubes cs ↔ c ∈ cs := fun c =>
    mem_consistentCubes.trans (and_iff_left_of_imp (h.isConsistent c))
  rw [merge_eq, (h.congr (tidy_consistentCubes cs).nodup hmem).mergeRounds_eq, hmem]

end Cube

/-! ### Edges -/

namespace Guard

/-- Whatever meets the first guard meets the second. -/
def Implies (g h : Guard) : Prop := ∀ v, g.holds v = true → h.holds v = true

/-- The guards are cubes that differ in the sign of one literal and agree in the rest. -/
def Adjacent (g h : Guard) : Prop :=
  ∃ c l, g = .cube (insert l c) ∧ h = .cube (insert l.negated c)

theorem adjacent_cube_iff {c d : Cube} :
    Adjacent (.cube c) (.cube d) ↔ Cube.Adjacent c d := by
  simp only [Adjacent, Cube.Adjacent, cube.injEq]

end Guard

/-- Edges that cannot be made fewer: every guard can be met, and of two parallel edges neither
guard implies the other, nor do they differ in the sign of one literal only. -/
structure Simplified (es : List Edge) : Prop where
  isConsistent : ∀ e ∈ es, ∃ c, e.guard = .cube c ∧ Cube.isConsistent c = true
  /-- No two parallel edges have the same guard. -/
  nodup : es.Nodup
  eq_of_implies : ∀ e ∈ es, ∀ f ∈ es, e.target = f.target → e.guard.Implies f.guard → e = f
  not_adjacent : ∀ e ∈ es, ∀ f ∈ es, e.target = f.target → ¬ e.guard.Adjacent f.guard

theorem nodup_eraseDups {α : Type} [DecidableEq α] (l : List α) : l.eraseDups.Nodup := by
  induction hn : l.length using Nat.strong_induction_on generalizing l with
  | _ n ih =>
    cases l with
    | nil => simp
    | cons a l =>
      rw [List.eraseDups_cons, List.nodup_cons]
      refine ⟨by simp, ih _ ?_ _ rfl⟩
      rw [← hn, List.length_cons]
      exact Nat.lt_succ_of_le (List.length_filter_le _ _)

/-- What a list of different elements gathers for one of them. -/
theorem flatMap_ite_eq {α β : Type} [DecidableEq α] {l : List α} (h : l.Nodup) {a : α}
    {x : List β} : (l.flatMap fun b => if b = a then x else []) = if a ∈ l then x else [] := by
  induction l with
  | nil => rfl
  | cons b l ih =>
    obtain ⟨hb, hl⟩ := List.nodup_cons.mp h
    rw [List.flatMap_cons, ih hl]
    grind

section Edges

variable {es : List Edge} {j : NodeId}

/-- The targets that the edges lead to, once for every edge that can be considered. -/
def cubeTargets (es : List Edge) : List NodeId := (es.filter (·.guard.isCube)).map Edge.target

theorem simplifyEdges_eq : simplifyEdges es = (cubeTargets es).eraseDups.flatMap fun target =>
    (Cube.merge (cubesTo es target)).map fun c => ⟨target, .cube c⟩ := rfl

theorem length_cubesTo : (cubesTo es j).length = (cubeTargets es).count j := by
  induction es with
  | nil => rfl
  | cons e es ih =>
    obtain ⟨target, guard⟩ := e
    cases guard with
    | never => exact ih
    | cube c =>
      by_cases htarget : target = j
      · simpa [cubesTo, cubeTargets, Guard.isCube, htarget] using ih
      · simpa [cubesTo, cubeTargets, Guard.isCube, htarget] using ih

/-- Every target keeps at most as many edges as lead to it. -/
theorem length_simplifyEdges_le (es : List Edge) : (simplifyEdges es).length ≤ es.length := by
  have hdedup : (cubeTargets es).eraseDups.Perm (cubeTargets es).dedup := by
    apply (List.perm_ext_iff_of_nodup (nodup_eraseDups _) (List.nodup_dedup _)).mpr
    simp
  calc (simplifyEdges es).length
    _ = ((cubeTargets es).eraseDups.map fun j => (Cube.merge (cubesTo es j)).length).sum := by
      simp [simplifyEdges_eq, List.length_flatMap]
    _ ≤ ((cubeTargets es).eraseDups.map fun j => (cubeTargets es).count j).sum := by
      apply List.sum_le_sum
      intro j _
      exact length_cubesTo ▸ Cube.length_merge_le _
    _ = ((cubeTargets es).dedup.map fun j => (cubeTargets es).count j).sum :=
      (hdedup.map _).sum_eq
    _ = (cubeTargets es).length := List.sum_map_count_dedup_eq_length _
    _ ≤ es.length := by
      rw [cubeTargets, List.length_map]
      exact List.length_filter_le _ _

theorem nodup_simplifyEdges (es : List Edge) : (simplifyEdges es).Nodup := by
  rw [simplifyEdges_eq, List.nodup_flatMap]
  constructor
  · intro j _
    refine (Cube.reduced_merge _).nodup.map fun c d hcd => ?_
    simpa using hcd
  · refine (nodup_eraseDups _).imp fun {i j} hij e hi hj => hij ?_
    obtain ⟨c, -, rfl⟩ := List.mem_map.mp hi
    obtain ⟨d, -, hd⟩ := List.mem_map.mp hj
    exact (congrArg Edge.target hd).symm

/-- Two parallel edges have guards from one merge. -/
theorem forall_parallel_simplifyEdges {P : Edge → Edge → Prop}
    (h : ∀ i, ∀ c ∈ Cube.merge (cubesTo es i), ∀ d ∈ Cube.merge (cubesTo es i),
      P ⟨i, .cube c⟩ ⟨i, .cube d⟩) :
    ∀ e ∈ simplifyEdges es, ∀ f ∈ simplifyEdges es, e.target = f.target → P e f := by
  rintro ⟨i, _⟩ he ⟨_, _⟩ hf rfl
  obtain ⟨c, hc, rfl⟩ := mem_simplifyEdges.mp he
  obtain ⟨d, hd, rfl⟩ := mem_simplifyEdges.mp hf
  exact h i c hc d hd

theorem simplified_simplifyEdges (es : List Edge) : Simplified (simplifyEdges es) where
  isConsistent e he := by
    obtain ⟨c, hc, hguard⟩ := mem_simplifyEdges.mp he
    exact ⟨c, hguard, (Cube.reduced_merge _).isConsistent c hc⟩
  nodup := nodup_simplifyEdges es
  eq_of_implies := by
    apply forall_parallel_simplifyEdges
    intro i c hc d hd himp
    have hreduced := Cube.reduced_merge (cubesTo es i)
    have hsub : d ⊆ c := (Cube.subset_iff_forall_holds (hreduced.isConsistent c hc)).mpr himp
    rw [hreduced.eq_of_subset d hd c hc hsub]
  not_adjacent := by
    apply forall_parallel_simplifyEdges
    intro i c hc d hd hadj
    exact (Cube.reduced_merge _).not_adjacent c hc d hd (Guard.adjacent_cube_iff.mp hadj)

/-- The merged cubes of a target stand together, in the order of the merge. -/
theorem cubesTo_simplifyEdges (es : List Edge) (j : NodeId) :
    cubesTo (simplifyEdges es) j = Cube.merge (cubesTo es j) := by
  have hgroup : ∀ i, cubesTo ((Cube.merge (cubesTo es i)).map fun c => ⟨i, .cube c⟩) j =
      if i = j then Cube.merge (cubesTo es j) else [] := by
    intro i
    rw [cubesTo, List.filterMap_map]
    split
    · rename_i hij
      simp [hij]
    · rename_i hij
      simp [hij]
  have hflat : cubesTo (simplifyEdges es) j = (cubeTargets es).eraseDups.flatMap fun i =>
      if i = j then Cube.merge (cubesTo es j) else [] := by
    rw [simplifyEdges_eq, cubesTo, List.filterMap_flatMap]
    exact List.flatMap_congr fun i _ => hgroup i
  rw [hflat, flatMap_ite_eq (nodup_eraseDups _)]
  split
  · rfl
  · -- no cube leads to this target
    rename_i hj
    rw [List.mem_eraseDups, ← List.count_eq_zero, ← length_cubesTo, List.length_eq_zero_iff] at hj
    rw [hj]
    rfl

/-- Simplified edges are left as they are, up to their order. -/
theorem perm_simplifyEdges_simplifyEdges (es : List Edge) :
    (simplifyEdges (simplifyEdges es)).Perm (simplifyEdges es) := by
  apply (List.perm_ext_iff_of_nodup (nodup_simplifyEdges _) (nodup_simplifyEdges _)).mpr
  intro e
  rw [mem_simplifyEdges, mem_simplifyEdges, cubesTo_simplifyEdges]
  simp only [Cube.mem_merge_of_reduced (Cube.reduced_merge _)]

end Edges

/-! ### Graphs -/

namespace Graph

variable {κ : Type} {g : Graph κ} {i : NodeId}

theorem edgesOf_simplify : g.simplify.edgesOf i = simplifyEdges (g.edgesOf i) :=
  edgesOf_mapEdges rfl

theorem edgeCount_simplify_le (g : Graph κ) : g.simplify.edgeCount ≤ g.edgeCount := by
  have hsum : ∀ h : Graph κ, h.edgeCount = (h.nodeIds.map fun i => (h.edgesOf i).length).sum := by
    intro h
    simp [edgeCount, transitions, List.length_flatMap]
  have hids : g.simplify.nodeIds = g.nodeIds := by
    simp [nodeIds, size, simplify, mapEdges]
  rw [hsum, hsum, hids]
  apply List.sum_le_sum
  intro i _
  rw [edgesOf_simplify]
  exact length_simplifyEdges_le _

/-- Simplifying a graph ends, for the edges between any two nodes, where merging their guards ends
by itself, and leaves edges that cannot be made fewer. The number of edges does not grow, a graph
that passes the test for determinism still does, and simplifying again only reorders edges. -/
theorem simplify_normalizes (g : Graph κ) :
    (∀ i,
      (∀ j, Cube.MergesTo (Cube.consistentCubes (cubesTo (g.edgesOf i) j))
        (cubesTo (g.simplify.edgesOf i) j)) ∧
      Simplified (g.simplify.edgesOf i) ∧
      (g.simplify.simplify.edgesOf i).Perm (g.simplify.edgesOf i)) ∧
    g.simplify.edgeCount ≤ g.edgeCount ∧
    (g.isDeterministic = true → g.simplify.isDeterministic = true) := by
  refine ⟨fun i => ⟨fun j => ?_, ?_, ?_⟩, g.edgeCount_simplify_le, fun hdet => ?_⟩
  · rw [edgesOf_simplify, cubesTo_simplifyEdges]
    exact Cube.mergesTo_merge _
  · rw [edgesOf_simplify]
    exact simplified_simplifyEdges _
  · rw [edgesOf_simplify, edgesOf_simplify]
    exact perm_simplifyEdges_simplifyEdges _
  · rw [isDeterministic_iff] at hdet ⊢
    intro v i j k hj hk
    exact hdet v i j k (step_simplify.mp hj) (step_simplify.mp hk)

/-- Two parallel edges that can be joined, one that asks for more than what they join to, and one
whose guard is contradictory. -/
def parallelEdges : Graph Unit :=
  ⟨#[⟨"a", ∅, (), [⟨1, .cube {⟨"p", true⟩, ⟨"q", true⟩}⟩, ⟨1, .cube {⟨"p", true⟩, ⟨"r", true⟩}⟩,
      ⟨0, .cube {⟨"p", false⟩}⟩, ⟨1, .cube {⟨"p", true⟩, ⟨"q", false⟩}⟩,
      ⟨0, .cube {⟨"q", true⟩, ⟨"q", false⟩}⟩]⟩, ⟨"b", ∅, (), []⟩], some 0⟩

theorem simplify_parallelEdges :
    parallelEdges.isDeterministic = true ∧ parallelEdges.simplify.isDeterministic = true ∧
      parallelEdges.simplify.edgesOf 0 =
        [⟨1, .cube {⟨"p", true⟩}⟩, ⟨0, .cube {⟨"p", false⟩}⟩] ∧
      Simplified (parallelEdges.simplify.edgesOf 0) := by
  obtain ⟨hnodes, -, hdet⟩ := simplify_normalizes parallelEdges
  have hstart : parallelEdges.isDeterministic = true := by decide +kernel
  exact ⟨hstart, hdet hstart, by decide +kernel, (hnodes 0).2.1⟩

end Graph

end TemporalMonitor
