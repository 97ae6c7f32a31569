import TemporalMonitor.Proofs.Tableau.NormalForm

/-!
# What a tableau takes to build

The search for the states of a formula ends whatever the formula is. If it does not end with an
error, its states are pairs of sets of subformulas, so there are at most `4 ^ c` of them for `c`
subformulas. Every branch that was taken up is accounted for: it was dropped on a contradiction, it
was merged into a state, or it became one.

## Main definitions

* `Tableau.Search.Accounted` — no branch taken up has been lost

## Main results

* `Tableau.Search.Accounted.step` — no step loses a branch
* `Tableau.subset_subformulas_of_build`, `Tableau.length_nodes_le_of_build`,
  `Tableau.expanded_of_build` — what the tableau of a formula is made of
* `Tableau.build_ends_within_bounds` — all of it together, for every formula
-/

namespace TemporalMonitor

namespace Tableau

/-! ### Branches taken up -/

namespace Search

/-- Every branch taken up has been dropped, has been merged, has become a state, or is the current
one. -/
def Accounted (s : Search) : Prop :=
  s.stats.expanded =
    s.stats.pruned + s.stats.merged + s.states.length + s.current.toList.length

variable {s t : Search} {b : Branch} {f : Formula}

theorem accounted_start (f : Formula) : (Search.start f).Accounted := rfl

theorem accounted_iff_of_some (h : s.current = some b) : s.Accounted ↔
    s.stats.expanded = s.stats.pruned + s.stats.merged + s.states.length + 1 := by
  rw [Accounted, h, Option.toList_some, List.length_singleton]

theorem accounted_iff_of_none (h : s.current = none) : s.Accounted ↔
    s.stats.expanded = s.stats.pruned + s.stats.merged + s.states.length := by
  rw [Accounted, h, Option.toList_none, List.length_nil, Nat.add_zero]

/-- A step that goes on with the current branch, or with a part of it, settles nothing. -/
theorem Accounted.go_on (hs : s.Accounted) (hcurrent : s.current = some b)
    (hcurrent' : t.current.isSome = true) (hstates : t.states = s.states)
    (hstats : t.stats = s.stats) : t.Accounted := by
  obtain ⟨c, hc⟩ := Option.isSome_iff_exists.mp hcurrent'
  rw [accounted_iff_of_some hc, hstates, hstats]
  exact (accounted_iff_of_some hcurrent).mp hs

theorem Accounted.prune (hs : s.Accounted) (hcurrent : s.current = some b) : s.prune.Accounted := by
  rw [accounted_iff_of_some hcurrent] at hs
  rw [accounted_iff_of_none rfl]
  simp only [Search.prune]
  omega

theorem Accounted.expand {b' : Branch} (hs : s.Accounted) (hcurrent : s.current = some b)
    (h : s.expand b' f = .ok t) : t.Accounted := by
  unfold Search.expand at h
  split at h
  · cases h
    exact hs.go_on hcurrent rfl rfl rfl
  · split at h
    · cases h
    · cases h
      exact hs.prune hcurrent
    · -- a literal is dropped or recorded
      cases h
      split
      · exact hs.prune hcurrent
      · exact hs.go_on hcurrent rfl rfl rfl
    · cases h
      exact hs.go_on hcurrent rfl rfl rfl
    · cases h
      exact hs.go_on hcurrent rfl rfl rfl

theorem Accounted.complete (hs : s.Accounted) (hcurrent : s.current = some b) :
    (s.complete b).Accounted := by
  rw [accounted_iff_of_some hcurrent] at hs
  unfold Search.complete
  split
  · rw [accounted_iff_of_none rfl, List.length_map]
    dsimp only
    omega
  · rw [accounted_iff_of_none rfl, List.length_append, List.length_singleton]
    dsimp only
    omega

/-- No step loses a branch. -/
theorem Accounted.step (hs : s.Accounted) (h : s.step = .ok t) : t.Accounted := by
  unfold Search.step at h
  split at h
  · rename_i b hcurrent
    split at h
    · exact hs.expand hcurrent h
    · cases h
      exact hs.complete hcurrent
  · -- the branch taken up becomes the current one
    rename_i b waiting hcurrent hwaiting
    cases h
    rw [accounted_iff_of_some rfl]
    dsimp only
    rw [(accounted_iff_of_none hcurrent).mp hs]
  · cases h
    exact hs

end Search

/-! ### The tableau of a formula -/

variable {f : Formula} {t : Tableau}

/-- A tableau is read off a search that has ended. -/
theorem exists_search_of_build (h : build f = .ok t) :
    ∃ s : Search, s.isDone = true ∧ s.Bounded f ∧ s.Accounted ∧ t = ⟨f, s.states, s.stats⟩ := by
  obtain ⟨s, hdone, ⟨hbounded, haccounted⟩, ht⟩ :=
    build_invariant (I := fun s => s.Bounded f ∧ s.Accounted)
      ⟨Search.bounded_start f, Search.accounted_start f⟩
      (fun s s' hstep hs => ⟨hs.1.move (Search.move_of_step hstep), hs.2.step hstep⟩) h
  exact ⟨s, hdone, hbounded, haccounted, ht⟩

theorem subset_subformulas_of_build (h : build f = .ok t) {q : State} (hq : q ∈ t.nodes) :
    q.old ⊆ f.subformulas ∧ q.next ⊆ f.subformulas := by
  obtain ⟨s, -, hbounded, -, rfl⟩ := exists_search_of_build h
  rcases List.mem_cons.mp hq with rfl | hq
  · exact ⟨nofun, nofun⟩
  · have hparts := hbounded.isSubformula q.toBranch (Search.mem_entries.mpr (.inr ⟨q, hq, rfl⟩))
    constructor
    · intro g hg
      exact Formula.mem_subformulas.mpr (hparts g (.inl (.inl hg)))
    · intro g hg
      exact Formula.mem_subformulas.mpr (hparts g (.inr hg))

theorem length_nodes_le_of_build (h : build f = .ok t) :
    t.nodes.length ≤ 1 + 4 ^ f.subformulas.size := by
  obtain ⟨s, -, hbounded, -, rfl⟩ := exists_search_of_build h
  rw [nodes, List.length_cons, Nat.add_comm]
  exact Nat.add_le_add_left hbounded.length_states_le 1

theorem expanded_of_build (h : build f = .ok t) :
    t.stats.expanded = t.stats.pruned + t.stats.merged + (t.nodes.length - 1) := by
  obtain ⟨s, hdone, -, haccounted, rfl⟩ := exists_search_of_build h
  have hcurrent : s.current = none := by
    simp only [Search.isDone, Bool.and_eq_true, Option.isNone_iff_eq_none] at hdone
    exact hdone.1
  exact (Search.accounted_iff_of_none hcurrent).mp haccounted

/-- The search for the states of a formula ends, be the formula in normal form or not. The nodes of
its tableau consist of subformulas, there are at most `1 + 4 ^ c` of them for `c` subformulas, and
no branch that was taken up is lost. -/
theorem build_ends_within_bounds (f : Formula) :
    (∃ r, (Search.start f).Ends r ∧ build f = r.map fun s => ⟨f, s.states, s.stats⟩) ∧
      ∀ t, build f = .ok t →
        (∀ q ∈ t.nodes, q.old ⊆ f.subformulas ∧ q.next ⊆ f.subformulas) ∧
        t.nodes.length ≤ 1 + 4 ^ f.subformulas.size ∧
        t.stats.expanded = t.stats.pruned + t.stats.merged + (t.nodes.length - 1) := by
  constructor
  · refine ⟨_, Search.ends_start f, ?_⟩
    unfold build
    cases Search.run (stepBound f) (.start f) with
    | ok s => rfl
    | error g => rfl
  · intro t ht
    exact ⟨fun q hq => subset_subformulas_of_build ht hq, length_nodes_le_of_build ht,
      expanded_of_build ht⟩

/-- Up to the first instant without `a`, there is `a` or `b`. -/
def guardedUntilReleased : Formula :=
  .release (.not (.prop "a")) (.or (.prop "a") (.prop "b"))

/-- Of the fourteen branches that are taken up, three are dropped, seven are merged and four become
states. -/
theorem build_guardedUntilReleased :
    ∃ t, build guardedUntilReleased = .ok t ∧
      (∀ q ∈ t.nodes, q.old ⊆ guardedUntilReleased.subformulas ∧
        q.next ⊆ guardedUntilReleased.subformulas) ∧
      t.nodes.length ≤ 1 + 4 ^ guardedUntilReleased.subformulas.size ∧
      t.stats.expanded = t.stats.pruned + t.stats.merged + (t.nodes.length - 1) ∧
      t.stats.pruned = 3 ∧ t.stats.merged = 7 ∧ t.nodes.length - 1 = 4 := by
  have hcounts : (build guardedUntilReleased).map (fun t =>
      (t.stats.pruned, t.stats.merged, t.nodes.length - 1)) = .ok (3, 7, 4) := by decide +kernel
  obtain ⟨t, ht⟩ := exists_build_of_isNormalized (f := guardedUntilReleased) (by decide)
  rw [ht] at hcounts
  obtain ⟨hpruned, hrest⟩ := Prod.mk.inj (Except.ok.inj hcounts)
  obtain ⟨hmerged, hstates⟩ := Prod.mk.inj hrest
  obtain ⟨hsubset, hlength, hexpanded⟩ := (build_ends_within_bounds guardedUntilReleased).2 t ht
  exact ⟨t, ht, hsubset, hlength, hexpanded, hpruned, hmerged, hstates⟩

end Tableau

end TemporalMonitor
