import TemporalMonitor.Proofs.Graph.Unfolding

/-!
# Acceptance as visits to sets

A run of an automaton stays among finitely many nodes, so it visits a set infinitely often exactly
when it meets some member of the set infinitely often. Büchi conditions can therefore be read off a
run without its set of limit nodes.

## Main definitions

* `OmegaAutomaton.VisitedForever` — some member of a set is met again and again

## Main results

* `OmegaAutomaton.accepts_buchi_iff`, `OmegaAutomaton.accepts_generalized_iff`
-/

namespace TemporalMonitor

namespace OmegaAutomaton

variable {κ C : Type} {ρ : Nat → NodeId} {set : SortedSet NodeId} {w : OmegaWord}

/-- The set is visited infinitely often. -/
def VisitedForever (ρ : Nat → NodeId) (set : SortedSet NodeId) : Prop :=
  ∀ i, ∃ j, i ≤ j ∧ ρ j ∈ set

theorem MetForever.visitedForever {id : NodeId} (h : MetForever ρ id) (hid : id ∈ set) :
    VisitedForever ρ set := by
  intro i
  obtain ⟨j, hij, rfl⟩ := h i
  exact ⟨j, hij, hid⟩

/-- Among finitely many nodes, one of those that are visited again and again is met for ever. -/
theorem exists_metForever {n : Nat} {P : NodeId → Prop}
    (h : ∀ i, ∃ j, i ≤ j ∧ ρ j < n ∧ P (ρ j)) : ∃ id, P id ∧ MetForever ρ id := by
  induction n with
  | zero =>
    obtain ⟨j, -, hj, -⟩ := h 0
    exact absurd hj (Nat.not_lt_zero _)
  | succ n ih =>
    by_cases hn : P n ∧ MetForever ρ n
    · exact ⟨n, hn⟩
    · apply ih
      -- from some point on the visits avoid the node `n`
      obtain ⟨i₀, hi₀⟩ : ∃ i₀, ∀ j, i₀ ≤ j → P (ρ j) → ρ j ≠ n := by
        by_contra hall
        have hmet : ∀ i, ∃ j, i ≤ j ∧ P (ρ j) ∧ ρ j = n := by
          intro i
          by_contra hi
          exact hall ⟨i, fun j hij hP hjn => hi ⟨j, hij, hP, hjn⟩⟩
        obtain ⟨j, -, hP, hjn⟩ := hmet 0
        refine hn ⟨hjn ▸ hP, fun i => ?_⟩
        obtain ⟨j, hij, -, hjn⟩ := hmet i
        exact ⟨j, hij, hjn⟩
      intro i
      obtain ⟨j, hij, hlt, hP⟩ := h (max i i₀)
      have hne := hi₀ j (by omega) hP
      exact ⟨j, by omega, Nat.lt_of_le_of_ne (Nat.le_of_lt_succ hlt) hne, hP⟩

theorem IsRun.lt_size {a : OmegaAutomaton κ C} (h : a.IsRun w ρ) (i : Nat) : ρ i < a.graph.size :=
  (h.2 i).lt_size

theorem IsRun.visitedForever_iff {a : OmegaAutomaton κ C} (h : a.IsRun w ρ) :
    VisitedForever ρ set ↔ ∃ id ∈ set, MetForever ρ id := by
  constructor
  · intro hset
    refine exists_metForever (n := a.graph.size) (P := (· ∈ set)) fun i => ?_
    obtain ⟨j, hij, hj⟩ := hset i
    exact ⟨j, hij, h.lt_size j, hj⟩
  · rintro ⟨id, hid, hmet⟩
    exact hmet.visitedForever hid

open Classical in
theorem IsRun.exists_limit {a : OmegaAutomaton κ C} (h : a.IsRun w ρ) :
    ∃ s : SortedSet NodeId, ∀ id, id ∈ s ↔ MetForever ρ id := by
  refine ⟨.ofList ((List.range a.graph.size).filter fun id => MetForever ρ id), fun id => ?_⟩
  simp only [SortedSet.mem_ofList, List.mem_filter, List.mem_range, decide_eq_true_eq]
  refine ⟨And.right, fun hmet => ⟨?_, hmet⟩⟩
  obtain ⟨j, -, rfl⟩ := hmet 0
  exact h.lt_size j

/-- A set is not disjoint from the limit of a run exactly when the run visits it for ever. -/
theorem IsRun.not_disjoint_iff {a : OmegaAutomaton κ C} (h : a.IsRun w ρ) {s : SortedSet NodeId}
    (hs : ∀ id, id ∈ s ↔ MetForever ρ id) :
    (!set.disjoint s) = true ↔ VisitedForever ρ set := by
  rw [h.visitedForever_iff, Bool.not_eq_true', ← Bool.not_eq_true, SortedSet.disjoint_iff]
  simp [hs]

/-- A Büchi automaton accepts a word when some run visits the accepting set for ever. -/
theorem accepts_buchi_iff {a : BuchiAutomaton κ} :
    a.Accepts w ↔ ∃ ρ, a.IsRun w ρ ∧ VisitedForever ρ a.acceptance.accepting := by
  constructor
  · rintro ⟨ρ, hrun, s, hs, hacc⟩
    exact ⟨ρ, hrun, (hrun.not_disjoint_iff hs).mp hacc⟩
  · rintro ⟨ρ, hrun, hvisit⟩
    obtain ⟨s, hs⟩ := hrun.exists_limit
    exact ⟨ρ, hrun, s, hs, (hrun.not_disjoint_iff hs).mpr hvisit⟩

/-- A generalized Büchi automaton accepts a word when some run visits every set for ever. -/
theorem accepts_generalized_iff {a : GeneralizedBuchiAutomaton κ} :
    a.Accepts w ↔ ∃ ρ, a.IsRun w ρ ∧ ∀ set ∈ a.acceptance.sets, VisitedForever ρ set := by
  have hacc : ∀ ρ s, a.IsRun w ρ → (∀ id, id ∈ s ↔ MetForever ρ id) →
      (Acceptance.accepts a.acceptance s = true ↔
        ∀ set ∈ a.acceptance.sets, VisitedForever ρ set) := by
    intro ρ s hrun hs
    simp only [Acceptance.accepts, List.all_eq_true]
    exact forall₂_congr fun set _ => hrun.not_disjoint_iff hs
  constructor
  · rintro ⟨ρ, hrun, s, hs, h⟩
    exact ⟨ρ, hrun, (hacc ρ s hrun hs).mp h⟩
  · rintro ⟨ρ, hrun, hvisit⟩
    obtain ⟨s, hs⟩ := hrun.exists_limit
    exact ⟨ρ, hrun, s, hs, (hacc ρ s hrun hs).mpr hvisit⟩

end OmegaAutomaton

end TemporalMonitor
