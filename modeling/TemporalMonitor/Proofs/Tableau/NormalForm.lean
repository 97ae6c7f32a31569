import TemporalMonitor.Proofs.Formula.NormalForm
import TemporalMonitor.Proofs.Tableau.Termination

/-!
# Normal forms have tableaux

There is a rule for every formula in normal form, and the search for states only ever deals with
parts of the formula that it starts from. So the search for the states of a normal form never meets
a formula without a rule.

## Main results

* `Tableau.exists_rule_of_isNormalized` — there is a rule for every normal form
* `Tableau.Search.exists_step`, `Tableau.Search.exists_run` — the search goes on to its end
* `Tableau.exists_build_of_isNormalized` — normal forms have tableaux
-/

namespace TemporalMonitor

namespace Tableau

theorem exists_rule_of_isNormalized {f : Formula} (h : f.isNormalized = true) :
    ∃ r, rule f = some r := by
  cases f with
  | verum | falsum | prop => exact ⟨_, rfl⟩
  | unary op f =>
    cases op with
    | not =>
      cases f with
      | prop => exact ⟨_, rfl⟩
      | verum | falsum | unary | binary => cases h
    | next => exact ⟨_, rfl⟩
    | eventually | always => cases h
  | binary op f g =>
    cases op with
    | and | or | «until» | release => exact ⟨_, rfl⟩
    | implies | iff | entails | congruent | weakUntil => cases h

namespace Search

variable {root : Formula} {s : Search}

/-- Dealing with a formula fails only if there is no rule for it. -/
theorem exists_expand {b : Branch} {f : Formula} {r : Rule} (hrule : rule f = some r) :
    ∃ t, s.expand b f = .ok t := by
  by_cases hold : f ∈ b.old
  · exact ⟨_, by rw [expand, if_pos hold]⟩
  · rw [expand, if_neg hold, hrule]
    cases r with
    | impossible | literal | extend | choice => exact ⟨_, rfl⟩

theorem exists_step (hs : s.Bounded root) (hroot : root.isNormalized = true) :
    ∃ t, s.step = .ok t := by
  rw [step]
  cases hcurrent : s.current with
  | none =>
    cases s.waiting with
    | nil => exact ⟨_, rfl⟩
    | cons b waiting => exact ⟨_, rfl⟩
  | some b =>
    dsimp only
    cases hpop : b.new.pop? with
    | none => exact ⟨_, rfl⟩
    | some popped =>
      -- whatever is still to be dealt with is a part of the root, so there is a rule for it
      have hbranches : s.branches = b :: s.waiting := by rw [branches, hcurrent]; rfl
      have hmem : popped.1 ∈ b.new := SortedSet.mem_of_pop? hpop
      have hpart := hs.isSubformula b (mem_entries_of_branches hbranches) _ (.inl (.inr hmem))
      have hnormal := Formula.isNormalized_of_isSubformula hpart hroot
      exact exists_expand (exists_rule_of_isNormalized hnormal).choose_spec

theorem exists_run (hs : s.Bounded root) (hroot : root.isNormalized = true) (fuel : Nat) :
    ∃ t, run fuel s = .ok t := by
  induction fuel generalizing s with
  | zero => exact ⟨s, rfl⟩
  | succ fuel ih =>
    rw [run]
    split
    · exact ⟨s, rfl⟩
    · obtain ⟨t, ht⟩ := exists_step hs hroot
      rw [ht]
      exact ih (hs.move (move_of_step ht))

end Search

theorem exists_build_of_isNormalized {f : Formula} (h : f.isNormalized = true) :
    ∃ t, build f = .ok t := by
  obtain ⟨s, hs⟩ := Search.exists_run (Search.bounded_start f) h (stepBound f)
  exact ⟨_, by rw [build, hs]⟩

end Tableau

end TemporalMonitor
