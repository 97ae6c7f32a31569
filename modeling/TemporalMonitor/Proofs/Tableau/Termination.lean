import Mathlib.Algebra.Order.BigOperators.Group.Finset
import Mathlib.Data.Finset.Prod
import TemporalMonitor.Proofs.Tableau.Search

/-!
# The search for states ends

Dealing with a formula leaves open obligations with fewer symbols, so a branch with `m` symbols is
done with after at most `3 * 2 ^ m` steps, its parts included. A branch is started only by a new
state, and the states of a formula are distinct pairs of sets of subformulas.

## Main definitions

* `Tableau.weight` — the symbols of a set of formulas
* `Tableau.Search.Bounded` — the entries consist of subformulas, and states are distinct
* `Tableau.Search.budget` — a bound on the steps left
* `Tableau.Search.Ends` — how a search ends that may take as many steps as it needs

## Main results

* `Tableau.Search.budget_lt_of_step` — every step uses up some of the budget
* `Tableau.Search.ends_start` — every search ends, within the bound on its steps
* `Tableau.isDone_of_run` — no branch is left at the end of a search
* `Tableau.build_invariant` — what steps preserve holds where the tableau is read off
-/

namespace TemporalMonitor

namespace Tableau

/-! ### Symbols -/

/-- The number of symbols of the formulas in a set. -/
def weight (s : SortedSet Formula) : Nat := symbols s.toList

section Weight

variable {f : Formula} {s t : SortedSet Formula} {l : List Formula}

theorem weight_eq_sum : weight s = ∑ g ∈ s.toFinset, g.size := by
  rw [SortedSet.toFinset, List.sum_toFinset _ s.nodup_toList, weight, symbols, List.sum,
    List.foldr_map]

theorem weight_le_of_subset (h : s ⊆ t) : weight s ≤ weight t := by
  rw [weight_eq_sum, weight_eq_sum]
  exact Finset.sum_le_sum_of_subset (SortedSet.toFinset_subset_iff.mpr h)

theorem weight_insert_le : weight (insert f s) ≤ f.size + weight s := by
  by_cases hf : f ∈ s
  · have hsub : insert f s ⊆ s := by
      intro g hg
      rcases SortedSet.mem_insert.mp hg with rfl | hg
      · exact hf
      · exact hg
    have := weight_le_of_subset hsub
    omega
  · rw [weight_eq_sum, weight_eq_sum, SortedSet.toFinset_insert,
      Finset.sum_insert (by simpa using hf)]

theorem weight_insertMany_le : weight (s.insertMany l) ≤ weight s + symbols l := by
  induction l generalizing s with
  | nil => exact Nat.le_refl _
  | cons f l ih =>
    have hrest : weight (s.insertMany (f :: l)) ≤ weight (insert f s) + symbols l :=
      ih (s := insert f s)
    have hinsert := weight_insert_le (f := f) (s := s)
    have hcons : symbols (f :: l) = f.size + symbols l := rfl
    omega

theorem symbols_filter_le (p : Formula → Bool) : symbols (l.filter p) ≤ symbols l := by
  induction l with
  | nil => exact Nat.le_refl _
  | cons f l ih =>
    have hcons : symbols (f :: l) = f.size + symbols l := rfl
    by_cases hp : p f = true
    · rw [List.filter_cons_of_pos hp]
      exact Nat.add_le_add_left ih _
    · rw [List.filter_cons_of_neg hp]
      omega

theorem weight_of_pop? (h : s.pop? = some (f, t)) : weight s = f.size + weight t := by
  obtain ⟨l, hl⟩ := s
  cases l with
  | nil => cases h
  | cons g l =>
    cases h
    rfl

theorem weight_lt_of_pop? (h : s.pop? = some (f, t)) : weight t < weight s := by
  have hsize : 0 < f.size := by cases f <;> simp [Formula.size]
  rw [weight_of_pop? h]
  omega

/-- Meeting a formula by an alternative of its rule leaves fewer symbols open. -/
theorem weight_meet_lt {b : Branch} {rest : SortedSet Formula} {r : Rule} {o : Obligations}
    (hpop : b.new.pop? = some (f, rest)) (hrule : rule f = some r) (ho : o ∈ r.alternatives) :
    weight (b.meet f rest o).new < weight b.new := by
  have hnow := symbols_now_lt hrule ho
  have hfilter := symbols_filter_le (l := o.now) fun g => !(insert f b.old).contains g
  have hmeet : weight (b.meet f rest o).new ≤
      weight rest + symbols (o.now.filter fun g => !(insert f b.old).contains g) :=
    weight_insertMany_le
  rw [weight_of_pop? hpop]
  omega

end Weight

/-! ### Counting states -/

namespace Search

/-- The entries consist of subformulas of the root, and states are distinct. -/
structure Bounded (root : Formula) (s : Search) : Prop where
  isSubformula : ∀ e ∈ s.entries, ∀ f, e.Requires f ∨ f ∈ e.next → f.IsSubformula root
  distinct : s.states.Pairwise fun q r => q.old = r.old → q.next ≠ r.next

variable {root : Formula} {s t : Search}

/-- Expansion makes subformulas of what was there. -/
theorem exists_isSubformula_of_expansion {fresh fresh' : Nat} {b b' : Branch} {bs : List Branch}
    (h : Expansion fresh b fresh' bs) (hb' : b' ∈ bs) {f : Formula}
    (hf : b'.Requires f ∨ f ∈ b'.next) :
    ∃ g, (b.Requires g ∨ g ∈ b.next) ∧ f.IsSubformula g := by
  have hmeet : ∀ {g rest r o}, b.new.pop? = some (g, rest) → rule g = some r →
      o ∈ r.alternatives → (b.meet g rest o).Requires f ∨ f ∈ (b.meet g rest o).next →
      ∃ g, (b.Requires g ∨ g ∈ b.next) ∧ f.IsSubformula g := by
    intro g rest r o hpop hrule ho hf
    have hg : b.Requires g := .inr (SortedSet.mem_of_pop? hpop)
    rw [requires_meet hpop, mem_next_meet] at hf
    rcases hf with (hf | hf) | (hf | hf)
    · exact ⟨f, .inl hf, .refl f⟩
    · exact ⟨g, .inl hg, isSubformula_of_mem_alternatives hrule ho (.inl hf)⟩
    · exact ⟨f, .inr hf, .refl f⟩
    · exact ⟨g, .inl hg, isSubformula_of_mem_alternatives hrule ho (.inr hf)⟩
  cases h with
  | skip hpop hold =>
    obtain rfl := List.mem_singleton.mp hb'
    rw [requires_rest hpop hold] at hf
    exact ⟨f, hf, .refl f⟩
  | drop => cases hb'
  | extend hpop hrule halt =>
    obtain rfl := List.mem_singleton.mp hb'
    exact hmeet hpop hrule (by simp [halt]) hf
  | split hpop hrule =>
    rw [List.mem_cons, List.mem_singleton] at hb'
    rcases hb' with rfl | rfl
    · exact hmeet hpop hrule (by simp [Rule.alternatives]) hf
    · exact hmeet hpop hrule (by simp [Rule.alternatives]) hf

theorem bounded_start (root : Formula) : (Search.start root).Bounded root := by
  refine ⟨fun e he f hf => ?_, .nil⟩
  obtain rfl : e = .start 1 0 {root} := by simpa [entries, branches, Search.start] using he
  obtain rfl : f = root := by simpa [Branch.start, Branch.Requires] using hf
  exact .refl f

theorem Bounded.move (hs : s.Bounded root) (h : Move s t) : t.Bounded root := by
  have hold := hs.isSubformula
  cases h with
  | idle hfresh hbranches hstates hcurrent =>
    have hentries := entries_eq hbranches hstates
    exact ⟨hentries ▸ hold, hstates ▸ hs.distinct⟩
  | expand hbranches hbranches' hstates hexpansion hcurrent =>
    refine ⟨fun e he f hf => ?_, hstates ▸ hs.distinct⟩
    rcases mem_entries_of_expand hbranches hbranches' hstates he with he | he
    · obtain ⟨g, hg, hfg⟩ := exists_isSubformula_of_expansion hexpansion he hf
      exact hfg.trans (hold _ (mem_entries_of_branches hbranches) g hg)
    · exact hold e he f hf
  | merge hbranches hnew hq hagrees hfresh hbranches' hstates =>
    refine ⟨fun e he f hf => ?_, ?_⟩
    · rcases mem_entries_of_merge hbranches hbranches' hstates he with he | ⟨q, hq, rfl⟩
      · exact hold e he f hf
      · refine hold q.toBranch (mem_entries.mpr (.inr ⟨q, hq, rfl⟩)) f ?_
        simpa [State.toBranch, Branch.Requires] using hf
    · rw [hstates, List.pairwise_map]
      simpa using hs.distinct
  | @close b others hbranches hnew hagrees hfresh hbranches' hstates =>
    have hb := hold b (mem_entries_of_branches hbranches)
    refine ⟨fun e he f hf => ?_, ?_⟩
    · rcases mem_entries_of_close hbranches hbranches' hstates he with rfl | rfl | he
      · refine hb f (.inr ?_)
        simpa [Branch.start, Branch.Requires] using hf
      · refine hb f ?_
        simpa [State.toBranch, Branch.Requires, hnew] using hf
      · exact hold e he f hf
    · -- the new state agrees with none of the old ones
      rw [hstates, List.pairwise_append]
      refine ⟨hs.distinct, List.pairwise_singleton _ _, fun q hq r hr hold hnext => ?_⟩
      obtain rfl := List.mem_singleton.mp hr
      exact hagrees q hq (agrees_iff.mpr ⟨hold, hnext⟩)

/-- There are at most as many states as pairs of sets of subformulas. -/
theorem Bounded.length_states_le (hs : s.Bounded root) :
    s.states.length ≤ 4 ^ root.subformulas.size := by
  -- distinct states give distinct pairs of sets, and these lie in a product of powersets
  let pair : State → Finset Formula × Finset Formula := fun q => (q.old.toFinset, q.next.toFinset)
  have hnodup : (s.states.map pair).Nodup := by
    refine List.pairwise_map.mpr (hs.distinct.imp fun {q r} hne heq => ?_)
    obtain ⟨hold, hnext⟩ := Prod.mk.inj heq
    exact hne (SortedSet.toFinset_injective hold) (SortedSet.toFinset_injective hnext)
  have hsub : (s.states.map pair).toFinset ⊆
      root.subformulas.toFinset.powerset ×ˢ root.subformulas.toFinset.powerset := by
    intro p hp
    obtain ⟨q, hq, rfl⟩ := List.mem_map.mp (List.mem_toFinset.mp hp)
    have hq' := hs.isSubformula q.toBranch (mem_entries.mpr (.inr ⟨q, hq, rfl⟩))
    rw [Finset.mem_product, Finset.mem_powerset, Finset.mem_powerset,
      SortedSet.toFinset_subset_iff, SortedSet.toFinset_subset_iff]
    constructor
    · intro f hf
      exact Formula.mem_subformulas.mpr (hq' f (.inl (.inl hf)))
    · intro f hf
      exact Formula.mem_subformulas.mpr (hq' f (.inr hf))
  have hcard := Finset.card_le_card hsub
  rw [List.toFinset_card_of_nodup hnodup, List.length_map, Finset.card_product,
    Finset.card_powerset, SortedSet.card_toFinset, ← Nat.mul_pow] at hcard
  exact hcard

/-! ### The budget -/

/-- A bound on the steps that a branch and its parts take. -/
def cost (b : Branch) : Nat := 3 * 2 ^ weight b.new - 1

/-- A bound on the steps that several branches take. -/
def totalCost (bs : List Branch) : Nat := bs.foldr (fun b n => cost b + n) 0

theorem totalCost_cons (b : Branch) (bs : List Branch) :
    totalCost (b :: bs) = cost b + totalCost bs := rfl

theorem totalCost_append (bs cs : List Branch) :
    totalCost (bs ++ cs) = totalCost bs + totalCost cs := by
  induction bs with
  | nil => exact (Nat.zero_add _).symm
  | cons b bs ih => rw [List.cons_append, totalCost_cons, totalCost_cons, ih, Nat.add_assoc]

/-- A bound on the steps left. Every state that is still to be found starts a branch whose open
obligations are subformulas, and one more step takes up the next branch if there is none. -/
def budget (root : Formula) (s : Search) : Nat :=
  totalCost s.branches +
    (4 ^ root.subformulas.size - s.states.length) * (3 * 2 ^ weight root.subformulas - 1) +
    if s.current.isSome then 0 else 1

theorem two_le_cost (b : Branch) : 2 ≤ cost b := by
  have := Nat.one_le_two_pow (n := weight b.new)
  unfold cost
  omega

/-- Fewer symbols halve the cost. -/
theorem cost_add_cost_lt {b b₁ b₂ : Branch} (h₁ : weight b₁.new < weight b.new)
    (h₂ : weight b₂.new < weight b.new) : cost b₁ + cost b₂ < cost b := by
  have hpow : ∀ b' : Branch, weight b'.new < weight b.new →
      2 * 2 ^ weight b'.new ≤ 2 ^ weight b.new := by
    intro b' hlt
    rw [← Nat.pow_succ']
    exact Nat.pow_le_pow_right (by decide) hlt
  have hpow₁ := hpow b₁ h₁
  have hpow₂ := hpow b₂ h₂
  have hpos := Nat.one_le_two_pow (n := weight b₁.new)
  unfold cost
  omega

theorem cost_lt_of_weight_lt {b b' : Branch} (h : weight b'.new < weight b.new) :
    cost b' < cost b := by
  have := cost_add_cost_lt h h
  omega

/-- Dealing with a formula lowers the cost, and by more than one step if the branch is dropped. -/
theorem totalCost_lt_of_expansion {fresh fresh' : Nat} {b : Branch} {bs : List Branch}
    (h : Expansion fresh b fresh' bs) :
    totalCost bs < cost b ∧ (bs = [] → totalCost bs + 1 < cost b) := by
  cases h with
  | @skip f rest hpop hold =>
    have hcost : cost { b with new := rest } < cost b :=
      cost_lt_of_weight_lt (weight_lt_of_pop? hpop)
    exact ⟨hcost, fun h => absurd h (List.cons_ne_nil _ _)⟩
  | drop =>
    -- a dropped branch also pays for the step that takes up the next one
    have := two_le_cost b
    have hnil : totalCost [] = 0 := rfl
    omega
  | extend hpop hrule halt =>
    have hlt := weight_meet_lt hpop hrule (halt ▸ List.mem_singleton_self _)
    exact ⟨cost_lt_of_weight_lt hlt, fun h => absurd h (List.cons_ne_nil _ _)⟩
  | @split f rest first second hpop hrule =>
    have hfirst := weight_meet_lt hpop hrule (o := first) (by simp [Rule.alternatives])
    have hsecond := weight_meet_lt hpop hrule (o := second) (by simp [Rule.alternatives])
    have hlt : cost { b.meet f rest first with id := fresh + 1 } +
        cost { b.meet f rest second with id := fresh } < cost b := cost_add_cost_lt hfirst hsecond
    exact ⟨hlt, fun h => absurd h (List.cons_ne_nil _ _)⟩

/-- Every step uses up some of the budget. -/
theorem budget_lt_of_step (hs : s.Bounded root) (hdone : ¬ s.isDone = true)
    (h : s.step = .ok t) : t.budget root < s.budget root := by
  have hmove := move_of_step h
  have ht := hs.move hmove
  cases hmove with
  | idle hfresh hbranches hstates hcurrent =>
    obtain ⟨hs', ht'⟩ := hcurrent.resolve_left hdone
    simp [budget, hbranches, hstates, hs', ht']
  | @expand b others bs hbranches hbranches' hstates hexpansion hcurrent =>
    obtain ⟨hlt, hdrop⟩ := totalCost_lt_of_expansion hexpansion
    simp only [budget, hbranches, hbranches', hstates, totalCost_cons, totalCost_append]
    by_cases hbs : bs = []
    · -- a dropped branch leaves no current one, so the next step takes up another
      have := hdrop hbs
      split <;> split <;> omega
    · rw [if_pos (hcurrent hbs)]
      split <;> omega
  | @merge b others q hbranches hnew hq hagrees hfresh hbranches' hstates =>
    have := two_le_cost b
    simp only [budget, hbranches, hbranches', hstates, totalCost_cons, List.length_map]
    split <;> split <;> omega
  | @close b others hbranches hnew hagrees hfresh hbranches' hstates =>
    have hb := two_le_cost b
    have hcost : cost (.start s.fresh b.id b.next) ≤ 3 * 2 ^ weight root.subformulas - 1 := by
      have hsub : b.next ⊆ root.subformulas := by
        intro f hf
        have hb' := mem_entries_of_branches hbranches
        exact Formula.mem_subformulas.mpr (hs.isSubformula b hb' f (.inr hf))
      have hpow := Nat.pow_le_pow_right Nat.two_pos (weight_le_of_subset hsub)
      change 3 * 2 ^ weight b.next - 1 ≤ _
      omega
    -- the new state pays for the branch it starts
    obtain ⟨k, hk⟩ : ∃ k, 4 ^ root.subformulas.size = s.states.length + 1 + k := by
      have hlength := ht.length_states_le
      rw [hstates, List.length_append, List.length_singleton] at hlength
      exact Nat.exists_eq_add_of_le hlength
    have hleft : 4 ^ root.subformulas.size - s.states.length = k + 1 := by omega
    have hleft' : 4 ^ root.subformulas.size - (s.states.length + 1) = k := by omega
    simp only [budget, hbranches, hbranches', hstates, totalCost_cons, List.length_append,
      List.length_singleton, hleft, hleft', Nat.succ_mul]
    split <;> split <;> omega

/-! ### Searches without a bound -/

/-- The search goes on step by step until no branch is left or a step fails, and this is how it
ends. -/
inductive Ends : Search → Except Formula Search → Prop where
  | done {s : Search} (hdone : s.isDone = true) : Ends s (.ok s)
  | fail {s : Search} {f : Formula} (hdone : ¬ s.isDone = true) (hstep : s.step = .error f) :
    Ends s (.error f)
  | step {s t : Search} {r : Except Formula Search} (hdone : ¬ s.isDone = true)
    (hstep : s.step = .ok t) (hrest : Ends t r) : Ends s r

theorem Ends.isDone {r : Except Formula Search} (h : s.Ends r) (hr : r = .ok t) :
    t.isDone = true := by
  induction h with
  | done hdone =>
    cases hr
    exact hdone
  | fail => cases hr
  | step _ _ _ ih => exact ih hr

/-- A search whose budget is covered ends by itself. -/
theorem ends_run_of_budget_le {fuel : Nat} (hs : s.Bounded root)
    (hfuel : s.budget root ≤ fuel) : s.Ends (run fuel s) := by
  induction fuel generalizing s with
  | zero =>
    -- with nothing left there is a current branch, and then something is left
    exfalso
    cases hcurrent : s.current with
    | none => simp [budget, hcurrent] at hfuel
    | some b =>
      have := two_le_cost b
      simp only [budget, branches, hcurrent, Option.toList_some, List.cons_append,
        totalCost_cons] at hfuel
      omega
  | succ fuel ih =>
    unfold run
    split
    · rename_i hdone
      exact .done hdone
    · rename_i hdone
      split
      · rename_i t hstep
        have hlt := budget_lt_of_step hs hdone hstep
        exact .step hdone hstep (ih (hs.move (move_of_step hstep)) (by omega))
      · rename_i f hstep
        exact .fail hdone hstep

/-- The bound on the number of steps covers the budget at the start. -/
theorem budget_start_le (root : Formula) : (Search.start root).budget root ≤ stepBound root := by
  have hroot : weight {root} ≤ weight root.subformulas := by
    refine weight_le_of_subset fun f hf => ?_
    rw [SortedSet.mem_singleton.mp hf]
    exact Formula.mem_subformulas.mpr (.refl root)
  have hpow := Nat.pow_le_pow_right Nat.two_pos hroot
  have hpos := Nat.one_le_two_pow (n := weight {root})
  -- one share for every state there can be, and one for the branch at the start
  have hbound : stepBound root =
      4 ^ root.subformulas.size * (3 * 2 ^ weight root.subformulas) +
        3 * 2 ^ weight root.subformulas := Nat.succ_mul _ _
  have hmul : 4 ^ root.subformulas.size * (3 * 2 ^ weight root.subformulas - 1) ≤
      4 ^ root.subformulas.size * (3 * 2 ^ weight root.subformulas) :=
    Nat.mul_le_mul_left _ (Nat.sub_le _ _)
  have hstart : (Search.start root).budget root = 3 * 2 ^ weight {root} - 1 +
      4 ^ root.subformulas.size * (3 * 2 ^ weight root.subformulas - 1) + 1 := rfl
  omega

theorem ends_start (root : Formula) :
    (Search.start root).Ends (run (stepBound root) (.start root)) :=
  ends_run_of_budget_le (bounded_start root) (budget_start_le root)

end Search

/-- No branch is left at the end of a search. -/
theorem isDone_of_run {root : Formula} {t : Search}
    (h : Search.run (stepBound root) (.start root) = .ok t) : t.isDone = true :=
  (Search.ends_start root).isDone h

theorem Search.branches_eq_nil {s : Search} (h : s.isDone = true) : s.branches = [] := by
  simpa [isDone, branches] using h

/-- A tableau is read off a search that has ended, of which everything holds that steps preserve. -/
theorem build_invariant {I : Search → Prop} {root : Formula} {t : Tableau}
    (hstart : I (.start root)) (hstep : ∀ s s', s.step = .ok s' → I s → I s')
    (h : build root = .ok t) :
    ∃ s : Search, s.isDone = true ∧ I s ∧ t = ⟨root, s.states, s.stats⟩ := by
  unfold build at h
  split at h
  · rename_i s hrun
    cases h
    exact ⟨s, isDone_of_run hrun, Search.run_invariant hstep hstart hrun, rfl⟩
  · cases h

end Tableau

end TemporalMonitor
