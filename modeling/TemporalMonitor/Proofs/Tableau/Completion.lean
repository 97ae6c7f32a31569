import Mathlib.Logic.Relation
import TemporalMonitor.Proofs.Tableau.Invariants

/-!
# What follows a state

Dealing with the open obligations of a branch, one after the other and in every possible way, leads
to its completions. Neither the number of the branch nor its predecessors have a part in this. The
search loses no completion and adds none: at any time the entries that follow a state complete to
exactly what the formulas it has put off complete to. In the end the entries are the states, so what
a state has put off decides which states follow it.

## Main definitions

* `Tableau.Branch.Deals` — one open obligation is dealt with
* `Tableau.Branch.Completes` — a branch can be completed with the given formulas
* `Tableau.Search.Offers` — some entry after a state can be completed so
* `Tableau.Search.Exhaustive` — what is offered after a state is what it demands

## Main results

* `Tableau.Expansion.completes_iff` — expanding a branch keeps its completions
* `Tableau.mem_incoming_iff_completes` — which states follow a state
-/

namespace TemporalMonitor

namespace Tableau

/-! ### Dealing with one obligation -/

/-- The least open obligation is dealt with: it is recorded already, or it is met by an alternative
of its rule and does not clash with what is recorded. -/
inductive Branch.Deals (b : Branch) : Branch → Prop where
  | skip {f : Formula} {rest : SortedSet Formula} (hpop : b.new.pop? = some (f, rest))
    (hold : f ∈ b.old) : b.Deals { b with new := rest }
  | meet {f : Formula} {rest : SortedSet Formula} {r : Rule} {o : Obligations}
    (hpop : b.new.pop? = some (f, rest)) (hopen : ¬ f ∈ b.old) (hrule : rule f = some r)
    (hclear : ∀ opposite, r = .literal opposite → ¬ opposite ∈ b.old) (ho : o ∈ r.alternatives) :
    b.Deals (b.meet f rest o)

section Deals

variable {fresh fresh' : Nat} {b c : Branch} {bs : List Branch} {f : Formula}

theorem Branch.Deals.exists_mem_new (h : b.Deals c) : ∃ f, f ∈ b.new := by
  cases h with
  | skip hpop => exact ⟨_, SortedSet.mem_of_pop? hpop⟩
  | meet hpop => exact ⟨_, SortedSet.mem_of_pop? hpop⟩

theorem Expansion.exists_mem_new (h : Expansion fresh b fresh' bs) : ∃ f, f ∈ b.new := by
  cases h with
  | skip hpop => exact ⟨_, SortedSet.mem_of_pop? hpop⟩
  | drop hpop => exact ⟨_, SortedSet.mem_of_pop? hpop⟩
  | extend hpop => exact ⟨_, SortedSet.mem_of_pop? hpop⟩
  | split hpop => exact ⟨_, SortedSet.mem_of_pop? hpop⟩

theorem Branch.Deals.requires (h : b.Deals c) (hf : b.Requires f) : c.Requires f := by
  cases h with
  | skip hpop hold => exact (requires_rest hpop hold).mpr hf
  | meet hpop => exact (requires_meet hpop).mpr (.inl hf)

theorem Branch.Deals.mem_next (h : b.Deals c) (hf : f ∈ b.next) : f ∈ c.next := by
  cases h with
  | skip => exact hf
  | meet => exact mem_next_meet.mpr (.inl hf)

theorem Branch.Deals.weight_lt (h : b.Deals c) : weight c.new < weight b.new := by
  cases h with
  | skip hpop => exact weight_lt_of_pop? hpop
  | meet hpop hopen hrule hclear ho => exact weight_meet_lt hpop hrule ho

/-- A branch is replaced by all the branches that come from dealing with its least obligation. -/
theorem Expansion.deals_iff (h : Expansion fresh b fresh' bs) :
    b.Deals c ↔ ∃ b' ∈ bs, c = { b' with id := b.id } := by
  cases h with
  | skip hpop hold =>
    constructor
    · intro hdeals
      refine ⟨_, List.mem_singleton_self _, ?_⟩
      cases hdeals with
      | skip hpop' =>
        cases hpop.symm.trans hpop'
        rfl
      | meet hpop' hopen =>
        cases hpop.symm.trans hpop'
        exact absurd hold hopen
    · rintro ⟨b', hb', rfl⟩
      obtain rfl := List.mem_singleton.mp hb'
      exact .skip hpop hold
  | drop hpop hrule hclash hopen =>
    constructor
    · -- there is no alternative, or the obligation clashes
      intro hdeals
      cases hdeals with
      | skip hpop' hold =>
        cases hpop.symm.trans hpop'
        exact absurd hold hopen
      | meet hpop' _ hrule' hclear ho =>
        cases hpop.symm.trans hpop'
        cases hrule.symm.trans hrule'
        rcases hclash with hnone | ⟨opposite, hmem, hliteral⟩
        · simp [hnone] at ho
        · exact absurd hmem (hclear opposite hliteral)
    · rintro ⟨b', hb', -⟩
      cases hb'
  | extend hpop hrule halt hopen hclear =>
    constructor
    · intro hdeals
      refine ⟨_, List.mem_singleton_self _, ?_⟩
      cases hdeals with
      | skip hpop' hold =>
        cases hpop.symm.trans hpop'
        exact absurd hold hopen
      | meet hpop' _ hrule' _ ho =>
        cases hpop.symm.trans hpop'
        cases hrule.symm.trans hrule'
        rw [halt, List.mem_singleton] at ho
        rw [ho]
        rfl
    · rintro ⟨b', hb', rfl⟩
      obtain rfl := List.mem_singleton.mp hb'
      exact .meet hpop hopen hrule hclear (by simp [halt])
  | split hpop hrule hopen =>
    constructor
    · intro hdeals
      cases hdeals with
      | skip hpop' hold =>
        cases hpop.symm.trans hpop'
        exact absurd hold hopen
      | meet hpop' _ hrule' _ ho =>
        cases hpop.symm.trans hpop'
        cases hrule.symm.trans hrule'
        rw [Rule.alternatives, List.mem_cons, List.mem_singleton] at ho
        rcases ho with rfl | rfl
        · exact ⟨_, List.mem_cons_self, rfl⟩
        · exact ⟨_, List.mem_cons_of_mem _ (List.mem_singleton_self _), rfl⟩
    · rintro ⟨b', hb', rfl⟩
      rw [List.mem_cons, List.mem_singleton] at hb'
      rcases hb' with rfl | rfl
      · exact .meet hpop hopen hrule (by simp) (by simp [Rule.alternatives])
      · exact .meet hpop hopen hrule (by simp) (by simp [Rule.alternatives])

end Deals

/-! ### Completions -/

/-- The branch can be completed with these formulas, recorded and put off. -/
def Branch.Completes (b : Branch) (old next : SortedSet Formula) : Prop :=
  ∃ c, Relation.ReflTransGen Branch.Deals b c ∧ (∀ f, ¬ f ∈ c.new) ∧ c.old = old ∧ c.next = next

section Completes

variable {fresh fresh' : Nat} {b c : Branch} {bs : List Branch} {old next : SortedSet Formula}

theorem Branch.Deals.relabel (h : b.Deals c) (id : Nat) (incoming : SortedSet Nat) :
    Branch.Deals { b with id, incoming } { c with id, incoming } := by
  cases h with
  | skip hpop hold => exact .skip hpop hold
  | meet hpop hopen hrule hclear ho => exact .meet hpop hopen hrule hclear ho

/-- Dealing with obligations does not depend on the number of a branch and its predecessors. -/
theorem reflTransGen_deals_relabel (h : Relation.ReflTransGen Branch.Deals b c) (id : Nat)
    (incoming : SortedSet Nat) :
    Relation.ReflTransGen Branch.Deals { b with id, incoming } { c with id, incoming } :=
  h.lift (fun e : Branch => { e with id, incoming }) fun _ _ hdeals => hdeals.relabel id incoming

theorem Branch.Completes.congr (h : b.Completes old next) (hnew : c.new = b.new)
    (hold : c.old = b.old) (hnext : c.next = b.next) : c.Completes old next := by
  obtain ⟨d, hbd, hd⟩ := h
  have hlift := reflTransGen_deals_relabel hbd c.id c.incoming
  rw [← hnew, ← hold, ← hnext] at hlift
  exact ⟨_, hlift, hd⟩

/-- A branch without open obligations is its own completion. -/
theorem completes_iff_of_complete (hnew : ∀ f, ¬ f ∈ b.new) :
    b.Completes old next ↔ b.old = old ∧ b.next = next := by
  constructor
  · rintro ⟨c, hbc, -, hc⟩
    rcases hbc.cases_head with rfl | ⟨d, hbd, -⟩
    · exact hc
    · obtain ⟨f, hf⟩ := hbd.exists_mem_new
      exact absurd hf (hnew f)
  · intro hb
    exact ⟨b, .refl, hnew, hb⟩

/-- Expanding a branch keeps its completions. -/
theorem Expansion.completes_iff (h : Expansion fresh b fresh' bs) :
    b.Completes old next ↔ ∃ b' ∈ bs, b'.Completes old next := by
  constructor
  · rintro ⟨c, hbc, hnew, hc⟩
    rcases hbc.cases_head with rfl | ⟨d, hbd, hdc⟩
    · obtain ⟨f, hf⟩ := h.exists_mem_new
      exact absurd hf (hnew f)
    · obtain ⟨b', hb', rfl⟩ := h.deals_iff.mp hbd
      have hcompletes : Branch.Completes { b' with id := b.id } old next := ⟨c, hdc, hnew, hc⟩
      exact ⟨b', hb', hcompletes.congr rfl rfl rfl⟩
  · rintro ⟨b', hb', hcompletes⟩
    obtain ⟨c, hbc, hc⟩ : Branch.Completes { b' with id := b.id } old next :=
      hcompletes.congr rfl rfl rfl
    exact ⟨c, .head (h.deals_iff.mpr ⟨b', hb', rfl⟩) hbc, hc⟩

end Completes

/-! ### The search loses no completion -/

namespace Search

/-- Some entry that follows the state with number `p` can be completed with these formulas. -/
def Offers (s : Search) (p : Nat) (old next : SortedSet Formula) : Prop :=
  ∃ e ∈ s.entries, p ∈ e.incoming ∧ e.Completes old next

/-- What is offered after a state, or at the beginning, is what its demands complete to. -/
def Exhaustive (root : Formula) (s : Search) : Prop :=
  ∀ p owed, Owes root s.states p owed → ∀ old next,
    s.Offers p old next ↔ (Branch.start 0 p owed).Completes old next

variable {root : Formula} {s t : Search} {p : Nat} {old next : SortedSet Formula}

theorem offers_iff : s.Offers p old next ↔
    (∃ b ∈ s.branches, p ∈ b.incoming ∧ b.Completes old next) ∨
      ∃ q ∈ s.states, p ∈ q.incoming ∧ q.old = old ∧ q.next = next := by
  have hstate : ∀ q : State, q.toBranch.Completes old next ↔ q.old = old ∧ q.next = next :=
    fun q => completes_iff_of_complete fun f => SortedSet.notMem_empty
  constructor
  · rintro ⟨e, he, hp, hcompletes⟩
    rcases mem_entries.mp he with he | ⟨q, hq, rfl⟩
    · exact .inl ⟨e, he, hp, hcompletes⟩
    · exact .inr ⟨q, hq, hp, (hstate q).mp hcompletes⟩
  · rintro (⟨b, hb, hp, hcompletes⟩ | ⟨q, hq, hp, hformulas⟩)
    · exact ⟨b, mem_entries.mpr (.inl hb), hp, hcompletes⟩
    · exact ⟨q.toBranch, mem_entries.mpr (.inr ⟨q, hq, rfl⟩), hp, (hstate q).mpr hformulas⟩

theorem offers_expand_iff {b : Branch} {others bs : List Branch}
    (hbranches : s.branches = b :: others) (hbranches' : t.branches = bs ++ others)
    (hstates : t.states = s.states) (hexpansion : Expansion s.fresh b t.fresh bs) :
    t.Offers p old next ↔ s.Offers p old next := by
  have hparts : (∃ b' ∈ bs, p ∈ b'.incoming ∧ b'.Completes old next) ↔
      p ∈ b.incoming ∧ b.Completes old next := by
    rw [hexpansion.completes_iff]
    constructor
    · rintro ⟨b', hb', hp, hcompletes⟩
      exact ⟨hexpansion.incoming_eq hb' ▸ hp, b', hb', hcompletes⟩
    · rintro ⟨hp, b', hb', hcompletes⟩
      exact ⟨b', hb', hexpansion.incoming_eq hb' ▸ hp, hcompletes⟩
  rw [offers_iff, offers_iff, hbranches, hbranches', hstates]
  simp only [List.mem_append, List.mem_cons, or_and_right, exists_or, exists_eq_left, hparts]

theorem offers_merge_iff {b : Branch} {others : List Branch} {q : State}
    (hbranches : s.branches = b :: others) (hnew : ∀ f, ¬ f ∈ b.new) (hq : q ∈ s.states)
    (hagrees : b.agrees q = true) (hbranches' : t.branches = others)
    (hstates : t.states = s.states.map (State.merge b)) :
    t.Offers p old next ↔ s.Offers p old next := by
  have hmerged : (∃ r ∈ t.states, p ∈ r.incoming ∧ r.old = old ∧ r.next = next) ↔
      (p ∈ b.incoming ∧ b.Completes old next) ∨
        ∃ r ∈ s.states, p ∈ r.incoming ∧ r.old = old ∧ r.next = next := by
    simp only [hstates, List.mem_map, exists_exists_and_eq_and, mem_incoming_merge, old_merge,
      next_merge, completes_iff_of_complete hnew]
    constructor
    · rintro ⟨r, hr, hp | ⟨hagrees, hp⟩, hformulas⟩
      · exact .inr ⟨r, hr, hp, hformulas⟩
      · obtain ⟨hold, hnext⟩ := agrees_iff.mp hagrees
        exact .inl ⟨hp, hold ▸ hformulas.1, hnext ▸ hformulas.2⟩
    · rintro (⟨hp, hformulas⟩ | ⟨r, hr, hp, hformulas⟩)
      · obtain ⟨hold, hnext⟩ := agrees_iff.mp hagrees
        exact ⟨q, hq, .inr ⟨hagrees, hp⟩, hold.trans hformulas.1, hnext.trans hformulas.2⟩
      · exact ⟨r, hr, .inl hp, hformulas⟩
  rw [offers_iff, offers_iff, hmerged, hbranches, hbranches']
  simp only [List.mem_cons, or_and_right, exists_or, exists_eq_left]
  exact or_left_comm.trans or_assoc.symm

/-- A branch that becomes a state goes on to offer what it did, and a branch for what it has put off
is offered after it. -/
theorem offers_close_iff {b : Branch} {others : List Branch} (hbranches : s.branches = b :: others)
    (hnew : ∀ f, ¬ f ∈ b.new)
    (hbranches' : t.branches = .start s.fresh b.id b.next :: others)
    (hstates : t.states = s.states ++ [⟨b.id, b.incoming, b.old, b.next⟩]) :
    t.Offers p old next ↔
      (p = b.id ∧ (Branch.start 0 p b.next).Completes old next) ∨ s.Offers p old next := by
  have hstarted : p ∈ (Branch.start s.fresh b.id b.next).incoming ∧
      (Branch.start s.fresh b.id b.next).Completes old next ↔
      p = b.id ∧ (Branch.start 0 p b.next).Completes old next := by
    refine and_congr SortedSet.mem_singleton ⟨?_, ?_⟩
    · exact fun h => h.congr rfl rfl rfl
    · exact fun h => h.congr rfl rfl rfl
  have hclosed : p ∈ b.incoming ∧ b.Completes old next ↔
      p ∈ b.incoming ∧ b.old = old ∧ b.next = next := by
    rw [completes_iff_of_complete hnew]
  rw [offers_iff, offers_iff, hbranches, hbranches', hstates]
  simp only [List.mem_append, List.mem_cons, List.not_mem_nil, or_false, or_and_right, exists_or,
    exists_eq_left, hstarted, hclosed]
  grind

theorem exhaustive_start (root : Formula) : (Search.start root).Exhaustive root := by
  intro p owed howes old next
  rcases howes with ⟨rfl, rfl⟩ | ⟨q, hq, -⟩
  · rw [offers_iff]
    simp only [Search.start, branches, Option.toList_none, List.nil_append, List.mem_singleton,
      exists_eq_left, List.not_mem_nil, false_and, exists_false, or_false]
    refine ⟨fun h => h.2.congr rfl rfl rfl, fun h => ⟨?_, h.congr rfl rfl rfl⟩⟩
    exact SortedSet.mem_singleton.mpr rfl
  · cases hq

theorem Exhaustive.move (hs : s.Exhaustive root) (hnumbered : s.Numbered) (h : Move s t) :
    t.Exhaustive root := by
  intro p owed howes old next
  cases h with
  | idle hfresh hbranches hstates hcurrent =>
    rw [Offers, entries_eq hbranches hstates]
    exact hs p owed (hstates ▸ howes) old next
  | expand hbranches hbranches' hstates hexpansion hcurrent =>
    rw [offers_expand_iff hbranches hbranches' hstates hexpansion]
    exact hs p owed (hstates ▸ howes) old next
  | merge hbranches hnew hq hagrees hfresh hbranches' hstates =>
    rw [offers_merge_iff hbranches hnew hq hagrees hbranches' hstates]
    rw [hstates, owes_merge_iff] at howes
    exact hs p owed howes old next
  | @close b others hbranches hnew hagrees hfresh hbranches' hstates =>
    rw [offers_close_iff hbranches hnew hbranches' hstates]
    obtain ⟨hzero, hids⟩ := hnumbered.id_ne hbranches
    rw [hstates] at howes
    rcases owes_of_close howes with howes | ⟨rfl, rfl⟩
    · -- the number of the new state is not that of an earlier one
      have hp : p ≠ b.id := by
        rcases howes with ⟨rfl, -⟩ | ⟨q, hq, rfl, -⟩
        · exact hzero.symm
        · exact hids q hq
      simp only [hp, false_and, false_or]
      exact hs p owed howes old next
    · -- nothing followed the branch before it became a state
      have hnone : ¬ s.Offers b.id old next := by
        rintro ⟨e, he, hp, -⟩
        exact hnumbered.not_mem_incoming hbranches he hp
      simp only [hnone, or_false, true_and]

end Search

/-! ### The states that follow a state -/

/-- The states that follow a state are the completions of what it has put off, and those that come
first are the completions of the root. -/
theorem mem_incoming_iff_completes {root : Formula} {t : Tableau} (h : build root = .ok t) {p : Nat}
    {owed : SortedSet Formula} (howes : Owes root t.states p owed) {q : State}
    (hq : q ∈ t.states) :
    p ∈ q.incoming ↔ (Branch.start 0 p owed).Completes q.old q.next := by
  let I : Search → Prop := fun s => s.Bounded root ∧ s.Numbered ∧ s.Exhaustive root
  have hstart : I (.start root) :=
    ⟨Search.bounded_start root, Search.numbered_start root, Search.exhaustive_start root⟩
  have hstep : ∀ s s', s.step = .ok s' → I s → I s' := by
    rintro s s' hstep ⟨hbounded, hnumbered, hexhaustive⟩
    have hmove := Search.move_of_step hstep
    exact ⟨hbounded.move hmove, hnumbered.move hmove, hexhaustive.move hnumbered hmove⟩
  obtain ⟨s, hdone, ⟨hbounded, -, hexhaustive⟩, rfl⟩ := build_invariant hstart hstep h
  rw [← hexhaustive p owed howes, Search.offers_iff, Search.branches_eq_nil hdone]
  simp only [List.not_mem_nil, false_and, exists_false, false_or]
  constructor
  · intro hp
    exact ⟨q, hq, hp, rfl, rfl⟩
  · -- a state with the same formulas is the same state
    rintro ⟨r, hr, hp, hold, hnext⟩
    by_cases hrq : r = q
    · exact hrq ▸ hp
    · have hsymm : Std.Symm fun q r : State => q.old = r.old → q.next ≠ r.next :=
        ⟨fun _ _ hne hold hnext => hne hold.symm hnext.symm⟩
      exact absurd hnext (hbounded.distinct.forall hr hq hrq hold)

end Tableau

end TemporalMonitor
