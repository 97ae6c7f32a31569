import TemporalMonitor.Proofs.Graph.Reachability
import TemporalMonitor.Proofs.Tableau.Completion
import TemporalMonitor.Proofs.Tableau.NormalForm

/-!
# Tableaux are saturated

A state is saturated if every formula recorded in it is met there: without contradiction, by its
parts now, or by what the state puts off. While a branch is expanded this holds only of what is
recorded so far and what is still open. A branch that becomes a state has nothing open.

The states of a tableau are saturated, their predecessors are nodes of the tableau, and every node
can be reached from the initial one, since a branch is always started by a state with a smaller
number than its own.

## Main definitions

* `Tableau.successors` — the states that can follow a state
* `Tableau.State.Saturated` — the formulas of a state are met
* `Tableau.Saturated` — what holds of the nodes of a tableau together
* `Tableau.Branch.Justified`, `Tableau.Search.Grounded` — the invariants of the search

## Main results

* `Tableau.Search.forall_mem_entries_of_move` — what dealing with obligations keeps, steps keep
* `Tableau.State.saturated_of_meets` — a state that meets what it has recorded is saturated
* `Tableau.saturated_of_build` — the tableau of a formula is saturated
-/

namespace TemporalMonitor

namespace Tableau

/-- The nodes that can follow a state, in the order of their completion. -/
def successors (t : Tableau) (q : State) : List State :=
  t.nodes.filter fun r => r.incoming.contains q.id

/-- Every formula recorded is met without contradiction, and nothing is put off without reason. -/
structure State.Saturated (q : State) : Prop where
  falsum_notMem : ¬ .falsum ∈ q.old
  consistent : ∀ name, ¬ (.prop name ∈ q.old ∧ .not (.prop name) ∈ q.old)
  of_and : ∀ f g, .and f g ∈ q.old → f ∈ q.old ∧ g ∈ q.old
  of_or : ∀ f g, .or f g ∈ q.old → f ∈ q.old ∨ g ∈ q.old
  of_until : ∀ f g, .until f g ∈ q.old → g ∈ q.old ∨ f ∈ q.old ∧ .until f g ∈ q.next
  of_release : ∀ f g, .release f g ∈ q.old → g ∈ q.old ∧ (f ∈ q.old ∨ .release f g ∈ q.next)
  of_next : ∀ f, .next f ∈ q.old → f ∈ q.next
  of_mem_next : ∀ f ∈ q.next, .next f ∈ q.old ∨
    (∃ g h, f = .until g h ∧ f ∈ q.old ∧ g ∈ q.old) ∨
    ∃ g h, f = .release g h ∧ f ∈ q.old ∧ h ∈ q.old

/-- The nodes of a tableau are told apart by their numbers and reached from the initial one. The
states among them are told apart by their formulas, are saturated, take up what their predecessors
have put off, and are followed by the same states if they have put off the same. -/
structure Saturated (t : Tableau) : Prop where
  nodup_ids : (t.nodes.map State.id).Nodup
  distinct : t.states.Pairwise fun q r => ¬ (q.old = r.old ∧ q.next = r.next)
  exists_incoming : ∀ q ∈ t.nodes, ∀ p ∈ q.incoming, ∃ r ∈ t.nodes, r.id = p
  reaches : ∀ q ∈ t.nodes, Reaches t.successors .initial q
  saturated : ∀ q ∈ t.states, q.Saturated
  root_mem : ∀ q ∈ t.states, State.initial.id ∈ q.incoming → t.root ∈ q.old
  next_subset : ∀ p ∈ t.nodes, ∀ q ∈ t.states, p.id ∈ q.incoming → p.next ⊆ q.old
  successors_eq : ∀ p ∈ t.states, ∀ q ∈ t.states, p.next = q.next →
    t.successors p = t.successors q

/-! ### Rules -/

section Rule

variable {f g : Formula} {r : Rule} {o : Obligations}

/-- Being opposite is mutual. -/
theorem rule_of_rule_eq_literal (h : rule f = some (.literal g)) : rule g = some (.literal f) := by
  unfold rule at h
  split at h <;> cases h <;> rfl

/-- Only next, until and release put something off. -/
theorem eq_of_mem_later (hr : rule f = some r) (ho : o ∈ r.alternatives) (hg : g ∈ o.later) :
    f = .next g ∨ (∃ h k, g = .until h k ∧ f = g ∧ o.now = [h]) ∨
      ∃ h k, g = .release h k ∧ f = g ∧ o.now = [k] := by
  unfold rule at hr
  split at hr <;> cases hr <;> simp only [Rule.alternatives, List.mem_cons, List.not_mem_nil] at ho
  all_goals grind

end Rule

/-! ### What is recorded does not clash, and what is put off has a reason -/

/-- No literal is recorded with its opposite, and what is put off is put off by the alternative of a
formula recorded. -/
structure Branch.Justified (b : Branch) : Prop where
  clear : ∀ f ∈ b.old, ∀ opposite, rule f = some (.literal opposite) → ¬ opposite ∈ b.old
  deferred : ∀ g ∈ b.next, ∃ f ∈ b.old, ∃ r, rule f = some r ∧ ∃ o ∈ r.alternatives,
    g ∈ o.later ∧ ∀ h ∈ o.now, b.Requires h

section Justified

variable {b c : Branch}

theorem justified_start (id p : Nat) (new : SortedSet Formula) :
    (Branch.start id p new).Justified :=
  ⟨fun _ hf => absurd hf SortedSet.notMem_empty, fun _ hg => absurd hg SortedSet.notMem_empty⟩

theorem Branch.Alike.justified (h : b.Alike c) (hc : c.Justified) : b.Justified := by
  constructor
  case clear =>
    rw [h.old]
    exact hc.clear
  case deferred =>
    intro g hg
    rw [h.next] at hg
    obtain ⟨f, hf, r, hrule, o, ho, hlater, hnow⟩ := hc.deferred g hg
    exact ⟨f, h.old ▸ hf, r, hrule, o, ho, hlater, fun k hk => (h.requires k).mpr (hnow k hk)⟩

theorem Branch.Justified.deals (hb : b.Justified) (h : b.Deals c) : c.Justified := by
  cases h with
  | skip hpop hold =>
    refine ⟨hb.clear, fun g hg => ?_⟩
    obtain ⟨f, hf, r, hrule, o, ho, hlater, hnow⟩ := hb.deferred g hg
    exact ⟨f, hf, r, hrule, o, ho, hlater, fun k hk => (requires_rest hpop hold).mpr (hnow k hk)⟩
  | @meet f rest r o hpop hopen hrule hclear ho =>
    constructor
    case clear =>
      intro g hg opposite hopposite hmem
      rcases mem_old_meet.mp hg with rfl | hold <;> rcases mem_old_meet.mp hmem with rfl | hold'
      · -- no literal is its own opposite
        unfold rule at hopposite
        split at hopposite <;> cases hopposite
      · rw [hrule] at hopposite
        exact hclear opposite (Option.some.inj hopposite) hold'
      · -- the new formula would be the opposite of one that is recorded
        have hback := rule_of_rule_eq_literal hopposite
        rw [hrule] at hback
        exact hclear g (Option.some.inj hback) hold
      · exact hb.clear g hold opposite hopposite hold'
    case deferred =>
      intro g hg
      rcases mem_next_meet.mp hg with hg | hg
      · obtain ⟨k, hk, r', hrule', o', ho', hlater, hnow⟩ := hb.deferred g hg
        exact ⟨k, mem_old_meet.mpr (.inr hk), r', hrule', o', ho', hlater,
          fun l hl => (requires_meet hpop).mpr (.inl (hnow l hl))⟩
      · exact ⟨f, mem_old_meet.mpr (.inl rfl), r, hrule, o, ho, hg,
          fun l hl => (requires_meet hpop).mpr (.inr hl)⟩

end Justified

namespace Search

variable {s t : Search}

/-- What holds of every branch that is started, is kept by dealing with an obligation, and depends
on the formulas only, holds of all entries. -/
theorem forall_mem_entries_of_move {P : Branch → Prop}
    (hstart : ∀ id p new, P (.start id p new)) (halike : ∀ b c : Branch, b.Alike c → P c → P b)
    (hdeals : ∀ b c : Branch, b.Deals c → P b → P c) (hs : ∀ e ∈ s.entries, P e) (h : Move s t) :
    ∀ e ∈ t.entries, P e := by
  intro e he
  cases h with
  | idle hfresh hbranches hstates hcurrent =>
    rw [entries_eq hbranches hstates] at he
    exact hs e he
  | @expand b others bs hbranches hbranches' hstates hexpansion hcurrent =>
    rcases mem_entries_of_expand hbranches hbranches' hstates he with he | he
    · have hdealt := hdeals b _ (hexpansion.deals_iff.mpr ⟨e, he, rfl⟩)
        (hs b (mem_entries_of_branches hbranches))
      exact halike e { e with id := b.id } ⟨rfl, rfl, fun _ => Iff.rfl⟩ hdealt
    · exact hs e he
  | merge hbranches hnew hq hagrees hfresh hbranches' hstates =>
    rcases mem_entries_of_merge hbranches hbranches' hstates he with he | ⟨q, hq, rfl⟩
    · exact hs e he
    · exact halike _ _ (alike_merge q _) (hs _ (mem_entries.mpr (.inr ⟨q, hq, rfl⟩)))
  | close hbranches hnew hagrees hfresh hbranches' hstates =>
    rcases mem_entries_of_close hbranches hbranches' hstates he with rfl | rfl | he
    · exact hstart _ _ _
    · exact halike _ _ (alike_of_agrees hnew (agrees_iff.mpr ⟨rfl, rfl⟩))
        (hs _ (mem_entries_of_branches hbranches))
    · exact hs e he

/-! ### Predecessors with smaller numbers -/

/-- Every entry has a predecessor with a smaller number. -/
def Grounded (s : Search) : Prop := ∀ e ∈ s.entries, ∃ p ∈ e.incoming, p < e.id

theorem grounded_start (root : Formula) : (Search.start root).Grounded := by
  intro e he
  obtain rfl : e = .start 1 0 {root} := by simpa [entries, branches, Search.start] using he
  exact ⟨0, SortedSet.mem_singleton.mpr rfl, Nat.zero_lt_one⟩

theorem Grounded.move (hs : s.Grounded) (hnumbered : s.Numbered) (h : Move s t) :
    t.Grounded := by
  intro e he
  cases h with
  | idle hfresh hbranches hstates hcurrent =>
    rw [entries_eq hbranches hstates] at he
    exact hs e he
  | @expand b others bs hbranches hbranches' hstates hexpansion hcurrent =>
    rcases mem_entries_of_expand hbranches hbranches' hstates he with he | he
    · -- numbers given to the parts of a branch are larger than its own
      have hb := mem_entries_of_branches hbranches
      obtain ⟨p, hp, hlt⟩ := hs b hb
      have hfresh := (hnumbered.bounds b hb).2
      refine ⟨p, hexpansion.incoming_eq he ▸ hp, ?_⟩
      have hid : e.id ∈ bs.map Branch.id := List.mem_map_of_mem he
      rcases hexpansion.ids with ⟨hmap | hmap, -⟩ | ⟨hmap, -⟩ <;> rw [hmap] at hid <;>
        simp at hid <;> omega
    · exact hs e he
  | merge hbranches hnew hq hagrees hfresh hbranches' hstates =>
    rcases mem_entries_of_merge hbranches hbranches' hstates he with he | ⟨q, hq, rfl⟩
    · exact hs e he
    · obtain ⟨p, hp, hlt⟩ := hs q.toBranch (mem_entries.mpr (.inr ⟨q, hq, rfl⟩))
      refine ⟨p, mem_incoming_merge.mpr (.inl hp), ?_⟩
      simpa [State.toBranch] using hlt
  | close hbranches hnew hagrees hfresh hbranches' hstates =>
    have hb := mem_entries_of_branches hbranches
    have hgrounded := hs _ hb
    rcases mem_entries_of_close hbranches hbranches' hstates he with rfl | rfl | he
    · exact ⟨_, SortedSet.mem_singleton.mpr rfl, (hnumbered.bounds _ hb).2⟩
    · exact hgrounded
    · exact hs e he

end Search

/-! ### Saturated states -/

theorem State.saturated_of_meets {q : State} (hmeets : ∀ f ∈ q.old, q.toBranch.Meets f)
    (hjustified : q.toBranch.Justified) : q.Saturated := by
  constructor
  case falsum_notMem => exact fun hf => not_meets_falsum (hmeets _ hf)
  case consistent =>
    rintro name ⟨hprop, hnot⟩
    exact hjustified.clear _ hprop _ rfl hnot
  case of_and => exact fun f g hf => and_cases (hmeets _ hf)
  case of_or => exact fun f g hf => or_cases (hmeets _ hf)
  case of_until => exact fun f g hf => until_cases (hmeets _ hf)
  case of_release => exact fun f g hf => release_cases (hmeets _ hf)
  case of_next => exact fun f hf => next_cases (hmeets _ hf)
  case of_mem_next =>
    intro g hg
    obtain ⟨f, hf, r, hrule, o, ho, hlater, hnow⟩ := hjustified.deferred g hg
    have hnow' : ∀ h ∈ o.now, h ∈ q.old := fun h hh => requires_toBranch.mp (hnow h hh)
    rcases eq_of_mem_later hrule ho hlater with
      rfl | ⟨h, k, rfl, rfl, hnows⟩ | ⟨h, k, rfl, rfl, hnows⟩
    · exact .inl hf
    · exact .inr (.inl ⟨h, k, rfl, hf, hnow' h (by simp [hnows])⟩)
    · exact .inr (.inr ⟨h, k, rfl, hf, hnow' k (by simp [hnows])⟩)

/-! ### The tableau of a formula -/

section Build

variable {root : Formula} {t : Tableau}

theorem mem_successors {p q : State} : q ∈ t.successors p ↔ q ∈ t.nodes ∧ p.id ∈ q.incoming := by
  rw [successors, List.mem_filter, SortedSet.contains_iff]

/-- The states of a tableau have distinct numbers and formulas, and each follows a node with a
smaller number. -/
theorem entries_of_build (h : build root = .ok t) :
    (t.states.map State.id).Nodup ∧ (∀ q ∈ t.states, 0 < q.id) ∧
      (t.states.Pairwise fun q r => ¬ (q.old = r.old ∧ q.next = r.next)) ∧
      (∀ q ∈ t.states, ∀ p ∈ q.incoming, p = 0 ∨ ∃ r ∈ t.states, r.id = p) ∧
      (∀ q ∈ t.states, ∃ p ∈ q.incoming, p < q.id) ∧
      ∀ q ∈ t.states, q.toBranch.Justified := by
  let I : Search → Prop := fun s => s.Bounded root ∧ s.Numbered ∧ s.Grounded ∧
    ∀ e ∈ s.entries, e.Justified
  have hstart : I (.start root) := by
    refine ⟨Search.bounded_start root, Search.numbered_start root, Search.grounded_start root, ?_⟩
    intro e he
    obtain rfl : e = .start 1 0 {root} := by
      simpa [Search.entries, Search.branches, Search.start] using he
    exact justified_start _ _ _
  have hstep : ∀ s s', s.step = .ok s' → I s → I s' := by
    rintro s s' hstep ⟨hbounded, hnumbered, hgrounded, hjustified⟩
    have hmove := Search.move_of_step hstep
    refine ⟨hbounded.move hmove, hnumbered.move hmove, hgrounded.move hnumbered hmove, ?_⟩
    exact Search.forall_mem_entries_of_move justified_start (fun _ _ halike => halike.justified)
      (fun _ _ hdeals hb => hb.deals hdeals) hjustified hmove
  obtain ⟨s, hdone, ⟨hbounded, hnumbered, hgrounded, hjustified⟩, rfl⟩ :=
    build_invariant hstart hstep h
  have hentries : ∀ q ∈ s.states, q.toBranch ∈ s.entries :=
    fun q hq => Search.mem_entries.mpr (.inr ⟨q, hq, rfl⟩)
  have hids := hnumbered.nodup
  rw [Search.map_id_entries, Search.branches_eq_nil hdone] at hids
  exact ⟨hids, fun q hq => (hnumbered.bounds _ (hentries q hq)).1,
    hbounded.distinct.imp fun hne hsame => hne hsame.1 hsame.2,
    fun q hq => hnumbered.incoming _ (hentries q hq), fun q hq => hgrounded _ (hentries q hq),
    fun q hq => hjustified _ (hentries q hq)⟩

/-- Going back to predecessors with smaller numbers ends at the initial state. -/
theorem reaches_of_build (h : build root = .ok t) {q : State} (hq : q ∈ t.nodes) :
    Reaches t.successors .initial q := by
  obtain ⟨-, -, -, hincoming, hgrounded, -⟩ := entries_of_build h
  induction hid : q.id using Nat.strong_induction_on generalizing q with
  | _ n ih =>
    rcases List.mem_cons.mp hq with rfl | hq'
    · exact .refl
    · obtain ⟨p, hp, hlt⟩ := hgrounded q hq'
      rcases hincoming q hq' p hp with rfl | ⟨r, hr, rfl⟩
      · exact .single (mem_successors.mpr ⟨hq, hp⟩)
      · exact (ih r.id (hid ▸ hlt) (List.mem_cons_of_mem _ hr) rfl).tail
          (mem_successors.mpr ⟨hq, hp⟩)

/-- States that have put off the same formulas are followed by the same states. -/
theorem successors_eq_of_build (h : build root = .ok t) {p q : State} (hp : p ∈ t.states)
    (hq : q ∈ t.states) (hnext : p.next = q.next) : t.successors p = t.successors q := by
  refine List.filter_congr fun r hr => ?_
  rw [Bool.eq_iff_iff, SortedSet.contains_iff, SortedSet.contains_iff]
  rcases List.mem_cons.mp hr with rfl | hr
  · exact iff_of_false SortedSet.notMem_empty SortedSet.notMem_empty
  · rw [mem_incoming_iff_completes h (.inr ⟨p, hp, rfl, rfl⟩) hr,
      mem_incoming_iff_completes h (.inr ⟨q, hq, rfl, rfl⟩) hr, hnext]
    exact ⟨fun hc => hc.congr rfl rfl rfl, fun hc => hc.congr rfl rfl rfl⟩

/-- The tableau of a formula is saturated. -/
theorem saturated_of_build (root : Formula) (t : Tableau) (h : build root = .ok t) :
    t.root = root ∧ t.Saturated := by
  obtain ⟨hroot, hfaithful⟩ := faithful_of_build h
  obtain ⟨hids, hpos, hdistinct, hincoming, -, hjustified⟩ := entries_of_build h
  refine ⟨hroot, ?_⟩
  constructor
  case nodup_ids =>
    rw [nodes, List.map_cons, List.nodup_cons]
    refine ⟨fun hzero => ?_, hids⟩
    obtain ⟨q, hq, hid⟩ := List.mem_map.mp hzero
    exact Nat.ne_of_gt (hpos q hq) hid
  case distinct => exact hdistinct
  case exists_incoming =>
    intro q hq p hp
    rcases List.mem_cons.mp hq with rfl | hq
    · exact absurd hp SortedSet.notMem_empty
    · rcases hincoming q hq p hp with rfl | ⟨r, hr, hid⟩
      · exact ⟨.initial, List.mem_cons_self, rfl⟩
      · exact ⟨r, List.mem_cons_of_mem _ hr, hid⟩
  case reaches => exact fun q hq => reaches_of_build h hq
  case saturated =>
    exact fun q hq => State.saturated_of_meets (hfaithful.meets q hq) (hjustified q hq)
  case root_mem =>
    intro q hq hinitial
    exact hfaithful.owed 0 _ (.inl ⟨rfl, rfl⟩) q hq hinitial _ (SortedSet.mem_singleton.mpr rfl)
  case next_subset =>
    intro p hp q hq hpq
    rcases List.mem_cons.mp hp with rfl | hp
    · exact fun f hf => absurd hf SortedSet.notMem_empty
    · exact hfaithful.owed p.id _ (.inr ⟨p, hp, rfl, rfl⟩) q hq hpq
  case successors_eq => exact fun p hp q hq => successors_eq_of_build h hp hq

/-- There is `a` until `b` comes next. -/
def heldUntilNext : Formula := .until (.prop "a") (.next (.prop "b"))

/-- Two states put off nothing, the one that records `b` and the one that records nothing either.
They are followed by the same states. -/
theorem saturated_heldUntilNext :
    ∃ t, build heldUntilNext = .ok t ∧ t.root = heldUntilNext ∧ t.Saturated ∧
      ∃ p ∈ t.states, ∃ q ∈ t.states, p.old = {.prop "b"} ∧ q.old = ∅ ∧
        p.next = ∅ ∧ q.next = ∅ ∧ t.successors p = t.successors q := by
  have hpair : (build heldUntilNext).map (fun t => decide (∃ p ∈ t.states, ∃ q ∈ t.states,
      p.old = {.prop "b"} ∧ q.old = ∅ ∧ p.next = ∅ ∧ q.next = ∅)) = .ok true := by
    decide +kernel
  obtain ⟨t, ht⟩ := exists_build_of_isNormalized (f := heldUntilNext) (by decide)
  rw [ht] at hpair
  obtain ⟨p, hp, q, hq, hpold, hqold, hpnext, hqnext⟩ :=
    of_decide_eq_true (Except.ok.inj hpair)
  obtain ⟨hroot, hsaturated⟩ := saturated_of_build heldUntilNext t ht
  exact ⟨t, ht, hroot, hsaturated, p, hp, q, hq, hpold, hqold, hpnext, hqnext,
    hsaturated.successors_eq p hp q hq (hpnext.trans hqnext.symm)⟩

end Build

end Tableau

end TemporalMonitor
