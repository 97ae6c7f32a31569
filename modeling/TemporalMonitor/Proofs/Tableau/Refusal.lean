import TemporalMonitor.Proofs.Automaton.Acceptance
import TemporalMonitor.Proofs.Tableau.Automaton
import TemporalMonitor.Proofs.Tableau.Completion
import TemporalMonitor.Proofs.Tableau.NormalForm

/-!
# Formulas that have no tableau

The search for states asks for a rule when it takes a formula up, and not before. It fails exactly
if some branch that arises in it takes up a formula without a rule. This depends on the formulas of
the branches alone, not on the order in which they are expanded, their numbers or the states found.

A branch that is dropped on a contradiction takes up nothing more, so a formula outside the normal
form can have a tableau. Its automaton is right all the same. Where no obligation is impossible or
opposed by another, nothing is dropped, and the formulas that have tableaux are the normal forms.

## Main definitions

* `Tableau.Arises` — the branches that a search can come to
* `Tableau.Visits` — the formulas that are taken up in it
* `Tableau.Obstructed` — one of them has no rule
* `Tableau.Unopposed` — no obligation is impossible or the opposite of another

## Main results

* `Tableau.exists_build_error_iff` — when the search fails
* `Tableau.isNormalized_of_unopposed` — without contradictions every part is taken up
* `Formula.tableauAutomaton_rejects_iff` — when a formula outside the normal form is refused
-/

namespace TemporalMonitor

namespace Tableau

/-! ### Taking up formulas -/

/-- The formula is the least open obligation, and is not recorded yet. -/
def Branch.TakesUp (b : Branch) (f : Formula) : Prop :=
  (∃ rest, b.new.pop? = some (f, rest)) ∧ ¬ f ∈ b.old

/-- The branches that the search for the states of a formula can come to, whatever their numbers and
predecessors are. -/
inductive Arises (root : Formula) : Branch → Prop where
  | start : Arises root (.start 0 0 {root})
  | deals {b c : Branch} (hb : Arises root b) (h : b.Deals c) : Arises root c
  -- a complete branch is followed by one for what it has put off
  | later {b : Branch} (hb : Arises root b) (hnew : ∀ f, ¬ f ∈ b.new) :
    Arises root (.start 0 0 b.next)
  | relabel {b : Branch} (hb : Arises root b) (id : Nat) (incoming : SortedSet Nat) :
    Arises root { b with id, incoming }

/-- The formulas that are taken up in the search for the states of a formula. -/
def Visits (root f : Formula) : Prop := ∃ b, Arises root b ∧ b.TakesUp f

/-- A formula without a rule is taken up. -/
def Obstructed (root : Formula) : Prop := ∃ f, Visits root f ∧ rule f = none

/-- There is a rule for whatever is taken up on the way to a completion of the branch. -/
def Branch.Ruled (b : Branch) : Prop :=
  ∀ c, Relation.ReflTransGen Branch.Deals b c → ∀ f, c.TakesUp f → ∃ r, rule f = some r

section Ruled

variable {fresh fresh' : Nat} {b c : Branch} {bs : List Branch} {f : Formula}

theorem Branch.TakesUp.mem_new (h : b.TakesUp f) : f ∈ b.new := by
  obtain ⟨⟨rest, hpop⟩, -⟩ := h
  exact SortedSet.mem_of_pop? hpop

theorem Branch.Ruled.congr (h : b.Ruled) (hnew : c.new = b.new) (hold : c.old = b.old)
    (hnext : c.next = b.next) : c.Ruled := by
  intro d hcd f hf
  have hlift := reflTransGen_deals_relabel hcd b.id b.incoming
  rw [hnew, hold, hnext] at hlift
  exact h _ hlift f hf

/-- Without open obligations nothing is taken up. -/
theorem ruled_of_complete (hnew : ∀ f, ¬ f ∈ b.new) : b.Ruled := by
  intro c hbc f hf
  rcases hbc.cases_head with rfl | ⟨d, hbd, -⟩
  · exact absurd hf.mem_new (hnew f)
  · obtain ⟨g, hg⟩ := hbd.exists_mem_new
    exact absurd hg (hnew g)

/-- A branch is expanded only if there is a rule for what it takes up. -/
theorem Expansion.exists_rule (h : Expansion fresh b fresh' bs) (hf : b.TakesUp f) :
    ∃ r, rule f = some r := by
  obtain ⟨⟨rest, hpop⟩, hopen⟩ := hf
  cases h with
  | skip hpop' hold =>
    cases hpop.symm.trans hpop'
    exact absurd hold hopen
  | drop hpop' hrule =>
    cases hpop.symm.trans hpop'
    exact ⟨_, hrule⟩
  | extend hpop' hrule =>
    cases hpop.symm.trans hpop'
    exact ⟨_, hrule⟩
  | split hpop' hrule =>
    cases hpop.symm.trans hpop'
    exact ⟨_, hrule⟩

theorem Expansion.ruled (h : Expansion fresh b fresh' bs) (hparts : ∀ b' ∈ bs, b'.Ruled) :
    b.Ruled := by
  intro c hbc f hf
  rcases hbc.cases_head with rfl | ⟨d, hbd, hdc⟩
  · exact h.exists_rule hf
  · obtain ⟨b', hb', rfl⟩ := h.deals_iff.mp hbd
    have hruled : Branch.Ruled { b' with id := b.id } := (hparts b' hb').congr rfl rfl rfl
    exact hruled c hdc f hf

end Ruled

/-! ### Where the search fails -/

namespace Search

variable {root f : Formula} {s t : Search}

/-- A step fails only on a formula that is taken up and has no rule. -/
theorem exists_takesUp_of_step (h : s.step = .error f) :
    ∃ b ∈ s.branches, b.TakesUp f ∧ rule f = none := by
  unfold step at h
  split at h
  · rename_i b hcurrent
    have hb : b ∈ s.branches := by
      rw [branches, hcurrent]
      exact List.mem_cons_self
    split at h
    · rename_i g rest hpop
      unfold expand at h
      split at h
      · cases h
      · rename_i hopen
        split at h <;> rename_i hrule <;> cases h
        exact ⟨b, hb, ⟨⟨rest, hpop⟩, hopen⟩, hrule⟩
    · cases h
  · cases h
  · cases h

theorem arises_of_move (hs : ∀ b ∈ s.branches, Arises root b) (h : Move s t) :
    ∀ b ∈ t.branches, Arises root b := by
  intro c hc
  cases h with
  | idle hfresh hbranches hstates hcurrent => exact hs c (hbranches ▸ hc)
  | @expand b others bs hbranches hbranches' hstates hexpansion hcurrent =>
    rw [hbranches] at hs
    rw [hbranches', List.mem_append] at hc
    rcases hc with hc | hc
    · -- the parts of a branch come from dealing with an obligation, up to their numbers
      have hdeals := hexpansion.deals_iff.mpr ⟨c, hc, rfl⟩
      exact ((hs b List.mem_cons_self).deals hdeals).relabel c.id c.incoming
    · exact hs c (List.mem_cons_of_mem b hc)
  | @merge b others q hbranches hnew hq hagrees hfresh hbranches' hstates =>
    rw [hbranches] at hs
    rw [hbranches'] at hc
    exact hs c (List.mem_cons_of_mem b hc)
  | @close b others hbranches hnew hagrees hfresh hbranches' hstates =>
    rw [hbranches] at hs
    rw [hbranches', List.mem_cons] at hc
    rcases hc with rfl | hc
    · exact ((hs b List.mem_cons_self).later hnew).relabel s.fresh {b.id}
    · exact hs c (List.mem_cons_of_mem b hc)

/-- If there are rules for all that the branches still take up, there are rules for all that is
taken up after any state. -/
def Thorough (root : Formula) (s : Search) : Prop :=
  (∀ b ∈ s.branches, b.Ruled) → ∀ p owed, Owes root s.states p owed →
    (Branch.start 0 0 owed).Ruled

theorem thorough_start (root : Formula) : (Search.start root).Thorough root := by
  intro hruled p owed howes
  rcases howes with ⟨-, rfl⟩ | ⟨q, hq, -⟩
  · exact (hruled _ (List.mem_singleton_self _)).congr rfl rfl rfl
  · cases hq

theorem Thorough.move (hs : s.Thorough root) (h : Move s t) : t.Thorough root := by
  intro hruled p owed howes
  cases h with
  | idle hfresh hbranches hstates hcurrent =>
    exact hs (hbranches ▸ hruled) p owed (hstates ▸ howes)
  | expand hbranches hbranches' hstates hexpansion hcurrent =>
    rw [hbranches', List.forall_mem_append] at hruled
    refine hs ?_ p owed (hstates ▸ howes)
    rw [hbranches, List.forall_mem_cons]
    exact ⟨hexpansion.ruled hruled.1, hruled.2⟩
  | merge hbranches hnew hq hagrees hfresh hbranches' hstates =>
    rw [hbranches'] at hruled
    rw [hstates, owes_merge_iff] at howes
    refine hs ?_ p owed howes
    rw [hbranches, List.forall_mem_cons]
    exact ⟨ruled_of_complete hnew, hruled⟩
  | close hbranches hnew hagrees hfresh hbranches' hstates =>
    rw [hbranches', List.forall_mem_cons] at hruled
    rw [hstates] at howes
    rcases owes_of_close howes with howes | ⟨-, rfl⟩
    · refine hs ?_ p owed howes
      rw [hbranches, List.forall_mem_cons]
      exact ⟨ruled_of_complete hnew, hruled.2⟩
    · -- the branch for what the new state has put off is still open
      exact hruled.1.congr rfl rfl rfl

end Search

/-- When the search is done, every branch that arises comes from what some state has put off, or
from the root. -/
theorem Arises.exists_owes {root : Formula} {s : Search} {b : Branch} (h : Arises root b)
    (hdone : s.isDone = true) (hs : s.Exhaustive root) :
    ∃ p owed, Owes root s.states p owed ∧
      Relation.ReflTransGen Branch.Deals (.start 0 0 owed)
        { b with id := 0, incoming := {0} } := by
  induction h with
  | start => exact ⟨0, {root}, .inl ⟨rfl, rfl⟩, .refl⟩
  | deals hb hdeals ih =>
    obtain ⟨p, owed, howes, hreach⟩ := ih
    exact ⟨p, owed, howes, hreach.tail (hdeals.relabel 0 {0})⟩
  | @later b hb hnew ih =>
    obtain ⟨p, owed, howes, hreach⟩ := ih
    have hcompletes : (Branch.start 0 0 owed).Completes b.old b.next := ⟨_, hreach, hnew, rfl, rfl⟩
    -- no completion is lost, and in the end completions are states
    have hoffers : s.Offers p b.old b.next :=
      (hs p owed howes b.old b.next).mpr (hcompletes.congr rfl rfl rfl)
    rw [Search.offers_iff, Search.branches_eq_nil hdone] at hoffers
    rcases hoffers with ⟨c, hc, -⟩ | ⟨q, hq, -, -, hnext⟩
    · cases hc
    · exact ⟨q.id, b.next, .inr ⟨q, hq, rfl, hnext.symm⟩, .refl⟩
  | relabel hb id incoming ih => exact ih

section Build

variable {root f : Formula} {t : Tableau}

theorem not_obstructed_of_build (h : build root = .ok t) : ¬ Obstructed root := by
  let I : Search → Prop := fun s => s.Numbered ∧ s.Exhaustive root ∧ s.Thorough root
  have hstart : I (.start root) :=
    ⟨Search.numbered_start root, Search.exhaustive_start root, Search.thorough_start root⟩
  have hstep : ∀ s s', s.step = .ok s' → I s → I s' := by
    rintro s s' hstep ⟨hnumbered, hexhaustive, hthorough⟩
    have hmove := Search.move_of_step hstep
    exact ⟨hnumbered.move hmove, hexhaustive.move hnumbered hmove, hthorough.move hmove⟩
  obtain ⟨s, hdone, ⟨-, hexhaustive, hthorough⟩, rfl⟩ := build_invariant hstart hstep h
  -- no branch is left, so there are rules for all that is taken up after the states
  have hbranches : ∀ b ∈ s.branches, b.Ruled := by
    rw [Search.branches_eq_nil hdone]
    exact List.forall_mem_nil _
  rintro ⟨f, ⟨b, hb, hf⟩, hnone⟩
  obtain ⟨p, owed, howes, hreach⟩ := hb.exists_owes hdone hexhaustive
  obtain ⟨r, hrule⟩ := hthorough hbranches p owed howes _ hreach f hf
  rw [hnone] at hrule
  cases hrule

/-- The search fails on a part of the root that is taken up and has no rule. -/
theorem visits_of_build_error (h : build root = .error f) :
    Visits root f ∧ f.IsSubformula root ∧ rule f = none := by
  let I : Search → Prop := fun s => s.Bounded root ∧ ∀ b ∈ s.branches, Arises root b
  have hstart : I (.start root) := by
    refine ⟨Search.bounded_start root, fun b hb => ?_⟩
    obtain rfl := List.mem_singleton.mp hb
    exact Arises.start.relabel 1 {0}
  have hstep : ∀ s s', s.step = .ok s' → I s → I s' := by
    rintro s s' hstep ⟨hbounded, harises⟩
    have hmove := Search.move_of_step hstep
    exact ⟨hbounded.move hmove, Search.arises_of_move harises hmove⟩
  unfold build at h
  split at h
  · cases h
  · rename_i g hrun
    cases h
    obtain ⟨s, ⟨hbounded, harises⟩, herror⟩ := Search.exists_step_error_of_run hstep hstart hrun
    -- the branch at which the search fails arises like those before it
    obtain ⟨b, hb, hf, hnone⟩ := Search.exists_takesUp_of_step herror
    have hentry := Search.mem_entries.mpr (.inl hb)
    exact ⟨⟨b, harises b hb, hf⟩, hbounded.isSubformula b hentry f (.inl (.inr hf.mem_new)), hnone⟩

/-- The search fails exactly if a formula without a rule is taken up. -/
theorem exists_build_error_iff : (∃ f, build root = .error f) ↔ Obstructed root := by
  constructor
  · rintro ⟨f, hf⟩
    obtain ⟨hvisits, -, hnone⟩ := visits_of_build_error hf
    exact ⟨f, hvisits, hnone⟩
  · intro hobstructed
    cases hbuild : build root with
    | error f => exact ⟨f, rfl⟩
    | ok t => exact absurd hobstructed (not_obstructed_of_build hbuild)

/-- Normal forms have rules for all their parts. -/
theorem isNormalized_eq_false_of_rule (hf : f.IsSubformula root) (hnone : rule f = none) :
    root.isNormalized = false := by
  rw [← Bool.not_eq_true]
  intro hnormal
  obtain ⟨r, hrule⟩ :=
    exists_rule_of_isNormalized (Formula.isNormalized_of_isSubformula hf hnormal)
  rw [hnone] at hrule
  cases hrule

end Build

/-! ### Formulas without contradictions -/

/-- The formulas that a formula is turned into by rules, one after the other. -/
inductive Unfolds (root : Formula) : Formula → Prop where
  | refl : Unfolds root root
  | part {f g : Formula} {r : Rule} {o : Obligations} (hf : Unfolds root f)
    (hrule : rule f = some r) (ho : o ∈ r.alternatives) (hg : g ∈ o.now ∨ g ∈ o.later) :
    Unfolds root g

/-- Nothing that the formula unfolds to is impossible, or the opposite of another. -/
def Unopposed (root : Formula) : Prop :=
  ∀ f r, Unfolds root f → rule f = some r →
    r ≠ .impossible ∧ ∀ opposite, r = .literal opposite → ¬ Unfolds root opposite

theorem exists_mem_alternatives {r : Rule} (h : r ≠ .impossible) : ∃ o, o ∈ r.alternatives := by
  cases r with
  | impossible => exact absurd rfl h
  | literal | extend | choice => exact ⟨_, List.mem_cons_self⟩

/-- Where there is a rule for two operands, each is an obligation in some alternative. -/
theorem operands_of_rule {op : BinaryOp} {f g : Formula} {r : Rule}
    (h : rule (.binary op f g) = some r) :
    (∃ o ∈ r.alternatives, f ∈ o.now) ∧ (∃ o ∈ r.alternatives, g ∈ o.now) ∧
      (Formula.binary op f g).isNormalized = (f.isNormalized && g.isNormalized) := by
  cases op with
  | and | or | «until» | release =>
    cases h
    simp [Rule.alternatives, Formula.isNormalized]
  | implies | iff | entails | congruent | weakUntil => cases h

section Unopposed

variable {root f g : Formula} {b : Branch} {rest : SortedSet Formula} {r : Rule} {o : Obligations}

/-- Branches consist of what the root unfolds to. -/
theorem Arises.unfolds (h : Arises root b) (hf : b.Requires f ∨ f ∈ b.next) : Unfolds root f := by
  induction h generalizing f with
  | start =>
    obtain rfl : f = root := by simpa [Branch.start, Branch.Requires] using hf
    exact .refl
  | @deals b c hb hdeals ih =>
    cases hdeals with
    | skip hpop hold =>
      rw [requires_rest hpop hold] at hf
      exact ih hf
    | @meet g rest r o hpop hopen hrule hclear ho =>
      have hg : Unfolds root g := ih (.inl (.inr (SortedSet.mem_of_pop? hpop)))
      rw [requires_meet hpop, mem_next_meet] at hf
      rcases hf with (hf | hf) | (hf | hf)
      · exact ih (.inl hf)
      · exact hg.part hrule ho (.inl hf)
      · exact ih (.inr hf)
      · exact hg.part hrule ho (.inr hf)
  | later hb hnew ih =>
    refine ih (.inr ?_)
    simpa [Branch.start, Branch.Requires] using hf
  | relabel hb id incoming ih => exact ih hf

/-- What is recorded was taken up. -/
theorem Arises.visits_of_mem_old (h : Arises root b) (hf : f ∈ b.old) : Visits root f := by
  induction h generalizing f with
  | start => exact absurd hf SortedSet.notMem_empty
  | @deals b c hb hdeals ih =>
    cases hdeals with
    | skip => exact ih hf
    | meet hpop hopen =>
      rcases mem_old_meet.mp hf with rfl | hf
      · exact ⟨b, hb, ⟨_, hpop⟩, hopen⟩
      · exact ih hf
  | later => exact absurd hf SortedSet.notMem_empty
  | relabel hb id incoming ih => exact ih hf

/-- Without opposites, every alternative of a rule can be followed. -/
theorem Arises.deals_meet (hroot : Unopposed root) (hb : Arises root b)
    (hpop : b.new.pop? = some (f, rest)) (hopen : ¬ f ∈ b.old) (hrule : rule f = some r)
    (ho : o ∈ r.alternatives) : b.Deals (b.meet f rest o) := by
  have hf : Unfolds root f := hb.unfolds (.inl (.inr (SortedSet.mem_of_pop? hpop)))
  refine .meet hpop hopen hrule (fun opposite hliteral hmem => ?_) ho
  exact (hroot f r hf hrule).2 opposite hliteral (hb.unfolds (.inl (.inl hmem)))

variable (hroot : Unopposed root) (hclear : ¬ Obstructed root)

include hroot hclear

theorem Arises.exists_deals (hb : Arises root b) (hf : f ∈ b.new) : ∃ c, b.Deals c := by
  cases hpop : b.new.pop? with
  | none => exact absurd hf (SortedSet.pop?_eq_none_iff.mp hpop f)
  | some popped =>
    obtain ⟨g, rest⟩ := popped
    by_cases hold : g ∈ b.old
    · exact ⟨_, .skip hpop hold⟩
    · have hg : Unfolds root g := hb.unfolds (.inl (.inr (SortedSet.mem_of_pop? hpop)))
      cases hrule : rule g with
      | none => exact absurd ⟨g, ⟨b, hb, ⟨rest, hpop⟩, hold⟩, hrule⟩ hclear
      | some r =>
        obtain ⟨o, ho⟩ := exists_mem_alternatives (hroot g r hg hrule).1
        exact ⟨_, hb.deals_meet hroot hpop hold hrule ho⟩

/-- Every branch can be completed, and keeps what it requires and has put off. -/
theorem Arises.exists_completion (hb : Arises root b) : ∃ c, Arises root c ∧
    (∀ f, ¬ f ∈ c.new) ∧ (∀ f, b.Requires f → f ∈ c.old) ∧ ∀ f ∈ b.next, f ∈ c.next := by
  -- by induction on the symbols that are open
  induction hweight : weight b.new using Nat.strong_induction_on generalizing b with
  | _ n ih =>
    by_cases hnew : ∃ f, f ∈ b.new
    · obtain ⟨f, hf⟩ := hnew
      obtain ⟨c, hbc⟩ := hb.exists_deals hroot hclear hf
      obtain ⟨d, hd, hcomplete, hold, hnext⟩ :=
        ih (weight c.new) (hweight ▸ hbc.weight_lt) (hb.deals hbc) rfl
      exact ⟨d, hd, hcomplete, fun g hg => hold g (hbc.requires hg),
        fun g hg => hnext g (hbc.mem_next hg)⟩
    · have hnew := not_exists.mp hnew
      exact ⟨b, hb, hnew, fun f hf => hf.resolve_right (hnew f), fun f hf => hf⟩

theorem Arises.visits_of_requires (hb : Arises root b) (hf : b.Requires f) : Visits root f := by
  obtain ⟨c, hc, -, hold, -⟩ := hb.exists_completion hroot hclear
  exact hc.visits_of_mem_old (hold f hf)

theorem Arises.visits_of_mem_next (hb : Arises root b) (hf : f ∈ b.next) : Visits root f := by
  obtain ⟨c, hc, hnew, -, hnext⟩ := hb.exists_completion hroot hclear
  -- what a complete branch has put off is open at the next instant
  exact (hc.later hnew).visits_of_requires hroot hclear (.inr (hnext f hf))

/-- Whatever a formula that is taken up is turned into is taken up too. -/
theorem Visits.part (hf : Visits root f) (hrule : rule f = some r) (ho : o ∈ r.alternatives)
    (hg : g ∈ o.now ∨ g ∈ o.later) : Visits root g := by
  obtain ⟨b, hb, ⟨rest, hpop⟩, hopen⟩ := hf
  -- follow the alternative that the part belongs to
  have hmeet := hb.deals (hb.deals_meet hroot hpop hopen hrule ho)
  rcases hg with hg | hg
  · exact hmeet.visits_of_requires hroot hclear ((requires_meet hpop).mpr (.inr hg))
  · exact hmeet.visits_of_mem_next hroot hclear (mem_next_meet.mpr (.inr hg))

theorem Visits.isNormalized (hf : Visits root f) : f.isNormalized = true := by
  induction f with
  | verum | falsum | prop => rfl
  | unary op f ih =>
    cases hrule : rule (.unary op f) with
    | none => exact absurd ⟨_, hf, hrule⟩ hclear
    | some r =>
      cases op with
      | not =>
        -- only propositions may be negated
        cases f <;> cases hrule
        rfl
      | next =>
        have halternative : (⟨[], [f]⟩ : Obligations) ∈ r.alternatives := by
          cases hrule
          exact List.mem_singleton_self _
        exact ih (hf.part hroot hclear hrule halternative (.inr (List.mem_singleton_self f)))
      | eventually | always => cases hrule
  | binary op f g ihf ihg =>
    cases hrule : rule (.binary op f g) with
    | none => exact absurd ⟨_, hf, hrule⟩ hclear
    | some r =>
      obtain ⟨⟨o, ho, hfo⟩, ⟨o', ho', hgo'⟩, hnormal⟩ := operands_of_rule hrule
      rw [hnormal, Bool.and_eq_true]
      exact ⟨ihf (hf.part hroot hclear hrule ho (.inl hfo)),
        ihg (hf.part hroot hclear hrule ho' (.inl hgo'))⟩

/-- Without contradictions every part is taken up, so that only normal forms have tableaux. -/
theorem isNormalized_of_unopposed : root.isNormalized = true := by
  have hvisits : Visits root root :=
    Arises.start.visits_of_requires hroot hclear (.inr (SortedSet.mem_singleton.mpr rfl))
  exact hvisits.isNormalized hroot hclear

end Unopposed

end Tableau

/-! ### Automata -/

namespace Formula

theorem tableauAutomaton_eq_error_iff {f : Formula} {e : SynthesisError} :
    f.tableauAutomaton = .error e ↔
      ∃ g, Tableau.build f = .error g ∧ e = .unsupportedOperator g := by
  unfold tableauAutomaton tableau
  cases Tableau.build f with
  | error g => simp [Except.map, Except.mapError, eq_comm]
  | ok t => simp [Except.map, Except.mapError]

theorem accepts_tableauAutomaton_iff {f : Formula} {a : GeneralizedBuchiAutomaton Tableau.State}
    (h : f.tableauAutomaton = .ok a) (w : OmegaWord) : a.Accepts w ↔ f.Holds w := by
  obtain ⟨t, ht, hroot, rfl⟩ := exists_faithful_of_tableauAutomaton h
  rw [OmegaAutomaton.accepts_generalized_iff, ht.exists_fairRun_iff_holds, hroot]

/-- A formula is refused exactly if a formula without a rule is taken up. Being refused is thus the
same as being outside the normal form for formulas in normal form, for those where such a formula is
taken up, and so for all without contradictions. An error names a part without a rule. An automaton
that is not refused accepts the words of which the formula holds, in normal form or not. -/
theorem tableauAutomaton_rejects_iff (f : Formula) :
    ((∃ g, f.tableauAutomaton = .error (.unsupportedOperator g)) ↔ Tableau.Obstructed f) ∧
      (((∃ g, f.tableauAutomaton = .error (.unsupportedOperator g)) ↔ f.isNormalized = false) ↔
        f.isNormalized = true ∨ Tableau.Obstructed f) ∧
      (Tableau.Unopposed f →
        ((∃ g, f.tableauAutomaton = .error (.unsupportedOperator g)) ↔ f.isNormalized = false)) ∧
      (∀ e, f.tableauAutomaton = .error e → f.isNormalized = false ∧
        ∃ g, e = .unsupportedOperator g ∧ g.IsSubformula f ∧ Tableau.rule g = none) ∧
      ∀ a, f.tableauAutomaton = .ok a → ∀ w, a.Accepts w ↔ f.Holds w := by
  have hrejects : (∃ g, f.tableauAutomaton = .error (.unsupportedOperator g)) ↔
      Tableau.Obstructed f := by
    rw [← Tableau.exists_build_error_iff]
    simp [tableauAutomaton_eq_error_iff]
  have hnames : ∀ e, f.tableauAutomaton = .error e → f.isNormalized = false ∧
      ∃ g, e = .unsupportedOperator g ∧ g.IsSubformula f ∧ Tableau.rule g = none := by
    intro e he
    obtain ⟨g, hbuild, rfl⟩ := tableauAutomaton_eq_error_iff.mp he
    obtain ⟨-, hpart, hnone⟩ := Tableau.visits_of_build_error hbuild
    exact ⟨Tableau.isNormalized_eq_false_of_rule hpart hnone, g, rfl, hpart, hnone⟩
  have hnormal : Tableau.Obstructed f → f.isNormalized = false := by
    intro hobstructed
    obtain ⟨g, hg⟩ := hrejects.mpr hobstructed
    exact (hnames _ hg).1
  refine ⟨hrejects, ?_, ?_, hnames, fun a ha => accepts_tableauAutomaton_iff ha⟩
  · rw [hrejects]
    cases h : f.isNormalized with
    | true => simpa [h] using hnormal
    | false => simp
  · intro hunopposed
    rw [hrejects]
    refine ⟨hnormal, fun hfalse => ?_⟩
    by_contra hclear
    rw [Tableau.isNormalized_of_unopposed hunopposed hclear] at hfalse
    cases hfalse

/-- An operator outside the normal form beside an obligation that cannot be met. -/
def hiddenEventually : Formula := .and .falsum (.eventually (.prop "a"))

/-- The only branch is dropped before the operator is taken up. -/
theorem tableauAutomaton_hiddenEventually : hiddenEventually.isNormalized = false ∧
    ¬ ∃ g, hiddenEventually.tableauAutomaton = .error (.unsupportedOperator g) := by
  refine ⟨rfl, ?_⟩
  rintro ⟨g, hg⟩
  have hok : hiddenEventually.tableauAutomaton.isOk = true := by decide +kernel
  rw [hg] at hok
  cases hok

end Formula

end TemporalMonitor
