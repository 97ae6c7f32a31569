import TemporalMonitor.Proofs.Formula.Semantics
import TemporalMonitor.Proofs.SortedSet
import TemporalMonitor.Tableau.Basic

/-!
# Steps of the search for states

What one step of the search can do, said once: a branch has a formula dealt with and is replaced by
at most two branches, or it is complete and is merged into a state or becomes one. Invariants of the
search follow from that description and hold of the result of a whole search.

A complete branch differs from a state only in name, so the branches and the states of a search are
treated alike as its *entries*.

## Main definitions

* `Tableau.Rule.alternatives` — the ways in which a rule lets an obligation be met
* `Tableau.Expansion` — what a branch is replaced by when a formula is dealt with
* `Tableau.Search.Move` — what a step does to the branches and the states
* `Tableau.Search.entries` — the branches and the states alike

## Main results

* `Tableau.Search.move_of_step` — every step is such a move
* `Tableau.Search.run_invariant` — what steps preserve holds of the result of a search
* `Tableau.Search.exists_step_error_of_run` — and where it fails
-/

namespace TemporalMonitor

namespace Tableau

/-! ### Rules -/

/-- The ways in which a rule lets an obligation be met. -/
def Rule.alternatives : Rule → List Obligations
  | .impossible => []
  | .literal _ => [⟨[], []⟩]
  | .extend o => [o]
  | .choice first second => [first, second]

/-- The obligations are met at instant `i` of an infinite word. -/
def Obligations.HoldsAt (w : OmegaWord) (o : Obligations) (i : Nat) : Prop :=
  (∀ f ∈ o.now, f.HoldsAt w i) ∧ ∀ f ∈ o.later, f.HoldsAt w (i + 1)

/-- The number of symbols of several formulas. -/
def symbols (l : List Formula) : Nat := l.foldr (fun g n => g.size + n) 0

section Rule

variable {f g : Formula} {r : Rule} {o : Obligations} {w : OmegaWord} {i : Nat}

/-- A formula that holds has an alternative that is met. -/
theorem exists_alternative_of_holdsAt (hr : rule f = some r) (hf : f.HoldsAt w i) :
    ∃ o ∈ r.alternatives, o.HoldsAt w i := by
  cases f with
  | verum | falsum | prop =>
    cases hr
    simp_all [Rule.alternatives, Obligations.HoldsAt, Formula.HoldsAt]
  | unary op f =>
    cases op with
    | not =>
      -- only propositions may be negated
      cases f <;> cases hr
      simp [Rule.alternatives, Obligations.HoldsAt]
    | next =>
      cases hr
      exact ⟨⟨[], [f]⟩, List.mem_singleton_self _, by simp, by simpa [Formula.HoldsAt] using hf⟩
    | eventually | always => cases hr
  | binary op f g =>
    cases op with
    | and =>
      cases hr
      exact ⟨⟨[f, g], []⟩, List.mem_singleton_self _, by simpa [Formula.HoldsAt] using hf, by simp⟩
    | or =>
      cases hr
      simpa [Rule.alternatives, Obligations.HoldsAt, Formula.HoldsAt] using hf
    | «until» =>
      cases hr
      -- the alternatives are the two sides of one unrolling
      have hunrolled := Formula.holdsAt_until_iff.mp hf
      simp only [Rule.alternatives, Obligations.HoldsAt, List.mem_cons, List.not_mem_nil, or_false,
        exists_eq_or_imp, exists_eq_left, forall_eq]
      grind
    | release =>
      cases hr
      have hunrolled := Formula.holdsAt_release_iff.mp hf
      simp only [Rule.alternatives, Obligations.HoldsAt, List.mem_cons, List.not_mem_nil, or_false,
        exists_eq_or_imp, exists_eq_left, forall_eq_or_imp, forall_eq]
      grind
    | implies | iff | entails | congruent | weakUntil => cases hr

theorem not_holdsAt_opposite {opposite : Formula} (hr : rule f = some (.literal opposite))
    (hf : f.HoldsAt w i) : ¬ opposite.HoldsAt w i := by
  unfold rule at hr
  split at hr <;> cases hr <;> simp_all [Formula.HoldsAt]

/-- Rules turn a formula into parts of it. -/
theorem isSubformula_of_mem_alternatives (hr : rule f = some r) (ho : o ∈ r.alternatives)
    (hg : g ∈ o.now ∨ g ∈ o.later) : g.IsSubformula f := by
  have hrefl := Formula.IsSubformula.refl g
  unfold rule at hr
  split at hr <;> cases hr <;> simp only [Rule.alternatives, List.mem_cons, List.not_mem_nil] at ho
  all_goals grind [Formula.IsSubformula]

/-- What has to hold now has fewer symbols together. -/
theorem symbols_now_lt (hr : rule f = some r) (ho : o ∈ r.alternatives) :
    symbols o.now < f.size := by
  unfold rule at hr
  split at hr <;> cases hr <;> simp only [Rule.alternatives, List.mem_cons, List.not_mem_nil] at ho
  all_goals grind [Formula.size, symbols]

end Rule

/-! ### Branches and states alike -/

/-- The formula has to hold now. -/
def Branch.Requires (b : Branch) (f : Formula) : Prop := f ∈ b.old ∨ f ∈ b.new

/-- The branch after a formula has been dealt with by an alternative of its rule. -/
def Branch.meet (b : Branch) (f : Formula) (rest : SortedSet Formula) (o : Obligations) : Branch :=
  ({ b with new := rest }.record f).add o

/-- The complete branch that became the state. -/
def State.toBranch (q : State) : Branch := ⟨q.id, q.incoming, ∅, q.old, q.next⟩

/-- The state with the predecessors of a branch, if they agree. -/
def State.merge (b : Branch) (q : State) : State :=
  if b.agrees q then { q with incoming := q.incoming ∪ b.incoming } else q

section Branch

variable {b : Branch} {f g : Formula} {rest : SortedSet Formula} {o : Obligations} {q : State}

theorem mem_old_meet : g ∈ (b.meet f rest o).old ↔ g = f ∨ g ∈ b.old := by
  simp [Branch.meet, Branch.add, Branch.record]

theorem mem_new_meet :
    g ∈ (b.meet f rest o).new ↔ g ∈ rest ∨ g ∈ o.now ∧ ¬ (g = f ∨ g ∈ b.old) := by
  simp only [Branch.meet, Branch.add, Branch.record, SortedSet.mem_insertMany, List.mem_filter,
    Bool.not_eq_true', ← Bool.not_eq_true, SortedSet.contains_iff, SortedSet.mem_insert]

theorem mem_next_meet : g ∈ (b.meet f rest o).next ↔ g ∈ b.next ∨ g ∈ o.later := by
  simp [Branch.meet, Branch.add, Branch.record]

theorem requires_meet (hpop : b.new.pop? = some (f, rest)) :
    (b.meet f rest o).Requires g ↔ b.Requires g ∨ g ∈ o.now := by
  simp only [Branch.Requires, mem_old_meet, mem_new_meet, SortedSet.mem_of_pop?_eq_some hpop]
  grind

theorem requires_rest (hpop : b.new.pop? = some (f, rest)) (hold : f ∈ b.old) :
    { b with new := rest }.Requires g ↔ b.Requires g := by
  simp only [Branch.Requires, SortedSet.mem_of_pop?_eq_some hpop]
  grind

theorem agrees_iff : b.agrees q = true ↔ q.old = b.old ∧ q.next = b.next := by
  simp [Branch.agrees]

@[simp] theorem id_merge : (q.merge b).id = q.id := by
  unfold State.merge
  split <;> rfl

@[simp] theorem old_merge : (q.merge b).old = q.old := by
  unfold State.merge
  split <;> rfl

@[simp] theorem next_merge : (q.merge b).next = q.next := by
  unfold State.merge
  split <;> rfl

theorem mem_incoming_merge {p : Nat} :
    p ∈ (q.merge b).incoming ↔ p ∈ q.incoming ∨ b.agrees q = true ∧ p ∈ b.incoming := by
  unfold State.merge
  split <;> simp_all

end Branch

/-! ### Moves -/

/-- What a branch is replaced by when a formula is dealt with, and the number that is fresh then. -/
inductive Expansion (fresh : Nat) (b : Branch) : Nat → List Branch → Prop where
  | skip {f : Formula} {rest : SortedSet Formula} (hpop : b.new.pop? = some (f, rest))
    (hold : f ∈ b.old) : Expansion fresh b fresh [{ b with new := rest }]
  | drop {f : Formula} {rest : SortedSet Formula} {r : Rule}
    (hpop : b.new.pop? = some (f, rest)) (hrule : rule f = some r)
    (hclash : r.alternatives = [] ∨ ∃ opposite ∈ b.old, r = .literal opposite)
    (hopen : ¬ f ∈ b.old) : Expansion fresh b fresh []
  | extend {f : Formula} {rest : SortedSet Formula} {r : Rule} {o : Obligations}
    (hpop : b.new.pop? = some (f, rest)) (hrule : rule f = some r) (halt : r.alternatives = [o])
    (hopen : ¬ f ∈ b.old) (hclear : ∀ opposite, r = .literal opposite → ¬ opposite ∈ b.old) :
    Expansion fresh b fresh [b.meet f rest o]
  | split {f : Formula} {rest : SortedSet Formula} {first second : Obligations}
    (hpop : b.new.pop? = some (f, rest)) (hrule : rule f = some (.choice first second))
    (hopen : ¬ f ∈ b.old) : Expansion fresh b (fresh + 2)
      [{ b.meet f rest first with id := fresh + 1 }, { b.meet f rest second with id := fresh }]

namespace Search

/-- The branches, the current one first. -/
def branches (s : Search) : List Branch := s.current.toList ++ s.waiting

/-- The branches and the states. -/
def entries (s : Search) : List Branch := s.branches ++ s.states.map State.toBranch

/-- What a step does to the branches and the states. -/
inductive Move (s t : Search) : Prop where
  | idle (hfresh : t.fresh = s.fresh) (hbranches : t.branches = s.branches)
    (hstates : t.states = s.states)
    (hcurrent : s.isDone = true ∨ s.current = none ∧ t.current.isSome = true)
  | expand {b : Branch} {others bs : List Branch} (hbranches : s.branches = b :: others)
    (hbranches' : t.branches = bs ++ others) (hstates : t.states = s.states)
    (hexpansion : Expansion s.fresh b t.fresh bs)
    (hcurrent : bs ≠ [] → t.current.isSome = true)
  | merge {b : Branch} {others : List Branch} {q : State} (hbranches : s.branches = b :: others)
    (hnew : ∀ f, ¬ f ∈ b.new) (hq : q ∈ s.states) (hagrees : b.agrees q = true)
    (hfresh : t.fresh = s.fresh) (hbranches' : t.branches = others)
    (hstates : t.states = s.states.map (State.merge b))
  | close {b : Branch} {others : List Branch} (hbranches : s.branches = b :: others)
    (hnew : ∀ f, ¬ f ∈ b.new) (hagrees : ∀ q ∈ s.states, ¬ b.agrees q = true)
    (hfresh : t.fresh = s.fresh + 1)
    (hbranches' : t.branches = .start s.fresh b.id b.next :: others)
    (hstates : t.states = s.states ++ [⟨b.id, b.incoming, b.old, b.next⟩])

variable {s t : Search}

theorem expansion_of_expand {b : Branch} {f : Formula} {rest : SortedSet Formula}
    (hpop : b.new.pop? = some (f, rest)) (h : s.expand { b with new := rest } f = .ok t) :
    ∃ bs, t.branches = bs ++ s.waiting ∧ t.states = s.states ∧
      Expansion s.fresh b t.fresh bs ∧ (bs ≠ [] → t.current.isSome = true) := by
  unfold expand at h
  split at h
  · rename_i hold
    cases h
    exact ⟨_, rfl, rfl, .skip hpop hold, fun _ => rfl⟩
  · rename_i hopen
    split at h <;> rename_i hrule <;> cases h
    · exact ⟨[], rfl, rfl, .drop hpop hrule (.inl rfl) hopen, fun h => absurd rfl h⟩
    · -- a literal may clash with its opposite
      rename_i opposite
      split
      · rename_i hclash
        exact ⟨[], rfl, rfl, .drop hpop hrule (.inr ⟨opposite, hclash, rfl⟩) hopen,
          fun h => absurd rfl h⟩
      · rename_i hclear
        refine ⟨_, rfl, rfl, .extend hpop hrule rfl hopen ?_, fun _ => rfl⟩
        rintro _ ⟨⟩
        exact hclear
    · exact ⟨_, rfl, rfl, .extend hpop hrule rfl hopen nofun, fun _ => rfl⟩
    · exact ⟨_, rfl, rfl, .split hpop hrule hopen, fun _ => rfl⟩

theorem move_complete {b : Branch} (hcurrent : s.current = some b)
    (hnew : b.new.pop? = none) : Move s (s.complete b) := by
  have hbranches : s.branches = b :: s.waiting := by rw [branches, hcurrent]; rfl
  have hnew := SortedSet.pop?_eq_none_iff.mp hnew
  unfold complete
  split
  · rename_i hany
    obtain ⟨q, hq, hagrees⟩ := List.any_eq_true.mp hany
    exact .merge hbranches hnew hq hagrees rfl rfl rfl
  · rename_i hany
    refine .close hbranches hnew (fun q hq hagrees => hany ?_) rfl rfl rfl
    exact List.any_eq_true.mpr ⟨q, hq, hagrees⟩

/-- Every step is a move. -/
theorem move_of_step (h : s.step = .ok t) : Move s t := by
  unfold step at h
  split at h
  · rename_i b hcurrent
    split at h
    · rename_i f rest hpop
      obtain ⟨bs, hbranches, hstates, hexpansion, hcurrent'⟩ := expansion_of_expand hpop h
      refine .expand ?_ hbranches hstates hexpansion hcurrent'
      rw [branches, hcurrent]
      rfl
    · rename_i hpop
      cases h
      exact move_complete hcurrent hpop
  · rename_i b waiting hcurrent hwaiting
    cases h
    refine .idle rfl ?_ rfl (.inr ⟨hcurrent, rfl⟩)
    rw [branches, branches, hcurrent, hwaiting]
    rfl
  · rename_i hcurrent hwaiting
    cases h
    refine .idle rfl rfl rfl (.inl ?_)
    rw [isDone, hcurrent, hwaiting]
    rfl

/-! ### Entries -/

theorem mem_entries {e : Branch} :
    e ∈ s.entries ↔ e ∈ s.branches ∨ ∃ q ∈ s.states, q.toBranch = e := by
  simp [entries]

theorem entries_eq (hbranches : t.branches = s.branches) (hstates : t.states = s.states) :
    t.entries = s.entries := by
  rw [entries, entries, hbranches, hstates]

/-- The entries after a formula has been dealt with. -/
theorem mem_entries_of_expand {b e : Branch} {others bs : List Branch}
    (hbranches : s.branches = b :: others) (hbranches' : t.branches = bs ++ others)
    (hstates : t.states = s.states) (he : e ∈ t.entries) : e ∈ bs ∨ e ∈ s.entries := by
  rw [mem_entries, hbranches', hstates, List.mem_append] at he
  rw [mem_entries, hbranches, List.mem_cons]
  rcases he with (he | he) | he
  · exact .inl he
  · exact .inr (.inl (.inr he))
  · exact .inr (.inr he)

/-- The entries after a branch has been merged into a state. -/
theorem mem_entries_of_merge {b e : Branch} {others : List Branch}
    (hbranches : s.branches = b :: others) (hbranches' : t.branches = others)
    (hstates : t.states = s.states.map (State.merge b)) (he : e ∈ t.entries) :
    e ∈ s.entries ∨ ∃ q ∈ s.states, e = (q.merge b).toBranch := by
  rw [mem_entries, hbranches', hstates] at he
  rw [mem_entries, hbranches, List.mem_cons]
  rcases he with he | ⟨r, hr, rfl⟩
  · exact .inl (.inl (.inr he))
  · obtain ⟨q, hq, rfl⟩ := List.mem_map.mp hr
    exact .inr ⟨q, hq, rfl⟩

/-- The entries after a branch has become a state. -/
theorem mem_entries_of_close {b e : Branch} {others : List Branch}
    (hbranches : s.branches = b :: others)
    (hbranches' : t.branches = .start s.fresh b.id b.next :: others)
    (hstates : t.states = s.states ++ [⟨b.id, b.incoming, b.old, b.next⟩]) (he : e ∈ t.entries) :
    e = .start s.fresh b.id b.next ∨ e = State.toBranch ⟨b.id, b.incoming, b.old, b.next⟩ ∨
      e ∈ s.entries := by
  rw [mem_entries, hbranches', hstates] at he
  simp only [List.mem_cons, List.mem_append, List.not_mem_nil, or_false] at he
  rw [mem_entries, hbranches, List.mem_cons]
  rcases he with (he | he) | ⟨q, hq | rfl, rfl⟩
  · exact .inl he
  · exact .inr (.inr (.inl (.inr he)))
  · exact .inr (.inr (.inr ⟨q, hq, rfl⟩))
  · exact .inr (.inl rfl)

theorem mem_entries_of_branches {b : Branch} {others : List Branch}
    (hbranches : s.branches = b :: others) : b ∈ s.entries := by
  rw [mem_entries, hbranches]
  exact .inl List.mem_cons_self

/-! ### Runs -/

/-- What steps preserve holds of the result of a search. -/
theorem run_invariant {I : Search → Prop} (hpreserved : ∀ s t, s.step = .ok t → I s → I t)
    {fuel : Nat} (hs : I s) (h : run fuel s = .ok t) : I t := by
  induction fuel generalizing s with
  | zero =>
    cases h
    exact hs
  | succ fuel ih =>
    unfold run at h
    split at h
    · cases h
      exact hs
    · split at h
      · rename_i s' hstep
        exact ih (hpreserved s s' hstep hs) h
      · cases h

/-- What steps preserve holds where a search fails. -/
theorem exists_step_error_of_run {I : Search → Prop}
    (hpreserved : ∀ s t, s.step = .ok t → I s → I t) {fuel : Nat} {f : Formula} (hs : I s)
    (h : run fuel s = .error f) : ∃ t, I t ∧ t.step = .error f := by
  induction fuel generalizing s with
  | zero => cases h
  | succ fuel ih =>
    unfold run at h
    split at h
    · cases h
    · split at h
      · rename_i s' hstep
        exact ih (hpreserved s s' hstep hs) h
      · rename_i g hstep
        cases h
        exact ⟨s, hs, hstep⟩

end Search

end Tableau

end TemporalMonitor
