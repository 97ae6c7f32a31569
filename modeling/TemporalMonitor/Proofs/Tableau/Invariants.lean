import TemporalMonitor.Proofs.Tableau.Termination

/-!
# What the states of a tableau mean

Three invariants of the search for states. Numbers identify branches and states, so that a set of
predecessors means what it says. Every formula recorded in an entry is met by an alternative of its
rule, and every entry requires what its predecessors have put off: paths through the states describe
words that satisfy the formula. Conversely, whenever a word satisfies what a state has put off, some
entry that follows the state describes the instant, and it settles the untils that can be settled.

## Main definitions

* `Tableau.Owes` — what a predecessor demands of the states that follow it
* `Tableau.Search.Numbered`, `Tableau.Search.Sound`, `Tableau.Search.Complete`
* `Tableau.Branch.Guided` — a branch that describes an instant of a word
* `Tableau.Faithful` — what holds of the states in the end

## Main results

* `Tableau.State.until_cases`, `Tableau.State.release_cases` — what a state holds beside a formula
  that it meets, and likewise for the other operators
* `Tableau.faithful_of_build` — the tableau of a formula is faithful
-/

namespace TemporalMonitor

namespace Tableau

/-- What the state with number `p`, or the beginning, demands of the states that follow. -/
def Owes (root : Formula) (states : List State) (p : Nat) (owed : SortedSet Formula) : Prop :=
  p = 0 ∧ owed = {root} ∨ ∃ q ∈ states, p = q.id ∧ owed = q.next

/-- The branch describes instant `i` of the word, and settles an until if the word does. -/
structure Branch.Guided (w : OmegaWord) (i : Nat) (b : Branch) : Prop where
  now : ∀ f, b.Requires f → f.HoldsAt w i
  later : ∀ f ∈ b.next, f.HoldsAt w (i + 1)
  settled : ∀ f g, .until f g ∈ b.old → g.HoldsAt w i → b.Requires g

/-- A formula is met by what a branch requires now and has put off. -/
def Branch.Meets (b : Branch) (f : Formula) : Prop :=
  ∃ r, rule f = some r ∧ ∃ o ∈ r.alternatives,
    (∀ g ∈ o.now, b.Requires g) ∧ ∀ g ∈ o.later, g ∈ b.next

namespace Search

/-- Entries have distinct numbers, and predecessors are states or the beginning. -/
structure Numbered (s : Search) : Prop where
  nodup : (s.entries.map Branch.id).Nodup
  bounds : ∀ e ∈ s.entries, 0 < e.id ∧ e.id < s.fresh
  incoming : ∀ e ∈ s.entries, ∀ p ∈ e.incoming, p = 0 ∨ ∃ q ∈ s.states, q.id = p

/-- Entries meet what they have recorded and require what their predecessors owe. -/
structure Sound (root : Formula) (s : Search) : Prop where
  meets : ∀ e ∈ s.entries, ∀ f ∈ e.old, e.Meets f
  owed : ∀ p owed, Owes root s.states p owed → ∀ e ∈ s.entries, p ∈ e.incoming →
    ∀ f ∈ owed, e.Requires f

/-- Where a word satisfies what is owed, some entry that follows describes it. -/
def Complete (root : Formula) (w : OmegaWord) (s : Search) : Prop :=
  ∀ p owed i, Owes root s.states p owed → (∀ f ∈ owed, f.HoldsAt w i) →
    ∃ e ∈ s.entries, p ∈ e.incoming ∧ e.Guided w i

end Search

/-! ### Expansion -/

section Expansion

variable {fresh fresh' : Nat} {b b' : Branch} {bs : List Branch} {f : Formula}

theorem Expansion.ids (h : Expansion fresh b fresh' bs) :
    (bs.map Branch.id = [] ∨ bs.map Branch.id = [b.id]) ∧ fresh' = fresh ∨
      bs.map Branch.id = [fresh + 1, fresh] ∧ fresh' = fresh + 2 := by
  cases h with
  | skip => exact .inl ⟨.inr rfl, rfl⟩
  | drop => exact .inl ⟨.inl rfl, rfl⟩
  | extend => exact .inl ⟨.inr rfl, rfl⟩
  | split => exact .inr ⟨rfl, rfl⟩

/-- Branches that come from dealing with one formula by an alternative of its rule, or by dropping
one that is recorded. -/
theorem Expansion.exists_meet (h : Expansion fresh b fresh' bs) (hb' : b' ∈ bs) :
    ∃ f rest, b.new.pop? = some (f, rest) ∧
      (f ∈ b.old ∧ b' = { b with new := rest } ∨
        ∃ r, rule f = some r ∧ ∃ o ∈ r.alternatives,
          b' = { b.meet f rest o with id := b'.id }) := by
  cases h with
  | skip hpop hold =>
    obtain rfl := List.mem_singleton.mp hb'
    exact ⟨_, _, hpop, .inl ⟨hold, rfl⟩⟩
  | drop => cases hb'
  | extend hpop hrule halt =>
    obtain rfl := List.mem_singleton.mp hb'
    exact ⟨_, _, hpop, .inr ⟨_, hrule, _, by simp [halt], rfl⟩⟩
  | split hpop hrule =>
    rw [List.mem_cons, List.mem_singleton] at hb'
    rcases hb' with rfl | rfl
    · exact ⟨_, _, hpop, .inr ⟨_, hrule, _, by simp [Rule.alternatives], rfl⟩⟩
    · exact ⟨_, _, hpop, .inr ⟨_, hrule, _, by simp [Rule.alternatives], rfl⟩⟩

theorem Expansion.incoming_eq (h : Expansion fresh b fresh' bs) (hb' : b' ∈ bs) :
    b'.incoming = b.incoming := by
  obtain ⟨f, rest, -, ⟨-, heq⟩ | ⟨r, -, o, -, heq⟩⟩ := h.exists_meet hb'
  · rw [heq]
  · rw [heq]
    rfl

theorem Expansion.requires (h : Expansion fresh b fresh' bs) (hb' : b' ∈ bs)
    (hf : b.Requires f) : b'.Requires f := by
  obtain ⟨g, rest, hpop, ⟨hold, heq⟩ | ⟨r, -, o, -, heq⟩⟩ := h.exists_meet hb'
  · rw [heq]
    exact (requires_rest hpop hold).mpr hf
  · rw [heq]
    exact (requires_meet hpop).mpr (.inl hf)

theorem Expansion.mem_next (h : Expansion fresh b fresh' bs) (hb' : b' ∈ bs)
    (hf : f ∈ b.next) : f ∈ b'.next := by
  obtain ⟨g, rest, hpop, ⟨hold, heq⟩ | ⟨r, -, o, -, heq⟩⟩ := h.exists_meet hb'
  · rw [heq]
    exact hf
  · rw [heq]
    exact mem_next_meet.mpr (.inl hf)

theorem Expansion.meets (h : Expansion fresh b fresh' bs) (hb' : b' ∈ bs)
    (hb : ∀ f ∈ b.old, b.Meets f) (hf : f ∈ b'.old) : b'.Meets f := by
  have hkeep : f ∈ b.old → b'.Meets f := by
    intro hf
    obtain ⟨r, hrule, o, ho, hnow, hlater⟩ := hb f hf
    exact ⟨r, hrule, o, ho, fun g hg => h.requires hb' (hnow g hg),
      fun g hg => h.mem_next hb' (hlater g hg)⟩
  obtain ⟨g, rest, hpop, ⟨-, heq⟩ | ⟨r, hrule, o, ho, heq⟩⟩ := h.exists_meet hb'
  · rw [heq] at hf
    exact hkeep hf
  · rw [heq] at hf
    rcases (mem_old_meet (o := o)).mp hf with rfl | hf
    · refine ⟨r, hrule, o, ho, fun g hg => ?_, fun g hg => ?_⟩
      · rw [heq]
        exact (requires_meet hpop).mpr (.inr hg)
      · rw [heq]
        exact mem_next_meet.mpr (.inr hg)
    · exact hkeep hf

/-- A branch that describes an instant still does so after a formula is met by an alternative that
holds, provided the alternative settles an until that can be settled. -/
theorem Branch.Guided.meet {w : OmegaWord} {i : Nat} {rest : SortedSet Formula} {o : Obligations}
    (hb : b.Guided w i) (hpop : b.new.pop? = some (f, rest)) (ho : o.HoldsAt w i)
    (hsettle : ∀ g h, f = .until g h → h.HoldsAt w i → h ∈ o.now) (id : Nat) :
    Branch.Guided w i { b.meet f rest o with id := id } := by
  refine ⟨fun g hg => ?_, fun g hg => ?_, fun g h hold hh => ?_⟩
  · rcases (requires_meet hpop).mp hg with hg | hg
    · exact hb.now g hg
    · exact ho.1 g hg
  · rcases mem_next_meet.mp hg with hg | hg
    · exact hb.later g hg
    · exact ho.2 g hg
  · refine (requires_meet hpop).mpr ?_
    rcases (mem_old_meet (o := o)).mp hold with hf | hold
    · exact .inr (hsettle g h hf.symm hh)
    · exact .inl (hb.settled g h hold hh)

/-- Dealing with a formula keeps a branch that describes the instant. -/
theorem Expansion.exists_guided {w : OmegaWord} {i : Nat} (h : Expansion fresh b fresh' bs)
    (hb : b.Guided w i) : ∃ b' ∈ bs, b'.Guided w i := by
  have hpopped : ∀ {f rest}, b.new.pop? = some (f, rest) → f.HoldsAt w i :=
    fun hpop => hb.now _ (.inr (SortedSet.mem_of_pop? hpop))
  cases h with
  | skip hpop hold =>
    refine ⟨_, List.mem_singleton_self _, fun f hf => ?_, hb.later, fun f g hu hg => ?_⟩
    · exact hb.now f ((requires_rest hpop hold).mp hf)
    · exact (requires_rest hpop hold).mpr (hb.settled f g hu hg)
  | @drop f rest r hpop hrule hclash =>
    -- a branch that describes an instant is not dropped
    obtain ⟨o, ho, -⟩ := exists_alternative_of_holdsAt hrule (hpopped hpop)
    rcases hclash with hnone | ⟨opposite, hopposite, rfl⟩
    · simp [hnone] at ho
    · exact absurd (hb.now opposite (.inl hopposite)) (not_holdsAt_opposite hrule (hpopped hpop))
  | @extend f rest r o hpop hrule halt =>
    obtain ⟨o', ho', hholds⟩ := exists_alternative_of_holdsAt hrule (hpopped hpop)
    obtain rfl : o' = o := by simpa [halt] using ho'
    refine ⟨_, List.mem_singleton_self _, hb.meet hpop hholds ?_ _⟩
    -- an until leaves a choice
    rintro g h rfl -
    cases hrule
    cases halt
  | @split f rest first second hpop hrule =>
    obtain ⟨o, ho, hholds⟩ := exists_alternative_of_holdsAt hrule (hpopped hpop)
    -- the second alternative is preferred, since it is the one that settles an until
    by_cases hsecond : second.HoldsAt w i
    · refine ⟨_, List.mem_cons_of_mem _ (List.mem_singleton_self _), hb.meet hpop hsecond ?_ _⟩
      rintro g h rfl -
      cases hrule
      exact List.mem_singleton_self h
    · have hfirst : first.HoldsAt w i := by
        rcases List.mem_cons.mp ho with rfl | ho
        · exact hholds
        · rw [List.mem_singleton.mp ho] at hholds
          exact absurd hholds hsecond
      refine ⟨_, List.mem_cons_self, hb.meet hpop hfirst ?_ _⟩
      -- the right side of an until would be the second alternative
      rintro g h rfl hh
      cases hrule
      exact absurd ⟨by simpa using hh, by simp⟩ hsecond

end Expansion

/-! ### Branches that become states -/

/-- The branches have the same formulas. -/
structure Branch.Alike (b c : Branch) : Prop where
  old : b.old = c.old
  next : b.next = c.next
  requires : ∀ f, b.Requires f ↔ c.Requires f

section Alike

variable {b c : Branch} {q : State} {f : Formula} {w : OmegaWord} {i : Nat}

theorem alike_merge (q : State) (b : Branch) : (q.merge b).toBranch.Alike q.toBranch :=
  ⟨by simp [State.toBranch], by simp [State.toBranch],
    by simp [State.toBranch, Branch.Requires]⟩

/-- A complete branch is like any state with its formulas. -/
theorem alike_of_agrees (hnew : ∀ f, ¬ f ∈ b.new) (h : b.agrees q = true) :
    q.toBranch.Alike b := by
  obtain ⟨hold, hnext⟩ := agrees_iff.mp h
  exact ⟨hold, hnext, by simp [State.toBranch, Branch.Requires, hold, hnew]⟩

theorem Branch.Alike.meets (h : b.Alike c) (hc : c.Meets f) : b.Meets f := by
  obtain ⟨r, hrule, o, ho, hnow, hlater⟩ := hc
  refine ⟨r, hrule, o, ho, fun g hg => (h.requires g).mpr (hnow g hg), ?_⟩
  rw [h.next]
  exact hlater

theorem Branch.Alike.guided (h : b.Alike c) (hc : c.Guided w i) : b.Guided w i := by
  refine ⟨fun f hf => hc.now f ((h.requires f).mp hf), ?_, fun f g hu hg => ?_⟩
  · rw [h.next]
    exact hc.later
  · rw [h.old] at hu
    exact (h.requires g).mpr (hc.settled f g hu hg)

end Alike

/-! ### Numbers -/

namespace Search

variable {root : Formula} {s t : Search} {w : OmegaWord}

theorem map_id_entries (s : Search) :
    s.entries.map Branch.id = s.branches.map Branch.id ++ s.states.map State.id := by
  simp [entries, State.toBranch, Function.comp_def]

theorem numbered_start (root : Formula) : (Search.start root).Numbered := by
  refine ⟨?_, ?_, ?_⟩ <;> simp [entries, branches, Branch.start, Search.start]

theorem Numbered.lt_of_mem_ids (hs : s.Numbered) {p : Nat} (hp : p ∈ s.entries.map Branch.id) :
    p < s.fresh := by
  obtain ⟨e, he, rfl⟩ := List.mem_map.mp hp
  exact (hs.bounds e he).2

theorem Numbered.move_expand {b : Branch} {others bs : List Branch} (hs : s.Numbered)
    (hbranches : s.branches = b :: others) (hbranches' : t.branches = bs ++ others)
    (hstates : t.states = s.states) (hexpansion : Expansion s.fresh b t.fresh bs) :
    t.Numbered := by
  have hb := mem_entries_of_branches hbranches
  have hbounds := hs.bounds b hb
  have hentries : s.entries.map Branch.id =
      b.id :: (others.map Branch.id ++ s.states.map State.id) := by
    rw [map_id_entries, hbranches, List.map_cons, List.cons_append]
  have hids := hs.nodup
  rw [hentries] at hids
  constructor
  case nodup =>
    rw [map_id_entries, hbranches', hstates, List.map_append, List.append_assoc]
    rcases hexpansion.ids with ⟨hmap | hmap, -⟩ | ⟨hmap, -⟩ <;> rw [hmap]
    · exact hids.of_cons
    · exact hids
    · -- the two numbers given to the parts of a split are new
      have hnew : ∀ k, s.fresh ≤ k → ¬ k ∈ others.map Branch.id ++ s.states.map State.id := by
        intro k hk hmem
        have hlt := hs.lt_of_mem_ids (hentries ▸ List.mem_cons_of_mem _ hmem)
        omega
      rw [List.cons_append, List.singleton_append, List.nodup_cons, List.nodup_cons, List.mem_cons,
        not_or]
      exact ⟨⟨Nat.succ_ne_self _, hnew _ (Nat.le_succ _)⟩, hnew _ (Nat.le_refl _), hids.of_cons⟩
  case bounds =>
    intro e he
    rcases mem_entries_of_expand hbranches hbranches' hstates he with he | he
    · have hid : e.id ∈ bs.map Branch.id := List.mem_map_of_mem he
      rcases hexpansion.ids with ⟨hmap | hmap, hfresh⟩ | ⟨hmap, hfresh⟩ <;> rw [hmap] at hid <;>
        simp at hid <;> omega
    · have hold := hs.bounds e he
      rcases hexpansion.ids with ⟨-, hfresh⟩ | ⟨-, hfresh⟩ <;> omega
  case incoming =>
    intro e he p hp
    rw [hstates]
    rcases mem_entries_of_expand hbranches hbranches' hstates he with he | he
    · rw [hexpansion.incoming_eq he] at hp
      exact hs.incoming b hb p hp
    · exact hs.incoming e he p hp

theorem Numbered.move_merge {b : Branch} {others : List Branch} (hs : s.Numbered)
    (hbranches : s.branches = b :: others) (hfresh : t.fresh = s.fresh)
    (hbranches' : t.branches = others) (hstates : t.states = s.states.map (State.merge b)) :
    t.Numbered := by
  have hstate : ∀ q ∈ s.states, q.toBranch ∈ s.entries :=
    fun q hq => mem_entries.mpr (.inr ⟨q, hq, rfl⟩)
  constructor
  case nodup =>
    have hids := hs.nodup
    rw [map_id_entries, hbranches, List.map_cons, List.cons_append] at hids
    rw [map_id_entries, hbranches', hstates, List.map_map]
    simpa [Function.comp_def] using hids.of_cons
  case bounds =>
    intro e he
    rw [hfresh]
    rcases mem_entries_of_merge hbranches hbranches' hstates he with he | ⟨q, hq, rfl⟩
    · exact hs.bounds e he
    · simpa [State.toBranch] using hs.bounds _ (hstate q hq)
  case incoming =>
    intro e he p hp
    have hp' : p = 0 ∨ ∃ q ∈ s.states, q.id = p := by
      rcases mem_entries_of_merge hbranches hbranches' hstates he with he | ⟨q, hq, rfl⟩
      · exact hs.incoming e he p hp
      · rcases mem_incoming_merge.mp hp with hp | ⟨-, hp⟩
        · exact hs.incoming _ (hstate q hq) p hp
        · exact hs.incoming b (mem_entries_of_branches hbranches) p hp
    rw [hstates]
    simpa using hp'

theorem Numbered.move_close {b : Branch} {others : List Branch} (hs : s.Numbered)
    (hbranches : s.branches = b :: others) (hfresh : t.fresh = s.fresh + 1)
    (hbranches' : t.branches = .start s.fresh b.id b.next :: others)
    (hstates : t.states = s.states ++ [⟨b.id, b.incoming, b.old, b.next⟩]) : t.Numbered := by
  have hb := mem_entries_of_branches hbranches
  constructor
  case nodup =>
    -- the number of the branch moves to the end of the states
    have hperm : (t.entries.map Branch.id).Perm (s.fresh :: s.entries.map Branch.id) := by
      rw [map_id_entries, map_id_entries, hbranches, hbranches', hstates, List.map_append,
        List.map_cons, List.map_cons, List.cons_append, ← List.append_assoc]
      exact (List.perm_append_singleton _ _).cons _
    refine hperm.nodup_iff.mpr (List.nodup_cons.mpr ⟨fun hmem => ?_, hs.nodup⟩)
    exact Nat.lt_irrefl _ (hs.lt_of_mem_ids hmem)
  case bounds =>
    intro e he
    rw [hfresh]
    have hbounds := hs.bounds b hb
    rcases mem_entries_of_close hbranches hbranches' hstates he with rfl | rfl | he
    · exact ⟨Nat.lt_trans hbounds.1 hbounds.2, Nat.lt_succ_self _⟩
    · exact ⟨hbounds.1, Nat.lt_succ_of_lt hbounds.2⟩
    · exact ⟨(hs.bounds e he).1, Nat.lt_succ_of_lt (hs.bounds e he).2⟩
  case incoming =>
    intro e he p hp
    have hkeep : (p = 0 ∨ ∃ q ∈ s.states, q.id = p) → p = 0 ∨ ∃ q ∈ t.states, q.id = p := by
      rintro (hp | ⟨q, hq, hid⟩)
      · exact .inl hp
      · exact .inr ⟨q, by simp [hstates, hq], hid⟩
    rcases mem_entries_of_close hbranches hbranches' hstates he with rfl | rfl | he
    · have hpb : p = b.id := by simpa [Branch.start] using hp
      exact .inr ⟨⟨b.id, b.incoming, b.old, b.next⟩, by simp [hstates], hpb.symm⟩
    · exact hkeep (hs.incoming b hb p hp)
    · exact hkeep (hs.incoming e he p hp)

theorem Numbered.move (hs : s.Numbered) (h : Move s t) : t.Numbered := by
  cases h with
  | idle hfresh hbranches hstates hcurrent =>
    obtain ⟨hnodup, hbounds, hincoming⟩ := hs
    have hentries := entries_eq hbranches hstates
    exact ⟨hentries ▸ hnodup, hentries ▸ hfresh ▸ hbounds, hentries ▸ hstates ▸ hincoming⟩
  | expand hbranches hbranches' hstates hexpansion hcurrent =>
    exact hs.move_expand hbranches hbranches' hstates hexpansion
  | merge hbranches hnew hq hagrees hfresh hbranches' hstates =>
    exact hs.move_merge hbranches hfresh hbranches' hstates
  | close hbranches hnew hagrees hfresh hbranches' hstates =>
    exact hs.move_close hbranches hfresh hbranches' hstates

/-- The number of a branch is not that of a state. -/
theorem Numbered.id_ne {b : Branch} {others : List Branch} (hs : s.Numbered)
    (hbranches : s.branches = b :: others) : b.id ≠ 0 ∧ ∀ q ∈ s.states, q.id ≠ b.id := by
  have hids := hs.nodup
  rw [map_id_entries, hbranches, List.map_cons, List.cons_append, List.nodup_cons] at hids
  refine ⟨Nat.ne_of_gt (hs.bounds b (mem_entries_of_branches hbranches)).1, fun q hq hid => ?_⟩
  refine hids.1 (List.mem_append_right _ ?_)
  rw [← hid]
  exact List.mem_map_of_mem hq

theorem Numbered.not_mem_incoming {b e : Branch} {others : List Branch} (hs : s.Numbered)
    (hbranches : s.branches = b :: others) (he : e ∈ s.entries) : ¬ b.id ∈ e.incoming := by
  intro hp
  obtain ⟨hzero, hstates⟩ := hs.id_ne hbranches
  rcases hs.incoming e he b.id hp with hid | ⟨q, hq, hid⟩
  · exact hzero hid
  · exact hstates q hq hid

/-! ### Soundness -/

/-- What is owed after a branch has become a state. -/
theorem owes_of_close {q : State} {p : Nat} {owed : SortedSet Formula}
    (h : Owes root (s.states ++ [q]) p owed) :
    Owes root s.states p owed ∨ p = q.id ∧ owed = q.next := by
  rcases h with h | ⟨r, hr, hid, hnext⟩
  · exact .inl (.inl h)
  · rcases List.mem_append.mp hr with hr | hr
    · exact .inl (.inr ⟨r, hr, hid, hnext⟩)
    · rw [List.mem_singleton.mp hr] at hid hnext
      exact .inr ⟨hid, hnext⟩

theorem owes_merge_iff {b : Branch} {p : Nat} {owed : SortedSet Formula} {states : List State} :
    Owes root (states.map (State.merge b)) p owed ↔ Owes root states p owed := by
  simp [Owes]

theorem sound_start (root : Formula) : (Search.start root).Sound root := by
  refine ⟨?_, fun p owed howes => ?_⟩
  · simp [entries, branches, Branch.start, Search.start]
  · rcases howes with ⟨-, rfl⟩ | ⟨q, hq, -⟩
    · simp [entries, branches, Branch.start, Search.start, Branch.Requires]
    · cases hq

theorem Sound.move (hs : s.Sound root) (hnumbered : s.Numbered) (h : Move s t) :
    t.Sound root := by
  cases h with
  | idle hfresh hbranches hstates hcurrent =>
    obtain ⟨hmeets, howed⟩ := hs
    have hentries := entries_eq hbranches hstates
    exact ⟨hentries ▸ hmeets, hentries ▸ hstates ▸ howed⟩
  | expand hbranches hbranches' hstates hexpansion hcurrent =>
    have hb := mem_entries_of_branches hbranches
    refine ⟨fun e he f hf => ?_, fun p owed howes e he hp f hf => ?_⟩
    · rcases mem_entries_of_expand hbranches hbranches' hstates he with he | he
      · exact hexpansion.meets he (hs.meets _ hb) hf
      · exact hs.meets e he f hf
    · rw [hstates] at howes
      rcases mem_entries_of_expand hbranches hbranches' hstates he with he | he
      · rw [hexpansion.incoming_eq he] at hp
        exact hexpansion.requires he (hs.owed p owed howes _ hb hp f hf)
      · exact hs.owed p owed howes e he hp f hf
  | @merge b others q hbranches hnew hq hagrees hfresh hbranches' hstates =>
    have hstate : ∀ q ∈ s.states, q.toBranch ∈ s.entries :=
      fun q hq => mem_entries.mpr (.inr ⟨q, hq, rfl⟩)
    refine ⟨fun e he f hf => ?_, fun p owed howes e he hp f hf => ?_⟩
    · rcases mem_entries_of_merge hbranches hbranches' hstates he with he | ⟨q, hq, rfl⟩
      · exact hs.meets e he f hf
      · rw [(alike_merge q b).old] at hf
        exact (alike_merge q b).meets (hs.meets _ (hstate q hq) f hf)
    · rw [hstates, owes_merge_iff] at howes
      rcases mem_entries_of_merge hbranches hbranches' hstates he with he | ⟨q, hq, rfl⟩
      · exact hs.owed p owed howes e he hp f hf
      · rcases mem_incoming_merge.mp hp with hp | ⟨hagrees, hp⟩
        · exact ((alike_merge q b).requires f).mpr (hs.owed p owed howes _ (hstate q hq) hp f hf)
        · -- the state has the formulas of the branch
          have hb := mem_entries_of_branches hbranches
          exact ((alike_merge q b).requires f).mpr
            (((alike_of_agrees hnew hagrees).requires f).mpr (hs.owed p owed howes b hb hp f hf))
  | @close b others hbranches hnew hagrees hfresh hbranches' hstates =>
    have hb := mem_entries_of_branches hbranches
    have halike : (State.toBranch ⟨b.id, b.incoming, b.old, b.next⟩).Alike b :=
      alike_of_agrees hnew (agrees_iff.mpr ⟨rfl, rfl⟩)
    refine ⟨fun e he f hf => ?_, fun p owed howes e he hp f hf => ?_⟩
    · rcases mem_entries_of_close hbranches hbranches' hstates he with rfl | rfl | he
      · exact absurd hf SortedSet.notMem_empty
      · exact halike.meets (hs.meets b hb f hf)
      · exact hs.meets e he f hf
    · rw [hstates] at howes
      rcases owes_of_close howes with howes | ⟨rfl, rfl⟩
      · rcases mem_entries_of_close hbranches hbranches' hstates he with rfl | rfl | he
        · -- only the new state precedes the branch it starts
          obtain ⟨hzero, hids⟩ := hnumbered.id_ne hbranches
          obtain rfl : p = b.id := by simpa [Branch.start] using hp
          rcases howes with ⟨hid, -⟩ | ⟨q, hq, hid, -⟩
          · exact absurd hid hzero
          · exact absurd hid.symm (hids q hq)
        · exact (halike.requires f).mpr (hs.owed p owed howes b hb hp f hf)
        · exact hs.owed p owed howes e he hp f hf
      · -- nothing but that branch has the new state among its predecessors
        rcases mem_entries_of_close hbranches hbranches' hstates he with rfl | rfl | he
        · exact .inr hf
        · exact absurd hp (hnumbered.not_mem_incoming (e := b) hbranches hb)
        · exact absurd hp (hnumbered.not_mem_incoming hbranches he)

/-! ### Completeness -/

theorem complete_start (root : Formula) (w : OmegaWord) : (Search.start root).Complete root w := by
  intro p owed i howes hholds
  rcases howes with ⟨rfl, rfl⟩ | ⟨q, hq, -⟩
  · refine ⟨.start 1 0 {root}, List.mem_singleton_self _, by simp [Branch.start], ?_⟩
    refine ⟨fun f hf => hholds f ?_, by simp [Branch.start], by simp [Branch.start]⟩
    simpa [Branch.start, Branch.Requires] using hf
  · cases hq

theorem Complete.move (hs : s.Complete root w) (h : Move s t) : t.Complete root w := by
  intro p owed i howes hholds
  cases h with
  | idle hfresh hbranches hstates hcurrent =>
    have hentries := entries_eq hbranches hstates
    rw [hstates] at howes
    rw [hentries]
    exact hs p owed i howes hholds
  | expand hbranches hbranches' hstates hexpansion hcurrent =>
    rw [hstates] at howes
    obtain ⟨e, he, hp, hguided⟩ := hs p owed i howes hholds
    simp only [mem_entries, hbranches', hstates, List.mem_append]
    rw [mem_entries, hbranches, List.mem_cons] at he
    rcases he with (rfl | he) | he
    · obtain ⟨b', hb', hguided'⟩ := hexpansion.exists_guided hguided
      exact ⟨b', .inl (.inl hb'), hexpansion.incoming_eq hb' ▸ hp, hguided'⟩
    · exact ⟨e, .inl (.inr he), hp, hguided⟩
    · exact ⟨e, .inr he, hp, hguided⟩
  | @merge b others q hbranches hnew hq hagrees hfresh hbranches' hstates =>
    rw [hstates, owes_merge_iff] at howes
    obtain ⟨e, he, hp, hguided⟩ := hs p owed i howes hholds
    simp only [mem_entries, hbranches', hstates]
    rw [mem_entries, hbranches, List.mem_cons] at he
    rcases he with (rfl | he) | ⟨r, hr, rfl⟩
    · -- the state that takes in the branch takes its place
      refine ⟨(q.merge e).toBranch, .inr ⟨_, List.mem_map_of_mem hq, rfl⟩,
        mem_incoming_merge.mpr (.inr ⟨hagrees, hp⟩), ?_⟩
      exact (alike_merge q e).guided ((alike_of_agrees hnew hagrees).guided hguided)
    · exact ⟨e, .inl he, hp, hguided⟩
    · exact ⟨(r.merge b).toBranch, .inr ⟨_, List.mem_map_of_mem hr, rfl⟩,
        mem_incoming_merge.mpr (.inl hp), (alike_merge r b).guided hguided⟩
  | @close b others hbranches hnew hagrees hfresh hbranches' hstates =>
    rw [hstates] at howes
    simp only [mem_entries, hbranches', hstates, List.mem_append, List.mem_cons]
    rcases owes_of_close howes with howes | ⟨rfl, rfl⟩
    · obtain ⟨e, he, hp, hguided⟩ := hs p owed i howes hholds
      rw [mem_entries, hbranches, List.mem_cons] at he
      rcases he with (rfl | he) | ⟨r, hr, rfl⟩
      · exact ⟨State.toBranch ⟨e.id, e.incoming, e.old, e.next⟩, .inr ⟨_, .inr (.inl rfl), rfl⟩, hp,
          (alike_of_agrees hnew (agrees_iff.mpr ⟨rfl, rfl⟩)).guided hguided⟩
      · exact ⟨e, .inl (.inr he), hp, hguided⟩
      · exact ⟨r.toBranch, .inr ⟨r, .inl hr, rfl⟩, hp, hguided⟩
    · -- what the new state has put off is required by the branch it starts
      refine ⟨.start s.fresh b.id b.next, .inl (.inl rfl), by simp [Branch.start], ?_⟩
      refine ⟨fun f hf => hholds f ?_, by simp [Branch.start], by simp [Branch.start]⟩
      simpa [Branch.start, Branch.Requires] using hf

end Search

/-! ### What a state meets -/

namespace State

variable {q : State} {f g : Formula}

@[simp]
theorem requires_toBranch : q.toBranch.Requires f ↔ f ∈ q.old := by
  simp [Branch.Requires, toBranch]

/-- A formula that is met has an alternative with all it demands now recorded, and the rest put
off. -/
theorem exists_alternative (h : q.toBranch.Meets f) : ∃ r, rule f = some r ∧
    ∃ o ∈ r.alternatives, (∀ g ∈ o.now, g ∈ q.old) ∧ ∀ g ∈ o.later, g ∈ q.next := by
  obtain ⟨r, hrule, o, ho, hnow, hlater⟩ := h
  exact ⟨r, hrule, o, ho, fun g hg => requires_toBranch.mp (hnow g hg), hlater⟩

theorem not_meets_falsum : ¬ q.toBranch.Meets .falsum := by
  intro h
  obtain ⟨r, hrule, o, ho, -⟩ := exists_alternative h
  cases hrule
  cases ho

theorem next_cases (h : q.toBranch.Meets (.next f)) : f ∈ q.next := by
  obtain ⟨r, hrule, o, ho, -, hlater⟩ := exists_alternative h
  cases hrule
  obtain rfl := List.mem_singleton.mp ho
  exact hlater f (by simp)

theorem and_cases (h : q.toBranch.Meets (.and f g)) : f ∈ q.old ∧ g ∈ q.old := by
  obtain ⟨r, hrule, o, ho, hnow, -⟩ := exists_alternative h
  cases hrule
  obtain rfl := List.mem_singleton.mp ho
  exact ⟨hnow f (by simp), hnow g (by simp)⟩

theorem or_cases (h : q.toBranch.Meets (.or f g)) : f ∈ q.old ∨ g ∈ q.old := by
  obtain ⟨r, hrule, o, ho, hnow, -⟩ := exists_alternative h
  cases hrule
  rw [Rule.alternatives, List.mem_cons, List.mem_singleton] at ho
  rcases ho with rfl | rfl
  · exact .inl (hnow f (by simp))
  · exact .inr (hnow g (by simp))

theorem until_cases (h : q.toBranch.Meets (.until f g)) :
    g ∈ q.old ∨ f ∈ q.old ∧ .until f g ∈ q.next := by
  obtain ⟨r, hrule, o, ho, hnow, hlater⟩ := exists_alternative h
  cases hrule
  rw [Rule.alternatives, List.mem_cons, List.mem_singleton] at ho
  rcases ho with rfl | rfl
  · exact .inr ⟨hnow f (by simp), hlater _ (by simp)⟩
  · exact .inl (hnow g (by simp))

theorem release_cases (h : q.toBranch.Meets (.release f g)) :
    g ∈ q.old ∧ (f ∈ q.old ∨ .release f g ∈ q.next) := by
  obtain ⟨r, hrule, o, ho, hnow, hlater⟩ := exists_alternative h
  cases hrule
  rw [Rule.alternatives, List.mem_cons, List.mem_singleton] at ho
  rcases ho with rfl | rfl
  · exact ⟨hnow g (by simp), .inr (hlater _ (by simp))⟩
  · exact ⟨hnow g (by simp), .inl (hnow f (by simp))⟩

end State

/-! ### The result of the search -/

/-- The states of a tableau describe exactly the words that satisfy its root. -/
structure Faithful (t : Tableau) : Prop where
  isSubformula : ∀ q ∈ t.states, ∀ f ∈ q.old, f.IsSubformula t.root
  meets : ∀ q ∈ t.states, ∀ f ∈ q.old, q.toBranch.Meets f
  owed : ∀ p owed, Owes t.root t.states p owed → ∀ q ∈ t.states, p ∈ q.incoming →
    ∀ f ∈ owed, f ∈ q.old
  exists_guided : ∀ w p owed i, Owes t.root t.states p owed → (∀ f ∈ owed, f.HoldsAt w i) →
    ∃ q ∈ t.states, p ∈ q.incoming ∧ q.toBranch.Guided w i

theorem faithful_of_build {root : Formula} {t : Tableau} (h : build root = .ok t) :
    t.root = root ∧ t.Faithful := by
  let I : Search → Prop := fun s => s.Bounded root ∧ s.Numbered ∧ s.Sound root ∧
    ∀ w, s.Complete root w
  have hstart : I (.start root) := ⟨Search.bounded_start root, Search.numbered_start root,
    Search.sound_start root, Search.complete_start root⟩
  have hstep : ∀ s s', s.step = .ok s' → I s → I s' := by
    intro s s' hstep ⟨hbounded, hnumbered, hsound, hcomplete⟩
    have hmove := Search.move_of_step hstep
    exact ⟨hbounded.move hmove, hnumbered.move hmove, hsound.move hnumbered hmove,
      fun w => (hcomplete w).move hmove⟩
  obtain ⟨s, hdone, ⟨hbounded, hnumbered, hsound, hcomplete⟩, rfl⟩ :=
    build_invariant hstart hstep h
  -- no branch is left, so the entries are the states
  have hbranches := Search.branches_eq_nil hdone
  have hentries : ∀ q ∈ s.states, q.toBranch ∈ s.entries :=
    fun q hq => Search.mem_entries.mpr (.inr ⟨q, hq, rfl⟩)
  refine ⟨rfl, fun q hq f hf => hbounded.isSubformula _ (hentries q hq) f (.inl (.inl hf)),
    fun q hq => hsound.meets _ (hentries q hq), fun p owed howes q hq hp f hf => ?_,
    fun w p owed i howes hholds => ?_⟩
  · exact State.requires_toBranch.mp (hsound.owed p owed howes _ (hentries q hq) hp f hf)
  · obtain ⟨e, he, hp, hguided⟩ := hcomplete w p owed i howes hholds
    rw [Search.mem_entries, hbranches] at he
    obtain ⟨q, hq, rfl⟩ := he.resolve_left List.not_mem_nil
    exact ⟨q, hq, hp, hguided⟩

end Tableau

end TemporalMonitor
