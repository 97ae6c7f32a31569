import TemporalMonitor.Acceptance

/-!
# Questions to an acceptance condition

A condition says which sets of values it accepts. It also answers two questions that do not come
with a set, whether anything is accepted at all and whether a single value is enough, and it can be
carried over to other values, possibly several for one, none, or the same for several. This module
says what these mean in terms of the accepted sets.

Whether a renamed condition accepts a set depends on the mentioned values of which some new name is
in the set. In a Rabin condition that can count against the set, as such a value may be one that has
to be avoided.

## Main definitions

* `SortedSet.renamedInto` — the values with a new name in a set
* `Acceptance.IsExact` — a condition answers as the sets it accepts demand

## Main results

* `Buchi.isExact`, `GeneralizedBuchi.isExact`, `Rabin.isExact`
* `Acceptance.isExact_conditions` — the three together
-/

namespace TemporalMonitor

variable {α β : Type} [Ord α] [Std.LawfulEqOrd α] [Ord β] [Std.LawfulEqOrd β]

/-! ### Sets that meet -/

namespace SortedSet

variable {a : α} {s t : SortedSet α} {f : α → List β} {u : SortedSet β}

theorem not_disjoint_iff : (!s.disjoint t) = true ↔ ∃ a ∈ s, a ∈ t := by
  rw [Bool.not_eq_true', ← Bool.not_eq_true, disjoint_iff]
  simp

/-- The values with a new name in `u`. -/
def renamedInto (s : SortedSet α) (f : α → List β) (u : SortedSet β) : SortedSet α :=
  s.filter fun a => (f a).any u.contains

omit [Std.LawfulEqOrd α] in
theorem mem_renamedInto : a ∈ s.renamedInto f u ↔ a ∈ s ∧ ∃ b ∈ f a, b ∈ u := by
  simp [renamedInto, contains_iff]

/-- The new names of `s` avoid a set exactly if `s` avoids the values renamed into it. -/
theorem disjoint_flatMap [Std.TransOrd β] (hst : s ⊆ t) :
    (s.flatMap f).disjoint u = s.disjoint (t.renamedInto f u) := by
  rw [Bool.eq_iff_iff, disjoint_iff, disjoint_iff]
  constructor
  · intro h a ha hat
    obtain ⟨-, b, hb, hbu⟩ := mem_renamedInto.mp hat
    exact h b (mem_flatMap.mpr ⟨a, ha, hb⟩) hbu
  · intro h b hb hbu
    obtain ⟨a, ha, hab⟩ := mem_flatMap.mp hb
    exact h a ha (mem_renamedInto.mpr ⟨hst a ha, b, hab, hbu⟩)

end SortedSet

variable [Std.TransOrd α] [Std.TransOrd β]

/-- What a condition answers without a set agrees with the sets it accepts: it is satisfiable if it
accepts some set that is not empty, one value is enough if the set of that value is accepted, and
its renamed forms accept a set if it accepts the mentioned values that are renamed into that set. -/
structure Acceptance.IsExact {C D : Type} [Acceptance C α] [Acceptance D β] (c : C)
    (mentioned : SortedSet α) (map : (α → List β) → D) : Prop where
  isSatisfiable_iff : isSatisfiable c = true ↔
    ∃ s : SortedSet α, (∃ a, a ∈ s) ∧ accepts c s = true
  acceptsOne_iff : ∀ a, acceptsOne c a = true ↔ accepts c {a} = true
  accepts_map_iff : ∀ f s, accepts (map f) s = true ↔
    accepts c (mentioned.renamedInto f s) = true

open Acceptance

/-! ### Büchi conditions -/

namespace Buchi

omit [Std.TransOrd α] in
theorem accepts_iff {c : Buchi α} {s : SortedSet α} :
    accepts c s = true ↔ ∃ a ∈ c.accepting, a ∈ s :=
  SortedSet.not_disjoint_iff

theorem isExact (c : Buchi α) : IsExact c c.accepting fun f : α → List β => c.map f where
  isSatisfiable_iff := by
    have hempty : isSatisfiable c = true ↔ ∃ a, a ∈ c.accepting := by
      simp [isSatisfiable, ← Bool.not_eq_true, SortedSet.isEmpty_iff]
    rw [hempty]
    constructor
    · rintro ⟨a, ha⟩
      exact ⟨{a}, ⟨a, by simp⟩, accepts_iff.mpr ⟨a, ha, by simp⟩⟩
    · rintro ⟨s, -, hs⟩
      obtain ⟨a, ha, -⟩ := accepts_iff.mp hs
      exact ⟨a, ha⟩
  acceptsOne_iff a := by simp [accepts_iff, acceptsOne, SortedSet.contains_iff]
  accepts_map_iff f s := by
    simp only [accepts, map, SortedSet.disjoint_flatMap (SortedSet.subset_iff.mpr fun _ h => h)]

end Buchi

/-! ### Generalized Büchi conditions -/

namespace GeneralizedBuchi

/-- The values in some set. -/
def mentioned (c : GeneralizedBuchi α) : SortedSet α := .ofList (c.sets.flatMap SortedSet.toList)

theorem subset_mentioned {c : GeneralizedBuchi α} {set : SortedSet α} (h : set ∈ c.sets) :
    set ⊆ c.mentioned := fun _ ha =>
  SortedSet.mem_ofList.mpr (List.mem_flatMap.mpr ⟨set, h, ha⟩)

omit [Std.TransOrd α] in
theorem accepts_iff {c : GeneralizedBuchi α} {s : SortedSet α} :
    accepts c s = true ↔ ∀ set ∈ c.sets, ∃ a ∈ set, a ∈ s := by
  simp only [accepts, List.all_eq_true, SortedSet.not_disjoint_iff]

/-- The type needs a value for the condition without sets, which accepts every set: there has to be
a set that is not empty. -/
theorem isExact [Nonempty α] (c : GeneralizedBuchi α) :
    IsExact c c.mentioned fun f : α → List β => c.map f where
  isSatisfiable_iff := by
    have hempty : isSatisfiable c = true ↔ ∀ set ∈ c.sets, ∃ a, a ∈ set := by
      simp [isSatisfiable, ← Bool.not_eq_true, SortedSet.isEmpty_iff]
    rw [hempty]
    constructor
    · intro h
      obtain ⟨b⟩ := ‹Nonempty α›
      refine ⟨insert b c.mentioned, ⟨b, by simp⟩, accepts_iff.mpr fun set hset => ?_⟩
      obtain ⟨a, ha⟩ := h set hset
      exact ⟨a, ha, SortedSet.mem_insert.mpr (.inr (subset_mentioned hset a ha))⟩
    · rintro ⟨s, -, hs⟩ set hset
      obtain ⟨a, ha, -⟩ := accepts_iff.mp hs set hset
      exact ⟨a, ha⟩
  acceptsOne_iff a := by simp [accepts_iff, acceptsOne, SortedSet.contains_iff]
  accepts_map_iff f s := by
    simp only [accepts, map, List.all_map, List.all_eq_true, Function.comp_apply]
    refine forall₂_congr fun set hset => ?_
    rw [SortedSet.disjoint_flatMap (subset_mentioned hset)]

end GeneralizedBuchi

/-! ### Rabin conditions -/

namespace Rabin

/-- The values in some reject or accept set. -/
def mentioned (c : Rabin α) : SortedSet α :=
  .ofList (c.pairs.flatMap fun p => p.reject.toList ++ p.accept.toList)

theorem subset_mentioned {c : Rabin α} {p : RabinPair α} (h : p ∈ c.pairs) :
    p.reject ⊆ c.mentioned ∧ p.accept ⊆ c.mentioned := by
  have hmem : ∀ a, a ∈ p.reject ∨ a ∈ p.accept → a ∈ c.mentioned := fun a ha =>
    SortedSet.mem_ofList.mpr (List.mem_flatMap.mpr ⟨p, h, List.mem_append.mpr ha⟩)
  exact ⟨fun a ha => hmem a (.inl ha), fun a ha => hmem a (.inr ha)⟩

theorem accepts_iff {c : Rabin α} {s : SortedSet α} : accepts c s = true ↔
    ∃ p ∈ c.pairs, (∀ a ∈ p.reject, ¬ a ∈ s) ∧ ∃ a ∈ p.accept, a ∈ s := by
  simp only [accepts, List.any_eq_true, RabinPair.accepts, Bool.and_eq_true,
    SortedSet.disjoint_iff, SortedSet.not_disjoint_iff]

theorem isExact (c : Rabin α) : IsExact c c.mentioned fun f : α → List β => c.map f where
  isSatisfiable_iff := by
    have hpair : isSatisfiable c = true ↔ ∃ p ∈ c.pairs, ∃ a ∈ p.accept, ¬ a ∈ p.reject := by
      simp [isSatisfiable, ← Bool.not_eq_true, SortedSet.contains_iff]
    rw [hpair]
    constructor
    · rintro ⟨p, hp, a, ha, hreject⟩
      refine ⟨{a}, ⟨a, by simp⟩, accepts_iff.mpr ⟨p, hp, fun b hb hba => ?_, a, ha, by simp⟩⟩
      rw [SortedSet.mem_singleton] at hba
      exact hreject (hba ▸ hb)
    · rintro ⟨s, -, hs⟩
      obtain ⟨p, hp, hreject, a, ha, has⟩ := accepts_iff.mp hs
      exact ⟨p, hp, a, ha, fun hb => hreject a hb has⟩
  acceptsOne_iff _ := Iff.rfl
  accepts_map_iff f s := by
    simp only [accepts, map, List.any_map, List.any_eq_true, Function.comp_apply, RabinPair.accepts]
    refine exists_congr fun p => and_congr_right fun hp => ?_
    obtain ⟨hreject, haccept⟩ := subset_mentioned hp
    rw [SortedSet.disjoint_flatMap hreject, SortedSet.disjoint_flatMap haccept]

end Rabin

/-! ### All conditions -/

/-- Büchi, generalized Büchi and Rabin conditions answer as the sets they accept demand. -/
theorem Acceptance.isExact_conditions [Nonempty α] :
    (∀ c : Buchi α, IsExact c c.accepting fun f : α → List β => c.map f) ∧
      (∀ c : GeneralizedBuchi α, IsExact c c.mentioned fun f : α → List β => c.map f) ∧
      ∀ c : Rabin α, IsExact c c.mentioned fun f : α → List β => c.map f :=
  ⟨Buchi.isExact, GeneralizedBuchi.isExact, Rabin.isExact⟩

/-- Avoid 1 and meet 2, or meet 3. -/
def Rabin.avoidOrMeet : Rabin Nat := ⟨[⟨{1}, {2}⟩, ⟨∅, {3}⟩]⟩

/-- The values 1 and 2 get the same name, and 3 gets none. -/
def mergeNames (n : Nat) : List Nat := if n ≤ 2 then [0] else []

/-- Where a rejected and an accepted value get the same name, nothing is accepted any more. -/
theorem Rabin.isExact_avoidOrMeet :
    IsExact avoidOrMeet avoidOrMeet.mentioned (fun f : Nat → List Nat => avoidOrMeet.map f) ∧
      isSatisfiable avoidOrMeet = true ∧
      avoidOrMeet.mentioned.renamedInto mergeNames {0} = {1, 2} ∧
      accepts (avoidOrMeet.map mergeNames) ({0} : SortedSet Nat) = false := by
  have hexact := (Acceptance.isExact_conditions (α := Nat) (β := Nat)).2.2 avoidOrMeet
  have hnames : avoidOrMeet.mentioned.renamedInto mergeNames {0} = {1, 2} := by decide +kernel
  refine ⟨hexact, by decide +kernel, hnames, ?_⟩
  rw [← Bool.not_eq_true, hexact.accepts_map_iff, hnames]
  decide +kernel

end TemporalMonitor
