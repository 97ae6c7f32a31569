import TemporalMonitor.SortedSet

/-!
# Acceptance conditions

When an infinite run of an automaton is accepted, in terms of the set of values it meets infinitely
often. A Büchi condition asks for one value of a set, a generalized Büchi condition for one value of
each of several sets, and a Rabin condition for a pair whose reject set is avoided and whose accept
set is met.

## Main definitions

* `Buchi`, `GeneralizedBuchi`, `Rabin` — the conditions
* `Acceptance` — what the conditions have in common
* `MonotoneAcceptance` — conditions that meeting more values cannot spoil

## Main results

* `Buchi` and `GeneralizedBuchi` are monotone
-/

namespace TemporalMonitor

variable {α β : Type} [Ord α] [Ord β]

/-- A condition on the set of values that a run meets infinitely often. -/
class Acceptance (C : Type) (α : outParam Type) [Ord α] where
  /-- Whether meeting exactly these values infinitely often is accepted. -/
  accepts : C → SortedSet α → Bool
  /-- Whether staying at one value for ever is accepted. -/
  acceptsOne : C → α → Bool
  /-- Whether some set of values is accepted. -/
  isSatisfiable : C → Bool

/-- A condition that stays met when a run meets more values infinitely often. -/
class MonotoneAcceptance (C : Type) {α : outParam Type} [Ord α] [Acceptance C α] : Prop where
  accepts_mono {c : C} {s t : SortedSet α} : s ⊆ t → Acceptance.accepts c s = true →
    Acceptance.accepts c t = true

/-! ### Büchi conditions -/

/-- Some value of the set is met infinitely often. -/
structure Buchi (α : Type) [Ord α] where
  accepting : SortedSet α

namespace Buchi

instance : Acceptance (Buchi α) α where
  accepts c s := !c.accepting.disjoint s
  acceptsOne c a := c.accepting.contains a
  isSatisfiable c := !c.accepting.isEmpty

/-- The condition with one more accepting value. -/
def insert [Std.LawfulEqOrd α] [Std.TransOrd α] (c : Buchi α) (a : α) : Buchi α :=
  ⟨Insert.insert a c.accepting⟩

/-- The condition on what the values are renamed to, possibly several each. -/
def map [Std.LawfulEqOrd β] [Std.TransOrd β] (f : α → List β) (c : Buchi α) : Buchi β :=
  ⟨c.accepting.flatMap f⟩

end Buchi

/-! ### Generalized Büchi conditions -/

/-- Some value of each set is met infinitely often. -/
structure GeneralizedBuchi (α : Type) [Ord α] where
  sets : List (SortedSet α)

namespace GeneralizedBuchi

instance : Acceptance (GeneralizedBuchi α) α where
  accepts c s := c.sets.all fun set => !set.disjoint s
  acceptsOne c a := c.sets.all (·.contains a)
  isSatisfiable c := c.sets.all fun set => !set.isEmpty

/-- The condition with one more set, which comes last. -/
def push (c : GeneralizedBuchi α) (set : SortedSet α) : GeneralizedBuchi α := ⟨c.sets ++ [set]⟩

/-- The indices of the sets that contain a value. -/
def memberships (c : GeneralizedBuchi α) (a : α) : List Nat :=
  c.sets.zipIdx.filterMap fun (set, i) => if set.contains a then some i else none

/-- The condition on what the values are renamed to, possibly several each. -/
def map [Std.LawfulEqOrd β] [Std.TransOrd β] (f : α → List β) (c : GeneralizedBuchi α) :
    GeneralizedBuchi β :=
  ⟨c.sets.map (·.flatMap f)⟩

end GeneralizedBuchi

/-! ### Rabin conditions -/

/-- Values to be avoided from some point on, and values to be met for ever. -/
structure RabinPair (α : Type) [Ord α] where
  /-- The values to be avoided. -/
  reject : SortedSet α
  /-- The values one of which is to be met. -/
  accept : SortedSet α

/-- Whether the pair accepts meeting exactly these values infinitely often. -/
def RabinPair.accepts (p : RabinPair α) (s : SortedSet α) : Bool :=
  p.reject.disjoint s && !p.accept.disjoint s

/-- For some pair, the reject values are met finitely often and an accept value infinitely often. -/
structure Rabin (α : Type) [Ord α] where
  pairs : List (RabinPair α)

namespace Rabin

instance [Std.LawfulEqOrd α] [Std.TransOrd α] : Acceptance (Rabin α) α where
  accepts c s := c.pairs.any (·.accepts s)
  acceptsOne c a := c.pairs.any (·.accepts {a})
  isSatisfiable c := c.pairs.any fun p => p.accept.any fun a => !p.reject.contains a

/-- The condition with one more pair, which comes last. -/
def push (c : Rabin α) (p : RabinPair α) : Rabin α := ⟨c.pairs ++ [p]⟩

/-- The condition on what the values are renamed to, possibly several each. -/
def map [Std.LawfulEqOrd β] [Std.TransOrd β] (f : α → List β) (c : Rabin α) : Rabin β :=
  ⟨c.pairs.map fun p => ⟨p.reject.flatMap f, p.accept.flatMap f⟩⟩

end Rabin

/-! ### Monotonicity -/

/-- A set that is met stays met by a larger set. -/
theorem SortedSet.disjoint_mono [Std.LawfulEqOrd α] {u s t : SortedSet α} (hst : s ⊆ t)
    (h : u.disjoint t = true) : u.disjoint s = true :=
  disjoint_iff.mpr fun a ha has => disjoint_iff.mp h a ha (hst a has)

instance [Std.LawfulEqOrd α] : MonotoneAcceptance (Buchi α) where
  accepts_mono {c s t} hst h := by
    simp only [Acceptance.accepts, Bool.not_eq_true'] at h ⊢
    exact Bool.eq_false_iff.mpr fun ht =>
      Bool.eq_false_iff.mp h (SortedSet.disjoint_mono hst ht)

instance [Std.LawfulEqOrd α] : MonotoneAcceptance (GeneralizedBuchi α) where
  accepts_mono {c s t} hst h := by
    simp only [Acceptance.accepts, List.all_eq_true, Bool.not_eq_true'] at h ⊢
    exact fun u hu => Bool.eq_false_iff.mpr fun ht =>
      Bool.eq_false_iff.mp (h u hu) (SortedSet.disjoint_mono hst ht)

end TemporalMonitor
