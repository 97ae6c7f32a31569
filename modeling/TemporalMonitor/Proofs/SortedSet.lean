import Mathlib.Data.Finset.Powerset
import TemporalMonitor.SortedSet

/-!
# Sorted sets as finite sets

What later proofs need to know about sorted sets beyond their elements: inclusion, and counting,
which is done in the finite set with the same elements.

## Main definitions

* `SortedSet.toFinset` — the finite set with the same elements

## Main results

* `SortedSet.toFinset_injective` — a sorted set is determined by its finite set
* `SortedSet.card_toFinset` — both have the same size
-/

namespace TemporalMonitor

namespace SortedSet

variable {α : Type} [Ord α] {a : α} {s t u : SortedSet α}

/-! ### Inclusion -/

theorem subset_refl (s : SortedSet α) : s ⊆ s := fun _ h => h

theorem subset_trans (hst : s ⊆ t) (htu : t ⊆ u) : s ⊆ u := fun a h => htu a (hst a h)

section

variable [Std.LawfulEqOrd α] [Std.TransOrd α]

theorem subset_union_left : s ⊆ s ∪ t := fun _ h => mem_union.mpr (.inl h)

theorem subset_union_right : t ⊆ s ∪ t := fun _ h => mem_union.mpr (.inr h)

theorem subset_insert : s ⊆ insert a s := fun _ h => mem_insert.mpr (.inr h)

end

/-! ### Counting -/

section

variable [DecidableEq α]

/-- The finite set with the same elements. -/
def toFinset (s : SortedSet α) : Finset α := s.toList.toFinset

@[simp] theorem mem_toFinset : a ∈ s.toFinset ↔ a ∈ s := List.mem_toFinset

theorem toFinset_subset_iff : s.toFinset ⊆ t.toFinset ↔ s ⊆ t := by
  simp [Finset.subset_iff, subset_iff]

end

variable [Std.TransOrd α]

theorem nodup_toList (s : SortedSet α) : s.toList.Nodup := by
  refine s.ascending.imp fun {a b} hab => ?_
  rintro rfl
  simp [Std.ReflOrd.compare_self] at hab

theorem size_ofList_le [Std.LawfulEqOrd α] (l : List α) : (ofList l).size ≤ l.length := by
  have hsub : (ofList l).toList ⊆ l := fun a ha => mem_ofList.mp ha
  exact ((nodup_toList _).subperm hsub).length_le

variable [DecidableEq α]

theorem toFinset_injective (h : s.toFinset = t.toFinset) : s = t := by
  ext a
  rw [← mem_toFinset, h, mem_toFinset]

theorem card_toFinset (s : SortedSet α) : s.toFinset.card = s.size :=
  List.toFinset_card_of_nodup s.nodup_toList

theorem size_lt_of_subset_of_ne (h : s ⊆ t) (hne : s ≠ t) : s.size < t.size := by
  rw [← card_toFinset, ← card_toFinset]
  refine Finset.card_lt_card (Finset.ssubset_iff_subset_ne.mpr ⟨toFinset_subset_iff.mpr h, ?_⟩)
  exact fun heq => hne (toFinset_injective heq)

theorem size_le_one_iff : s.size ≤ 1 ↔ ∀ a b, a ∈ s → b ∈ s → a = b := by
  rw [← card_toFinset, Finset.card_le_one_iff]
  simp only [mem_toFinset]

theorem toFinset_insert [Std.LawfulEqOrd α] (a : α) (s : SortedSet α) :
    (insert a s).toFinset = insert a s.toFinset := by
  ext b
  simp

theorem size_insert [Std.LawfulEqOrd α] (h : ¬ a ∈ s) : (insert a s).size = s.size + 1 := by
  rw [← card_toFinset, ← card_toFinset, toFinset_insert, Finset.card_insert_of_notMem]
  rwa [mem_toFinset]

end SortedSet

end TemporalMonitor
