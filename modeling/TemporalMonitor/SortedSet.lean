/-!
# Sorted sets

A finite set over a type with a lawful comparison, kept as the strictly ascending list of its
elements. Two sets with the same elements are therefore the same value, the elements come out
smallest first, and the sets are themselves compared element by element.

## Main definitions

* `SortedSet` — a strictly ascending list
* `SortedSet.insert`, `SortedSet.union`, `SortedSet.filter`, `SortedSet.ofList` — ways to build sets
* `SortedSet.map`, `SortedSet.flatMap` — images

## Main results

* `SortedSet.ext` — a set is determined by its elements
* `mem_insert`, `mem_union`, `mem_filter`, `mem_ofList`, `mem_flatMap` — the elements of each set
-/

namespace TemporalMonitor

/-- A finite set, kept as the strictly ascending list of its elements. -/
structure SortedSet (α : Type) [Ord α] where
  /-- The elements, smallest first. -/
  toList : List α
  ascending : toList.Pairwise (fun a b => compare a b = .lt)

namespace SortedSet

variable {α : Type} [Ord α] {a b : α} {s t : SortedSet α}

/-! ### Elements, and sets cut out of a set -/

instance : Membership α (SortedSet α) := ⟨fun s a => a ∈ s.toList⟩

theorem mem_toList : a ∈ s.toList ↔ a ∈ s := Iff.rfl

instance : EmptyCollection (SortedSet α) := ⟨⟨[], .nil⟩⟩

instance : Inhabited (SortedSet α) := ⟨∅⟩

@[simp] theorem notMem_empty : ¬ a ∈ (∅ : SortedSet α) := List.not_mem_nil

/-- The number of elements. -/
def size (s : SortedSet α) : Nat := s.toList.length

/-- Whether there is no element. -/
def isEmpty (s : SortedSet α) : Bool := s.toList.isEmpty

theorem isEmpty_iff : s.isEmpty = true ↔ ∀ a, ¬ a ∈ s := by
  simp [isEmpty, List.isEmpty_iff, List.eq_nil_iff_forall_not_mem, mem_toList]

/-- Whether every element satisfies `p`. -/
def all (s : SortedSet α) (p : α → Bool) : Bool := s.toList.all p

/-- Whether some element satisfies `p`. -/
def any (s : SortedSet α) (p : α → Bool) : Bool := s.toList.any p

@[simp] theorem all_eq_true {p : α → Bool} : s.all p = true ↔ ∀ a ∈ s, p a = true :=
  List.all_eq_true

@[simp] theorem any_eq_true {p : α → Bool} : s.any p = true ↔ ∃ a, a ∈ s ∧ p a = true :=
  List.any_eq_true

/-- The elements that satisfy `p`. -/
def filter (p : α → Bool) (s : SortedSet α) : SortedSet α :=
  ⟨s.toList.filter p, s.ascending.sublist List.filter_sublist⟩

@[simp] theorem mem_filter {p : α → Bool} : a ∈ s.filter p ↔ a ∈ s ∧ p a = true :=
  List.mem_filter

/-- The smallest element and the rest of the set. -/
def pop? : SortedSet α → Option (α × SortedSet α)
  | ⟨[], _⟩ => none
  | ⟨a :: as, h⟩ => some (a, ⟨as, (List.pairwise_cons.mp h).2⟩)

theorem pop?_eq_none_iff : s.pop? = none ↔ ∀ a, ¬ a ∈ s := by
  obtain ⟨l, h⟩ := s
  cases l with
  | nil => exact ⟨fun _ _ => List.not_mem_nil, fun _ => rfl⟩
  | cons a as => exact ⟨nofun, fun h => absurd List.mem_cons_self (h a)⟩

theorem mem_of_pop?_eq_some (h : s.pop? = some (a, t)) : b ∈ s ↔ b = a ∨ b ∈ t := by
  obtain ⟨l, hl⟩ := s
  cases l with
  | nil => cases h
  | cons c cs =>
    cases h
    exact List.mem_cons

theorem mem_of_pop? (h : s.pop? = some (a, t)) : a ∈ s := (mem_of_pop?_eq_some h).mpr (.inl rfl)

instance : HasSubset (SortedSet α) := ⟨fun s t => ∀ a ∈ s, a ∈ t⟩

theorem subset_iff : s ⊆ t ↔ ∀ a ∈ s, a ∈ t := Iff.rfl

theorem toList_injective (h : s.toList = t.toList) : s = t := by
  cases s
  cases t
  cases h
  rfl

instance [DecidableEq α] : DecidableEq (SortedSet α) := fun s t =>
  decidable_of_iff (s.toList = t.toList) ⟨toList_injective, fun h => h ▸ rfl⟩

/-- Puts `a` in its place in an ascending list, unless it is there already. -/
def insertInto (a : α) : List α → List α
  | [] => [a]
  | b :: bs =>
    match compare a b with
    | .lt => a :: b :: bs
    | .eq => b :: bs
    | .gt => b :: insertInto a bs

/-- Whether `a` is an element. -/
def contains (s : SortedSet α) (a : α) : Bool :=
  s.toList.any (fun b => compare a b == .eq)

/-- Whether every element of `s` is one of `t`. -/
def subset (s t : SortedSet α) : Bool := s.all t.contains

/-- Whether the two sets have no element in common. -/
def disjoint (s t : SortedSet α) : Bool := s.all (fun a => !t.contains a)

/-- The set without `a`. -/
def erase (s : SortedSet α) (a : α) : SortedSet α :=
  s.filter (fun b => compare a b != .eq)

/-! ### Membership is decidable -/

variable [Std.LawfulEqOrd α]

theorem contains_iff : s.contains a = true ↔ a ∈ s := by
  simp only [contains, List.any_eq_true, beq_iff_eq, ← mem_toList]
  constructor
  · rintro ⟨b, hb, h⟩
    obtain rfl := Std.LawfulEqOrd.eq_of_compare h
    exact hb
  · exact fun h => ⟨a, h, Std.ReflOrd.compare_self⟩

instance : Decidable (a ∈ s) := decidable_of_iff _ contains_iff

theorem subset_eq_true_iff : s.subset t = true ↔ s ⊆ t := by
  simp [subset, contains_iff, subset_iff]

instance : Decidable (s ⊆ t) := decidable_of_iff _ subset_eq_true_iff

theorem disjoint_iff : s.disjoint t = true ↔ ∀ a ∈ s, ¬ a ∈ t := by
  simp [disjoint, ← contains_iff]

@[simp] theorem mem_erase : b ∈ s.erase a ↔ b ∈ s ∧ b ≠ a := by
  simp [erase, eq_comm (a := a)]

theorem mem_insertInto {l : List α} : b ∈ insertInto a l ↔ b = a ∨ b ∈ l := by
  induction l with
  | nil => simp [insertInto]
  | cons c cs ih =>
    unfold insertInto
    split
    · simp
    · rename_i h
      obtain rfl := Std.LawfulEqOrd.eq_of_compare h
      simp
    · simp only [List.mem_cons, ih]
      exact or_left_comm

/-! ### Building sets -/

variable [Std.TransOrd α]

theorem pairwise_insertInto {l : List α} (h : l.Pairwise (fun a b => compare a b = .lt)) :
    (insertInto a l).Pairwise (fun a b => compare a b = .lt) := by
  induction l with
  | nil => simp [insertInto]
  | cons c cs ih =>
    obtain ⟨hc, hcs⟩ := List.pairwise_cons.mp h
    unfold insertInto
    split
    · rename_i hac
      refine List.pairwise_cons.mpr ⟨fun d hd => ?_, h⟩
      rcases List.mem_cons.mp hd with rfl | hd
      · exact hac
      · exact Std.TransCmp.lt_trans hac (hc d hd)
    · exact h
    · rename_i hac
      refine List.pairwise_cons.mpr ⟨fun d hd => ?_, ih hcs⟩
      rcases mem_insertInto.mp hd with rfl | hd
      · exact Std.OrientedCmp.lt_of_gt hac
      · exact hc d hd

/-- The set with `a` added. -/
protected def insert (a : α) (s : SortedSet α) : SortedSet α :=
  ⟨insertInto a s.toList, pairwise_insertInto s.ascending⟩

instance : Insert α (SortedSet α) := ⟨SortedSet.insert⟩

@[simp] theorem mem_insert : b ∈ insert a s ↔ b = a ∨ b ∈ s := mem_insertInto

instance : Singleton α (SortedSet α) := ⟨fun a => insert a ∅⟩

@[simp] theorem mem_singleton : b ∈ ({a} : SortedSet α) ↔ b = a := by
  change b ∈ insert a ∅ ↔ b = a
  simp

/-- The elements of `s` and of a list. -/
def insertMany (s : SortedSet α) (l : List α) : SortedSet α :=
  l.foldl (fun u a => insert a u) s

@[simp] theorem mem_insertMany {l : List α} : b ∈ s.insertMany l ↔ b ∈ s ∨ b ∈ l := by
  unfold insertMany
  induction l generalizing s with
  | nil => simp
  | cons c cs ih =>
    simp only [List.foldl_cons, ih, mem_insert, List.mem_cons]
    exact ⟨fun h => h.elim (·.elim (.inr ∘ .inl) .inl) (.inr ∘ .inr),
      fun h => h.elim (.inl ∘ .inr) (·.elim (.inl ∘ .inl) .inr)⟩

/-- The elements of a list, sorted and without repetition. -/
def ofList (l : List α) : SortedSet α := insertMany ∅ l

@[simp] theorem mem_ofList {l : List α} : a ∈ ofList l ↔ a ∈ l := by
  simp [ofList]

/-- The elements of either set. -/
protected def union (s t : SortedSet α) : SortedSet α := s.insertMany t.toList

instance : Union (SortedSet α) := ⟨SortedSet.union⟩

@[simp] theorem mem_union : a ∈ s ∪ t ↔ a ∈ s ∨ a ∈ t := mem_insertMany

/-! ### Equality and order -/

omit [Std.LawfulEqOrd α] in
/-- Strictly ascending lists with the same elements are equal. -/
theorem eq_of_pairwise_of_mem_iff {l m : List α}
    (hl : l.Pairwise (fun a b => compare a b = .lt))
    (hm : m.Pairwise (fun a b => compare a b = .lt))
    (h : ∀ a, a ∈ l ↔ a ∈ m) : l = m := by
  induction l generalizing m with
  | nil =>
    exact (List.eq_nil_iff_forall_not_mem.mpr fun a ha => List.not_mem_nil ((h a).mpr ha)).symm
  | cons x xs ih =>
    cases m with
    | nil => exact absurd ((h x).mp List.mem_cons_self) List.not_mem_nil
    | cons y ys =>
      obtain ⟨hx, hxs⟩ := List.pairwise_cons.mp hl
      obtain ⟨hy, hys⟩ := List.pairwise_cons.mp hm
      have lt_irrefl : ∀ z : α, compare z z ≠ .lt := fun z => by
        simp [Std.ReflOrd.compare_self]
      have hxy : x = y := by
        rcases List.mem_cons.mp ((h x).mp List.mem_cons_self) with hxy | hxy
        · exact hxy
        · rcases List.mem_cons.mp ((h y).mpr List.mem_cons_self) with hyx | hyx
          · exact hyx.symm
          · exact absurd (Std.TransCmp.lt_trans (hy x hxy) (hx y hyx)) (lt_irrefl y)
      subst hxy
      refine congrArg (x :: ·) (ih hxs hys fun a => ⟨fun ha => ?_, fun ha => ?_⟩)
      · refine (List.mem_cons.mp ((h a).mp (List.mem_cons_of_mem _ ha))).resolve_left ?_
        rintro rfl
        exact lt_irrefl a (hx a ha)
      · refine (List.mem_cons.mp ((h a).mpr (List.mem_cons_of_mem _ ha))).resolve_left ?_
        rintro rfl
        exact lt_irrefl a (hy a ha)

omit [Std.LawfulEqOrd α] in
/-- A set is determined by its elements. -/
@[ext (iff := false)] theorem ext (h : ∀ a, a ∈ s ↔ a ∈ t) : s = t :=
  toList_injective (eq_of_pairwise_of_mem_iff s.ascending t.ascending h)

/-- Sets are compared as their ascending lists, element by element. -/
instance : Ord (SortedSet α) := ⟨compareOn SortedSet.toList⟩

instance : Std.TransOrd (SortedSet α) :=
  inferInstanceAs (Std.TransCmp (compareOn SortedSet.toList))

instance : Std.LawfulEqOrd (SortedSet α) where
  compare_self := Std.ReflOrd.compare_self (α := List α)
  eq_of_compare h := toList_injective (Std.LawfulEqOrd.eq_of_compare (α := List α) h)

/-! ### Images -/

section Image

variable {α β : Type} [Ord α] [Ord β] [Std.LawfulEqOrd β] [Std.TransOrd β]
variable {s : SortedSet α} {y : β}

/-- The images of the elements. -/
def map (f : α → β) (s : SortedSet α) : SortedSet β :=
  ofList (s.toList.map f)

@[simp] theorem mem_map {f : α → β} : y ∈ s.map f ↔ ∃ x ∈ s, f x = y := by
  simp [map, mem_toList]

/-- The union of the images of the elements, each of which is a list. -/
def flatMap (f : α → List β) (s : SortedSet α) : SortedSet β :=
  ofList (s.toList.flatMap f)

@[simp] theorem mem_flatMap {f : α → List β} : y ∈ s.flatMap f ↔ ∃ x ∈ s, y ∈ f x := by
  simp [flatMap, mem_toList]

end Image

end SortedSet

end TemporalMonitor
