import TemporalMonitor.Guard.Partition
import TemporalMonitor.Proofs.SortedSet

/-!
# What cubes and guards demand

The syntactic tests on cubes and guards agree with what they say about valuations. A consistent cube
is satisfied by the valuation that makes exactly its positive literals true, and every other fact
about satisfiability is read off from that one valuation.

## Main definitions

* `Cube.model` — a valuation that satisfies a consistent cube
* `Cube.Apart` — no valuation satisfies both cubes

## Main results

* `Cube.isConsistent_iff_exists`, `Cube.intersects_iff_exists` — the tests decide satisfiability
* `Guard.holds_conjoin`, `Guard.isDisjointFrom_iff` — conjunction and disjointness of guards
* `Cube.exists_mem_difference_iff` — the pieces of a difference cover exactly the difference
* `Cube.difference_divides` — the pieces of a difference divide what they cover
* `Guard.tests_exact` — what the tests on cubes and guards decide
-/

namespace TemporalMonitor

/-! ### Literals -/

namespace Literal

variable {l m : Literal} {v : Valuation}

theorem holds_iff : l.holds v = true ↔ v l.name = l.positive := by
  simp [holds]

@[simp] theorem negated_negated (l : Literal) : l.negated.negated = l := by
  simp [negated]

@[simp] theorem holds_negated : l.negated.holds v = true ↔ ¬ l.holds v = true := by
  rw [holds_iff, holds_iff]
  cases hv : v l.name <;> cases hl : l.positive <;> simp [negated, hv, hl]

theorem negated_ne (l : Literal) : l.negated ≠ l := by
  intro h
  have hpos := congrArg positive h
  simp [negated] at hpos

end Literal

namespace Cube

variable {c d e : Cube} {l : Literal} {v : Valuation}

/-! ### Satisfaction -/

theorem holds_iff : Cube.holds v c = true ↔ ∀ l ∈ c, l.holds v = true := by
  simp [Cube.holds]

theorem holds_insert : Cube.holds v (insert l c) = true ↔
    l.holds v = true ∧ Cube.holds v c = true := by
  simp [holds_iff]

theorem holds_union : Cube.holds v (c ∪ d) = true ↔
    Cube.holds v c = true ∧ Cube.holds v d = true := by
  simp only [holds_iff, SortedSet.mem_union]
  exact ⟨fun h => ⟨fun l hl => h l (.inl hl), fun l hl => h l (.inr hl)⟩,
    fun h l hl => hl.elim (h.1 l) (h.2 l)⟩

/-- A cube with more literals is satisfied by fewer valuations. -/
theorem holds_of_subset (hcd : c ⊆ d) (h : Cube.holds v d = true) : Cube.holds v c = true :=
  holds_iff.mpr fun l hl => holds_iff.mp h l (hcd l hl)

/-! ### Consistency -/

theorem isConsistent_iff : Cube.isConsistent c = true ↔ ∀ l ∈ c, ¬ l.negated ∈ c := by
  simp [Cube.isConsistent, ← SortedSet.contains_iff]

theorem isConsistent_insert (hc : Cube.isConsistent c = true) (hl : ¬ l.negated ∈ c) :
    Cube.isConsistent (insert l c) = true := by
  rw [isConsistent_iff] at hc ⊢
  intro m hm hneg
  rw [SortedSet.mem_insert] at hm hneg
  rcases hm with rfl | hm <;> rcases hneg with hneg | hneg
  · exact m.negated_ne hneg
  · exact hl hneg
  · rw [← hneg, Literal.negated_negated] at hl
    exact hl hm
  · exact hc m hm hneg

/-- The valuation that makes exactly the positive literals of a cube true. -/
def model (c : Cube) : Valuation := fun name => c.contains ⟨name, true⟩

theorem holds_model (h : Cube.isConsistent c = true) : Cube.holds (model c) c = true := by
  rw [isConsistent_iff] at h
  rw [holds_iff]
  rintro ⟨name, positive⟩ hl
  rw [Literal.holds_iff]
  cases positive with
  | true => exact SortedSet.contains_iff.mpr hl
  | false =>
    -- the positive literal of the same name is missing, by consistency
    have hneg := h _ hl
    exact Bool.eq_false_iff.mpr fun hc => hneg (SortedSet.contains_iff.mp hc)

theorem isConsistent_of_holds (h : Cube.holds v c = true) : Cube.isConsistent c = true := by
  rw [isConsistent_iff]
  intro l hl hneg
  exact Literal.holds_negated.mp (holds_iff.mp h _ hneg) (holds_iff.mp h l hl)

/-- A cube is consistent exactly when some valuation satisfies it. -/
theorem isConsistent_iff_exists : Cube.isConsistent c = true ↔ ∃ v, Cube.holds v c = true :=
  ⟨fun h => ⟨model c, holds_model h⟩, fun ⟨_, h⟩ => isConsistent_of_holds h⟩

theorem isConsistent_of_subset (hcd : c ⊆ d) (hd : Cube.isConsistent d = true) :
    Cube.isConsistent c = true :=
  isConsistent_of_holds (holds_of_subset hcd (holds_model hd))

/-- A consistent cube implies another one only by having all of its literals. -/
theorem subset_iff_forall_holds (hc : Cube.isConsistent c = true) :
    d ⊆ c ↔ ∀ v, Cube.holds v c = true → Cube.holds v d = true := by
  refine ⟨fun hdc v hv => holds_of_subset hdc hv, fun h l hl => ?_⟩
  by_contra hlc
  -- otherwise the cube can be met with the missing literal denied
  have hdenied : Cube.isConsistent (insert l.negated c) = true :=
    isConsistent_insert hc (by rwa [Literal.negated_negated])
  obtain ⟨hneg, hmodel⟩ := holds_insert.mp (holds_model hdenied)
  exact Literal.holds_negated.mp hneg (holds_iff.mp (h _ hmodel) l hl)

/-! ### Common valuations -/

/-- The two cubes pass the test for a common valuation exactly when their union is consistent. -/
theorem intersects_iff_isConsistent_union :
    Cube.intersects c d = true ↔ Cube.isConsistent (c ∪ d) = true := by
  have hsplit : Cube.intersects c d = true ↔ Cube.isConsistent c = true ∧
      Cube.isConsistent d = true ∧ ∀ l ∈ c, ¬ l.negated ∈ d := by
    simp [Cube.intersects, ← SortedSet.contains_iff, and_assoc]
  rw [hsplit, isConsistent_iff, isConsistent_iff, isConsistent_iff]
  simp only [SortedSet.mem_union]
  constructor
  · rintro ⟨hc, hd, hcd⟩ l (hl | hl) (hneg | hneg)
    · exact hc l hl hneg
    · exact hcd l hl hneg
    · exact hcd _ hneg (l.negated_negated.symm ▸ hl)
    · exact hd l hl hneg
  · intro h
    exact ⟨fun l hl hneg => h l (.inl hl) (.inl hneg), fun l hl hneg => h l (.inr hl) (.inr hneg),
      fun l hl hneg => h l (.inl hl) (.inr hneg)⟩

theorem intersects_iff_exists : Cube.intersects c d = true ↔
    ∃ v, Cube.holds v c = true ∧ Cube.holds v d = true := by
  rw [intersects_iff_isConsistent_union, isConsistent_iff_exists]
  simp only [holds_union]

/-- No valuation satisfies both cubes. -/
def Apart (c d : Cube) : Prop := ∀ v, ¬ (Cube.holds v c = true ∧ Cube.holds v d = true)

theorem not_intersects_iff_apart : ¬ Cube.intersects c d = true ↔ Apart c d := by
  rw [intersects_iff_exists, not_exists, Apart]

theorem Apart.symm (h : Apart c d) : Apart d c := fun v hv => h v hv.symm

theorem Apart.mono {c' d' : Cube} (h : Apart c d) (hc : c ⊆ c') (hd : d ⊆ d') : Apart c' d' :=
  fun v hv => h v ⟨holds_of_subset hc hv.1, holds_of_subset hd hv.2⟩

theorem apart_of_mem_of_negated_mem (hc : l ∈ c) (hd : l.negated ∈ d) : Apart c d := by
  intro v hv
  exact Literal.holds_negated.mp (holds_iff.mp hv.2 _ hd) (holds_iff.mp hv.1 l hc)

theorem implies_iff : Cube.implies c d = true ↔ d ⊆ c := SortedSet.subset_eq_true_iff

/-! ### Differences -/

theorem subset_of_mem_denials {ls : List Literal} (h : e ∈ denials c ls) : c ⊆ e := by
  induction ls generalizing c with
  | nil => simp [denials] at h
  | cons l ls ih =>
    unfold denials at h
    split at h
    · exact ih h
    · rcases List.mem_cons.mp h with rfl | h
      · exact SortedSet.subset_insert
      · exact SortedSet.subset_trans SortedSet.subset_insert (ih h)

/-- Denying one literal after another covers the valuations that miss some literal. -/
theorem exists_mem_denials_iff {ls : List Literal} :
    (∃ e ∈ denials c ls, Cube.holds v e = true) ↔
      Cube.holds v c = true ∧ ∃ l ∈ ls, ¬ l.holds v = true := by
  induction ls generalizing c with
  | nil => simp [denials]
  | cons l ls ih =>
    unfold denials
    split
    · rename_i hl
      rw [ih]
      have hc : Cube.holds v c = true → l.holds v = true := fun h => holds_iff.mp h l hl
      simp only [List.mem_cons, exists_eq_or_imp]
      grind
    · simp only [List.mem_cons, exists_eq_or_imp, ih, holds_insert, Literal.holds_negated]
      by_cases hl : l.holds v = true <;> simp [hl]

theorem pairwise_apart_denials (c : Cube) (ls : List Literal) :
    (denials c ls).Pairwise Apart := by
  induction ls generalizing c with
  | nil => exact .nil
  | cons l ls ih =>
    unfold denials
    split
    · exact ih c
    · refine List.pairwise_cons.mpr ⟨fun e he => ?_, ih _⟩
      have hl : l ∈ e := subset_of_mem_denials he l (SortedSet.mem_insert.mpr (.inl rfl))
      exact (apart_of_mem_of_negated_mem hl (SortedSet.mem_insert.mpr (.inl rfl))).symm

theorem isConsistent_of_mem_denials {ls : List Literal} (hc : Cube.isConsistent c = true)
    (hls : ∀ l ∈ ls, ∀ m ∈ ls, l.negated ≠ m) (hcls : ∀ l ∈ ls, ¬ l.negated ∈ c)
    (h : e ∈ denials c ls) : Cube.isConsistent e = true := by
  induction ls generalizing c with
  | nil => simp [denials] at h
  | cons l ls ih =>
    have hls' : ∀ k ∈ ls, ∀ m ∈ ls, k.negated ≠ m := fun k hk m hm =>
      hls k (List.mem_cons_of_mem _ hk) m (List.mem_cons_of_mem _ hm)
    unfold denials at h
    split at h
    · exact ih hc hls' (fun k hk => hcls k (List.mem_cons_of_mem _ hk)) h
    · rename_i hl
      rcases List.mem_cons.mp h with rfl | h
      · exact isConsistent_insert hc (by rwa [Literal.negated_negated])
      · refine ih (isConsistent_insert hc (hcls l List.mem_cons_self)) hls' ?_ h
        intro k hk hneg
        rcases SortedSet.mem_insert.mp hneg with hneg | hneg
        · exact hls k (List.mem_cons_of_mem _ hk) l List.mem_cons_self hneg
        · exact hcls k (List.mem_cons_of_mem _ hk) hneg

theorem subset_of_mem_difference (h : e ∈ difference c d) : c ⊆ e := by
  unfold difference at h
  split at h
  · exact subset_of_mem_denials h
  · rw [List.mem_singleton.mp h]
    exact SortedSet.subset_refl c

/-- The pieces of a difference are satisfied by what satisfies the first cube and not the second. -/
theorem exists_mem_difference_iff :
    (∃ e ∈ difference c d, Cube.holds v e = true) ↔
      Cube.holds v c = true ∧ ¬ Cube.holds v d = true := by
  unfold difference
  split
  · rw [exists_mem_denials_iff, holds_iff (c := d)]
    simp [SortedSet.mem_toList]
  · rename_i hcd
    have hapart := not_intersects_iff_apart.mp hcd v
    simp only [List.mem_singleton, exists_eq_left]
    exact ⟨fun hc => ⟨hc, fun hd => hapart ⟨hc, hd⟩⟩, And.left⟩

theorem pairwise_apart_difference (c d : Cube) : (difference c d).Pairwise Apart := by
  unfold difference
  split
  · exact pairwise_apart_denials c _
  · exact List.pairwise_singleton _ _

theorem isConsistent_of_mem_difference (hc : Cube.isConsistent c = true)
    (h : e ∈ difference c d) : Cube.isConsistent e = true := by
  unfold difference at h
  split at h
  · rename_i hcd
    rw [intersects_iff_isConsistent_union, isConsistent_iff] at hcd
    refine isConsistent_of_mem_denials hc ?_ ?_ h
    · rintro l hl m hm rfl
      exact hcd l (SortedSet.subset_union_right l hl) (SortedSet.subset_union_right _ hm)
    · intro l hl hneg
      exact hcd l (SortedSet.subset_union_right l hl) (SortedSet.subset_union_left _ hneg)
  · rwa [List.mem_singleton.mp h]

/-- A piece of a difference has no valuation in common with the cube that was cut out. -/
theorem apart_of_mem_difference (h : e ∈ difference c d) : Apart e d :=
  fun _ hv => (exists_mem_difference_iff.mp ⟨e, h, hv.1⟩).2 hv.2

/-- Cutting one cube out of another, be they consistent or not, leaves cubes that are disjoint and
keep all literals of the cube that was cut, and its consistency. Together they are satisfied by what
satisfies that cube and not the one cut out. -/
theorem difference_divides (c d : Cube) :
    (difference c d).Pairwise Apart ∧ (∀ e ∈ difference c d, c ⊆ e) ∧
      (Cube.isConsistent c = true → ∀ e ∈ difference c d, Cube.isConsistent e = true) ∧
      ∀ v, (∃ e ∈ difference c d, Cube.holds v e = true) ↔
        Cube.holds v c = true ∧ ¬ Cube.holds v d = true := by
  refine ⟨pairwise_apart_difference c d, fun e he => subset_of_mem_difference he, ?_, ?_⟩
  · intro hc e he
    exact isConsistent_of_mem_difference hc he
  · exact fun v => exists_mem_difference_iff

/-- The door is open. -/
def doorOpen : Cube := {⟨"open", true⟩}

/-- The door is open, no alarm sounds, and somebody is in. -/
def quietEntry : Cube := {⟨"alarm", false⟩, ⟨"inside", true⟩, ⟨"open", true⟩}

/-- The literal that both cubes have is passed over, so two pieces are left and not three. -/
theorem difference_doorOpen_quietEntry :
    Cube.isConsistent doorOpen = true ∧
      difference doorOpen quietEntry =
        [{⟨"alarm", true⟩, ⟨"open", true⟩},
          {⟨"alarm", false⟩, ⟨"inside", false⟩, ⟨"open", true⟩}] ∧
      ∀ e ∈ difference doorOpen quietEntry, Cube.isConsistent e = true := by
  have hconsistent : Cube.isConsistent doorOpen = true := by decide
  obtain ⟨-, -, hpieces, -⟩ := difference_divides doorOpen quietEntry
  exact ⟨hconsistent, by decide, hpieces hconsistent⟩

end Cube

/-! ### Guards -/

namespace Guard

variable {g h : Guard} {c : Cube} {v : Valuation}

@[simp] theorem holds_cube : (Guard.cube c).holds v = Cube.holds v c := rfl

@[simp] theorem holds_never : Guard.never.holds v = false := rfl

theorem isCube_iff : g.isCube = true ↔ g ≠ .never := by
  cases g <;> simp [isCube]

theorem isCube_of_holds (hg : g.holds v = true) : g.isCube = true := by
  cases g with
  | cube c => rfl
  | never => simp at hg

theorem holds_ofCube : (ofCube c).holds v = Cube.holds v c := by
  unfold ofCube
  split
  · rfl
  · rename_i hc
    exact (Bool.eq_false_iff.mpr fun h => hc (Cube.isConsistent_of_holds h)).symm

theorem isConsistent_of_ofCube_eq {d : Cube} (h : ofCube c = .cube d) :
    Cube.isConsistent d = true := by
  unfold ofCube at h
  split at h
  · rename_i hc
    cases h
    exact hc
  · cases h

/-- The conjunction of two guards is met exactly when both are. -/
theorem holds_conjoin : (g.conjoin h).holds v = true ↔ g.holds v = true ∧ h.holds v = true := by
  cases g <;> cases h <;> simp [conjoin, holds_ofCube, Cube.holds_union]

/-- Two guards pass the test for disjointness exactly when no valuation meets both. -/
theorem isDisjointFrom_iff : g.isDisjointFrom h = true ↔
    ∀ v, ¬ (g.holds v = true ∧ h.holds v = true) := by
  cases g with
  | never => simp [isDisjointFrom, conjoin, isCube]
  | cube c =>
    cases h with
    | never => simp [isDisjointFrom, conjoin, isCube]
    | cube d =>
      change _ ↔ Cube.Apart c d
      rw [← Cube.not_intersects_iff_apart, Cube.intersects_iff_isConsistent_union]
      simp only [isDisjointFrom, conjoin, ofCube]
      split <;> simp_all [isCube]

/-- A guard that a cube implies is met by whatever satisfies the cube. -/
theorem holds_of_isImpliedBy (hg : g.isImpliedBy c = true) (hv : Cube.holds v c = true) :
    g.holds v = true := by
  cases g with
  | never => simp [isImpliedBy] at hg
  | cube d =>
    simp only [isImpliedBy, Bool.and_eq_true] at hg
    exact Cube.holds_of_subset (Cube.implies_iff.mp hg.2) hv

/-- The test for a common valuation, that for disjoint guards and that for a consistent union agree,
for inconsistent cubes too: they decide whether some valuation satisfies both cubes. The conjunction
of any two guards is met when both are, and a consistent cube has all literals of another one
exactly if whatever satisfies it satisfies the other. -/
theorem tests_exact (c d : Cube) :
    ((Cube.intersects c d = true ↔ ∃ v, Cube.holds v c = true ∧ Cube.holds v d = true) ∧
      (Cube.intersects c d = true ↔ ¬ (Guard.cube c).isDisjointFrom (.cube d) = true) ∧
      (Cube.intersects c d = true ↔ Cube.isConsistent (c ∪ d) = true)) ∧
    (∀ (g h : Guard) (v : Valuation),
      (g.conjoin h).holds v = true ↔ g.holds v = true ∧ h.holds v = true) ∧
    (Cube.isConsistent c = true →
      (Cube.implies c d = true ↔ ∀ v, Cube.holds v c = true → Cube.holds v d = true)) := by
  refine ⟨⟨Cube.intersects_iff_exists, ?_, Cube.intersects_iff_isConsistent_union⟩, ?_, ?_⟩
  · rw [isDisjointFrom_iff, not_forall_not, Cube.intersects_iff_exists]
    rfl
  · exact fun _ _ _ => holds_conjoin
  · intro hc
    rw [Cube.implies_iff, Cube.subset_iff_forall_holds hc]

/-- A quiet entry opens the door, but the door may be open otherwise. -/
theorem tests_doorOpen_quietEntry :
    Cube.isConsistent Cube.doorOpen = true ∧ Cube.isConsistent Cube.quietEntry = true ∧
      (∀ v, Cube.holds v Cube.quietEntry = true → Cube.holds v Cube.doorOpen = true) ∧
      ¬ ∀ v, Cube.holds v Cube.doorOpen = true → Cube.holds v Cube.quietEntry = true := by
  have hopen : Cube.isConsistent Cube.doorOpen = true := by decide
  have hentry : Cube.isConsistent Cube.quietEntry = true := by decide
  obtain ⟨-, -, himplies⟩ := tests_exact Cube.quietEntry Cube.doorOpen
  obtain ⟨-, -, hconverse⟩ := tests_exact Cube.doorOpen Cube.quietEntry
  refine ⟨hopen, hentry, (himplies hentry).mp (by decide), ?_⟩
  rw [← hconverse hopen]
  decide

end Guard

end TemporalMonitor
