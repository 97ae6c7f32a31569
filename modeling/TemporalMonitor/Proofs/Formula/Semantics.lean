import TemporalMonitor.Formula.NormalForm
import TemporalMonitor.Formula.Semantics

/-!
# Laws of satisfaction

Until and release are dual, each can be unrolled by one instant, and the normal form of a formula
means what the formula means.

## Main results

* `Formula.holdsAt_until_iff`, `Formula.holdsAt_release_iff` — unrolling
* `Formula.not_holdsAt_until_iff`, `Formula.not_holdsAt_release_iff` — duality
* `Formula.holdsAt_normalize_and_negate` — the meaning of the normal forms
* `Formula.holdsAt_normalForms_iff` — the same, with the readings of the derived operators
-/

namespace TemporalMonitor

namespace Formula

variable {w : OmegaWord} {f g : Formula} {i : Nat}

/-! ### Until and release -/

@[simp] theorem holdsAt_verum : Formula.verum.HoldsAt w i := trivial

@[simp] theorem not_holdsAt_falsum : ¬ Formula.falsum.HoldsAt w i := id

theorem holdsAt_until : (Formula.until f g).HoldsAt w i ↔
    ∃ j, i ≤ j ∧ g.HoldsAt w j ∧ ∀ k, i ≤ k → k < j → f.HoldsAt w k := Iff.rfl

theorem holdsAt_release : (Formula.release f g).HoldsAt w i ↔
    ∀ j, i ≤ j → g.HoldsAt w j ∨ ∃ k, i ≤ k ∧ k < j ∧ f.HoldsAt w k := Iff.rfl

/-- An until is settled now or put off. -/
theorem holdsAt_until_iff : (Formula.until f g).HoldsAt w i ↔
    g.HoldsAt w i ∨ f.HoldsAt w i ∧ (Formula.until f g).HoldsAt w (i + 1) := by
  simp only [holdsAt_until]
  constructor
  · rintro ⟨j, hij, hg, hf⟩
    rcases Nat.eq_or_lt_of_le hij with rfl | hlt
    · exact .inl hg
    · exact .inr ⟨hf i (Nat.le_refl i) hlt, j, hlt, hg, fun k hik => hf k (by omega)⟩
  · rintro (hg | ⟨hf, j, hij, hg, hfs⟩)
    · exact ⟨i, Nat.le_refl i, hg, fun k hik hki => by omega⟩
    · refine ⟨j, by omega, hg, fun k hik hkj => ?_⟩
      rcases Nat.eq_or_lt_of_le hik with rfl | hlt
      · exact hf
      · exact hfs k hlt hkj

/-- A release is settled now or put off, and its right side holds now in either case. -/
theorem holdsAt_release_iff : (Formula.release f g).HoldsAt w i ↔
    g.HoldsAt w i ∧ (f.HoldsAt w i ∨ (Formula.release f g).HoldsAt w (i + 1)) := by
  simp only [holdsAt_release]
  constructor
  · intro h
    have hg : g.HoldsAt w i := by
      rcases h i (Nat.le_refl i) with hg | ⟨k, hik, hki, -⟩
      · exact hg
      · omega
    refine ⟨hg, ?_⟩
    by_cases hf : f.HoldsAt w i
    · exact .inl hf
    · refine .inr fun j hij => ?_
      rcases h j (by omega) with hg | ⟨k, hik, hkj, hk⟩
      · exact .inl hg
      · -- the left side does not hold yet, so it is released later
        rcases Nat.eq_or_lt_of_le hik with rfl | hlt
        · exact absurd hk hf
        · exact .inr ⟨k, hlt, hkj, hk⟩
  · rintro ⟨hg, hor⟩ j hij
    rcases Nat.eq_or_lt_of_le hij with rfl | hlt
    · exact .inl hg
    · rcases hor with hf | hrest
      · exact .inr ⟨i, Nat.le_refl i, hlt, hf⟩
      · rcases hrest j hlt with hg | ⟨k, hik, hkj, hk⟩
        · exact .inl hg
        · exact .inr ⟨k, by omega, hkj, hk⟩

theorem not_holdsAt_until_iff : ¬ (Formula.until f g).HoldsAt w i ↔
    ∀ j, i ≤ j → ¬ g.HoldsAt w j ∨ ∃ k, i ≤ k ∧ k < j ∧ ¬ f.HoldsAt w k := by
  simp only [holdsAt_until]
  grind

theorem not_holdsAt_release_iff : ¬ (Formula.release f g).HoldsAt w i ↔
    ∃ j, i ≤ j ∧ ¬ g.HoldsAt w j ∧ ∀ k, i ≤ k → k < j → ¬ f.HoldsAt w k := by
  simp only [holdsAt_release]
  grind

theorem holdsAt_until_verum :
    (Formula.until .verum f).HoldsAt w i ↔ ∃ j, i ≤ j ∧ f.HoldsAt w j := by
  simp [holdsAt_until]

theorem holdsAt_release_falsum :
    (Formula.release .falsum f).HoldsAt w i ↔ ∀ j, i ≤ j → f.HoldsAt w j := by
  simp [holdsAt_release]

/-! ### Normal forms -/

theorem holdsAt_normalize_and_negate_unary {op : UnaryOp}
    (ih : ∀ j, (f.normalize.HoldsAt w j ↔ f.HoldsAt w j) ∧
      (f.negate.HoldsAt w j ↔ ¬ f.HoldsAt w j)) (i : Nat) :
    ((Formula.unary op f).normalize.HoldsAt w i ↔ (Formula.unary op f).HoldsAt w i) ∧
      ((Formula.unary op f).negate.HoldsAt w i ↔ ¬ (Formula.unary op f).HoldsAt w i) := by
  have hpos := fun j => (ih j).1
  have hneg := fun j => (ih j).2
  cases op with
  | not => simp only [normalize, negate, HoldsAt, hpos, hneg, Classical.not_not, and_self]
  | next => simp only [normalize, negate, HoldsAt, hpos, hneg, and_self]
  | eventually =>
    simp only [normalize, negate, holdsAt_until_verum, holdsAt_release_falsum, hpos, hneg]
    simp [HoldsAt]
  | always =>
    simp only [normalize, negate, holdsAt_until_verum, holdsAt_release_falsum, hpos, hneg]
    simp [HoldsAt]

theorem holdsAt_normalize_and_negate_binary {op : BinaryOp}
    (ihf : ∀ j, (f.normalize.HoldsAt w j ↔ f.HoldsAt w j) ∧
      (f.negate.HoldsAt w j ↔ ¬ f.HoldsAt w j))
    (ihg : ∀ j, (g.normalize.HoldsAt w j ↔ g.HoldsAt w j) ∧
      (g.negate.HoldsAt w j ↔ ¬ g.HoldsAt w j)) (i : Nat) :
    ((Formula.binary op f g).normalize.HoldsAt w i ↔ (Formula.binary op f g).HoldsAt w i) ∧
      ((Formula.binary op f g).negate.HoldsAt w i ↔ ¬ (Formula.binary op f g).HoldsAt w i) := by
  have hf := fun j => (ihf j).1
  have hf' := fun j => (ihf j).2
  have hg := fun j => (ihg j).1
  have hg' := fun j => (ihg j).2
  cases op with
  | and | or | implies | iff =>
    simp only [normalize, negate, HoldsAt, hf, hf', hg, hg']
    grind
  | entails | congruent =>
    simp only [normalize, negate, holdsAt_until_verum, holdsAt_release_falsum, HoldsAt, hf, hf',
      hg, hg']
    grind
  | «until» =>
    simp only [normalize, negate, not_holdsAt_until_iff]
    simp only [HoldsAt, hf, hf', hg, hg', and_self]
  | release =>
    simp only [normalize, negate, not_holdsAt_release_iff]
    simp only [HoldsAt, hf, hf', hg, hg', and_self]
  | weakUntil =>
    -- weak until is until or always, and its negation the conjunction of their negations
    have hsplit : (Formula.weakUntil f g).HoldsAt w i ↔
        (Formula.until f g).HoldsAt w i ∨ ∀ j, i ≤ j → f.HoldsAt w j := Iff.rfl
    simp only [normalize, negate, hsplit, not_or, not_holdsAt_until_iff]
    simp only [HoldsAt, hf, hf', hg, hg']
    simp

theorem holdsAt_normalize_and_negate (f : Formula) (i : Nat) :
    (f.normalize.HoldsAt w i ↔ f.HoldsAt w i) ∧ (f.negate.HoldsAt w i ↔ ¬ f.HoldsAt w i) := by
  induction f generalizing i with
  | verum | falsum | prop => simp [normalize, negate, HoldsAt]
  | unary op f ih => exact holdsAt_normalize_and_negate_unary ih i
  | binary op f g ihf ihg => exact holdsAt_normalize_and_negate_binary ihf ihg i

theorem holds_normalize (f : Formula) (w : OmegaWord) : f.normalize.Holds w ↔ f.Holds w :=
  (holdsAt_normalize_and_negate f 0).1

theorem holds_negate (f : Formula) (w : OmegaWord) : f.negate.Holds w ↔ ¬ f.Holds w :=
  (holdsAt_normalize_and_negate f 0).2

/-- At every instant of an infinite word the normal form of a formula holds exactly when the formula
does, and the normal form of its negation exactly when it does not. Here entailment and congruence
are implication and equivalence from now on, and weak until is until or always. -/
theorem holdsAt_normalForms_iff (f : Formula) (w : OmegaWord) (i : Nat) :
    (f.normalize.HoldsAt w i ↔ f.HoldsAt w i) ∧ (f.negate.HoldsAt w i ↔ ¬ f.HoldsAt w i) ∧
      ∀ g : Formula,
        ((Formula.entails f g).HoldsAt w i ↔ (Formula.always (.implies f g)).HoldsAt w i) ∧
        ((Formula.congruent f g).HoldsAt w i ↔ (Formula.always (.iff f g)).HoldsAt w i) ∧
        ((Formula.weakUntil f g).HoldsAt w i ↔
          (Formula.or (.until f g) (.always f)).HoldsAt w i) := by
  obtain ⟨hnormalize, hnegate⟩ := holdsAt_normalize_and_negate (w := w) f i
  exact ⟨hnormalize, hnegate, fun g => ⟨Iff.rfl, Iff.rfl, Iff.rfl⟩⟩

/-- Somebody waits until being served, which does happen. Automata and monitors are tried out on
this formula. -/
def waitsUntilServed : Formula := .until (.prop "waits") (.prop "served")

end Formula

end TemporalMonitor
