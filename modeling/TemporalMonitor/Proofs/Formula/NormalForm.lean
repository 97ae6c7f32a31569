import Mathlib.Data.Set.Card
import TemporalMonitor.Formula.Closure
import TemporalMonitor.Formula.NormalForm
import TemporalMonitor.Proofs.SortedSet

/-!
# Normal forms and their parts

A formula in normal form is its own normal form, so that normalizing the negation of a formula, or
what has been normalized before, changes nothing. All parts of a normal form are normal forms again.

Negating exchanges the operators of a normal form for their duals. Doing so twice brings every
operator back, and no proposition is lost or added on the way. Exchanging operators can also be
written down by itself, as a function that normalizes where it meets another operator; negating a
formula is then applying it to the normal form.

## Main definitions

* `Formula.dual` — exchanging the operators

## Main results

* `Formula.normalize_of_isNormalized` — normal forms are kept
* `Formula.negate_normalize`, `Formula.negate_negate` — negating a normal form
* `Formula.propositions_normalize`, `Formula.propositions_negate` — the propositions stay
* `Formula.normalForms_canonical` — the laws of normal forms together
* `Formula.mem_propositions_iff` — the propositions of a formula are parts of it
* `Formula.isNormalized_of_isSubformula` — parts of normal forms
* `Formula.size_subformulas` — how many parts there are
* `Formula.dual_eq_negate`, `Formula.negate_eq_dual_normalize` — negating is exchanging operators
* `Formula.normalize_eq_dual` — where a normal form is made from duals
-/

namespace TemporalMonitor

namespace Formula

variable {f g : Formula}

/-! ### Normalizing twice -/

/-- A normal form is its own normal form. -/
theorem normalize_of_isNormalized (h : f.isNormalized = true) : f.normalize = f := by
  induction f with
  | verum | falsum | prop => rfl
  | unary op f ih =>
    cases op with
    | not =>
      -- only propositions may be negated
      cases f with
      | prop => rfl
      | verum | falsum | unary | binary => cases h
    | next => rw [normalize, ih h]
    | eventually | always => cases h
  | binary op f g ihf ihg =>
    cases op with
    | and | or | «until» | release =>
      have hboth := Bool.and_eq_true_iff.mp h
      rw [normalize, ihf hboth.1, ihg hboth.2]
    | implies | iff | entails | congruent | weakUntil => cases h

@[simp] theorem normalize_normalize (f : Formula) : f.normalize.normalize = f.normalize :=
  normalize_of_isNormalized f.isNormalized_normalize

@[simp] theorem normalize_negate (f : Formula) : f.negate.normalize = f.negate :=
  normalize_of_isNormalized f.isNormalized_negate

/-! ### Negating twice -/

/-- Negating the normal form is negating the formula, and negating the negation is normalizing. -/
theorem negate_normalize_and_negate_negate (f : Formula) :
    f.normalize.negate = f.negate ∧ f.negate.negate = f.normalize := by
  -- each half needs the other, since a negation asks for the other half of its operand
  induction f with
  | verum | falsum | prop => exact ⟨rfl, rfl⟩
  | unary op f ih =>
    obtain ⟨hnormalize, hnegate⟩ := ih
    cases op with
    | not => exact ⟨hnegate, hnormalize⟩
    | next | eventually | always => simp only [normalize, negate, hnormalize, hnegate, and_self]
  | binary op f g ihf ihg =>
    obtain ⟨hfnormalize, hfnegate⟩ := ihf
    obtain ⟨hgnormalize, hgnegate⟩ := ihg
    cases op with
    | and | or | implies | iff | entails | congruent | «until» | release | weakUntil =>
      simp only [normalize, negate, hfnormalize, hfnegate, hgnormalize, hgnegate, and_self]

@[simp] theorem negate_normalize (f : Formula) : f.normalize.negate = f.negate :=
  f.negate_normalize_and_negate_negate.1

@[simp] theorem negate_negate (f : Formula) : f.negate.negate = f.normalize :=
  f.negate_normalize_and_negate_negate.2

/-! ### Propositions -/

theorem mem_propositions_normalize_and_negate (f : Formula) (name : String) :
    (name ∈ f.normalize.propositions ↔ name ∈ f.propositions) ∧
      (name ∈ f.negate.propositions ↔ name ∈ f.propositions) := by
  induction f with
  | verum | falsum | prop => exact ⟨Iff.rfl, Iff.rfl⟩
  | unary op f ih =>
    obtain ⟨hnormalize, hnegate⟩ := ih
    cases op with
    | not => exact ⟨hnegate, hnormalize⟩
    | next | eventually | always =>
      -- the constant that takes the place of an operand has no propositions
      simp [normalize, negate, propositions, hnormalize, hnegate]
  | binary op f g ihf ihg =>
    obtain ⟨hfnormalize, hfnegate⟩ := ihf
    obtain ⟨hgnormalize, hgnegate⟩ := ihg
    cases op with
    | and | or | implies | entails | «until» | release =>
      simp [normalize, negate, propositions, hfnormalize, hfnegate, hgnormalize, hgnegate]
    | iff | congruent | weakUntil =>
      -- an operand that occurs twice counts once
      simp only [normalize, negate, propositions, SortedSet.mem_union, SortedSet.notMem_empty,
        hfnormalize, hfnegate, hgnormalize, hgnegate]
      grind

theorem propositions_normalize (f : Formula) : f.normalize.propositions = f.propositions := by
  ext name
  exact (f.mem_propositions_normalize_and_negate name).1

theorem propositions_negate (f : Formula) : f.negate.propositions = f.propositions := by
  ext name
  exact (f.mem_propositions_normalize_and_negate name).2

/-! ### The laws of normal forms -/

theorem normalize_eq_self_iff (f : Formula) : f.normalize = f ↔ f.isNormalized = true := by
  constructor
  · intro hself
    rw [← hself]
    exact f.isNormalized_normalize
  · exact normalize_of_isNormalized

/-- Normalizing and negating give normal forms, and the normal forms are the formulas that
normalizing keeps. Negating twice is normalizing once. Neither loses or adds a proposition. -/
theorem normalForms_canonical (f : Formula) :
    (f.normalize.isNormalized = true ∧ f.negate.isNormalized = true) ∧
      (f.normalize = f ↔ f.isNormalized = true) ∧ f.normalize.normalize = f.normalize ∧
      (f.negate.negate = f.normalize ∧ f.negate.negate.normalize = f.normalize) ∧
      f.normalize.propositions = f.propositions ∧ f.negate.propositions = f.propositions := by
  refine ⟨f.isNormalized_normalize_and_negate, f.normalize_eq_self_iff, f.normalize_normalize,
    ⟨f.negate_negate, ?_⟩, f.propositions_normalize, f.propositions_negate⟩
  rw [f.negate_negate, f.normalize_normalize]

/-! ### Parts -/

theorem mem_propositions_iff {name : String} :
    name ∈ f.propositions ↔ (Formula.prop name).IsSubformula f := by
  induction f with
  | verum | falsum => simp [propositions, IsSubformula]
  | prop => simp [propositions, IsSubformula]
  | unary op f ih => simp [propositions, IsSubformula, ih]
  | binary op f₁ f₂ ih₁ ih₂ => simp [propositions, IsSubformula, ih₁, ih₂]

theorem isNormalized_of_unary {op : UnaryOp} (h : (Formula.unary op f).isNormalized = true) :
    f.isNormalized = true := by
  cases op with
  | not =>
    -- the proposition under a negation is a normal form by itself
    cases f with
    | prop => rfl
    | verum | falsum | unary | binary => cases h
  | next => exact h
  | eventually | always => cases h

theorem isNormalized_of_binary {op : BinaryOp} (h : (Formula.binary op f g).isNormalized = true) :
    f.isNormalized = true ∧ g.isNormalized = true := by
  cases op with
  | and | or | «until» | release => exact Bool.and_eq_true_iff.mp h
  | implies | iff | entails | congruent | weakUntil => cases h

/-- The parts of a normal form are normal forms. -/
theorem isNormalized_of_isSubformula (hg : g.IsSubformula f) (h : f.isNormalized = true) :
    g.isNormalized = true := by
  induction f with
  | verum | falsum | prop => exact hg ▸ h
  | unary op f ih =>
    rcases hg with rfl | hg
    · exact h
    · exact ih hg (isNormalized_of_unary h)
  | binary op f₁ f₂ ih₁ ih₂ =>
    rcases hg with rfl | hg | hg
    · exact h
    · exact ih₁ hg (isNormalized_of_binary h).1
    · exact ih₂ hg (isNormalized_of_binary h).2

/-- The set of subformulas has as many elements as there are parts. -/
theorem size_subformulas (f : Formula) :
    f.subformulas.size = {g : Formula | g.IsSubformula f}.ncard := by
  have hset : {g : Formula | g.IsSubformula f} = (f.subformulas.toFinset : Set Formula) := by
    ext g
    simp [mem_subformulas]
  rw [hset, Set.ncard_coe_finset, SortedSet.card_toFinset]

/-! ### Duals -/

/-- Normal forms come first, and smaller formulas before larger ones. -/
def dualRank (f : Formula) : Nat × Nat := (if f.isNormalized then 0 else 1, f.size)

/-- One formula has a smaller rank than another. -/
def Precedes (f g : Formula) : Prop := Prod.Lex (· < ·) (· < ·) f.dualRank g.dualRank

theorem precedes_of_size_lt (hpart : g.isNormalized = true → f.isNormalized = true)
    (hsize : f.size < g.size) : f.Precedes g := by
  rw [Precedes, Prod.lex_def, dualRank, dualRank]
  by_cases hg : g.isNormalized = true
  · simp [hg, hpart hg, hsize]
  · by_cases hf : f.isNormalized = true
    · simp [hg, hf]
    · simp [hg, hf, hsize]

theorem precedes_unary (op : UnaryOp) (f : Formula) : f.Precedes (unary op f) :=
  precedes_of_size_lt isNormalized_of_unary (by simp [size])

theorem left_precedes_binary (op : BinaryOp) (f g : Formula) : f.Precedes (binary op f g) :=
  precedes_of_size_lt (fun h => (isNormalized_of_binary h).1) (by simp only [size]; omega)

theorem right_precedes_binary (op : BinaryOp) (f g : Formula) : g.Precedes (binary op f g) :=
  precedes_of_size_lt (fun h => (isNormalized_of_binary h).2) (by simp only [size]; omega)

theorem normalize_precedes (h : ¬ f.isNormalized = true) : f.normalize.Precedes f := by
  refine Prod.lex_def.mpr (.inl ?_)
  simp [dualRank, h, isNormalized_normalize]

/-- Exchanges the operators of a normal form for their duals. What is no normal form is normalized
first. -/
def dual : Formula → Formula
  | .verum => .falsum
  | .falsum => .verum
  | .prop name => .not (.prop name)
  -- a normal form negates propositions only
  | .not f => if (Formula.not f).isNormalized then f else (Formula.not f).normalize.dual
  | .and f g => .or f.dual g.dual
  | .or f g => .and f.dual g.dual
  | .next f => .next f.dual
  | .until f g => .release f.dual g.dual
  | .release f g => .until f.dual g.dual
  -- the operators that do not occur in normal forms
  | .implies f g => (Formula.implies f g).normalize.dual
  | .iff f g => (Formula.iff f g).normalize.dual
  | .entails f g => (Formula.entails f g).normalize.dual
  | .congruent f g => (Formula.congruent f g).normalize.dual
  | .eventually f => (Formula.eventually f).normalize.dual
  | .always f => (Formula.always f).normalize.dual
  | .weakUntil f g => (Formula.weakUntil f g).normalize.dual
termination_by f => f.dualRank
decreasing_by
  all_goals first
    | exact precedes_unary _ _
    | exact left_precedes_binary _ _ _
    | exact right_precedes_binary _ _ _
    | exact normalize_precedes ‹_›
    | exact normalize_precedes Bool.false_ne_true

/-- The dual of a formula, be it in normal form or not, is the normal form of its negation. -/
theorem dual_eq_negate (f : Formula) : f.dual = f.negate := by
  fun_induction dual f with
  | case1 | case2 | case3 => rfl
  | case4 f hprop => exact (normalize_of_isNormalized (isNormalized_of_unary hprop)).symm
  | case6 f g ihg ihf | case7 f g ihg ihf | case9 f g ihg ihf | case10 f g ihg ihf =>
    rw [negate, ihf, ihg]
  | case8 f ih => rw [negate, ih]
  | case5 f _ ih | case15 f ih | case16 f ih => rw [ih, negate_normalize]
  | case11 f g ih | case12 f g ih | case13 f g ih | case14 f g ih | case17 f g ih =>
    rw [ih, negate_normalize]

/-- Negating is normalizing and then exchanging the operators. -/
theorem negate_eq_dual_normalize (f : Formula) : f.negate = f.normalize.dual := by
  rw [dual_eq_negate, negate_normalize]

/-- The normal forms that need a negation are made from duals of normal forms. -/
theorem normalize_eq_dual (f g : Formula) :
    (Formula.not f).normalize = f.normalize.dual ∧
    (Formula.implies f g).normalize = .or f.normalize.dual g.normalize ∧
    (Formula.iff f g).normalize =
      .or (.and f.normalize g.normalize) (.and f.normalize.dual g.normalize.dual) ∧
    (Formula.entails f g).normalize = .release .falsum (Formula.implies f g).normalize ∧
    (Formula.congruent f g).normalize = .release .falsum (Formula.iff f g).normalize := by
  simp only [normalize, negate_eq_dual_normalize, and_self]

end Formula

end TemporalMonitor
