import TemporalMonitor.Formula.Order

/-!
# Subformulas

The distinct subformulas of a formula, itself included, as a sorted set. Its size measures how
large an automaton for the formula may become.

## Main definitions

* `Formula.IsSubformula` — being a part of a formula
* `Formula.subformulas` — the set of parts
* `Formula.untils` — the parts whose outermost symbol is an until

## Main results

* `Formula.mem_subformulas` — the set holds exactly the parts
-/

namespace TemporalMonitor

namespace Formula

/-- The formula `g` is `f` or a part of one of its operands. -/
def IsSubformula (g : Formula) : Formula → Prop
  | .unary op f => g = .unary op f ∨ g.IsSubformula f
  | .binary op f₁ f₂ => g = .binary op f₁ f₂ ∨ g.IsSubformula f₁ ∨ g.IsSubformula f₂
  | f => g = f

/-- Adds the subformulas of a formula to a set, skipping a formula that is there already. -/
def collect (f : Formula) (acc : SortedSet Formula) : SortedSet Formula :=
  if f ∈ acc then acc
  else
    match f with
    | .unary _ g => g.collect (insert f acc)
    | .binary _ g h => h.collect (g.collect (insert f acc))
    | _ => insert f acc

/-- The distinct subformulas of a formula, itself included. -/
def subformulas (f : Formula) : SortedSet Formula := f.collect ∅

/-- Whether the outermost symbol is an until. -/
def isUntil : Formula → Bool
  | .until _ _ => true
  | _ => false

/-- The subformulas whose outermost symbol is an until. -/
def untils (f : Formula) : SortedSet Formula := f.subformulas.filter isUntil

/-! ### The set of subformulas -/

theorem IsSubformula.refl (f : Formula) : f.IsSubformula f := by
  cases f <;> simp [IsSubformula]

theorem IsSubformula.trans {f g h : Formula} (hfg : f.IsSubformula g) (hgh : g.IsSubformula h) :
    f.IsSubformula h := by
  induction h with
  | unary op h ih =>
    rcases hgh with rfl | hgh
    · exact hfg
    · exact .inr (ih hgh)
  | binary op h₁ h₂ ih₁ ih₂ =>
    rcases hgh with rfl | hgh | hgh
    · exact hfg
    · exact .inr (.inl (ih₁ hgh))
    · exact .inr (.inr (ih₂ hgh))
  | _ => exact hgh ▸ hfg

theorem IsSubformula.size_le {f g : Formula} (h : f.IsSubformula g) : f.size ≤ g.size := by
  induction g with
  | unary op g ih =>
    rcases h with rfl | h
    · exact Nat.le_refl _
    · exact Nat.le_trans (ih h) (Nat.le_succ _)
  | binary op g₁ g₂ ih₁ ih₂ =>
    rcases h with rfl | h | h
    · exact Nat.le_refl _
    · have := ih₁ h
      simp only [size]
      omega
    · have := ih₂ h
      simp only [size]
      omega
  | _ => exact h ▸ Nat.le_refl _

/-- Collecting adds exactly the subformulas, provided that those already there which lie inside
the formula are there together with their own subformulas. -/
theorem mem_collect {f g : Formula} {acc : SortedSet Formula}
    (hacc : ∀ h ∈ acc, h.IsSubformula f → ∀ k, k.IsSubformula h → k ∈ acc) :
    g ∈ f.collect acc ↔ g ∈ acc ∨ g.IsSubformula f := by
  induction f generalizing acc g with
  | unary op f ih =>
    unfold collect
    split
    · rename_i hf
      exact ⟨.inl, fun h => h.elim id (hacc _ hf (.refl _) g)⟩
    · rw [ih]
      · simp only [SortedSet.mem_insert, IsSubformula]
        grind
      · intro h hh hsub k hk
        rcases SortedSet.mem_insert.mp hh with rfl | hh
        · exact absurd hsub.size_le (by simp only [size]; omega)
        · exact SortedSet.mem_insert.mpr (.inr (hacc h hh (.inr hsub) k hk))
  | binary op f₁ f₂ ih₁ ih₂ =>
    unfold collect
    split
    · rename_i hf
      exact ⟨.inl, fun h => h.elim id (hacc _ hf (.refl _) g)⟩
    · have h₁ : ∀ h ∈ insert (Formula.binary op f₁ f₂) acc, h.IsSubformula f₁ →
          ∀ k, k.IsSubformula h → k ∈ insert (Formula.binary op f₁ f₂) acc := by
        intro h hh hsub k hk
        rcases SortedSet.mem_insert.mp hh with rfl | hh
        · exact absurd hsub.size_le (by simp only [size]; omega)
        · exact SortedSet.mem_insert.mpr (.inr (hacc h hh (.inr (.inl hsub)) k hk))
      rw [ih₂]
      · rw [ih₁ h₁]
        simp only [SortedSet.mem_insert, IsSubformula]
        grind
      · intro h hh hsub k hk
        rw [ih₁ h₁] at hh ⊢
        rcases hh with hh | hh
        · rcases SortedSet.mem_insert.mp hh with rfl | hh
          · exact absurd hsub.size_le (by simp only [size]; omega)
          · exact .inl (SortedSet.mem_insert.mpr (.inr (hacc h hh (.inr (.inr hsub)) k hk)))
        · exact .inr (hk.trans hh)
  | _ =>
    unfold collect
    split
    · rename_i hf
      exact ⟨.inl, fun h => h.elim id (hacc _ hf (.refl _) g)⟩
    · simp [IsSubformula, or_comm]

/-- The set holds exactly the parts of the formula. -/
theorem mem_subformulas {f g : Formula} : g ∈ f.subformulas ↔ g.IsSubformula f := by
  simp [subformulas, mem_collect]

end Formula

end TemporalMonitor
