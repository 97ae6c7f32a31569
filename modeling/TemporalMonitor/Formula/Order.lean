import TemporalMonitor.Formula.Basic

/-!
# The order on formulas

Formulas carry a linear order: first by their outermost symbol, then by their operands from left to
right, propositions by name. It is the order in which sets of formulas are listed.

The order is lawful because it is the lexicographic order on spellings: writing every operator
before its operands, a formula is a list of symbols, and no spelling is the beginning of another.

## Main definitions

* `Formula.compare` — the order on formulas
* `Formula.symbols` — the spelling of a formula

## Main results

* `Formula.compare_symbols_append` — comparing formulas is comparing their spellings
-/

namespace TemporalMonitor

/-- The place of the operator among all symbols of the language. -/
def UnaryOp.rank : UnaryOp → Nat
  | .not => 3
  | .next => 10
  | .eventually => 11
  | .always => 12

/-- The place of the operator among all symbols of the language. -/
def BinaryOp.rank : BinaryOp → Nat
  | .and => 4
  | .or => 5
  | .implies => 6
  | .iff => 7
  | .entails => 8
  | .congruent => 9
  | .until => 13
  | .release => 14
  | .weakUntil => 15

namespace Formula

/-- The place of the outermost symbol among all symbols of the language. -/
def rank : Formula → Nat
  | .verum => 0
  | .falsum => 1
  | .prop _ => 2
  | .unary op _ => op.rank
  | .binary op _ _ => op.rank

/-- Formulas are compared by their outermost symbols, then by their operands from left to right. -/
protected def compare : Formula → Formula → Ordering
  | .prop a, .prop b => compare a b
  | .unary o f, .unary p g => (compare o.rank p.rank).then (f.compare g)
  | .binary o f₁ f₂, .binary p g₁ g₂ =>
    (compare o.rank p.rank).then ((f₁.compare g₁).then (f₂.compare g₂))
  | f, g => compare f.rank g.rank

instance : Ord Formula := ⟨Formula.compare⟩

/-- A symbol of the language: its rank, and the name if it is a proposition. -/
structure Symbol where
  /-- The place among all symbols. -/
  rank : Nat
  /-- The name of a proposition, empty for every other symbol. -/
  name : String
deriving DecidableEq

instance : Ord Symbol := ⟨compareLex (compareOn Symbol.rank) (compareOn Symbol.name)⟩

instance : Std.TransOrd Symbol :=
  inferInstanceAs (Std.TransCmp (compareLex (compareOn Symbol.rank) (compareOn Symbol.name)))

instance : Std.LawfulEqOrd Symbol where
  compare_self := Std.ReflOrd.compare_self (α := Symbol)
  eq_of_compare {a b} h := by
    obtain ⟨hr, hn⟩ := compareLex_eq_eq.mp h
    cases a
    cases b
    cases Std.LawfulEqOrd.eq_of_compare (α := Nat) hr
    cases Std.LawfulEqOrd.eq_of_compare (α := String) hn
    rfl

/-- The symbols of a formula, every operator before its operands. -/
def symbols : Formula → List Symbol
  | .verum => [⟨0, ""⟩]
  | .falsum => [⟨1, ""⟩]
  | .prop name => [⟨2, name⟩]
  | .unary op f => ⟨op.rank, ""⟩ :: f.symbols
  | .binary op f g => ⟨op.rank, ""⟩ :: (f.symbols ++ g.symbols)

theorem Symbol.compare_mk (r p : Nat) (a b : String) :
    compare (Symbol.mk r a) (Symbol.mk p b) = (compare r p).then (compare a b) := rfl

theorem then_of_ne_eq {o : Ordering} (h : o ≠ .eq) (p : Ordering) : o.then p = o := by
  cases o <;> simp_all

theorem symbols_eq_cons (f : Formula) : ∃ name rest, f.symbols = ⟨f.rank, name⟩ :: rest := by
  cases f <;> exact ⟨_, _, rfl⟩

theorem compare_rank_ne_eq {f g : Formula} (h : f.rank ≠ g.rank) :
    compare f.rank g.rank ≠ .eq :=
  fun he => h (Std.LawfulEqOrd.eq_of_compare he)

/-- The outermost symbols decide when they differ. -/
theorem compare_of_rank_ne {f g : Formula} (h : f.rank ≠ g.rank) :
    compare f g = compare f.rank g.rank := by
  change f.compare g = _
  have hne := compare_rank_ne_eq h
  cases f <;> cases g <;> first | rfl | exact then_of_ne_eq hne _

theorem compare_append_of_rank_ne {f g : Formula} (h : f.rank ≠ g.rank) (xs ys : List Symbol) :
    compare (f.symbols ++ xs) (g.symbols ++ ys) = (compare f g).then (compare xs ys) := by
  obtain ⟨a, s, hf⟩ := f.symbols_eq_cons
  obtain ⟨b, t, hg⟩ := g.symbols_eq_cons
  have hne := compare_rank_ne_eq h
  rw [hf, hg, List.cons_append, List.cons_append, List.compare_cons_cons, Symbol.compare_mk,
    compare_of_rank_ne h, then_of_ne_eq hne, then_of_ne_eq hne, then_of_ne_eq hne]

/-- Formulas with outermost symbols of the same rank have the same outermost symbol. -/
theorem rank_eq_cases {f g : Formula} (h : f.rank = g.rank) :
    (f = .verum ∧ g = .verum) ∨ (f = .falsum ∧ g = .falsum) ∨
      (∃ a b, f = .prop a ∧ g = .prop b) ∨
      (∃ o f' g', f = .unary o f' ∧ g = .unary o g') ∨
      ∃ o f₁ f₂ g₁ g₂, f = .binary o f₁ f₂ ∧ g = .binary o g₁ g₂ := by
  cases f with
  | unary o f =>
    cases g with
    | unary p g => cases o <;> cases p <;> simp_all [rank, UnaryOp.rank]
    | binary p => cases o <;> cases p <;> simp [rank, UnaryOp.rank, BinaryOp.rank] at h
    | _ => cases o <;> simp [rank, UnaryOp.rank] at h
  | binary o f₁ f₂ =>
    cases g with
    | unary p => cases o <;> cases p <;> simp [rank, UnaryOp.rank, BinaryOp.rank] at h
    | binary p g₁ g₂ => cases o <;> cases p <;> simp_all [rank, BinaryOp.rank]
    | _ => cases o <;> simp [rank, BinaryOp.rank] at h
  | _ =>
    cases g with
    | unary p => cases p <;> simp [rank, UnaryOp.rank] at h
    | binary p => cases p <;> simp [rank, BinaryOp.rank] at h
    | _ => simp_all [rank]

theorem compare_prop (a b : String) : compare (Formula.prop a) (.prop b) = compare a b := rfl

theorem compare_unary (o : UnaryOp) (f g : Formula) :
    compare (Formula.unary o f) (.unary o g) = compare f g := by
  change (compare o.rank o.rank).then _ = _
  rw [Std.ReflOrd.compare_self]
  rfl

theorem compare_binary (o : BinaryOp) (f₁ f₂ g₁ g₂ : Formula) :
    compare (Formula.binary o f₁ f₂) (.binary o g₁ g₂) =
      (compare f₁ g₁).then (compare f₂ g₂) := by
  change (compare o.rank o.rank).then _ = _
  rw [Std.ReflOrd.compare_self]
  rfl

/-- The order on formulas is the order on spellings, whatever follows them. -/
theorem compare_symbols_append (f g : Formula) (xs ys : List Symbol) :
    compare (f.symbols ++ xs) (g.symbols ++ ys) = (compare f g).then (compare xs ys) := by
  induction f generalizing g xs ys with
  | unary o f ih =>
    by_cases h : (Formula.unary o f).rank = g.rank
    · obtain ⟨p, f', g', hf, rfl⟩ : ∃ p f' g', Formula.unary o f = .unary p f' ∧ g = .unary p g' := by
        simpa using rank_eq_cases h
      cases hf
      simp [symbols, compare_unary, ih]
    · exact compare_append_of_rank_ne h xs ys
  | binary o f₁ f₂ ih₁ ih₂ =>
    by_cases h : (Formula.binary o f₁ f₂).rank = g.rank
    · obtain ⟨p, a₁, a₂, g₁, g₂, hf, rfl⟩ : ∃ p a₁ a₂ g₁ g₂,
          Formula.binary o f₁ f₂ = .binary p a₁ a₂ ∧ g = .binary p g₁ g₂ := by
        simpa using rank_eq_cases h
      cases hf
      simp [symbols, compare_binary, ih₁, ih₂, Ordering.then_assoc]
    · exact compare_append_of_rank_ne h xs ys
  | prop a =>
    by_cases h : (Formula.prop a).rank = g.rank
    · obtain ⟨b, rfl⟩ : ∃ b, g = .prop b := by
        simpa using rank_eq_cases h
      simp [symbols, compare_prop, Symbol.compare_mk]
    · exact compare_append_of_rank_ne h xs ys
  | verum =>
    by_cases h : Formula.verum.rank = g.rank
    · obtain rfl : g = .verum := by simpa using rank_eq_cases h
      have hc : compare Formula.verum .verum = .eq := rfl
      simp [symbols, hc]
    · exact compare_append_of_rank_ne h xs ys
  | falsum =>
    by_cases h : Formula.falsum.rank = g.rank
    · obtain rfl : g = .falsum := by simpa using rank_eq_cases h
      have hc : compare Formula.falsum .falsum = .eq := rfl
      simp [symbols, hc]
    · exact compare_append_of_rank_ne h xs ys

theorem compare_eq_compareOn_symbols : (compare : Formula → Formula → Ordering) =
    compareOn symbols := by
  funext f g
  simpa [compareOn] using (compare_symbols_append f g [] []).symm

theorem rank_eq_of_compare {f g : Formula} (h : compare f g = .eq) : f.rank = g.rank :=
  Decidable.byContradiction fun hne => compare_rank_ne_eq hne (compare_of_rank_ne hne ▸ h)

theorem eq_of_compare {f g : Formula} (h : compare f g = .eq) : f = g := by
  induction f generalizing g with
  | unary o f ih =>
    obtain ⟨p, f', g', hf, rfl⟩ : ∃ p f' g', Formula.unary o f = .unary p f' ∧ g = .unary p g' := by
      simpa using rank_eq_cases (rank_eq_of_compare h)
    cases hf
    rw [compare_unary] at h
    rw [ih h]
  | binary o f₁ f₂ ih₁ ih₂ =>
    obtain ⟨p, a₁, a₂, g₁, g₂, hf, rfl⟩ : ∃ p a₁ a₂ g₁ g₂,
        Formula.binary o f₁ f₂ = .binary p a₁ a₂ ∧ g = .binary p g₁ g₂ := by
      simpa using rank_eq_cases (rank_eq_of_compare h)
    cases hf
    rw [compare_binary, Ordering.then_eq_eq] at h
    rw [ih₁ h.1, ih₂ h.2]
  | prop a =>
    obtain ⟨b, rfl⟩ : ∃ b, g = .prop b := by
      simpa using rank_eq_cases (rank_eq_of_compare h)
    rw [compare_prop] at h
    rw [Std.LawfulEqOrd.eq_of_compare h]
  | _ => simpa [eq_comm] using rank_eq_cases (rank_eq_of_compare h)

instance : Std.TransOrd Formula := by
  unfold Std.TransOrd
  rw [compare_eq_compareOn_symbols]
  infer_instance

instance : Std.LawfulEqOrd Formula where
  compare_self := Std.ReflOrd.compare_self (α := Formula)
  eq_of_compare := eq_of_compare

end Formula

end TemporalMonitor
