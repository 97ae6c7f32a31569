import Mathlib.Algebra.BigOperators.Group.Finset.Basic
import TemporalMonitor.Proofs.Formula.NormalForm
import TemporalMonitor.Proofs.Formula.Semantics
import TemporalMonitor.Proofs.Graph.Reachability
import TemporalMonitor.Synthesis.Basic

/-!
# How many parts a formula has

The subformulas of a formula are what can be reached from it through operands. They can be collected
from a stack of pending formulas just as well as by recursion: a formula that was collected before
is passed over, so the operands of each subformula become pending once, however often it occurs.

A monitor needs the automata of a formula and of its negation, and a limit on the number of
subformulas applies to both normal forms. Negating a normal form turns the subformulas other than
literals into those of the negation. A proposition accounts for one literal, or for two if it occurs
negated, so that the two numbers differ by no more than there are propositions.

## Main definitions

* `Formula.Traversal`, `Formula.Traversal.step` — collecting subformulas from a stack
* `Formula.Traversal.Covers` — nothing that operands lead to gets lost
* `Formula.visits` — the number of steps that collecting takes

## Main results

* `Formula.isSubformula_iff_reaches` — parts are what operands lead to
* `Formula.Traversal.iterate_step_start` — the stack gives the set of subformulas
* `Formula.size_subformulas_negate_le` — the subformulas of a normal form and of its negation
* `Formula.toAutomaton_eq_tooLarge_iff` — the number that is compared with the limit
* `Formula.closure_exact` — what is collected, and how the numbers for both automata compare
-/

namespace TemporalMonitor

namespace Formula

variable {f g h root : Formula}

/-! ### Operands -/

theorem isSubformula_of_mem_operands (hg : g ∈ f.operands) : g.IsSubformula f := by
  cases f with
  | verum | falsum | prop => cases hg
  | unary op f =>
    rw [operands, List.mem_singleton] at hg
    exact .inr (hg ▸ .refl g)
  | binary op f₁ f₂ =>
    rw [operands, List.mem_pair] at hg
    rcases hg with rfl | rfl
    · exact .inr (.inl (.refl g))
    · exact .inr (.inr (.refl g))

/-- The parts of a formula are what is reached through operands. -/
theorem isSubformula_iff_reaches : g.IsSubformula f ↔ Reaches operands f g := by
  constructor
  · intro hg
    induction f with
    | verum | falsum | prop =>
      obtain rfl : g = _ := hg
      exact .refl
    | unary op f ih =>
      rcases hg with rfl | hg
      · exact .refl
      · exact .head (List.mem_singleton_self f) (ih hg)
    | binary op f₁ f₂ ih₁ ih₂ =>
      rcases hg with rfl | hg | hg
      · exact .refl
      · exact .head List.mem_cons_self (ih₁ hg)
      · exact .head (List.mem_cons_of_mem _ (List.mem_singleton_self f₂)) (ih₂ hg)
  · refine Reaches.mem_of_closed (S := fun x : Formula => x.IsSubformula f) ?_ (.refl f)
    exact fun x hx y hy => (isSubformula_of_mem_operands hy).trans hx

theorem isUntil_iff : g.isUntil = true ↔ ∃ g₁ g₂, g = .until g₁ g₂ := by
  constructor
  · intro hg
    unfold isUntil at hg
    split at hg
    · exact ⟨_, _, rfl⟩
    · cases hg
  · rintro ⟨g₁, g₂, rfl⟩
    rfl

theorem mem_untils : g ∈ f.untils ↔ g.IsSubformula f ∧ ∃ g₁ g₂, g = .until g₁ g₂ := by
  rw [untils, SortedSet.mem_filter, mem_subformulas, isUntil_iff]

/-! ### Collecting from a stack -/

/-- The state of collecting subformulas from a stack. -/
structure Traversal where
  /-- The formulas that are still to be visited, the next one first. -/
  pending : List Formula
  /-- The formulas collected so far. -/
  found : SortedSet Formula

/-- The number of visits that collecting takes: one to the formula itself, and one to each operand
of each distinct subformula. -/
def visits (f : Formula) : Nat := 1 + ∑ g ∈ f.subformulas.toFinset, g.operands.length

namespace Traversal

variable {t : Traversal}

/-- Only the formula itself is to be visited. -/
def start (f : Formula) : Traversal := ⟨[f], ∅⟩

/-- Visits the next pending formula. If it was collected before, it is passed over. Otherwise its
operands become pending, the last one to be visited first. -/
def step (t : Traversal) : Traversal :=
  match t.pending with
  | [] => t
  | g :: rest =>
    if g ∈ t.found then { t with pending := rest }
    else ⟨g.operands.reverse ++ rest, insert g t.found⟩

/-- Nothing is pending and nothing changes, or the next pending formula is passed over or taken
up. -/
theorem step_cases (t : Traversal) :
    (t.pending = [] ∧ t.step = t) ∨
      (∃ g rest, t.pending = g :: rest ∧ g ∈ t.found ∧ t.step = ⟨rest, t.found⟩) ∨
      ∃ g rest, t.pending = g :: rest ∧ ¬ g ∈ t.found ∧
        t.step = ⟨g.operands.reverse ++ rest, insert g t.found⟩ := by
  cases hpending : t.pending with
  | nil => exact .inl ⟨rfl, by simp only [step, hpending]⟩
  | cons g rest =>
    by_cases hg : g ∈ t.found
    · exact .inr (.inl ⟨g, rest, rfl, hg, by simp only [step, hpending, if_pos hg]⟩)
    · exact .inr (.inr ⟨g, rest, rfl, hg, by simp only [step, hpending, if_neg hg]⟩)

/-- The formula is pending or has been collected. -/
def Met (t : Traversal) (g : Formula) : Prop := g ∈ t.pending ∨ g ∈ t.found

/-- A visit loses nothing that has been met. -/
theorem Met.step (hg : t.Met g) : t.step.Met g := by
  rcases t.step_cases with
    ⟨-, hstep⟩ | ⟨k, rest, hpending, hk, hstep⟩ | ⟨k, rest, hpending, hk, hstep⟩
  · rwa [hstep]
  · -- what leaves the stack has been collected before
    rw [Met, hpending, List.mem_cons] at hg
    rw [hstep]
    rcases hg with (rfl | hg) | hg
    · exact .inr hk
    · exact .inl hg
    · exact .inr hg
  · -- what leaves the stack is collected now
    rw [Met, hpending, List.mem_cons] at hg
    rw [hstep]
    rcases hg with (rfl | hg) | hg
    · exact .inr (SortedSet.mem_insert.mpr (.inl rfl))
    · exact .inl (List.mem_append_right _ hg)
    · exact .inr (SortedSet.mem_insert.mpr (.inr hg))

/-- What is met on a visit is an operand of something met before. -/
theorem met_or_mem_operands_of_met_step (hg : t.step.Met g) :
    t.Met g ∨ ∃ k, t.Met k ∧ g ∈ k.operands := by
  rcases t.step_cases with
    ⟨-, hstep⟩ | ⟨k, rest, hpending, hk, hstep⟩ | ⟨k, rest, hpending, hk, hstep⟩
  · rw [hstep] at hg
    exact .inl hg
  · rw [hstep] at hg
    exact .inl (hg.imp_left fun hrest => hpending ▸ List.mem_cons_of_mem k hrest)
  · have hmet : t.Met k := .inl (hpending ▸ List.mem_cons_self)
    rw [hstep, Met, List.mem_append, List.mem_reverse, SortedSet.mem_insert] at hg
    rcases hg with (hg | hg) | rfl | hg
    · exact .inr ⟨k, hmet, hg⟩
    · exact .inl (.inl (hpending ▸ List.mem_cons_of_mem k hg))
    · exact .inl hmet
    · exact .inl (.inr hg)

/-- The operands of what is collected on a visit become pending. -/
theorem mem_found_or_met_of_mem_found_step (hg : g ∈ t.step.found) (hh : h ∈ g.operands) :
    g ∈ t.found ∨ t.step.Met h := by
  rcases t.step_cases with ⟨-, hstep⟩ | ⟨k, rest, -, -, hstep⟩ | ⟨k, rest, -, -, hstep⟩
  · rw [hstep] at hg
    exact .inl hg
  · rw [hstep] at hg
    exact .inl hg
  · rw [hstep] at hg ⊢
    rcases SortedSet.mem_insert.mp hg with rfl | hg
    · exact .inr (.inl (List.mem_append_left _ (List.mem_reverse.mpr hh)))
    · exact .inl hg

/-- Everything met is a part of the root, and what has not been met is still to come: the root and
the operands of what was collected have been met. -/
structure Covers (root : Formula) (t : Traversal) : Prop where
  isSubformula : ∀ g, t.Met g → g.IsSubformula root
  root_met : t.Met root
  operands_met : ∀ g ∈ t.found, ∀ h ∈ g.operands, t.Met h

theorem covers_start (root : Formula) : Covers root (start root) where
  isSubformula g hg := by
    rcases hg with hg | hg
    · rw [List.mem_singleton.mp hg]
      exact .refl root
    · exact absurd hg SortedSet.notMem_empty
  root_met := .inl (List.mem_singleton_self root)
  operands_met g hg := absurd hg SortedSet.notMem_empty

theorem Covers.step (hcovers : Covers root t) : Covers root t.step where
  isSubformula g hg := by
    rcases met_or_mem_operands_of_met_step hg with hg | ⟨k, hk, hg⟩
    · exact hcovers.isSubformula g hg
    · exact (isSubformula_of_mem_operands hg).trans (hcovers.isSubformula k hk)
  root_met := hcovers.root_met.step
  operands_met g hg h hh := by
    rcases mem_found_or_met_of_mem_found_step hg hh with hg | hmet
    · exact (hcovers.operands_met g hg h hh).step
    · exact hmet

theorem Covers.iterate (h : Covers root t) (n : Nat) : Covers root (Traversal.step^[n] t) := by
  induction n with
  | zero => exact h
  | succ n ih =>
    rw [Function.iterate_succ_apply']
    exact ih.step

/-- With nothing pending, all subformulas are collected. -/
theorem Covers.found_eq (h : Covers root t) (hpending : t.pending = []) :
    t.found = root.subformulas := by
  have hnone : ∀ k, t.Met k → k ∈ t.found := by
    rintro k (hk | hk)
    · rw [hpending] at hk
      cases hk
    · exact hk
  ext g
  rw [mem_subformulas]
  constructor
  · exact fun hg => h.isSubformula g (.inr hg)
  · intro hg
    -- what was collected contains the root and is closed under operands
    exact Reaches.mem_of_closed (S := fun k => k ∈ t.found)
      (fun k hk l hl => hnone l (h.operands_met k hk l hl)) (hnone root h.root_met)
      (isSubformula_iff_reaches.mp hg)

/-- The number of visits that are still to come: those to pending formulas, and those to operands of
subformulas that have not been collected. -/
def remaining (root : Formula) (t : Traversal) : Nat :=
  t.pending.length + ∑ g ∈ root.subformulas.toFinset \ t.found.toFinset, g.operands.length

theorem remaining_start (root : Formula) : remaining root (start root) = root.visits := by
  have hempty : (∅ : SortedSet Formula).toFinset = ∅ := rfl
  simp [remaining, start, visits, hempty]

theorem Covers.remaining_eq_zero_iff (h : Covers root t) :
    remaining root t = 0 ↔ t.pending = [] := by
  constructor
  · intro hzero
    exact List.length_eq_zero_iff.mp (Nat.eq_zero_of_add_eq_zero_right hzero)
  · intro hpending
    simp [remaining, hpending, h.found_eq hpending]

/-- Every visit counts once. -/
theorem Covers.remaining_step (h : Covers root t) :
    remaining root t.step = remaining root t - 1 := by
  rcases t.step_cases with
    ⟨hpending, hstep⟩ | ⟨g, rest, hpending, hg, hstep⟩ | ⟨g, rest, hpending, hg, hstep⟩
  · rw [hstep, h.remaining_eq_zero_iff.mpr hpending]
  · rw [hstep]
    simp only [remaining, hpending, List.length_cons]
    omega
  · have hopen : g ∈ root.subformulas.toFinset \ t.found.toFinset := by
      rw [Finset.mem_sdiff, SortedSet.mem_toFinset, SortedSet.mem_toFinset, mem_subformulas]
      exact ⟨h.isSubformula g (.inl (hpending ▸ List.mem_cons_self)), hg⟩
    -- the operands leave the sum and become pending
    have hsum := Finset.add_sum_erase _ (fun k : Formula => k.operands.length) hopen
    rw [hstep]
    simp only [remaining, hpending, SortedSet.toFinset_insert, Finset.sdiff_insert,
      List.length_append, List.length_reverse, List.length_cons]
    omega

theorem Covers.remaining_iterate (h : Covers root t) (n : Nat) :
    remaining root (Traversal.step^[n] t) = remaining root t - n := by
  induction n with
  | zero => rfl
  | succ n ih => rw [Function.iterate_succ_apply', (h.iterate n).remaining_step, ih, Nat.sub_sub]

/-- Collecting from a stack is done after the given number of visits, and not before. It then has
collected the set of subformulas. -/
theorem iterate_step_start (f : Formula) :
    step^[f.visits] (start f) = ⟨[], f.subformulas⟩ ∧
      ∀ n < f.visits, (step^[n] (start f)).pending ≠ [] := by
  have hstart := covers_start f
  have hleft : ∀ n, remaining f (step^[n] (start f)) = f.visits - n := by
    intro n
    rw [hstart.remaining_iterate, remaining_start]
  constructor
  · have hcovers := hstart.iterate f.visits
    have hpending : (step^[f.visits] (start f)).pending = [] := by
      rw [← hcovers.remaining_eq_zero_iff, hleft, Nat.sub_self]
    rw [← hcovers.found_eq hpending, ← hpending]
  · intro n hn hpending
    have hzero := (hstart.iterate n).remaining_eq_zero_iff.mpr hpending
    rw [hleft] at hzero
    omega

end Traversal

/-! ### Counting literals and other parts -/

theorem isLiteral_iff :
    g.isLiteral = true ↔ ∃ name, g = .prop name ∨ g = .not (.prop name) := by
  constructor
  · intro hg
    unfold isLiteral at hg
    split at hg
    · exact ⟨_, .inl rfl⟩
    · exact ⟨_, .inr rfl⟩
    · cases hg
  · rintro ⟨name, rfl | rfl⟩ <;> rfl

/-- The literals among the subformulas. -/
def literalParts (f : Formula) : Finset Formula :=
  f.subformulas.toFinset.filter fun g => g.isLiteral = true

/-- The subformulas that are not literals. -/
def compoundParts (f : Formula) : Finset Formula :=
  f.subformulas.toFinset.filter fun g => ¬ g.isLiteral = true

theorem mem_literalParts : g ∈ f.literalParts ↔ g.IsSubformula f ∧ g.isLiteral = true := by
  rw [literalParts, Finset.mem_filter, SortedSet.mem_toFinset, mem_subformulas]

theorem mem_compoundParts : g ∈ f.compoundParts ↔ g.IsSubformula f ∧ ¬ g.isLiteral = true := by
  rw [compoundParts, Finset.mem_filter, SortedSet.mem_toFinset, mem_subformulas]

theorem size_subformulas_eq (f : Formula) :
    f.subformulas.size = f.literalParts.card + f.compoundParts.card := by
  rw [← SortedSet.card_toFinset, literalParts, compoundParts,
    Finset.card_filter_add_card_filter_not]

/-- Every proposition is a literal. -/
theorem size_propositions_le_card (f : Formula) : f.propositions.size ≤ f.literalParts.card := by
  rw [← SortedSet.card_toFinset]
  refine Finset.card_le_card_of_injOn Formula.prop ?_ (fun _ _ _ _ heq => Formula.prop.inj heq)
  intro name hname
  rw [Finset.mem_coe, SortedSet.mem_toFinset, mem_propositions_iff] at hname
  exact mem_literalParts.mpr ⟨hname, rfl⟩

/-- There are at most two literals of a proposition. -/
theorem card_literalParts_le (f : Formula) : f.literalParts.card ≤ 2 * f.propositions.size := by
  have hsub : f.literalParts ⊆ f.propositions.toFinset.image Formula.prop ∪
      f.propositions.toFinset.image fun name => .not (.prop name) := by
    intro g hg
    obtain ⟨hpart, hliteral⟩ := mem_literalParts.mp hg
    obtain ⟨name, hname⟩ := isLiteral_iff.mp hliteral
    have hprop : (Formula.prop name).IsSubformula g := by
      rcases hname with rfl | rfl
      · exact .refl _
      · exact .inr (.refl _)
    have hmem : name ∈ f.propositions := mem_propositions_iff.mpr (hprop.trans hpart)
    rw [Finset.mem_union, Finset.mem_image, Finset.mem_image]
    rcases hname with rfl | rfl
    · exact .inl ⟨name, SortedSet.mem_toFinset.mpr hmem, rfl⟩
    · exact .inr ⟨name, SortedSet.mem_toFinset.mpr hmem, rfl⟩
  calc f.literalParts.card
      ≤ _ := Finset.card_le_card hsub
    _ ≤ _ := Finset.card_union_le _ _
    _ ≤ f.propositions.toFinset.card + f.propositions.toFinset.card :=
        Nat.add_le_add Finset.card_image_le Finset.card_image_le
    _ = 2 * f.propositions.size := by rw [SortedSet.card_toFinset, Nat.two_mul]

/-! ### Parts of the negation -/

/-- Negating a normal form negates both operands of its outermost operator. -/
theorem exists_negate_binary {op : BinaryOp} (hf : (Formula.binary op f g).isNormalized = true) :
    ∃ dual, (Formula.binary op f g).negate = .binary dual f.negate g.negate := by
  cases op with
  | and => exact ⟨.or, rfl⟩
  | or => exact ⟨.and, rfl⟩
  | «until» => exact ⟨.release, rfl⟩
  | release => exact ⟨.until, rfl⟩
  | implies | iff | entails | congruent | weakUntil => cases hf

theorem isLiteral_negate (hg : g.isNormalized = true) : g.negate.isLiteral = g.isLiteral := by
  cases g with
  | verum | falsum | prop => rfl
  | unary op g =>
    cases op with
    | not =>
      cases g with
      | prop => rfl
      | verum | falsum | unary | binary => cases hg
    | next => rfl
    | eventually | always => cases hg
  | binary op g₁ g₂ =>
    obtain ⟨dual, hnegate⟩ := exists_negate_binary hg
    rw [hnegate]
    rfl

/-- Negating a normal form negates its parts, except that a proposition may have stood negated. -/
theorem isSubformula_negate (hf : f.isNormalized = true) (hg : g.IsSubformula f)
    (hliteral : ¬ g.isLiteral = true) : g.negate.IsSubformula f.negate := by
  induction f with
  | verum | falsum | prop =>
    obtain rfl : g = _ := hg
    exact .refl _
  | unary op f ih =>
    rcases hg with rfl | hg
    · exact .refl _
    · cases op with
      | not =>
        -- there is only a proposition under a negation
        cases f with
        | prop name =>
          obtain rfl : g = .prop name := hg
          exact absurd rfl hliteral
        | verum | falsum | unary | binary => cases hf
      | next => exact .inr (ih hf hg)
      | eventually | always => cases hf
  | binary op f₁ f₂ ih₁ ih₂ =>
    obtain ⟨hf₁, hf₂⟩ := isNormalized_of_binary hf
    obtain ⟨dual, hnegate⟩ := exists_negate_binary hf
    rcases hg with rfl | hg | hg
    · exact .refl _
    · rw [hnegate]
      exact .inr (.inl (ih₁ hf₁ hg))
    · rw [hnegate]
      exact .inr (.inr (ih₂ hf₂ hg))

theorem negate_negate_of_isNormalized (hf : f.isNormalized = true) : f.negate.negate = f := by
  rw [negate_negate, normalize_of_isNormalized hf]

theorem negate_mem_compoundParts (hf : f.isNormalized = true) (hg : g ∈ f.compoundParts) :
    g.negate ∈ f.negate.compoundParts := by
  obtain ⟨hpart, hliteral⟩ := mem_compoundParts.mp hg
  refine mem_compoundParts.mpr ⟨isSubformula_negate hf hpart hliteral, ?_⟩
  rwa [isLiteral_negate (isNormalized_of_isSubformula hpart hf)]

/-- A normal form and its negation have the same number of parts that are not literals. -/
theorem card_compoundParts_negate (hf : f.isNormalized = true) :
    f.negate.compoundParts.card = f.compoundParts.card := by
  have hback : ∀ k : Formula, k.isNormalized = true →
      ∀ g ∈ k.compoundParts, g.negate.negate = g := by
    intro k hk g hg
    exact negate_negate_of_isNormalized
      (isNormalized_of_isSubformula (mem_compoundParts.mp hg).1 hk)
  refine Finset.card_nbij' negate negate ?_ ?_ (hback _ f.isNormalized_negate) (hback f hf)
  · intro g hg
    have hmem := negate_mem_compoundParts f.isNormalized_negate hg
    rwa [negate_negate_of_isNormalized hf] at hmem
  · exact fun g hg => negate_mem_compoundParts hf hg

/-- The negation of a normal form has at most one more part for every proposition. -/
theorem size_subformulas_negate_le (hf : f.isNormalized = true) :
    f.negate.subformulas.size ≤ f.subformulas.size + f.propositions.size := by
  have hmost := f.negate.card_literalParts_le
  have hleast := f.size_propositions_le_card
  rw [propositions_negate] at hmost
  rw [size_subformulas_eq, size_subformulas_eq, card_compoundParts_negate hf]
  omega

/-! ### The limit -/

theorem tableauAutomaton_ne_tooLarge {size limit : Nat} :
    f.tableauAutomaton ≠ .error (.formulaTooLarge size limit) := by
  unfold tableauAutomaton tableau
  cases Tableau.build f with
  | ok t => simp [Except.mapError, Except.map]
  | error g => simp [Except.mapError, Except.map]

/-- A limit is kept, or the error reports it and by what it is exceeded. -/
theorem checkClosureSize_cases (bound : Option Nat) (f : Formula) :
    f.checkClosureSize bound = .ok () ∧
        (∀ limit, bound = some limit → f.subformulas.size ≤ limit) ∨
      ∃ limit, bound = some limit ∧ limit < f.subformulas.size ∧
        f.checkClosureSize bound = .error (.formulaTooLarge f.subformulas.size limit) := by
  cases bound with
  | none => exact .inl ⟨rfl, by simp⟩
  | some limit =>
    rw [checkClosureSize]
    by_cases hlt : limit < f.subformulas.size
    · exact .inr ⟨limit, rfl, hlt, if_pos hlt⟩
    · refine .inl ⟨if_neg hlt, fun limit' hlimit' => ?_⟩
      exact Option.some.inj hlimit' ▸ Nat.not_lt.mp hlt

/-- A formula is refused as too large exactly if its normal form has more subformulas than the limit
allows, and the error reports both numbers. -/
theorem toAutomaton_eq_tooLarge_iff {options : SynthesisOptions} {size limit : Nat} :
    f.toAutomaton options = .error (.formulaTooLarge size limit) ↔
      options.maxClosureSize = some limit ∧ size = f.normalize.subformulas.size ∧ limit < size := by
  rcases checkClosureSize_cases options.maxClosureSize f.normalize with
    ⟨hcheck, hkept⟩ | ⟨bound, hbound, hlt, hcheck⟩
  · -- behind the check there are other errors only
    have hpass : f.toAutomaton options = f.normalize.tableauAutomaton := by
      simp only [toAutomaton, hcheck, bind, Except.bind]
    rw [hpass]
    refine ⟨fun herror => absurd herror tableauAutomaton_ne_tooLarge, ?_⟩
    rintro ⟨hlimit, rfl, hlt⟩
    exact absurd hlt (Nat.not_lt.mpr (hkept limit hlimit))
  · have hstop : f.toAutomaton options =
        .error (.formulaTooLarge f.normalize.subformulas.size bound) := by
      simp only [toAutomaton, hcheck, bind, Except.bind]
    rw [hstop, hbound]
    constructor
    · intro herror
      cases herror
      exact ⟨rfl, rfl, hlt⟩
    · rintro ⟨hlimit, rfl, -⟩
      rw [Option.some.inj hlimit]

/-- The subformulas of a formula are what is reached through operands, collecting them from a stack
ends with just these, and the untils are those of them with an until outside. The automata of a
formula and of its negation are refused for the numbers of subformulas of their normal forms, and
these numbers differ by no more than there are propositions. -/
theorem closure_exact (f : Formula) :
    ((∀ g, g ∈ f.subformulas ↔ Reaches operands f g) ∧
      Traversal.step^[f.visits] (.start f) = ⟨[], f.subformulas⟩ ∧
      ∀ n < f.visits, (Traversal.step^[n] (.start f)).pending ≠ []) ∧
    (∀ g, g ∈ f.untils ↔ Reaches operands f g ∧ ∃ g₁ g₂, g = .until g₁ g₂) ∧
    (∀ options size limit,
      (f.toAutomaton options = .error (.formulaTooLarge size limit) ↔
        options.maxClosureSize = some limit ∧ size = f.normalize.subformulas.size ∧
          limit < size) ∧
      (f.negate.toAutomaton options = .error (.formulaTooLarge size limit) ↔
        options.maxClosureSize = some limit ∧ size = f.negate.subformulas.size ∧
          limit < size)) ∧
    f.negate.subformulas.size ≤ f.normalize.subformulas.size + f.propositions.size ∧
    f.normalize.subformulas.size ≤ f.negate.subformulas.size + f.propositions.size := by
  refine ⟨⟨?_, Traversal.iterate_step_start f⟩, ?_, ?_, ?_, ?_⟩
  · intro g
    rw [mem_subformulas, isSubformula_iff_reaches]
  · intro g
    rw [mem_untils, isSubformula_iff_reaches]
  · intro options size limit
    refine ⟨toAutomaton_eq_tooLarge_iff, ?_⟩
    rw [toAutomaton_eq_tooLarge_iff, normalize_negate]
  · have hle := size_subformulas_negate_le f.isNormalized_normalize
    rwa [negate_normalize, propositions_normalize] at hle
  · have hle := size_subformulas_negate_le f.isNormalized_negate
    rwa [negate_negate, propositions_negate] at hle

/-- Somebody waits until being served, and will do so again. -/
def waitsTwice : Formula := .and waitsUntilServed (.next waitsUntilServed)

/-- The second until is visited but not taken up again, so there are fewer visits than symbols. The
negation has one more subformula for each proposition, as many as there can be. -/
theorem closure_waitsTwice :
    waitsTwice.size = 8 ∧ waitsTwice.visits = 6 ∧
      (Traversal.step^[5] (.start waitsTwice)).pending ≠ [] ∧
      Traversal.step^[6] (.start waitsTwice) = ⟨[], waitsTwice.subformulas⟩ ∧
      waitsTwice.negate.subformulas.size =
        waitsTwice.normalize.subformulas.size + waitsTwice.propositions.size := by
  have hvisits : waitsTwice.visits = 6 := by decide +kernel
  obtain ⟨⟨-, hend, hbefore⟩, -, -, -⟩ := closure_exact waitsTwice
  rw [hvisits] at hend hbefore
  exact ⟨by decide, hvisits, hbefore 5 (by decide), hend, by decide +kernel⟩

end Formula

end TemporalMonitor
