import TemporalMonitor.Proofs.Monitor.Construction
import TemporalMonitor.Proofs.Synthesis.Propositions

/-!
# Observations matter as far as the formula speaks of them

A monitor asks an observation for the propositions in guards only, and those are propositions of the
formula. So two monitors for one formula that are given observations which agree on its propositions
give the same answers and stay in the same state. This does not depend on how they were built:
parallel edges may have been merged in one of them and not in the other.

## Main definitions

* `PowerSetAutomaton.AlikeOn` — leading to the same nodes where valuations agree
* `Monitor.SameState` — the same pointers, status and count

## Main results

* `Formula.alikeOn_of_synthesize` — the automata of a formula under any options
* `Monitor.AlikeOn.step`, `Monitor.AlikeOn.stepAll` — two monitors stay alike
* `Monitor.stepAll_eq_of_agreeOn` — the propositions of the formula decide
-/

namespace TemporalMonitor

variable {ps : SortedSet String} {v w : Valuation}

/-! ### Automata -/

namespace PowerSetAutomaton

variable {d d' d'' : PowerSetAutomaton}

/-- The automata have the same nodes, and from each of them valuations that agree on the
propositions lead to the same nodes in both. -/
structure AlikeOn (ps : SortedSet String) (d d' : PowerSetAutomaton) : Prop where
  initial : d.graph.initial = d'.graph.initial
  accepting : d.accepting = d'.accepting
  nameOf : ∀ i, d.graph.nameOf i = d'.graph.nameOf i
  post : ∀ v w, Valuation.AgreeOn ps v w → ∀ i,
    d.graph.post (Guard.holds v) i = d'.graph.post (Guard.holds w) i

theorem AlikeOn.symm (h : AlikeOn ps d d') : AlikeOn ps d' d where
  initial := h.initial.symm
  accepting := h.accepting.symm
  nameOf i := (h.nameOf i).symm
  post v w hvw i := (h.post w v (fun name hname => (hvw name hname).symm) i).symm

theorem AlikeOn.trans (h : AlikeOn ps d d') (h' : AlikeOn ps d' d'') : AlikeOn ps d d'' where
  initial := h.initial.trans h'.initial
  accepting := h.accepting.trans h'.accepting
  nameOf i := (h.nameOf i).trans (h'.nameOf i)
  post v w hvw i := (h.post v w hvw i).trans (h'.post w w (fun _ _ => rfl) i)

/-- An automaton is alike itself if its guards are about the propositions only. -/
theorem alikeOn_self (h : d.graph.propositions ⊆ ps) : AlikeOn ps d d where
  initial := rfl
  accepting := rfl
  nameOf _ := rfl
  post _ _ hvw i := Graph.post_eq_of_agreeOn h hvw i

theorem alikeOn_simplify (h : d.graph.propositions ⊆ ps) :
    AlikeOn ps d { d with graph := d.graph.simplify } where
  initial := rfl
  accepting := rfl
  nameOf i := by
    simp only [Graph.nameOf, Graph.simplify, Graph.mapEdges, Array.getElem?_map]
    cases d.graph.nodes[i]? <;> rfl
  post v w hvw i := by
    rw [Graph.post_eq_of_agreeOn h hvw i]
    exact Graph.post_congr fun j => Graph.step_simplify.symm

end PowerSetAutomaton

namespace Formula

variable {options options' : SynthesisOptions} {f : Formula}

/-- The options decide whether there is an automaton of a formula, but not which one it is. -/
theorem toAutomaton_unique {a a' : GeneralizedBuchiAutomaton Tableau.State}
    (h : f.toAutomaton options = .ok a) (h' : f.toAutomaton options' = .ok a') : a = a' := by
  obtain ⟨-, -, h⟩ := exists_ok_of_bind h
  obtain ⟨-, -, h'⟩ := exists_ok_of_bind h'
  exact Except.ok.inj (h.symm.trans h')

/-- Whatever options the deterministic automata of a formula are built with, they are alike on its
propositions. -/
theorem alikeOn_of_synthesize {d d' : PowerSetAutomaton} {stats stats' : SynthesisStats}
    (h : f.synthesize options = .ok (d, stats)) (h' : f.synthesize options' = .ok (d', stats')) :
    d.AlikeOn f.propositions d' := by
  obtain ⟨generalized, buchi, subsets, hgen, hbuchi, hsubsets, hd⟩ :=
    exists_powerSet_of_synthesize h
  obtain ⟨generalized', buchi', subsets', hgen', hbuchi', hsubsets', hd'⟩ :=
    exists_powerSet_of_synthesize h'
  -- up to the subset construction the two are the same
  obtain rfl := toAutomaton_unique hgen hgen'
  obtain rfl := Except.ok.inj (hbuchi.symm.trans hbuchi')
  obtain rfl := Except.ok.inj (hsubsets.symm.trans hsubsets')
  obtain ⟨-, -, hwithin⟩ := propositions_subset_of_stages hgen hbuchi hsubsets
  have halike : ∀ e, e = subsets ∨ e = { subsets with graph := subsets.graph.simplify } →
      subsets.AlikeOn f.propositions e := by
    rintro e (rfl | rfl)
    · exact PowerSetAutomaton.alikeOn_self hwithin
    · exact PowerSetAutomaton.alikeOn_simplify hwithin
  exact (halike d hd).symm.trans (halike d' hd')

end Formula

/-! ### Pointers -/

theorem Pointer.advance_eq_of_alikeOn {d d' : PowerSetAutomaton} (hd : d.AlikeOn ps d')
    (hvw : Valuation.AgreeOn ps v w) (p : Pointer) (side : Side) :
    p.advance d side v = p.advance d' side w := by
  cases p with
  | stuck => rfl
  | on x => simp only [advance, hd.post v w hvw x, hd.nameOf x]

/-! ### Monitors -/

namespace Monitor

variable {m m' : Monitor}

/-- The monitors are in the same places, and have found the same after as many observations. -/
structure SameState (m m' : Monitor) : Prop where
  positive : m.positive = m'.positive
  negative : m.negative = m'.negative
  status : m.status = m'.status
  steps : m.steps = m'.steps
  poisoned : m.poisoned = m'.poisoned

/-- The monitors are in the same state, and their automata are alike on the propositions. -/
structure AlikeOn (ps : SortedSet String) (m m' : Monitor) : Prop extends SameState m m' where
  positive_alike : m.automata.positive.AlikeOn ps m'.automata.positive
  negative_alike : m.automata.negative.AlikeOn ps m'.automata.negative

theorem AlikeOn.verdict_eq (h : m.AlikeOn ps m') : m.verdict = m'.verdict := by
  simp only [verdict, h.positive, h.negative, h.steps, FiniteAutomaton.isAccepting,
    h.positive_alike.accepting, h.negative_alike.accepting, h.positive_alike.nameOf,
    h.negative_alike.nameOf]

theorem AlikeOn.advance (h : m.AlikeOn ps m') (hvw : Valuation.AgreeOn ps v w) :
    (m.advance v).2 = (m'.advance w).2 ∧ (m.advance v).1.AlikeOn ps (m'.advance w).1 := by
  have hpositive := Pointer.advance_eq_of_alikeOn h.positive_alike hvw m.positive .positive
  have hnegative := Pointer.advance_eq_of_alikeOn h.negative_alike hvw m.negative .negative
  simp only [Monitor.advance, ← h.positive, ← h.negative, ← hpositive, ← hnegative]
  cases m.positive.advance m.automata.positive .positive v with
  | error e => exact ⟨rfl, h⟩
  | ok x =>
    dsimp only
    cases m.negative.advance m.automata.negative .negative v with
    | error e =>
      -- one pointer has moved already, but in both monitors to the same place
      exact ⟨rfl, { h with positive := rfl, negative := rfl }⟩
    | ok y =>
      have hmoved : AlikeOn ps { m with positive := x, negative := y }
          { m' with positive := x, negative := y } := { h with positive := rfl, negative := rfl }
      exact ⟨hmoved.verdict_eq, hmoved⟩

/-- Observations that agree on the propositions have the same answer and keep the monitors alike. -/
theorem AlikeOn.step (h : m.AlikeOn ps m') (hvw : Valuation.AgreeOn ps v w) :
    (m.step v).2 = (m'.step w).2 ∧ (m.step v).1.AlikeOn ps (m'.step w).1 := by
  cases hpoisoned : m.poisoned with
  | true =>
    rw [step_of_poisoned hpoisoned, step_of_poisoned (h.poisoned ▸ hpoisoned)]
    exact ⟨rfl, h⟩
  | false =>
    have hcounted : AlikeOn ps { m with steps := m.steps + 1 } { m' with steps := m'.steps + 1 } :=
      { h with steps := congrArg (· + 1) h.steps }
    cases hfinal : m.status.isFinal with
    | true =>
      rw [step_of_isFinal hpoisoned hfinal,
        step_of_isFinal (h.poisoned ▸ hpoisoned) (h.status ▸ hfinal)]
      exact ⟨congrArg Except.ok h.status, hcounted⟩
    | false =>
      -- only now are the observations looked at
      obtain ⟨hanswer, hmoved⟩ := hcounted.advance hvw
      rcases hm : Monitor.advance { m with steps := m.steps + 1 } v with ⟨moved, answer⟩
      rcases hm' : Monitor.advance { m' with steps := m'.steps + 1 } w with ⟨moved', answer'⟩
      rw [hm, hm'] at hanswer hmoved
      obtain rfl : answer = answer' := hanswer
      cases answer with
      | ok s =>
        rw [step_of_advance_eq_ok hpoisoned hfinal hm,
          step_of_advance_eq_ok (h.poisoned ▸ hpoisoned) (h.status ▸ hfinal) hm']
        exact ⟨rfl, { hmoved with status := rfl }⟩
      | error e =>
        rw [step_of_advance_eq_error hpoisoned hfinal hm,
          step_of_advance_eq_error (h.poisoned ▸ hpoisoned) (h.status ▸ hfinal) hm']
        exact ⟨rfl, { hmoved with poisoned := rfl }⟩

theorem AlikeOn.stepAll {word word' : List Valuation} (h : m.AlikeOn ps m')
    (hwords : List.Forall₂ (Valuation.AgreeOn ps) word word') :
    (m.stepAll word).2 = (m'.stepAll word').2 ∧
      (m.stepAll word).1.AlikeOn ps (m'.stepAll word').1 := by
  induction hwords generalizing m m' with
  | nil => exact ⟨rfl, h⟩
  | cons hvw _ ih =>
    obtain ⟨hanswer, hstep⟩ := h.step hvw
    obtain ⟨hanswers, hrest⟩ := ih hstep
    exact ⟨congrArg₂ List.cons hanswer hanswers, hrest⟩

theorem alikeOn_of_start {automata automata' : MonitorAutomata}
    (hpos : automata.positive.AlikeOn ps automata'.positive)
    (hneg : automata.negative.AlikeOn ps automata'.negative) (h : start automata = .ok m)
    (h' : start automata' = .ok m') : m.AlikeOn ps m' := by
  obtain ⟨s, hs, rfl⟩ := start_eq_ok_iff.mp h
  obtain ⟨s', hs', rfl⟩ := start_eq_ok_iff.mp h'
  have hpositive : automata.positiveStart = automata'.positiveStart := by
    rw [← Option.some_inj, ← automata.positive_initial, hpos.initial, automata'.positive_initial]
  have hnegative : automata.negativeStart = automata'.negativeStart := by
    rw [← Option.some_inj, ← automata.negative_initial, hneg.initial, automata'.negative_initial]
  have hstart : AlikeOn ps (atStart automata) (atStart automata') :=
    { positive := congrArg Pointer.on hpositive
      negative := congrArg Pointer.on hnegative
      status := rfl
      steps := rfl
      poisoned := rfl
      positive_alike := hpos
      negative_alike := hneg }
  -- the first verdicts are those of the same pointers
  have hstatus : s = s' := Except.ok.inj (hs.symm.trans (hstart.verdict_eq.trans hs'))
  exact { hstart with status := hstatus }

/-- The guards of the automata that are built for a formula and for its negation, at every stage,
mention propositions of the formula only. Two monitors for the formula, whatever their options, that
are given as many observations which agree on its propositions answer each of them alike, and are in
the same state after each of them. -/
theorem stepAll_eq_of_agreeOn (options options' : SynthesisOptions) (f : Formula) (m m' : Monitor)
    (h : ofFormula options f = .ok m) (h' : ofFormula options' f = .ok m') :
    f.StagesWithin options m.automata.positive f.propositions ∧
      f.negate.StagesWithin options m.automata.negative f.propositions ∧
      ∀ word word', List.Forall₂ (Valuation.AgreeOn f.propositions) word word' →
        (m.stepAll word).2 = (m'.stepAll word').2 ∧
          ∀ k, SameState (m.stepAll (word.take k)).1 (m'.stepAll (word'.take k)).1 := by
  obtain ⟨automata, hbuild, hstart⟩ := exists_build_of_ofFormula h
  obtain ⟨automata', hbuild', hstart'⟩ := exists_build_of_ofFormula h'
  obtain ⟨⟨stats, hd⟩, statsNeg, hneg⟩ := MonitorAutomata.build_eq_ok_iff.mp hbuild
  obtain ⟨⟨stats', hd'⟩, statsNeg', hneg'⟩ := MonitorAutomata.build_eq_ok_iff.mp hbuild'
  have halike : m.AlikeOn f.propositions m' := by
    refine alikeOn_of_start (Formula.alikeOn_of_synthesize hd hd') ?_ hstart hstart'
    rw [← f.propositions_negate]
    exact Formula.alikeOn_of_synthesize hneg hneg'
  obtain rfl : m.automata = automata := (consistent_of_start hstart).automata_eq
  have hnegative := Formula.stagesWithin_of_synthesize hneg
  rw [f.propositions_negate] at hnegative
  refine ⟨Formula.stagesWithin_of_synthesize hd, hnegative, fun word word' hwords => ?_⟩
  exact ⟨(halike.stepAll hwords).1, fun k =>
    (halike.stepAll (List.forall₂_take k hwords)).2.toSameState⟩

/-- Someone waits, and then gives up without having been served, while a clock ticks or does
not. -/
def givesUp (ticks : Bool) : List Valuation :=
  [fun name => name == "waits" || ticks && name == "clock", fun name => ticks && name == "clock"]

theorem stepAll_givesUp : ∃ m m', ofFormula {} .waitsUntilServed = .ok m ∧
    ofFormula { simplifyTransitions := false } .waitsUntilServed = .ok m' ∧
    m.automata.negative.graph.propositions ⊆ Formula.waitsUntilServed.propositions ∧
    (m.stepAll (givesUp false)).2 = (m'.stepAll (givesUp true)).2 ∧
    (m.stepAll (givesUp false)).1.SameState (m'.stepAll (givesUp true)).1 ∧
    (m.stepAll (givesUp false)).1.status = .violated := by
  have hstatus : (ofFormula {} .waitsUntilServed).map
      (fun m => (m.stepAll (givesUp false)).1.status) = .ok .violated := by decide +kernel
  have hagree : List.Forall₂ (Valuation.AgreeOn Formula.waitsUntilServed.propositions)
      (givesUp false) (givesUp true) := by
    have hclock : ¬ "clock" ∈ Formula.waitsUntilServed.propositions := by decide +kernel
    have hnoise : ∀ name ∈ Formula.waitsUntilServed.propositions, (name == "clock") = false := by
      intro name hname
      rw [beq_eq_false_iff_ne]
      rintro rfl
      exact hclock hname
    refine .cons (fun name hname => ?_) (.cons (fun name hname => ?_) .nil)
    · simp [hnoise name hname]
    · simp [hnoise name hname]
  obtain ⟨m, hm, hviolated⟩ := exists_ok_of_map hstatus
  obtain ⟨m', hm'⟩ :=
    exists_ok_of_isOk (x := ofFormula { simplifyTransitions := false } .waitsUntilServed)
      (by decide +kernel)
  obtain ⟨-, ⟨_, _, -, -, -, -, -, hnegative⟩, hwords⟩ :=
    stepAll_eq_of_agreeOn _ _ .waitsUntilServed m m' hm hm'
  obtain ⟨hanswers, hstates⟩ := hwords _ _ hagree
  exact ⟨m, m', hm, hm', hnegative, hanswers, hstates 2, hviolated⟩

end Monitor

end TemporalMonitor
