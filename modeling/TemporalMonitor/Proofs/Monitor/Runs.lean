import TemporalMonitor.Proofs.Automaton.Determinization
import TemporalMonitor.Proofs.Monitor.Calls

/-!
# Monitors and the runs of their automata

A monitor keeps one pointer for each of its automata, while the run of an automaton on a word is a
set of nodes. On deterministic automata the two agree for as long as the verdict is open: the
pointer is on the one node that the word leads to. So the first answer that is not `inconclusive` is
the one that can be read off from the runs on the observations so far.

## Main definitions

* `MonitorAutomata.judge` — the verdict on a word, from the runs of the automata
* `Monitor.outcome` — the answer to the last of several observations
* `Pointer.Marks` — the pointer is where the run is
* `Monitor.Open` — the invariant of a monitor without a final verdict

## Main results

* `Pointer.Marks.exists_advance` — a pointer follows the run
* `Monitor.Open.step` — what an observation does to a monitor without a final verdict
* `Monitor.outcome_eq_judge` — answers and runs
-/

namespace TemporalMonitor

/-- The verdict on a word, from where the word leads in the two automata and which of them accepts
it. -/
def MonitorAutomata.judge (automata : MonitorAutomata) (word : List Valuation) :
    Except MonitorError Status :=
  match (automata.positive.run word).toList, (automata.negative.run word).toList with
  | [], _ => .ok .violated
  | _ :: _, [] => .ok .satisfied
  | p :: _, n :: _ =>
    match automata.positive.accepts word, automata.negative.accepts word with
    | true, true => .ok .inconclusive
    | false, true => .ok .violated
    | true, false => .ok .satisfied
    | false, false =>
      .error (.noVerdict word.length (automata.positive.graph.nameOf p)
        (automata.negative.graph.nameOf n))

/-- The answer to the last of several observations, or the status if there are none. -/
def Monitor.outcome (m : Monitor) (word : List Valuation) : Except MonitorError Status :=
  (m.stepAll word).2.getLastD (.ok m.status)

/-! ### Pointers -/

section Pointer

variable {d : PowerSetAutomaton} {word : List Valuation} {p : Pointer}

/-- The pointer is on the one node that a word leads to, or the word leads nowhere. -/
def Pointer.Marks (d : PowerSetAutomaton) (word : List Valuation) : Pointer → Prop
  | .on x => d.run word = {x}
  | .stuck => d.run word = ∅

theorem Pointer.marks_start {start : NodeId} (h : d.graph.initial = some start) :
    (Pointer.on start).Marks d [] := by
  change d.run [] = {start}
  ext i
  rw [FiniteAutomaton.mem_run_nil, h, SortedSet.mem_singleton, Option.some_inj, eq_comm]

/-- In a deterministic automaton an observation moves a pointer along the run. -/
theorem Pointer.Marks.exists_advance (hp : p.Marks d word)
    (hd : d.graph.isDeterministic = true) (side : Side) (v : Valuation) :
    ∃ q, p.advance d side v = .ok q ∧ q.Marks d (word ++ [v]) := by
  cases p with
  | stuck =>
    refine ⟨.stuck, rfl, ?_⟩
    change d.run (word ++ [v]) = ∅
    rw [FiniteAutomaton.run_append_singleton, show d.run word = ∅ from hp]
    rfl
  | on x =>
    have hrun : d.run (word ++ [v]) = d.graph.post (Guard.holds v) x := by
      rw [FiniteAutomaton.run_append_singleton, show d.run word = {x} from hp,
        Graph.postSet_singleton]
    rcases advance_of_unique (Graph.isDeterministic_iff.mp hd v x) side with
      ⟨hstuck, hpost⟩ | ⟨y, hy, hpost⟩
    · exact ⟨.stuck, hstuck, hrun.trans hpost⟩
    · exact ⟨.on y, hy, hrun.trans hpost⟩

end Pointer

theorem FiniteAutomaton.accepts_of_run_eq {κ : Type} {a : FiniteAutomaton κ}
    {word : List Valuation} {x : NodeId} (h : a.run word = {x}) :
    a.accepts word = a.isAccepting x := by
  rw [accepts, h, Bool.eq_iff_iff, SortedSet.any_eq_true]
  simp

namespace Monitor

variable {automata : MonitorAutomata} {m fresh : Monitor} {word : List Valuation} {v : Valuation}

/-! ### Verdicts -/

/-- The verdict of pointers that are where the runs are is the one read off from the runs. -/
theorem verdict_eq_judge (hpos : m.positive.Marks m.automata.positive word)
    (hneg : m.negative.Marks m.automata.negative word) (hsteps : m.steps = word.length) :
    m.verdict = m.automata.judge word := by
  unfold verdict MonitorAutomata.judge
  cases hp : m.positive with
  | stuck =>
    rw [hp] at hpos
    rw [show m.automata.positive.run word = ∅ from hpos]
    rfl
  | on x =>
    rw [hp] at hpos
    have hrun : m.automata.positive.run word = {x} := hpos
    cases hn : m.negative with
    | stuck =>
      rw [hn] at hneg
      rw [hrun, show m.automata.negative.run word = ∅ from hneg]
      rfl
    | on y =>
      rw [hn] at hneg
      have hrun' : m.automata.negative.run word = {y} := hneg
      rw [FiniteAutomaton.accepts_of_run_eq hrun, FiniteAutomaton.accepts_of_run_eq hrun', hrun,
        hrun', hsteps]
      rfl

/-- If the verdict of two runs is open, each of them is in one node, and both automata accept. -/
theorem exists_nodes_of_judge {x y : Pointer} (hx : x.Marks automata.positive word)
    (hy : y.Marks automata.negative word) (hjudge : automata.judge word = .ok .inconclusive) :
    ∃ p n, automata.positive.run word = {p} ∧ automata.negative.run word = {n} ∧
      x = .on p ∧ y = .on n ∧
      automata.positive.accepts word = true ∧ automata.negative.accepts word = true := by
  unfold MonitorAutomata.judge at hjudge
  cases x with
  | stuck =>
    rw [show automata.positive.run word = ∅ from hx] at hjudge
    cases hjudge
  | on p =>
    have hp : automata.positive.run word = {p} := hx
    cases y with
    | stuck =>
      rw [hp, show automata.negative.run word = ∅ from hy] at hjudge
      cases hjudge
    | on n =>
      have hn : automata.negative.run word = {n} := hy
      refine ⟨p, n, hp, hn, rfl, rfl, ?_⟩
      rw [hp, hn] at hjudge
      cases haccepts : automata.positive.accepts word <;>
        cases haccepts' : automata.negative.accepts word <;>
        rw [haccepts, haccepts'] at hjudge
      · cases hjudge
      · cases hjudge
      · cases hjudge
      · exact ⟨rfl, rfl⟩

theorem judge_ne_nonDeterministic (automata : MonitorAutomata) (word : List Valuation)
    (side : Side) (state : String) (successors : Nat) :
    automata.judge word ≠ .error (.nonDeterministic side state successors) := by
  unfold MonitorAutomata.judge
  split
  · simp
  · simp
  · split <;> simp

/-! ### Observations -/

/-- Where both pointers move, the answer is the verdict of where they move to. -/
theorem step_of_advance {x y : Pointer} (hpoisoned : m.poisoned = false)
    (hfinal : m.status.isFinal = false)
    (hx : m.positive.advance m.automata.positive .positive v = .ok x)
    (hy : m.negative.advance m.automata.negative .negative v = .ok y) :
    (m.step v).2 = verdict { m with steps := m.steps + 1, positive := x, negative := y } ∧
      ∀ s, (m.step v).2 = .ok s →
        (m.step v).1 =
          { m with steps := m.steps + 1, positive := x, negative := y, status := s } := by
  have hadvance : advance { m with steps := m.steps + 1 } v =
      ({ m with steps := m.steps + 1, positive := x, negative := y },
        verdict { m with steps := m.steps + 1, positive := x, negative := y }) := by
    simp only [advance, hx, hy]
  rcases hverdict : verdict { m with steps := m.steps + 1, positive := x, negative := y } with e | s
  · rw [hverdict] at hadvance
    rw [step_of_advance_eq_error hpoisoned hfinal hadvance]
    simp
  · rw [hverdict] at hadvance
    rw [step_of_advance_eq_ok hpoisoned hfinal hadvance]
    simp

/-- There is no final verdict yet, and the pointers are where the runs on the observations are. -/
structure Open (automata : MonitorAutomata) (word : List Valuation) (m : Monitor) : Prop where
  automata_eq : m.automata = automata
  poisoned : m.poisoned = false
  status : m.status = .inconclusive
  steps : m.steps = word.length
  positive : m.positive.Marks automata.positive word
  negative : m.negative.Marks automata.negative word

/-- While there is no final verdict, the answer is read off from the runs. -/
theorem Open.step (h : m.Open automata word)
    (hpos : automata.positive.graph.isDeterministic = true)
    (hneg : automata.negative.graph.isDeterministic = true) (v : Valuation) :
    (m.step v).2 = automata.judge (word ++ [v]) ∧
      ((m.step v).2 = .ok .inconclusive → (m.step v).1.Open automata (word ++ [v])) := by
  obtain rfl := h.automata_eq
  obtain ⟨x, hx, hx'⟩ := h.positive.exists_advance hpos .positive v
  obtain ⟨y, hy, hy'⟩ := h.negative.exists_advance hneg .negative v
  have hsteps : m.steps + 1 = (word ++ [v]).length := by rw [h.steps, List.length_append]; rfl
  obtain ⟨hanswer, hafter⟩ := step_of_advance h.poisoned (by rw [h.status]; rfl) hx hy
  refine ⟨?_, fun hopen => ?_⟩
  · rw [hanswer]
    exact verdict_eq_judge (m := { m with steps := m.steps + 1, positive := x, negative := y })
      hx' hy' hsteps
  · rw [hafter _ hopen]
    exact ⟨rfl, h.poisoned, rfl, hsteps, hx', hy'⟩

/-- The monitor was poisoned, has a final verdict, or follows the runs. -/
def Regular (automata : MonitorAutomata) (word : List Valuation) (m : Monitor) : Prop :=
  m.poisoned = true ∨ m.status.isFinal = true ∨ m.Open automata word

theorem Regular.step (h : m.Regular automata word)
    (hpos : automata.positive.graph.isDeterministic = true)
    (hneg : automata.negative.graph.isDeterministic = true) (v : Valuation) :
    (m.step v).1.Regular automata (word ++ [v]) ∧ ∀ side state successors,
      (m.step v).2 ≠ .error (.nonDeterministic side state successors) := by
  cases hpoisoned : m.poisoned with
  | true =>
    rw [step_of_poisoned hpoisoned]
    exact ⟨.inl hpoisoned, by simp⟩
  | false =>
    rcases h with h | hfinal | hopen
    · exact absurd (hpoisoned.symm.trans h) Bool.false_ne_true
    · rw [step_of_isFinal hpoisoned hfinal]
      exact ⟨.inr (.inl hfinal), by simp⟩
    · obtain ⟨hanswer, hkeep⟩ := hopen.step hpos hneg v
      have htakes := m.takes_step v
      refine ⟨?_, hanswer ▸ judge_ne_nonDeterministic automata (word ++ [v])⟩
      -- an error poisons the monitor, and a final verdict becomes its status
      rcases hresult : (m.step v).2 with e | s
      · rw [hresult] at htakes
        exact .inl htakes.poisoned
      · rw [hresult] at htakes
        cases s with
        | inconclusive => exact .inr (.inr (hkeep hresult))
        | satisfied | violated => exact .inr (.inl (by rw [htakes.status_eq]; rfl))

/-! ### Words -/

theorem stepAll_append_singleton (m : Monitor) (word : List Valuation) (v : Valuation) :
    m.stepAll (word ++ [v]) = (((m.stepAll word).1.step v).1,
      (m.stepAll word).2 ++ [((m.stepAll word).1.step v).2]) := by
  induction word generalizing m with
  | nil => rfl
  | cons x word ih => rw [List.cons_append, stepAll, ih, stepAll, List.cons_append]

theorem outcome_append_singleton (m : Monitor) (word : List Valuation) (v : Valuation) :
    m.outcome (word ++ [v]) = ((m.stepAll word).1.step v).2 := by
  rw [outcome, stepAll_append_singleton, List.getLastD_concat]

section

variable (hstart : start automata = .ok fresh)
  (hpos : automata.positive.graph.isDeterministic = true)
  (hneg : automata.negative.graph.isDeterministic = true)

include hstart

theorem judge_nil_of_start : automata.judge [] = .ok fresh.status := by
  obtain ⟨s, hverdict, rfl⟩ := start_eq_ok_iff.mp hstart
  rw [← hverdict]
  exact (verdict_eq_judge (m := atStart automata) (Pointer.marks_start automata.positive_initial)
    (Pointer.marks_start automata.negative_initial) rfl).symm

theorem open_of_start (hstatus : fresh.status = .inconclusive) : fresh.Open automata [] := by
  obtain ⟨s, hverdict, rfl⟩ := start_eq_ok_iff.mp hstart
  exact ⟨rfl, rfl, hstatus, rfl, Pointer.marks_start automata.positive_initial,
    Pointer.marks_start automata.negative_initial⟩

include hpos hneg

theorem regular_stepAll (word : List Valuation) :
    (fresh.stepAll word).1.Regular automata word := by
  induction word using List.reverseRecOn with
  | nil =>
    cases hstatus : fresh.status with
    | inconclusive => exact .inr (.inr (open_of_start hstart hstatus))
    | satisfied | violated => exact .inr (.inl (by rw [stepAll, hstatus]; rfl))
  | append_singleton word v ih =>
    rw [stepAll_append_singleton]
    exact (ih.step hpos hneg v).1

/-- As long as all answers are `inconclusive`, the monitor follows the runs. -/
theorem open_stepAll (hopen : ∀ u, u <+: word → fresh.outcome u = .ok .inconclusive) :
    (fresh.stepAll word).1.Open automata word := by
  induction word using List.reverseRecOn with
  | nil => exact open_of_start hstart (Except.ok.inj (hopen [] List.prefix_rfl))
  | append_singleton word v ih =>
    have hword := ih fun u hu => hopen u (hu.trans (List.prefix_append word [v]))
    have hlast := hopen (word ++ [v]) List.prefix_rfl
    rw [outcome_append_singleton] at hlast
    rw [stepAll_append_singleton]
    exact (hword.step hpos hneg v).2 hlast

/-- If all answers before the last one are `inconclusive`, the last one is read off from the
runs. -/
theorem outcome_eq_judge
    (hopen : ∀ u, u <+: word → u ≠ word → fresh.outcome u = .ok .inconclusive) :
    fresh.outcome word = automata.judge word := by
  cases word using List.reverseRecOn with
  | nil => exact (judge_nil_of_start hstart).symm
  | append_singleton word v =>
    have hshorter : ∀ u, u <+: word → u ≠ word ++ [v] := by
      rintro u hu rfl
      exact absurd hu.length_le (by simp)
    have hword : (fresh.stepAll word).1.Open automata word :=
      open_stepAll hstart hpos hneg fun u hu =>
        hopen u (hu.trans (List.prefix_append word [v])) (hshorter u hu)
    rw [outcome_append_singleton]
    exact (hword.step hpos hneg v).1

theorem outcome_ne_nonDeterministic (word : List Valuation) (side : Side) (state : String)
    (successors : Nat) :
    fresh.outcome word ≠ .error (.nonDeterministic side state successors) := by
  cases word using List.reverseRecOn with
  | nil => simp [outcome, stepAll]
  | append_singleton word v =>
    rw [outcome_append_singleton]
    exact ((regular_stepAll hstart hpos hneg word).step hpos hneg v).2 side state successors

end

/-- On deterministic automata no observation leads to several nodes. As long as all answers are
`inconclusive`, each automaton is in one node after the observations so far, which is the one that
the pointer is on, and both accept them. The first answer that is not `inconclusive` is the verdict
read off from the runs on the observations up to there. -/
theorem outcomes_follow_runs (automata : MonitorAutomata) (fresh : Monitor)
    (hpos : automata.positive.graph.isDeterministic = true)
    (hneg : automata.negative.graph.isDeterministic = true)
    (hstart : start automata = .ok fresh) (word : List Valuation) :
    (∀ side state successors,
      fresh.outcome word ≠ .error (.nonDeterministic side state successors)) ∧
    ((∀ u, u <+: word → fresh.outcome u = .ok .inconclusive) →
      ∃ p n, automata.positive.run word = {p} ∧ automata.negative.run word = {n} ∧
        (fresh.stepAll word).1.positive = .on p ∧ (fresh.stepAll word).1.negative = .on n ∧
        automata.positive.accepts word = true ∧ automata.negative.accepts word = true) ∧
    ((∀ u, u <+: word → u ≠ word → fresh.outcome u = .ok .inconclusive) →
      fresh.outcome word = automata.judge word) := by
  refine ⟨outcome_ne_nonDeterministic hstart hpos hneg word, fun hopen => ?_,
    outcome_eq_judge hstart hpos hneg⟩
  have hjudge : automata.judge word = .ok .inconclusive := by
    rw [← outcome_eq_judge hstart hpos hneg fun u hu _ => hopen u hu]
    exact hopen word List.prefix_rfl
  have hword := open_stepAll hstart hpos hneg hopen
  exact exists_nodes_of_judge hword.positive hword.negative hjudge

/-- Neither automaton accepts once `p` has been observed. -/
def exhausted : MonitorAutomata where
  positive :=
    { graph :=
        { nodes := #[⟨"{a}", ∅, {0}, [⟨0, .cube {⟨"p", false⟩}⟩, ⟨1, .cube {⟨"p", true⟩}⟩]⟩,
            ⟨"{b}", ∅, {1}, []⟩]
          initial := some 0 }
      accepting := {0} }
  negative :=
    { graph :=
        { nodes := #[⟨"{c}", ∅, {0}, [⟨0, .cube {⟨"p", false⟩}⟩, ⟨1, .cube {⟨"p", true⟩}⟩]⟩,
            ⟨"{d}", ∅, {1}, [⟨1, .always⟩]⟩]
          initial := some 0 }
      accepting := {0} }
  positiveStart := 0
  negativeStart := 0
  positive_initial := rfl
  negative_initial := rfl

theorem outcomes_exhausted : ∃ fresh, start exhausted = .ok fresh ∧
    (∃ p n, exhausted.positive.run [fun _ => false] = {p} ∧
      exhausted.negative.run [fun _ => false] = {n} ∧
      (fresh.stepAll [fun _ => false]).1.positive = .on p ∧
      (fresh.stepAll [fun _ => false]).1.negative = .on n) ∧
    fresh.outcome [fun _ => false, fun _ => true] =
      .error (.noVerdict 2 "{b}" "{d}") := by
  have hstart : start exhausted = .ok (atStart exhausted) := by rfl
  have hpos : exhausted.positive.graph.isDeterministic = true := by decide +kernel
  have hneg : exhausted.negative.graph.isDeterministic = true := by decide +kernel
  have hnil : (atStart exhausted).outcome [] = .ok .inconclusive := rfl
  have hfalse : (atStart exhausted).outcome [fun _ => false] = .ok .inconclusive := rfl
  obtain ⟨-, hopen, -⟩ := outcomes_follow_runs exhausted _ hpos hneg hstart [fun _ => false]
  obtain ⟨-, -, hlast⟩ :=
    outcomes_follow_runs exhausted _ hpos hneg hstart [fun _ => false, fun _ => true]
  refine ⟨_, hstart, ?_, hlast fun u hu hne => ?_⟩
  · obtain ⟨p, n, hp, hn, hp', hn', -⟩ := hopen fun u hu => by
      rcases List.prefix_cons_iff.mp hu with rfl | ⟨rest, rfl, hrest⟩
      · exact hnil
      · rw [List.prefix_nil.mp hrest]
        exact hfalse
    exact ⟨p, n, hp, hn, hp', hn'⟩
  · rcases List.prefix_cons_iff.mp hu with rfl | ⟨rest, rfl, hrest⟩
    · exact hnil
    · rcases List.prefix_cons_iff.mp hrest with rfl | ⟨last, rfl, hlast⟩
      · exact hfalse
      · rw [List.prefix_nil.mp hlast] at hne
        exact absurd rfl hne

end Monitor

end TemporalMonitor
