import TemporalMonitor.Monitor.Basic
import TemporalMonitor.Proofs.Graph.Unfolding
import TemporalMonitor.Proofs.SortedSet

/-!
# Sequences of calls

A monitor can be given observations and be reset in any order, on automata that need not be
deterministic. An error can come after one pointer has moved and before the other has, so not much
is known about a poisoned monitor: only that it had no final verdict before. Of any other monitor
the status is the verdict where the pointers are. This is enough to know how it answers from then
on.

## Main definitions

* `Monitor.Call`, `Monitor.afterCalls` — sequences of observations and resets
* `Monitor.stepAll` — the answers to several observations, errors included
* `Monitor.Takes` — what an observation can do to a monitor
* `Monitor.Consistent` — the invariant

## Main results

* `Pointer.advance_of_unique` — where a pointer moves if there is no choice
* `Monitor.takes_step` — an observation is refused, counted, followed, or leads to an error
* `Monitor.Consistent.afterCalls` — the invariant holds after every sequence of calls
* `Monitor.answers_after_calls` — how a monitor answers after any sequence of calls
-/

namespace TemporalMonitor

/-- Where a valuation leads to at most one node, a pointer moves there, or gets stuck if there is
none. -/
theorem Pointer.advance_of_unique {d : PowerSetAutomaton} {x : NodeId} {v : Valuation}
    (h : ∀ y z, d.graph.Step v x y → d.graph.Step v x z → y = z) (side : Side) :
    ((Pointer.on x).advance d side v = .ok .stuck ∧ d.graph.post (Guard.holds v) x = ∅) ∨
      ∃ y, (Pointer.on x).advance d side v = .ok (.on y) ∧
        d.graph.post (Guard.holds v) x = {y} := by
  have hstep : ∀ y ∈ (d.graph.post (Guard.holds v) x).toList, d.graph.Step v x y :=
    fun y hy => Graph.mem_post_holds.mp hy
  have hnodup := (d.graph.post (Guard.holds v) x).nodup_toList
  simp only [advance]
  rcases hpost : (d.graph.post (Guard.holds v) x).toList with _ | ⟨y, _ | ⟨z, zs⟩⟩
  · exact .inl ⟨rfl, SortedSet.toList_injective hpost⟩
  · exact .inr ⟨y, rfl, SortedSet.toList_injective hpost⟩
  · -- the first two of several successors would be the same
    rw [hpost] at hnodup hstep
    obtain rfl := h y z (hstep y (by simp)) (hstep z (by simp))
    simp at hnodup

namespace Monitor

/-- What can be asked of a monitor. -/
inductive Call where
  | step (v : Valuation)
  | reset

/-- The monitor after a call. -/
def afterCall (m : Monitor) : Call → Monitor
  | .step v => (m.step v).1
  | .reset => m.reset.1

/-- The monitor after several calls. -/
def afterCalls (m : Monitor) (calls : List Call) : Monitor := calls.foldl afterCall m

/-- The monitor after several observations, and its answer to each of them. -/
def stepAll (m : Monitor) : List Valuation → Monitor × List (Except MonitorError Status)
  | [] => (m, [])
  | v :: vs =>
    let rest := (m.step v).1.stepAll vs
    (rest.1, (m.step v).2 :: rest.2)

variable {automata : MonitorAutomata} {m m' fresh : Monitor} {v : Valuation} {s : Status}
  {answer : Except MonitorError Status}

/-! ### One observation -/

/-- A verdict depends on the automata and the pointers only. -/
theorem verdict_eq_ok_of_eq (h : m.verdict = .ok s) (hautomata : m'.automata = m.automata)
    (hpositive : m'.positive = m.positive) (hnegative : m'.negative = m.negative) :
    m'.verdict = .ok s := by
  unfold verdict at h ⊢
  rw [hautomata, hpositive, hnegative]
  split at h
  · exact h
  · exact h
  · split at h
    · exact h
    · exact h
    · exact h
    · -- only the error mentions anything else
      cases h

/-- What an observation can do to a monitor, and the answer to it. -/
inductive Takes (m : Monitor) : Monitor → Except MonitorError Status → Prop where
  /-- The monitor is poisoned and stays as it is. -/
  | refused (hpoisoned : m.poisoned = true) : Takes m m (.error .poisoned)
  /-- The verdict is final, and the observation is only counted. -/
  | counted (hpoisoned : m.poisoned = false) (hfinal : m.status.isFinal = true) :
    Takes m { m with steps := m.steps + 1 } (.ok m.status)
  /-- The pointers move to where there is a verdict. -/
  | followed (hpoisoned : m.poisoned = false) (hfinal : m.status.isFinal = false)
    (x y : Pointer) (s : Status)
    (hverdict : verdict { m with steps := m.steps + 1, positive := x, negative := y } = .ok s) :
    Takes m { m with steps := m.steps + 1, positive := x, negative := y, status := s } (.ok s)
  /-- There is an error, after none, one or both of the pointers have moved. -/
  | failed (hpoisoned : m.poisoned = false) (hfinal : m.status.isFinal = false) (x y : Pointer)
    (e : MonitorError) :
    Takes m { m with steps := m.steps + 1, positive := x, negative := y, poisoned := true }
      (.error e)

/-- Moving the pointers changes nothing else, and what comes of it is the verdict or an error. -/
theorem exists_advance_eq (m : Monitor) (v : Valuation) :
    ∃ x y, (m.advance v).1 = { m with positive := x, negative := y } ∧
      ∀ s, (m.advance v).2 = .ok s → verdict { m with positive := x, negative := y } = .ok s := by
  unfold advance
  cases m.positive.advance m.automata.positive .positive v with
  | error e => exact ⟨m.positive, m.negative, rfl, nofun⟩
  | ok x =>
    dsimp only
    cases m.negative.advance m.automata.negative .negative v with
    | error e => exact ⟨x, m.negative, rfl, nofun⟩
    | ok y => exact ⟨x, y, rfl, fun s hs => hs⟩

theorem step_of_poisoned (h : m.poisoned = true) (v : Valuation) :
    m.step v = (m, .error .poisoned) := by
  rw [step, if_pos h]

theorem step_of_isFinal (hpoisoned : m.poisoned = false) (hfinal : m.status.isFinal = true)
    (v : Valuation) : m.step v = ({ m with steps := m.steps + 1 }, .ok m.status) := by
  rw [step, if_neg (by simp [hpoisoned])]
  exact if_pos hfinal

theorem step_of_advance_eq_ok (hpoisoned : m.poisoned = false) (hfinal : m.status.isFinal = false)
    (h : advance { m with steps := m.steps + 1 } v = (m', .ok s)) :
    m.step v = ({ m' with status := s }, .ok s) := by
  rw [step, if_neg (by simp [hpoisoned])]
  dsimp only
  rw [if_neg (by simp [hfinal]), h]

theorem step_of_advance_eq_error {e : MonitorError} (hpoisoned : m.poisoned = false)
    (hfinal : m.status.isFinal = false)
    (h : advance { m with steps := m.steps + 1 } v = (m', .error e)) :
    m.step v = ({ m' with poisoned := true }, .error e) := by
  rw [step, if_neg (by simp [hpoisoned])]
  dsimp only
  rw [if_neg (by simp [hfinal]), h]

theorem takes_step (m : Monitor) (v : Valuation) : m.Takes (m.step v).1 (m.step v).2 := by
  cases hpoisoned : m.poisoned with
  | true =>
    rw [step_of_poisoned hpoisoned]
    exact .refused hpoisoned
  | false =>
    cases hfinal : m.status.isFinal with
    | true =>
      rw [step_of_isFinal hpoisoned hfinal]
      exact .counted hpoisoned hfinal
    | false =>
      obtain ⟨x, y, hstate, hverdict⟩ := exists_advance_eq { m with steps := m.steps + 1 } v
      rcases hadvance : advance { m with steps := m.steps + 1 } v with ⟨after, e | s⟩
      · rw [step_of_advance_eq_error hpoisoned hfinal hadvance]
        rw [hadvance] at hstate
        obtain rfl : after = _ := hstate
        exact .failed hpoisoned hfinal x y e
      · rw [step_of_advance_eq_ok hpoisoned hfinal hadvance]
        rw [hadvance] at hstate hverdict
        obtain rfl : after = _ := hstate
        exact .followed hpoisoned hfinal x y s (hverdict s rfl)

/-- An error leaves a poisoned monitor behind. -/
theorem Takes.poisoned {e : MonitorError} (h : m.Takes m' (.error e)) : m'.poisoned = true := by
  cases h with
  | refused hpoisoned => exact hpoisoned
  | failed => rfl

/-- The answer to an observation is the status after it. -/
theorem Takes.status_eq (h : m.Takes m' (.ok s)) : m'.status = s := by
  cases h with
  | counted => rfl
  | followed => rfl

/-! ### The invariant -/

/-- The status is the verdict where the pointers are, unless there was an error. Then there was no
final verdict before it. -/
structure Consistent (automata : MonitorAutomata) (m : Monitor) : Prop where
  automata_eq : m.automata = automata
  verdict_eq : m.poisoned = false → m.verdict = .ok m.status
  undecided : m.poisoned = true → m.status.isFinal = false

theorem start_eq_ok_iff : start automata = .ok fresh ↔
    ∃ s, (atStart automata).verdict = .ok s ∧ { atStart automata with status := s } = fresh := by
  cases hverdict : (atStart automata).verdict with
  | error e => simp [start, hverdict, bind, Except.bind]
  | ok s => simp [start, hverdict, bind, Except.bind, pure, Except.pure]

theorem consistent_of_start (h : start automata = .ok fresh) : Consistent automata fresh := by
  obtain ⟨s, hverdict, rfl⟩ := start_eq_ok_iff.mp h
  exact ⟨rfl, fun _ => verdict_eq_ok_of_eq hverdict rfl rfl rfl, nofun⟩

/-- A reset gives back the monitor that was there at the start. -/
theorem reset_eq_of_start (hstart : start automata = .ok fresh) (hm : m.automata = automata) :
    m.reset = (fresh, .ok ()) := by
  obtain ⟨s, hverdict, rfl⟩ := start_eq_ok_iff.mp hstart
  subst hm
  rw [reset, hverdict]

theorem Takes.consistent (h : m.Takes m' answer) (hm : m.Consistent automata) :
    m'.Consistent automata := by
  cases h with
  | refused => exact hm
  | counted hpoisoned =>
    refine ⟨hm.automata_eq, fun _ => ?_, fun hpoisoned' => hm.undecided hpoisoned'⟩
    exact verdict_eq_ok_of_eq (hm.verdict_eq hpoisoned) rfl rfl rfl
  | followed hpoisoned hfinal x y s hverdict =>
    refine ⟨hm.automata_eq, fun _ => verdict_eq_ok_of_eq hverdict rfl rfl rfl, fun hpoisoned' => ?_⟩
    exact absurd (hpoisoned.symm.trans hpoisoned') Bool.false_ne_true
  | failed hpoisoned hfinal => exact ⟨hm.automata_eq, nofun, fun _ => hfinal⟩

namespace Consistent

theorem poisoned_eq_false (h : m.Consistent automata) (hfinal : m.status.isFinal = true) :
    m.poisoned = false := by
  cases hpoisoned : m.poisoned with
  | false => rfl
  | true => exact absurd ((h.undecided hpoisoned).symm.trans hfinal) Bool.false_ne_true

theorem afterCall (hstart : start automata = .ok fresh) (h : m.Consistent automata) (call : Call) :
    (m.afterCall call).Consistent automata := by
  cases call with
  | step v => exact (m.takes_step v).consistent h
  | reset =>
    rw [Monitor.afterCall, reset_eq_of_start hstart h.automata_eq]
    exact consistent_of_start hstart

theorem afterCalls (hstart : start automata = .ok fresh) (h : m.Consistent automata)
    (calls : List Call) : (m.afterCalls calls).Consistent automata := by
  induction calls generalizing m with
  | nil => exact h
  | cons call calls ih => exact ih (h.afterCall hstart call)

end Consistent

/-! ### Answers -/

/-- A poisoned monitor refuses all observations. -/
theorem stepAll_of_poisoned (h : m.poisoned = true) (vs : List Valuation) :
    m.stepAll vs = (m, List.replicate vs.length (.error .poisoned)) := by
  induction vs with
  | nil => rfl
  | cons v vs ih =>
    rw [stepAll, step_of_poisoned h, ih]
    rfl

/-- After a final verdict observations are counted. -/
theorem stepAll_of_isFinal (hpoisoned : m.poisoned = false) (hfinal : m.status.isFinal = true)
    (vs : List Valuation) : m.stepAll vs =
      ({ m with steps := m.steps + vs.length }, List.replicate vs.length (.ok m.status)) := by
  induction vs generalizing m with
  | nil => rfl
  | cons v vs ih =>
    have hrest := ih (m := { m with steps := m.steps + 1 }) hpoisoned hfinal
    rw [stepAll, step_of_isFinal hpoisoned hfinal]
    dsimp only
    rw [hrest, List.length_cons, List.replicate_succ, Nat.add_assoc, Nat.add_comm 1]

/-- On any two automata with initial nodes between which there is a first verdict, and after any
sequence of calls: a monitor that is not poisoned has the verdict of its pointers. Once the verdict
is final, all that observations change is their count. Once an observation has led to an error,
those after it are refused and change nothing. A reset succeeds, and the monitor then answers as a
fresh one does. -/
theorem answers_after_calls (automata : MonitorAutomata) (fresh : Monitor)
    (hstart : start automata = .ok fresh) (calls : List Call) (m : Monitor)
    (hm : fresh.afterCalls calls = m) :
    (m.poisoned = false → m.verdict = .ok m.status) ∧
      (m.status.isFinal = true → ∀ vs, m.stepAll vs =
        ({ m with steps := m.steps + vs.length }, List.replicate vs.length (.ok m.status))) ∧
      (∀ v e, (m.step v).2 = .error e → (m.step v).1.poisoned = true ∧ ∀ vs,
        (m.step v).1.stepAll vs =
          ((m.step v).1, List.replicate vs.length (.error .poisoned))) ∧
      m.reset.2 = .ok () ∧ ∀ vs, m.reset.1.stepAll vs = fresh.stepAll vs := by
  have hcons : m.Consistent automata := hm ▸ (consistent_of_start hstart).afterCalls hstart calls
  refine ⟨hcons.verdict_eq, fun hfinal => ?_, fun v e he => ?_, ?_⟩
  · exact stepAll_of_isFinal (hcons.poisoned_eq_false hfinal) hfinal
  · have hpoisoned : (m.step v).1.poisoned = true := (he ▸ m.takes_step v).poisoned
    exact ⟨hpoisoned, stepAll_of_poisoned hpoisoned⟩
  · rw [reset_eq_of_start hstart hcons.automata_eq]
    exact ⟨rfl, fun vs => rfl⟩

/-- Where `p` holds, the automaton of the property has one successor and the other one has two. -/
def lopsided : MonitorAutomata where
  positive :=
    { graph :=
        { nodes := #[⟨"{a}", ∅, {0}, [⟨1, .always⟩]⟩, ⟨"{b}", ∅, {1}, [⟨1, .always⟩]⟩]
          initial := some 0 }
      accepting := {0, 1} }
  negative :=
    { graph :=
        { nodes := #[⟨"{c}", ∅, {0}, [⟨0, .cube {⟨"p", true⟩}⟩, ⟨1, .always⟩]⟩, ⟨"{d}", ∅, {1}, []⟩]
          initial := some 0 }
      accepting := {0, 1} }
  positiveStart := 0
  negativeStart := 0
  positive_initial := rfl
  negative_initial := rfl

/-- An error that leaves one pointer moved and the other not, a reset after it, and a final verdict
after the reset. -/
theorem answers_lopsided : ∃ fresh e, start lopsided = .ok fresh ∧
    (fresh.step fun _ => true).2 = .error e ∧
    (fresh.step fun _ => true).1.positive = .on 1 ∧
    (fresh.step fun _ => true).1.negative = .on 0 ∧
    (∀ vs, (fresh.step fun _ => true).1.stepAll vs =
      ((fresh.step fun _ => true).1, List.replicate vs.length (.error .poisoned))) ∧
    (∀ vs, (fresh.afterCalls [.step fun _ => true]).reset.1.stepAll vs = fresh.stepAll vs) ∧
    ∃ m, fresh.afterCalls [.step fun _ => true, .reset, .step fun _ => false,
        .step fun _ => false] = m ∧ m.status = .satisfied ∧
      ∀ vs, (m.stepAll vs).2 = List.replicate vs.length (.ok .satisfied) := by
  have hstart : start lopsided = .ok (atStart lopsided) := by rfl
  have herror : ((atStart lopsided).step fun _ => true).2 =
      .error (.nonDeterministic .negative "{c}" 2) := by rfl
  obtain ⟨-, -, hrefused, -⟩ := answers_after_calls lopsided _ hstart [] _ rfl
  obtain ⟨-, -, -, -, hreset⟩ := answers_after_calls lopsided _ hstart [.step fun _ => true] _ rfl
  obtain ⟨-, hfinal, -⟩ := answers_after_calls lopsided _ hstart
    [.step fun _ => true, .reset, .step fun _ => false, .step fun _ => false] _ rfl
  have hpoisoned := (hrefused _ _ herror).2
  refine ⟨_, _, hstart, herror, rfl, rfl, hpoisoned, hreset, _, rfl, rfl, fun vs => ?_⟩
  rw [hfinal rfl vs]
  rfl

end Monitor

end TemporalMonitor
