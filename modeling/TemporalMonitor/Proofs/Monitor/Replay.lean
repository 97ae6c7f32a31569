import TemporalMonitor.Monitor.Replay
import TemporalMonitor.Proofs.Monitor.Calls

/-!
# Replays in parts

A replay goes on from where the monitor is, so a trace can be cut anywhere and its parts be replayed
one after the other. This holds of every monitor, whatever its automata and whatever has happened to
it before. The whole is decided where its first part is, or else where the second part is, counted
from the start of the first.

## Main definitions

* `Trace.append` — one trace after another
* `FirstFinal` — the position of the first final verdict

## Main results

* `Monitor.feed_append_eq_ok_iff`, `Monitor.feed_append_eq_error_iff` — observations in two parts
* `Monitor.status_of_feed` — the status is the last verdict
* `Monitor.decidedAt_append` — where verdicts in two parts are decided
* `Monitor.replay_append_iff` — when a replay in two parts succeeds, and what it reports
-/

namespace TemporalMonitor

/-- The observations of one trace, followed by those of another. -/
def Trace.append (t u : Trace) : Trace := { t with steps := t.steps ++ u.steps }

instance : Append Trace := ⟨Trace.append⟩

@[simp] theorem Trace.steps_append (t u : Trace) : (t ++ u).steps = t.steps ++ u.steps := rfl

/-- The verdict at a position is final, and none before it is. -/
def FirstFinal (verdicts : List Status) (i : Nat) : Prop :=
  (∃ s, verdicts[i]? = some s ∧ s.isFinal = true) ∧
    ∀ j < i, ∀ s, verdicts[j]? = some s → s.isFinal = false

namespace Monitor

variable {m after : Monitor} {v : Valuation} {vs ws : List Valuation} {before : Status}
  {verdicts : List Status} {e : MonitorError} {t u : Trace} {r : Report}

/-! ### Observations in two parts -/

theorem feed_nil (m : Monitor) : m.feed [] = (m, .ok []) := rfl

theorem feed_cons_eq_ok_iff : m.feed (v :: vs) = (after, .ok verdicts) ↔
    ∃ next s rest, m.step v = (next, .ok s) ∧ next.feed vs = (after, .ok rest) ∧
      verdicts = s :: rest := by
  rw [feed]
  rcases m.step v with ⟨next, e | s⟩
  · simp
  · dsimp only
    rcases hrest : next.feed vs with ⟨last, e | rest⟩
    · simp [hrest]
    · simp only [Prod.mk.injEq, Except.ok.injEq]
      grind

theorem feed_cons_eq_error_iff : m.feed (v :: vs) = (after, .error e) ↔
    m.step v = (after, .error e) ∨
      ∃ next s, m.step v = (next, .ok s) ∧ next.feed vs = (after, .error e) := by
  rw [feed]
  rcases m.step v with ⟨next, e | s⟩
  · simp
  · dsimp only
    rcases hrest : next.feed vs with ⟨last, e | rest⟩ <;> simp [hrest]

/-- Observations in two parts are all taken if both parts are. -/
theorem feed_append_eq_ok_iff : m.feed (vs ++ ws) = (after, .ok verdicts) ↔
    ∃ middle first second, m.feed vs = (middle, .ok first) ∧
      middle.feed ws = (after, .ok second) ∧ verdicts = first ++ second := by
  induction vs generalizing m verdicts with
  | nil =>
    simp only [List.nil_append, feed_nil, Prod.mk.injEq, Except.ok.injEq]
    grind
  | cons v vs ih =>
    simp only [List.cons_append, feed_cons_eq_ok_iff, ih]
    grind

/-- An error comes from the first part, or from the second after the first has been taken. -/
theorem feed_append_eq_error_iff : m.feed (vs ++ ws) = (after, .error e) ↔
    m.feed vs = (after, .error e) ∨
      ∃ middle first, m.feed vs = (middle, .ok first) ∧ middle.feed ws = (after, .error e) := by
  induction vs generalizing m with
  | nil => simp [feed_nil]
  | cons v vs ih =>
    simp only [List.cons_append, feed_cons_eq_error_iff, feed_cons_eq_ok_iff, ih]
    grind

/-- The status after observations is the last verdict, or what it was if there were none. -/
theorem status_of_feed (h : m.feed vs = (after, .ok verdicts)) :
    after.status = verdicts.getLastD m.status := by
  induction vs generalizing m verdicts with
  | nil =>
    cases h
    rfl
  | cons v vs ih =>
    obtain ⟨next, s, rest, hstep, hrest, rfl⟩ := feed_cons_eq_ok_iff.mp h
    have htakes := m.takes_step v
    rw [hstep] at htakes
    rw [ih hrest, htakes.status_eq, List.getLastD_cons]

/-- There is one verdict for every observation. -/
theorem length_of_feed (h : m.feed vs = (after, .ok verdicts)) : verdicts.length = vs.length := by
  induction vs generalizing m verdicts with
  | nil =>
    cases h
    rfl
  | cons v vs ih =>
    obtain ⟨next, s, rest, -, hrest, rfl⟩ := feed_cons_eq_ok_iff.mp h
    rw [List.length_cons, List.length_cons, ih hrest]

/-! ### Points of decision -/

theorem decidedAt_of_isFinal (h : before.isFinal = true) (verdicts : List Status) :
    decidedAt before verdicts = some 0 := by
  rw [decidedAt, List.findIdx?_cons, if_pos h]

theorem decidedAt_of_not_isFinal (h : before.isFinal = false) (verdicts : List Status) :
    decidedAt before verdicts = (verdicts.findIdx? Status.isFinal).map (· + 1) := by
  rw [decidedAt, List.findIdx?_cons, if_neg (by simp [h])]

theorem decidedAt_eq_zero_iff : decidedAt before verdicts = some 0 ↔ before.isFinal = true := by
  cases h : before.isFinal with
  | true => simp [decidedAt_of_isFinal h]
  | false => simp [decidedAt_of_not_isFinal h]

theorem decidedAt_eq_none_iff : decidedAt before verdicts = none ↔
    ∀ s ∈ before :: verdicts, s.isFinal = false := List.findIdx?_eq_none_iff

theorem decidedAt_eq_succ_iff (h : before.isFinal = false) {i : Nat} :
    decidedAt before verdicts = some (i + 1) ↔ FirstFinal verdicts i := by
  rw [decidedAt_of_not_isFinal h, Option.map_eq_some_iff]
  simp only [Nat.add_right_cancel_iff, exists_eq_right, List.findIdx?_eq_some_iff_getElem]
  constructor
  · rintro ⟨hi, hfinal, hbefore⟩
    refine ⟨⟨verdicts[i], List.getElem?_eq_getElem hi, hfinal⟩, fun j hj s hs => ?_⟩
    obtain ⟨hlt, rfl⟩ := List.getElem?_eq_some_iff.mp hs
    simpa using hbefore j hj
  · rintro ⟨⟨s, hs, hfinal⟩, hbefore⟩
    obtain ⟨hi, rfl⟩ := List.getElem?_eq_some_iff.mp hs
    refine ⟨hi, hfinal, fun j hj => ?_⟩
    simp [hbefore j hj _ (List.getElem?_eq_getElem (Nat.lt_trans hj hi))]

/-- Verdicts in two parts are decided where the first part is, or else where the second is. -/
theorem decidedAt_append (before : Status) (first second : List Status) :
    decidedAt before (first ++ second) = (decidedAt before first).or
      ((decidedAt (first.getLastD before) second).map (· + first.length)) := by
  rw [decidedAt, ← List.cons_append, List.findIdx?_append, ← decidedAt]
  cases hfirst : decidedAt before first with
  | some i => rfl
  | none =>
    -- no verdict of the first part is final, so neither is the last of them
    have hlast : (first.getLastD before).isFinal = false :=
      decidedAt_eq_none_iff.mp hfirst _ List.getLastD_mem_cons
    rw [decidedAt_of_not_isFinal hlast, Option.map_map, List.length_cons]
    congr 2
    funext i
    exact (Nat.add_right_comm i 1 first.length).symm

theorem decidedAt_append_of_feed (h : m.feed vs = (after, .ok verdicts)) (more : List Status) :
    decidedAt m.status (verdicts ++ more) = (decidedAt m.status verdicts).or
      ((decidedAt after.status more).map (· + vs.length)) := by
  rw [decidedAt_append, ← status_of_feed h, length_of_feed h]

/-! ### Replays in two parts -/

theorem replay_eq_ok_iff : m.replay t = (after, .ok r) ↔
    ∃ verdicts, m.feed (t.steps.map Observation.valuation) = (after, .ok verdicts) ∧
      r = ⟨verdicts, after.status, decidedAt m.status verdicts⟩ := by
  rw [replay]
  rcases m.feed (t.steps.map Observation.valuation) with ⟨last, e | verdicts⟩
  · simp
  · simp only [Prod.mk.injEq, Except.ok.injEq]
    grind

theorem replay_eq_error_iff : m.replay t = (after, .error e) ↔
    m.feed (t.steps.map Observation.valuation) = (after, .error e) := by
  rw [replay]
  rcases m.feed (t.steps.map Observation.valuation) with ⟨last, e' | verdicts⟩ <;> simp

/-- A replay of two traces one after the other, by any monitor, succeeds exactly if the replay of
the first does and the one of the second from there. It then leaves the same monitor, gives the
verdicts of both, ends with the status of the second, and is decided where the first is or else
where the second is. It fails with the error of the first, or after the first with the error of the
second. A successful replay is decided before its first observation exactly if the status was final
then, and otherwise with the first final verdict, if there is one. -/
theorem replay_append_iff (m : Monitor) (t u : Trace) :
    (∀ after r, m.replay (t ++ u) = (after, .ok r) ↔
      ∃ middle first second, m.replay t = (middle, .ok first) ∧
        middle.replay u = (after, .ok second) ∧
        r.verdicts = first.verdicts ++ second.verdicts ∧
        r.finalStatus = second.finalStatus ∧
        r.decidedAt = first.decidedAt.or (second.decidedAt.map (· + t.steps.length))) ∧
      (∀ after e, m.replay (t ++ u) = (after, .error e) ↔ m.replay t = (after, .error e) ∨
        ∃ middle first, m.replay t = (middle, .ok first) ∧ middle.replay u = (after, .error e)) ∧
      ∀ after r, m.replay t = (after, .ok r) →
        (r.decidedAt = some 0 ↔ m.status.isFinal = true) ∧
        (m.status.isFinal = false →
          (∀ i, r.decidedAt = some (i + 1) ↔ FirstFinal r.verdicts i) ∧
          (r.decidedAt = none ↔ ∀ s ∈ r.verdicts, s.isFinal = false)) := by
  refine ⟨fun after r => ?_, fun after e => ?_, fun after r h => ?_⟩
  · simp only [replay_eq_ok_iff, Trace.steps_append, List.map_append, feed_append_eq_ok_iff]
    constructor
    · rintro ⟨_, ⟨middle, first, second, hfirst, hsecond, rfl⟩, rfl⟩
      refine ⟨middle, _, _, ⟨first, hfirst, rfl⟩, ⟨second, hsecond, rfl⟩, rfl, rfl, ?_⟩
      rw [decidedAt_append_of_feed hfirst, List.length_map]
    · -- the three parts of a report determine it
      obtain ⟨verdicts, finalStatus, decided⟩ := r
      rintro ⟨middle, _, _, ⟨first, hfirst, rfl⟩, ⟨second, hsecond, rfl⟩, rfl, rfl, rfl⟩
      refine ⟨_, ⟨middle, first, second, hfirst, hsecond, rfl⟩, ?_⟩
      rw [decidedAt_append_of_feed hfirst, List.length_map]
  · simp only [replay_eq_ok_iff, replay_eq_error_iff, Trace.steps_append, List.map_append,
      feed_append_eq_error_iff]
    grind
  · obtain ⟨verdicts, -, rfl⟩ := replay_eq_ok_iff.mp h
    refine ⟨decidedAt_eq_zero_iff, fun hbefore => ⟨fun i => decidedAt_eq_succ_iff hbefore, ?_⟩⟩
    simp [decidedAt_eq_none_iff, hbefore]

/-- Three observations of nothing, decided by the second of them and cut after the first; and an
error in the first part, after which the second is not looked at. -/
theorem replay_append_lopsided :
    (∃ middle first second after,
      (atStart lopsided).replay (.ofSteps [.empty]) = (middle, .ok first) ∧
      middle.replay (.ofSteps [.empty, .empty]) = (after, .ok second) ∧
      first.decidedAt = none ∧ second.decidedAt = some 1 ∧
      (atStart lopsided).replay (.ofSteps [.empty] ++ .ofSteps [.empty, .empty]) = (after,
        .ok ⟨[.inconclusive, .satisfied, .satisfied], .satisfied, some 2⟩) ∧
      FirstFinal [.inconclusive, .satisfied, .satisfied] 1) ∧
    ∃ after e, (atStart lopsided).replay (.ofSteps [.ofList [("p", true)]]) = (after, .error e) ∧
      (atStart lopsided).replay (.ofSteps [.ofList [("p", true)]] ++ .ofSteps [.empty]) =
        (after, .error e) := by
  have hwhole := (replay_append_iff (atStart lopsided) (.ofSteps [.empty])
    (.ofSteps [.empty, .empty])).1 _ ⟨[.inconclusive, .satisfied, .satisfied], .satisfied, some 2⟩
    |>.mpr ⟨_, _, _, rfl, rfl, rfl, rfl, rfl⟩
  obtain ⟨-, -, hdecided⟩ := replay_append_iff (atStart lopsided)
    (.ofSteps [.empty] ++ .ofSteps [.empty, .empty]) (.ofSteps [])
  have hfirst := ((hdecided _ _ hwhole).2 rfl).1 1 |>.mp rfl
  obtain ⟨-, herror, -⟩ := replay_append_iff (atStart lopsided)
    (.ofSteps [.ofList [("p", true)]]) (.ofSteps [.empty])
  exact ⟨⟨_, _, _, _, rfl, rfl, rfl, rfl, hwhole, hfirst⟩, _, _, rfl,
    (herror _ _).mpr (.inl rfl)⟩

end Monitor

end TemporalMonitor
