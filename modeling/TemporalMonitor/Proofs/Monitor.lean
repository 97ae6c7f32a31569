import TemporalMonitor.Monitor.Replay
import TemporalMonitor.Proofs.Monitor.Calls
import TemporalMonitor.Proofs.Synthesis

/-!
# Verdicts are exact

After every sequence of observations the pointers of a monitor stand for the sets of nodes that the
observations lead to, so one accepts while the formula can still hold, and the other while it can
still fail. One of the two is always the case: there is always a verdict, and it says precisely what
the observations so far determine. A final verdict stays right when observations are only counted.

## Main definitions

* `Status.Describes` — what a verdict says about the continuations of a word
* `Pointer.Follows` — where a pointer is after a word
* `Monitor.Tracks` — the invariant of a monitor

## Main results

* `MonitorAutomata.build_eq_ok_iff` — what the automata of a monitor are
* `Monitor.Tracks.step`, `Monitor.Tracks.feed` — the invariant is kept, and no step fails
* `Monitor.status_feed_iff` — the verdict after any observations
-/

namespace TemporalMonitor

variable {f : Formula} {word : List Valuation} {v : Valuation}

theorem OmegaWord.prepend_append (u u' : List Valuation) (w : OmegaWord) :
    prepend (u ++ u') w = prepend u (prepend u' w) := by
  induction u with
  | nil => rfl
  | cons x u ih =>
    funext i
    cases i with
    | zero => rfl
    | succ i => rw [List.cons_append, prepend_cons_succ, ih, prepend_cons_succ]

theorem Observation.valuation_eq_false {o : Observation} {name : String}
    (h : ∀ value, ¬ (name, value) ∈ o.entries) : o.valuation name = false := by
  have hnone : o.entries.lookup name = none := by
    rw [List.lookup_eq_none_iff]
    rintro ⟨other, value⟩ hmem
    rw [bne_iff_ne]
    rintro rfl
    exact h value hmem
  rw [valuation, hnone]
  rfl

/-! ### What a verdict says -/

/-- What a verdict says about the infinite words that begin with the given one. -/
def Status.Describes (f : Formula) (word : List Valuation) : Status → Prop
  | .satisfied => ∀ w, f.Holds (.prepend word w)
  | .violated => ∀ w, ¬ f.Holds (.prepend word w)
  | .inconclusive => (∃ w, f.Holds (.prepend word w)) ∧ ∃ w, ¬ f.Holds (.prepend word w)

namespace Status

variable {s s' : Status}

/-- The words that begin with a longer word begin with the shorter one too. -/
theorem Describes.append (h : s.Describes f word) (hs : s.isFinal = true) (v : Valuation) :
    s.Describes f (word ++ [v]) := by
  cases s with
  | satisfied =>
    intro w
    rw [OmegaWord.prepend_append]
    exact h _
  | violated =>
    intro w
    rw [OmegaWord.prepend_append]
    exact h _
  | inconclusive => cases hs

/-- At most one verdict is right. -/
theorem Describes.unique (h : s.Describes f word) (h' : s'.Describes f word) : s = s' := by
  have w : OmegaWord := fun _ _ => false
  cases s <;> cases s' <;> try rfl
  · exact absurd (h w) (h' w)
  · obtain ⟨-, w, hw⟩ := h'
    exact absurd (h w) hw
  · exact absurd (h' w) (h w)
  · obtain ⟨⟨w, hw⟩, -⟩ := h'
    exact absurd hw (h w)
  · obtain ⟨-, w, hw⟩ := h
    exact absurd (h' w) hw
  · obtain ⟨⟨w, hw⟩, -⟩ := h
    exact absurd hw (h' w)

theorem Describes.eq_iff (h : s.Describes f word) : s = s' ↔ s'.Describes f word := by
  constructor
  · rintro rfl
    exact h
  · exact h.unique

end Status

/-! ### Pointers -/

section Pointer

variable {κ : Type} {a : FiniteAutomaton κ} {d : PowerSetAutomaton} {p : Pointer}

/-- The pointer stands for the nodes that a word leads to, or there are none. -/
def Pointer.Follows (a : FiniteAutomaton κ) (d : PowerSetAutomaton) (word : List Valuation) :
    Pointer → Prop
  | .on x => d.graph.StandsFor x (a.run word)
  | .stuck => ∀ i, ¬ i ∈ a.run word

/-- Observations never lead to several nodes. -/
theorem Pointer.Follows.exists_advance (hp : p.Follows a d word) (hd : a.Determinizes d)
    (side : Side) (v : Valuation) :
    ∃ p', p.advance d side v = .ok p' ∧ p'.Follows a d (word ++ [v]) := by
  cases p with
  | stuck =>
    refine ⟨.stuck, rfl, fun i hi => ?_⟩
    rw [FiniteAutomaton.run_append_singleton, Graph.mem_postSet] at hi
    obtain ⟨j, hj, -⟩ := hi
    exact hp j hj
  | on x =>
    have hfollows : ∀ y, d.graph.Step v x y → d.graph.StandsFor y (a.run (word ++ [v])) := by
      intro y hy
      rw [FiniteAutomaton.run_append_singleton]
      exact hd.step x y _ v hp hy
    -- all successors stand for the same set
    have hunique : ∀ y z, d.graph.Step v x y → d.graph.Step v x z → y = z :=
      fun y z hy hz => hd.unique y z _ (hfollows y hy) (hfollows z hz)
    rcases advance_of_unique hunique side with ⟨hstuck, hpost⟩ | ⟨y, hy, hpost⟩
    · -- a member with a step would give the node a successor
      refine ⟨.stuck, hstuck, fun i hi => ?_⟩
      rw [FiniteAutomaton.run_append_singleton] at hi
      obtain ⟨y, hy⟩ := hd.exists_step x _ v i hp hi
      rw [← Graph.mem_post_holds, hpost] at hy
      exact SortedSet.notMem_empty hy
    · have hmem : y ∈ d.graph.post (Guard.holds v) x := hpost ▸ SortedSet.mem_singleton.mpr rfl
      exact ⟨.on y, hy, hfollows y (Graph.mem_post_holds.mp hmem)⟩

/-- A pointer is on an accepting node exactly when the word is accepted. -/
theorem Pointer.Follows.isAccepting_iff {x : NodeId} (hx : (Pointer.on x).Follows a d word)
    (hd : a.Determinizes d) : d.isAccepting x = a.accepts word := by
  rw [Bool.eq_iff_iff, FiniteAutomaton.isAccepting, SortedSet.contains_iff,
    hd.mem_accepting_iff x _ hx, FiniteAutomaton.accepts, SortedSet.any_eq_true]
  simp only [FiniteAutomaton.isAccepting, SortedSet.contains_iff]

theorem Pointer.Follows.not_accepts (h : Pointer.stuck.Follows a d word) :
    a.accepts word = false := by
  rw [← Bool.not_eq_true, FiniteAutomaton.accepts, SortedSet.any_eq_true]
  rintro ⟨i, hi, -⟩
  exact h i hi

end Pointer

/-! ### The automata of a monitor -/

namespace MonitorAutomata

variable {options : SynthesisOptions} {automata : MonitorAutomata}

/-- Two automata are put together as they are. -/
theorem ofPair_eq_ok_iff {positive negative : PowerSetAutomaton} :
    ofPair positive negative = .ok automata ↔
      automata.positive = positive ∧ automata.negative = negative := by
  constructor
  · intro h
    simp only [ofPair] at h
    split at h
    · cases h
      exact ⟨rfl, rfl⟩
    · cases h
  · rintro ⟨rfl, rfl⟩
    simp only [ofPair]
    split
    · -- the initial nodes that were found are those that the automata carry
      rename_i p n hp hn
      have hp := Option.some.inj (hp.symm.trans automata.positive_initial)
      have hn := Option.some.inj (hn.symm.trans automata.negative_initial)
      subst hp hn
      rfl
    · rename_i hnone
      exact (hnone _ _ automata.positive_initial automata.negative_initial).elim

/-- The automata of a monitor are those of the formula and of its negation. -/
theorem build_eq_ok_iff : build options f = .ok automata ↔
    (∃ stats, f.synthesize options = .ok (automata.positive, stats)) ∧
      ∃ stats, f.negate.synthesize options = .ok (automata.negative, stats) := by
  constructor
  · intro h
    obtain ⟨⟨positive, stats⟩, hpositive, h⟩ := exists_ok_of_bind h
    obtain ⟨⟨negative, stats'⟩, hnegative, h⟩ := exists_ok_of_bind h
    obtain ⟨rfl, rfl⟩ := ofPair_eq_ok_iff.mp h
    exact ⟨⟨stats, hpositive⟩, stats', hnegative⟩
  · rintro ⟨⟨stats, hpositive⟩, stats', hnegative⟩
    simp only [build, hpositive, hnegative, bind, Except.bind]
    exact ofPair_eq_ok_iff.mpr ⟨rfl, rfl⟩

/-- The automata follow automata for the words after which the formula can hold, and can fail. -/
structure Watch (automata : MonitorAutomata) (f : Formula)
    (p n : FiniteAutomaton CountedNode) : Prop where
  positive : p.Determinizes automata.positive
  negative : n.Determinizes automata.negative
  positive_accepts : ∀ word, p.accepts word = true ↔ ∃ w, f.Holds (.prepend word w)
  negative_accepts : ∀ word, n.accepts word = true ↔ ∃ w, ¬ f.Holds (.prepend word w)

theorem exists_watch_of_build (h : build options f = .ok automata) :
    ∃ p n, automata.Watch f p n := by
  obtain ⟨⟨_, hpositive⟩, _, hnegative⟩ := build_eq_ok_iff.mp h
  obtain ⟨p, hp, haccepts⟩ := Formula.anticipates_of_synthesize hpositive
  obtain ⟨n, hn, haccepts'⟩ := Formula.anticipates_of_synthesize hnegative
  refine ⟨p, n, hp, hn, haccepts, fun word => ?_⟩
  rw [haccepts']
  exact exists_congr fun w => Formula.holds_negate f _

end MonitorAutomata

/-! ### Monitors -/

namespace Monitor

variable {m : Monitor} {p n : FiniteAutomaton CountedNode}

/-- Where both pointers follow the observations, there is a verdict and it is right. -/
theorem exists_verdict (hwatch : m.automata.Watch f p n)
    (hpos : m.positive.Follows p m.automata.positive word)
    (hneg : m.negative.Follows n m.automata.negative word) :
    ∃ s, m.verdict = .ok s ∧ s.Describes f word := by
  have hcan := hwatch.positive_accepts word
  have hcannot := hwatch.negative_accepts word
  unfold verdict
  -- a stuck pointer stands for a word that is not accepted
  cases hp : m.positive with
  | stuck =>
    rw [hp] at hpos
    rw [hpos.not_accepts] at hcan
    exact ⟨.violated, rfl, fun w hw => by simpa using hcan.mpr ⟨w, hw⟩⟩
  | on x =>
    rw [hp] at hpos
    cases hn : m.negative with
    | stuck =>
      rw [hn] at hneg
      rw [hneg.not_accepts] at hcannot
      refine ⟨.satisfied, rfl, fun w => ?_⟩
      by_contra hw
      simpa using hcannot.mpr ⟨w, hw⟩
    | on y =>
      rw [hn] at hneg
      dsimp only
      rw [hpos.isAccepting_iff hwatch.positive, hneg.isAccepting_iff hwatch.negative]
      cases haccepts : p.accepts word <;> cases haccepts' : n.accepts word <;>
        rw [haccepts] at hcan <;> rw [haccepts'] at hcannot
      · -- the formula holds of some continuation or fails of it
        exfalso
        by_cases hw : f.Holds (.prepend word fun _ _ => false)
        · simpa using hcan.mpr ⟨_, hw⟩
        · simpa using hcannot.mpr ⟨_, hw⟩
      · exact ⟨.violated, rfl, fun w hw => by simpa using hcan.mpr ⟨w, hw⟩⟩
      · refine ⟨.satisfied, rfl, fun w => ?_⟩
        by_contra hw
        simpa using hcannot.mpr ⟨w, hw⟩
      · exact ⟨.inconclusive, rfl, hcan.mp rfl, hcannot.mp rfl⟩

/-- The verdict is right, and until it is final the pointers follow the observations. -/
structure Tracks (f : Formula) (p n : FiniteAutomaton CountedNode) (word : List Valuation)
    (m : Monitor) : Prop where
  watch : m.automata.Watch f p n
  poisoned : m.poisoned = false
  describes : m.status.Describes f word
  positive : m.status.isFinal = false → m.positive.Follows p m.automata.positive word
  negative : m.status.isFinal = false → m.negative.Follows n m.automata.negative word

theorem tracks_of_start {automata : MonitorAutomata} (hwatch : automata.Watch f p n)
    (h : Monitor.start automata = .ok m) : m.Tracks f p n [] := by
  have hpos : (atStart automata).positive.Follows p automata.positive [] :=
    hwatch.positive.initial _ automata.positive_initial
  have hneg : (atStart automata).negative.Follows n automata.negative [] :=
    hwatch.negative.initial _ automata.negative_initial
  obtain ⟨s, hverdict, hs⟩ := exists_verdict (m := atStart automata) hwatch hpos hneg
  obtain ⟨s', hverdict', rfl⟩ := start_eq_ok_iff.mp h
  obtain rfl : s = s' := Except.ok.inj (hverdict.symm.trans hverdict')
  exact ⟨hwatch, rfl, hs, fun _ => hpos, fun _ => hneg⟩

/-- Moving the pointers gives a verdict that is right. -/
theorem exists_advance (hwatch : m.automata.Watch f p n)
    (hpos : m.positive.Follows p m.automata.positive word)
    (hneg : m.negative.Follows n m.automata.negative word) (v : Valuation) :
    ∃ x y s, m.advance v = ({ m with positive := x, negative := y }, .ok s) ∧
      s.Describes f (word ++ [v]) ∧ x.Follows p m.automata.positive (word ++ [v]) ∧
      y.Follows n m.automata.negative (word ++ [v]) := by
  obtain ⟨x, hx, hx'⟩ := hpos.exists_advance hwatch.positive .positive v
  obtain ⟨y, hy, hy'⟩ := hneg.exists_advance hwatch.negative .negative v
  obtain ⟨s, hs, hs'⟩ :=
    exists_verdict (m := { m with positive := x, negative := y }) hwatch hx' hy'
  refine ⟨x, y, s, ?_, hs', hx', hy'⟩
  simp only [advance, hx, hy, hs]

/-- A step gives a verdict and keeps the invariant. -/
theorem Tracks.step (h : m.Tracks f p n word) (v : Valuation) :
    ∃ s, (m.step v).2 = .ok s ∧ (m.step v).1.Tracks f p n (word ++ [v]) := by
  cases hfinal : m.status.isFinal with
  | true =>
    -- the pointers stay where they are, and nothing is said about them any more
    rw [step_of_isFinal h.poisoned hfinal]
    refine ⟨m.status, rfl, h.watch, h.poisoned, h.describes.append hfinal v, ?_, ?_⟩
    · intro hnot
      exact absurd (hnot.symm.trans hfinal) Bool.false_ne_true
    · intro hnot
      exact absurd (hnot.symm.trans hfinal) Bool.false_ne_true
  | false =>
    obtain ⟨x, y, s, hadvance, hs, hx, hy⟩ :=
      exists_advance (m := { m with steps := m.steps + 1 }) h.watch (h.positive hfinal)
        (h.negative hfinal) v
    rw [step_of_advance_eq_ok h.poisoned hfinal hadvance]
    exact ⟨s, rfl, h.watch, h.poisoned, hs, fun _ => hx, fun _ => hy⟩

/-- No observation is refused, and the invariant holds after all of them. -/
theorem Tracks.feed (h : m.Tracks f p n word) (vs : List Valuation) :
    ∃ verdicts, (m.feed vs).2 = .ok verdicts ∧ (m.feed vs).1.Tracks f p n (word ++ vs) := by
  induction vs generalizing m word with
  | nil =>
    refine ⟨[], rfl, ?_⟩
    rw [List.append_nil]
    exact h
  | cons v vs ih =>
    obtain ⟨s, hs, hstep⟩ := h.step v
    obtain ⟨verdicts, hverdicts, hfeed⟩ := ih hstep
    -- both results are known to be successes, so the matches in `feed` compute
    have hm : m.step v = ((m.step v).1, .ok s) := Prod.ext rfl hs
    have hm' : (m.step v).1.feed vs = (((m.step v).1.feed vs).1, .ok verdicts) :=
      Prod.ext rfl hverdicts
    rw [Monitor.feed, hm]
    dsimp only
    rw [hm']
    refine ⟨s :: verdicts, rfl, ?_⟩
    rw [List.append_cons]
    exact hfeed

theorem exists_build_of_ofFormula {options : SynthesisOptions}
    (h : Monitor.ofFormula options f = .ok m) :
    ∃ automata, MonitorAutomata.build options f = .ok automata ∧ start automata = .ok m := by
  obtain ⟨automata, hautomata, h⟩ := exists_ok_of_bind h
  cases hbuild : MonitorAutomata.build options f with
  | error e =>
    rw [hbuild] at hautomata
    cases hautomata
  | ok built =>
    rw [hbuild] at hautomata
    cases hautomata
    exact ⟨automata, rfl, h⟩

theorem exists_tracks_of_ofFormula {options : SynthesisOptions}
    (h : Monitor.ofFormula options f = .ok m) : ∃ p n, m.Tracks f p n [] := by
  obtain ⟨automata, hbuild, hstart⟩ := exists_build_of_ofFormula h
  obtain ⟨p, n, hwatch⟩ := MonitorAutomata.exists_watch_of_build hbuild
  exact ⟨p, n, tracks_of_start hwatch hstart⟩

/-- A fresh monitor refuses no observation. Its status after any of them is `satisfied` exactly when
the formula holds of every infinite word that goes on from there, `violated` exactly when it holds
of none, and `inconclusive` exactly when it holds of some and not of others. An observation says
that the propositions it does not record are false. -/
theorem status_feed_iff (options : SynthesisOptions) (f : Formula) (m : Monitor)
    (h : Monitor.ofFormula options f = .ok m) (word : List Valuation) :
    (∃ verdicts, (m.feed word).2 = .ok verdicts) ∧
      ((m.feed word).1.status = .satisfied ↔ ∀ w, f.Holds (.prepend word w)) ∧
      ((m.feed word).1.status = .violated ↔ ∀ w, ¬ f.Holds (.prepend word w)) ∧
      ((m.feed word).1.status = .inconclusive ↔
        (∃ w, f.Holds (.prepend word w)) ∧ ∃ w, ¬ f.Holds (.prepend word w)) ∧
      ∀ (o : Observation) (name : String), (∀ value, ¬ (name, value) ∈ o.entries) →
        o.valuation name = false := by
  obtain ⟨p, n, htracks⟩ := exists_tracks_of_ofFormula h
  obtain ⟨verdicts, hverdicts, hfeed⟩ := htracks.feed word
  have hdescribes := hfeed.describes
  rw [List.nil_append] at hdescribes
  refine ⟨⟨verdicts, hverdicts⟩, hdescribes.eq_iff, hdescribes.eq_iff, hdescribes.eq_iff,
    fun o name => Observation.valuation_eq_false⟩

/-- While somebody waits, the formula can still hold and can still fail. -/
theorem status_feed_waitsUntilServed : ∃ m, ofFormula {} .waitsUntilServed = .ok m ∧
    (m.feed [fun name => name == "waits"]).2 = .ok [.inconclusive] ∧
    (m.feed [fun name => name == "waits"]).1.status = .inconclusive ∧
    (∃ w, Formula.waitsUntilServed.Holds (.prepend [fun name => name == "waits"] w)) ∧
    ∃ w, ¬ Formula.waitsUntilServed.Holds (.prepend [fun name => name == "waits"] w) := by
  have hfeed : (ofFormula {} .waitsUntilServed).map (fun m =>
      ((m.feed [fun name => name == "waits"]).2, (m.feed [fun name => name == "waits"]).1.status)) =
        .ok (.ok [.inconclusive], .inconclusive) := by decide +kernel
  obtain ⟨m, hm, hresult⟩ := exists_ok_of_map hfeed
  obtain ⟨hverdicts, hstatus⟩ := Prod.mk.inj hresult
  obtain ⟨-, -, -, hinconclusive, -⟩ :=
    status_feed_iff {} .waitsUntilServed m hm [fun name => name == "waits"]
  exact ⟨m, hm, hverdicts, hstatus, hinconclusive.mp hstatus⟩

end Monitor

end TemporalMonitor
