import TemporalMonitor.Proofs.Monitor.Construction

/-!
# Monitors of negations

The automata of a formula depend on its normal form only. The normal form of a negation is what the
formula is negated to, and negating a negation gives the normal form of the formula back, so the
automata of `¬ f` are those of `f` with the sides exchanged.

The rule for verdicts is not symmetric: where both pointers are stuck, the property counts as
violated. It is symmetric wherever a monitor can get, because a verdict is right about the
continuations of the observations, and at most one verdict is.

## Main definitions

* `Status.opposite` — the verdict on the negation
* `MonitorAutomata.exchange` — the automata with the sides exchanged

## Main results

* `MonitorAutomata.build_not_eq_ok_iff` — the automata of a negation
* `Monitor.Tracks.stepAll_not` — the verdicts on a negation
* `Monitor.build_not_mirrored` — both together
-/

namespace TemporalMonitor

/-! ### Automata -/

/-- Synthesis looks at the normal form only. -/
theorem Formula.synthesize_congr {f g : Formula} (options : SynthesisOptions)
    (h : f.normalize = g.normalize) : f.synthesize options = g.synthesize options := by
  rw [synthesize, synthesize, toAutomaton, toAutomaton, h]

namespace MonitorAutomata

variable {options : SynthesisOptions} {f : Formula} {automata : MonitorAutomata}

/-- The automata with the sides exchanged. -/
def exchange (automata : MonitorAutomata) : MonitorAutomata where
  positive := automata.negative
  negative := automata.positive
  positiveStart := automata.negativeStart
  negativeStart := automata.positiveStart
  positive_initial := automata.negative_initial
  negative_initial := automata.positive_initial

theorem build_not_eq_ok_iff :
    build options (.not f) = .ok automata ↔ build options f = .ok automata.exchange := by
  have hpositive : (Formula.not f).synthesize options = f.negate.synthesize options := by
    apply Formula.synthesize_congr
    rw [Formula.normalize, Formula.normalize_negate]
  have hnegative : (Formula.not f).negate.synthesize options = f.synthesize options := by
    apply Formula.synthesize_congr
    rw [Formula.negate, Formula.normalize_normalize]
  rw [build_eq_ok_iff, build_eq_ok_iff, hpositive, hnegative]
  exact and_comm

/-- Building fails for a negation exactly if it fails for the formula. -/
theorem exists_build_not_eq_error_iff :
    (∃ e, build options (.not f) = .error e) ↔ ∃ e, build options f = .error e := by
  have hfails : ∀ g, (∃ e, build options g = .error e) ↔
      ¬ ∃ automata, build options g = .ok automata := by
    intro g
    cases build options g with
    | error e => simp
    | ok automata => simp
  rw [hfails, hfails, not_iff_not]
  constructor
  · rintro ⟨automata, h⟩
    exact ⟨_, build_not_eq_ok_iff.mp h⟩
  · rintro ⟨automata, h⟩
    exact ⟨automata.exchange, build_not_eq_ok_iff.mpr h⟩

end MonitorAutomata

/-! ### Verdicts -/

namespace Status

/-- The verdict on the negation. -/
def opposite : Status → Status
  | .satisfied => .violated
  | .violated => .satisfied
  | .inconclusive => .inconclusive

theorem Describes.opposite {s : Status} {f : Formula} {word : List Valuation}
    (h : s.Describes f word) : s.opposite.Describes (.not f) word := by
  cases s with
  | satisfied => exact fun w hnot => hnot (h w)
  | violated => exact h
  | inconclusive =>
    obtain ⟨⟨w, hw⟩, hfails⟩ := h
    exact ⟨hfails, w, fun hnot => hnot hw⟩

end Status

namespace Monitor

variable {f : Formula} {word : List Valuation} {m m' : Monitor}
  {p n p' n' : FiniteAutomaton CountedNode}

/-- The verdicts on a formula and on its negation are opposite. -/
theorem Tracks.status_not (h : m.Tracks f p n word) (h' : m'.Tracks (.not f) p' n' word) :
    m'.status = m.status.opposite :=
  h'.describes.unique h.describes.opposite

/-- Given the same observations, monitors of a formula and of its negation answer with opposite
verdicts. -/
theorem Tracks.stepAll_not (h : m.Tracks f p n word) (h' : m'.Tracks (.not f) p' n' word)
    (vs : List Valuation) : ∃ verdicts : List Status, (m.stepAll vs).2 = verdicts.map .ok ∧
      (m'.stepAll vs).2 = (verdicts.map Status.opposite).map .ok := by
  induction vs generalizing m m' word with
  | nil => exact ⟨[], rfl, rfl⟩
  | cons v vs ih =>
    obtain ⟨s, hs, hstep⟩ := h.step v
    obtain ⟨s', hs', hstep'⟩ := h'.step v
    have hstatus : (m.step v).1.status = s := (hs ▸ m.takes_step v).status_eq
    have hstatus' : (m'.step v).1.status = s' := (hs' ▸ m'.takes_step v).status_eq
    -- both verdicts are right about the longer word, whatever they were before
    have hopposite : s' = s.opposite := by
      rw [← hstatus, ← hstatus']
      exact hstep.status_not hstep'
    obtain ⟨verdicts, hrest, hrest'⟩ := ih hstep hstep'
    refine ⟨s :: verdicts, ?_, ?_⟩
    · simp [stepAll, hs, hrest]
    · simp [stepAll, hs', hopposite, hrest']

/-- The automata of a negation cannot be built exactly if those of the formula cannot. Otherwise
they are the automata of the formula with the sides exchanged. Monitors on both give opposite
verdicts before the first observation and after each one. -/
theorem build_not_mirrored (options : SynthesisOptions) (f : Formula) :
    ((∃ e, MonitorAutomata.build options (.not f) = .error e) ↔
      ∃ e, MonitorAutomata.build options f = .error e) ∧
    ∀ automata automata', MonitorAutomata.build options f = .ok automata →
      MonitorAutomata.build options (.not f) = .ok automata' →
      automata'.positive = automata.negative ∧ automata'.negative = automata.positive ∧
      ∃ m m', start automata = .ok m ∧ start automata' = .ok m' ∧
        m'.status = m.status.opposite ∧
        ∀ word, ∃ verdicts : List Status, (m.stepAll word).2 = verdicts.map .ok ∧
          (m'.stepAll word).2 = (verdicts.map Status.opposite).map .ok := by
  refine ⟨MonitorAutomata.exists_build_not_eq_error_iff, ?_⟩
  intro automata automata' hbuild hbuild'
  have hexchange : automata = automata'.exchange := by
    have hbuild'' := MonitorAutomata.build_not_eq_ok_iff.mp hbuild'
    exact Except.ok.inj (hbuild.symm.trans hbuild'')
  obtain ⟨p, n, hwatch⟩ := MonitorAutomata.exists_watch_of_build hbuild
  obtain ⟨p', n', hwatch'⟩ := MonitorAutomata.exists_watch_of_build hbuild'
  obtain ⟨m, hm⟩ := exists_start hwatch
  obtain ⟨m', hm'⟩ := exists_start hwatch'
  have htracks := tracks_of_start hwatch hm
  have htracks' := tracks_of_start hwatch' hm'
  refine ⟨?_, ?_, m, m', hm, hm', htracks.status_not htracks', htracks.stepAll_not htracks'⟩
  · rw [hexchange]
    rfl
  · rw [hexchange]
    rfl

/-- Somebody waits and is then served. -/
def waitsThenServed : List Valuation :=
  [fun name => name == "waits", fun name => name == "served"]

/-- The verdicts on the formula are computed, and those on its negation follow from them. -/
theorem build_not_waitsUntilServed : ∃ automata automata',
    MonitorAutomata.build {} .waitsUntilServed = .ok automata ∧
    MonitorAutomata.build {} (.not .waitsUntilServed) = .ok automata' ∧
    automata'.positive = automata.negative ∧ automata'.negative = automata.positive ∧
    ∃ m m', start automata = .ok m ∧ start automata' = .ok m' ∧
      m.status = .inconclusive ∧ m'.status = .inconclusive ∧
      (m.stepAll waitsThenServed).2 = [.ok .inconclusive, .ok .satisfied] ∧
      (m'.stepAll waitsThenServed).2 = [.ok .inconclusive, .ok .violated] := by
  have hrun : (MonitorAutomata.build {} .waitsUntilServed).map (fun automata =>
      (start automata).map fun m => (m.status, (m.stepAll waitsThenServed).2)) =
        .ok (.ok (.inconclusive, [.ok .inconclusive, .ok .satisfied])) := by decide +kernel
  obtain ⟨automata, h, hstart⟩ := exists_ok_of_map hrun
  obtain ⟨m₀, hm₀, hresult⟩ := exists_ok_of_map hstart
  obtain ⟨automata', h'⟩ :=
    exists_ok_of_isOk (x := MonitorAutomata.build {} (.not .waitsUntilServed)) (by decide +kernel)
  obtain ⟨hpositive, hnegative, m, m', hm, hm', hopposite, hverdicts⟩ :=
    (build_not_mirrored {} .waitsUntilServed).2 automata automata' h h'
  obtain rfl : m₀ = m := Except.ok.inj (hm₀.symm.trans hm)
  obtain ⟨hstatus, hanswers⟩ := Prod.mk.inj hresult
  obtain ⟨verdicts, hformula, hnegation⟩ := hverdicts waitsThenServed
  -- the verdicts on the formula are known, so those on the negation are
  obtain rfl : verdicts = [.inconclusive, .satisfied] := by
    apply List.map_injective_iff.mpr fun s s' => Except.ok.inj
    exact hformula.symm.trans hanswers
  rw [hstatus] at hopposite
  exact ⟨automata, automata', h, h', hpositive, hnegative, m₀, m', hm, hm', hstatus, hopposite,
    hanswers, hnegation⟩

end Monitor

end TemporalMonitor
