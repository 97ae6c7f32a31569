import TemporalMonitor.Proofs.Automaton.Acceptance
import TemporalMonitor.Proofs.Guard.Cube
import TemporalMonitor.Proofs.Graph.Reachability
import TemporalMonitor.Proofs.Tableau.Invariants
import TemporalMonitor.Synthesis.Basic

/-!
# The automaton of a formula accepts its models

An accepting run of the automaton of a tableau is a sequence of states, each a successor of the one
before, such that the word meets the literals of every state and every until is settled again and
again. By induction on formulas, what such a state has recorded holds at its instant. Conversely the
states that describe the instants of a word that satisfies the formula follow one another, and they
settle an until as soon as the word does.

## Main definitions

* `Tableau.Trace` — a sequence of states that a word meets
* `Tableau.Fair` — every until is settled again and again

## Main results

* `Tableau.exists_fairRun_iff` — the accepting runs are the fair traces
* `Tableau.holdsAt_of_mem_old`, `Tableau.exists_trace` — what fair traces describe
* `Formula.exists_acceptingRun_iff_holds` — the automaton of a formula accepts its models
-/

namespace TemporalMonitor

namespace Tableau

variable {t : Tableau} {w : OmegaWord} {q : Nat → State}

/-! ### Runs as sequences of states -/

/-- The states follow one another from the initial one, and the word meets their literals. The state
with index `i + 1` describes instant `i`. -/
structure Trace (t : Tableau) (w : OmegaWord) (q : Nat → State) : Prop where
  initial : q 0 = .initial
  mem_states : ∀ i, q (i + 1) ∈ t.states
  follows : ∀ i, (q i).id ∈ (q (i + 1)).incoming
  literals : ∀ i, Cube.holds (w i) (q (i + 1)).literals = true

/-- Every until of the tableau is settled again and again. -/
def Fair (t : Tableau) (q : Nat → State) : Prop :=
  ∀ u ∈ t.root.untils, ∀ i, ∃ j, i ≤ j ∧ (q j).settles u = true

theorem edgesOf_toAutomaton (x : NodeId) : t.toAutomaton.graph.edgesOf x =
    match t.nodes[(x : Nat)]? with
    | some p => edgesFrom t.nodes p
    | none => [] := by
  simp only [toAutomaton, Graph.edgesOf, List.getElem?_toArray, List.getElem?_map]
  cases t.nodes[(x : Nat)]? <;> rfl

theorem mem_edgesFrom {nodes : List State} {p : State} {e : Edge} : e ∈ edgesFrom nodes p ↔
    ∃ r, nodes[(e.target : Nat)]? = some r ∧ p.id ∈ r.incoming ∧ e.guard = .ofCube r.literals := by
  simp only [edgesFrom, List.mem_filterMap, Prod.exists, List.mem_zipIdx_iff_getElem?]
  constructor
  · rintro ⟨r, i, hr, he⟩
    split at he
    · rename_i hmem
      cases he
      exact ⟨r, hr, SortedSet.contains_iff.mp hmem, rfl⟩
    · cases he
  · rintro ⟨r, hr, hmem, hguard⟩
    refine ⟨r, e.target, hr, ?_⟩
    rw [if_pos (SortedSet.contains_iff.mpr hmem), ← hguard]

theorem step_toAutomaton_iff {v : Valuation} {x y : NodeId} :
    t.toAutomaton.graph.Step v x y ↔ ∃ p r, t.nodes[(x : Nat)]? = some p ∧
      t.nodes[(y : Nat)]? = some r ∧ p.id ∈ r.incoming ∧ Cube.holds v r.literals = true := by
  rw [Graph.Step, edgesOf_toAutomaton]
  cases hx : t.nodes[(x : Nat)]? with
  | none => simp
  | some p =>
    simp only [mem_edgesFrom, Option.some.injEq]
    constructor
    · rintro ⟨e, ⟨r, hr, hmem, hguard⟩, rfl, hholds⟩
      rw [hguard, Guard.holds_ofCube] at hholds
      exact ⟨p, r, rfl, hr, hmem, hholds⟩
    · rintro ⟨_, r, rfl, hr, hmem, hholds⟩
      refine ⟨⟨y, .ofCube r.literals⟩, ⟨r, hr, hmem, rfl⟩, rfl, ?_⟩
      rw [Guard.holds_ofCube]
      exact hholds

theorem mem_settlingNodes {nodes : List State} {u : Formula} {x : NodeId} :
    x ∈ settlingNodes nodes u ↔ ∃ p, nodes[(x : Nat)]? = some p ∧ p.settles u = true := by
  simp only [settlingNodes, SortedSet.mem_ofList, List.mem_filterMap, Prod.exists,
    List.mem_zipIdx_iff_getElem?]
  constructor
  · rintro ⟨p, i, hp, hi⟩
    split at hi
    · rename_i hsettles
      cases hi
      exact ⟨p, hp, hsettles⟩
    · cases hi
  · rintro ⟨p, hp, hsettles⟩
    exact ⟨p, x, hp, if_pos hsettles⟩

/-- The states along a run of the automaton. -/
theorem exists_trace_of_isRun {ρ : Nat → NodeId} (h : t.toAutomaton.IsRun w ρ) :
    ∃ q, t.Trace w q ∧ ∀ i, t.nodes[(ρ i : Nat)]? = some (q i) := by
  have hnode : ∀ i, ∃ p, t.nodes[(ρ i : Nat)]? = some p := by
    intro i
    obtain ⟨p, -, hp, -⟩ := step_toAutomaton_iff.mp (h.2 i)
    exact ⟨p, hp⟩
  choose q hq using hnode
  have hstep : ∀ i, (q i).id ∈ (q (i + 1)).incoming ∧
      Cube.holds (w i) (q (i + 1)).literals = true := by
    intro i
    obtain ⟨p, r, hp, hr, hmem, hholds⟩ := step_toAutomaton_iff.mp (h.2 i)
    rw [hq i, Option.some.injEq] at hp
    rw [hq (i + 1), Option.some.injEq] at hr
    rw [hp, hr]
    exact ⟨hmem, hholds⟩
  refine ⟨q, ⟨?_, fun i => ?_, fun i => (hstep i).1, fun i => (hstep i).2⟩, hq⟩
  · have hzero := hq 0
    rw [← Option.some.inj h.1] at hzero
    exact (Option.some.inj hzero).symm
  · -- nothing precedes the initial state
    have hmem : q (i + 1) ∈ t.nodes := List.mem_of_getElem? (hq (i + 1))
    rcases List.mem_cons.mp hmem with heq | hmem
    · have hincoming := (hstep i).1
      rw [heq] at hincoming
      exact absurd hincoming SortedSet.notMem_empty
    · exact hmem

/-- The nodes along a trace. -/
theorem Trace.exists_isRun (h : t.Trace w q) :
    ∃ ρ, t.toAutomaton.IsRun w ρ ∧ ∀ i, t.nodes[(ρ i : Nat)]? = some (q i) := by
  -- a run has to start in node 0, so the choice of nodes is fixed there
  have hnode : ∀ i, ∃ x : NodeId, t.nodes[(x : Nat)]? = some (q i) ∧ (i = 0 → x = 0) := by
    intro i
    cases i with
    | zero => exact ⟨0, by rw [h.initial]; rfl, fun _ => rfl⟩
    | succ i =>
      obtain ⟨x, hx⟩ := List.mem_iff_getElem?.mp (h.mem_states i)
      exact ⟨x + 1, hx, nofun⟩
  choose ρ hρ using hnode
  refine ⟨ρ, ⟨?_, fun i => ?_⟩, fun i => (hρ i).1⟩
  · rw [(hρ 0).2 rfl]
    rfl
  · exact step_toAutomaton_iff.mpr
      ⟨q i, q (i + 1), (hρ i).1, (hρ (i + 1)).1, h.follows i, h.literals i⟩

/-- The accepting runs of the automaton are the fair traces of the tableau. -/
theorem exists_fairRun_iff :
    (∃ ρ, t.toAutomaton.IsRun w ρ ∧
        ∀ set ∈ t.toAutomaton.acceptance.sets, OmegaAutomaton.VisitedForever ρ set) ↔
      ∃ q, t.Trace w q ∧ t.Fair q := by
  have hfair : ∀ (ρ : Nat → NodeId) (q : Nat → State),
      (∀ i, t.nodes[(ρ i : Nat)]? = some (q i)) →
      ((∀ set ∈ t.toAutomaton.acceptance.sets, OmegaAutomaton.VisitedForever ρ set) ↔
        t.Fair q) := by
    intro ρ q hq
    simp only [toAutomaton, List.forall_mem_map, OmegaAutomaton.VisitedForever, Fair,
      mem_settlingNodes, hq, Option.some.injEq, SortedSet.mem_toList]
    simp
  constructor
  · rintro ⟨ρ, hrun, hsets⟩
    obtain ⟨q, htrace, hq⟩ := exists_trace_of_isRun hrun
    exact ⟨q, htrace, (hfair ρ q hq).mp hsets⟩
  · rintro ⟨q, htrace, hq⟩
    obtain ⟨ρ, hrun, hρ⟩ := htrace.exists_isRun
    exact ⟨ρ, hrun, (hfair ρ q hρ).mpr hq⟩

/-! ### What fair traces describe -/

theorem holdsAt_iff_of_toLiteral? {f : Formula} {l : Literal} {i : Nat}
    (h : f.toLiteral? = some l) : f.HoldsAt w i ↔ l.holds (w i) = true := by
  unfold Formula.toLiteral? at h
  split at h <;> cases h <;> simp [Literal.holds_iff, Formula.HoldsAt]

theorem holds_literals_iff {v : Valuation} {p : State} : Cube.holds v p.literals = true ↔
    ∀ f ∈ p.old, ∀ l, f.toLiteral? = some l → l.holds v = true := by
  simp only [Cube.holds_iff, State.literals, SortedSet.mem_ofList, List.mem_filterMap]
  exact ⟨fun h f hf l hl => h l ⟨f, hf, hl⟩, fun h l ⟨f, hf, hl⟩ => h f hf l hl⟩

namespace Trace

variable (ht : t.Faithful) (h : t.Trace w q) {f g : Formula} {i : Nat}

include ht h

theorem root_mem_old : t.root ∈ (q 1).old := by
  refine ht.owed 0 {t.root} (.inl ⟨rfl, rfl⟩) (q 1) (h.mem_states 0) ?_ t.root (by simp)
  have hfollows := h.follows 0
  rw [h.initial] at hfollows
  exact hfollows

/-- What a state has put off is recorded in the next one. -/
theorem mem_old_of_mem_next (hf : f ∈ (q (i + 1)).next) : f ∈ (q (i + 2)).old :=
  ht.owed _ _ (.inr ⟨_, h.mem_states i, rfl, rfl⟩) _ (h.mem_states (i + 1)) (h.follows (i + 1)) f hf

theorem meets (hf : f ∈ (q (i + 1)).old) : (q (i + 1)).toBranch.Meets f :=
  ht.meets _ (h.mem_states i) f hf

/-- On a fair trace the right side of an until is recorded at some instant, and the left side until
then. -/
theorem exists_settled (hfair : t.Fair q) (hf : .until f g ∈ (q (i + 1)).old) :
    ∃ j, i ≤ j ∧ g ∈ (q (j + 1)).old ∧ ∀ k, i ≤ k → k < j → f ∈ (q (k + 1)).old := by
  have huntil : .until f g ∈ t.root.untils := by
    refine SortedSet.mem_filter.mpr ⟨Formula.mem_subformulas.mpr ?_, rfl⟩
    exact ht.isSubformula _ (h.mem_states i) _ hf
  -- the until is settled `n` states later
  obtain ⟨j, hij, hsettles⟩ := hfair _ huntil (i + 1)
  obtain ⟨n, rfl⟩ : ∃ n, j = i + n + 1 := ⟨j - i - 1, by omega⟩
  clear hij
  induction n generalizing i with
  | zero =>
    -- the until is recorded, so settling it means recording its right side
    simp only [State.settles, Bool.or_eq_true, SortedSet.contains_iff, Bool.not_eq_true',
      ← Bool.not_eq_true] at hsettles
    refine ⟨i, Nat.le_refl i, hsettles.resolve_right fun hnot => hnot hf, fun k hik hki => ?_⟩
    omega
  | succ n ih =>
    rcases State.until_cases (h.meets ht hf) with hg | ⟨hleft, hnext⟩
    · exact ⟨i, Nat.le_refl i, hg, fun k hik hki => by omega⟩
    · have hsettles' : (q (i + 1 + n + 1)).settles (.until f g) = true := by
        rw [show i + 1 + n + 1 = i + (n + 1) + 1 by omega]
        exact hsettles
      obtain ⟨j, hij, hg, hfs⟩ := ih (h.mem_old_of_mem_next ht hnext) hsettles'
      refine ⟨j, by omega, hg, fun k hik hkj => ?_⟩
      rcases Nat.eq_or_lt_of_le hik with rfl | hlt
      · exact hleft
      · exact hfs k hlt hkj

/-- A recorded release is put off until its left side is recorded. -/
theorem release_mem_old (hf : .release f g ∈ (q (i + 1)).old) (n : Nat)
    (hleft : ∀ k, i ≤ k → k < i + n → ¬ f ∈ (q (k + 1)).old) :
    .release f g ∈ (q (i + n + 1)).old := by
  induction n with
  | zero => exact hf
  | succ n ih =>
    have hmem := ih fun k hik hkn => hleft k hik (by omega)
    have hnext := (State.release_cases (h.meets ht hmem)).2.resolve_left
      (hleft (i + n) (by omega) (by omega))
    exact h.mem_old_of_mem_next ht hnext

end Trace

/-- On a fair trace, what is recorded holds. -/
theorem Trace.holdsAt_of_mem_old (ht : t.Faithful) (h : t.Trace w q) (hfair : t.Fair q)
    (f : Formula) {i : Nat} (hf : f ∈ (q (i + 1)).old) : f.HoldsAt w i := by
  have hliteral : ∀ {f l i}, f ∈ (q (i + 1)).old → f.toLiteral? = some l → f.HoldsAt w i :=
    fun hf hl => (holdsAt_iff_of_toLiteral? hl).mpr (holds_literals_iff.mp (h.literals _) _ hf _ hl)
  induction f generalizing i with
  | verum => trivial
  | falsum => exact (State.not_meets_falsum (h.meets ht hf)).elim
  | prop name => exact hliteral hf rfl
  | unary op f ih =>
    obtain ⟨r, hrule, -⟩ := h.meets ht hf
    cases op with
    | not =>
      cases f with
      | prop name => exact hliteral hf rfl
      | _ => cases hrule
    | next => exact ih (h.mem_old_of_mem_next ht (State.next_cases (h.meets ht hf)))
    | eventually => cases hrule
    | always => cases hrule
  | binary op f g ihf ihg =>
    obtain ⟨r, hrule, -⟩ := h.meets ht hf
    cases op with
    | and => exact (State.and_cases (h.meets ht hf)).imp ihf ihg
    | or => exact (State.or_cases (h.meets ht hf)).imp ihf ihg
    | «until» =>
      obtain ⟨j, hij, hg, hfs⟩ := h.exists_settled ht hfair hf
      exact ⟨j, hij, ihg hg, fun k hik hkj => ihf (hfs k hik hkj)⟩
    | release =>
      intro j hij
      obtain ⟨n, rfl⟩ := Nat.exists_eq_add_of_le hij
      -- either the release is put off all the way, or its left side has been recorded before
      by_cases hleft : ∀ k, i ≤ k → k < i + n → ¬ f ∈ (q (k + 1)).old
      · have hmem := h.release_mem_old ht hf n hleft
        exact .inl (ihg (State.release_cases (h.meets ht hmem)).1)
      · right
        by_contra hnone
        exact hleft fun k hik hkn hk => hnone ⟨k, hik, hkn, ihf hk⟩
    | _ => cases hrule

/-- The states that describe the instants of a word form a fair trace. -/
theorem exists_trace (ht : t.Faithful) (hroot : t.root.Holds w) : ∃ q, t.Trace w q ∧ t.Fair q := by
  -- what the last state owes holds at the next instant, which is enough to go on
  have hstep : ∀ (i : Nat) (p : State),
      (∃ owed, Owes t.root t.states p.id owed ∧ ∀ f ∈ owed, f.HoldsAt w i) →
      ∃ r, (r ∈ t.states ∧ p.id ∈ r.incoming ∧ r.toBranch.Guided w i) ∧
        ∃ owed, Owes t.root t.states r.id owed ∧ ∀ f ∈ owed, f.HoldsAt w (i + 1) := by
    rintro i p ⟨owed, howes, hholds⟩
    obtain ⟨r, hr, hp, hguided⟩ := ht.exists_guided w p.id owed i howes hholds
    exact ⟨r, ⟨hr, hp, hguided⟩, r.next, .inr ⟨r, hr, rfl, rfl⟩, hguided.later⟩
  have hinitial : ∃ owed, Owes t.root t.states State.initial.id owed ∧
      ∀ f ∈ owed, f.HoldsAt w 0 := by
    refine ⟨{t.root}, .inl ⟨rfl, rfl⟩, fun f hf => ?_⟩
    rw [SortedSet.mem_singleton.mp hf]
    exact hroot
  obtain ⟨q, hzero, -, hq⟩ := exists_seq_of_step (P := fun i (p : State) =>
    ∃ owed, Owes t.root t.states p.id owed ∧ ∀ f ∈ owed, f.HoldsAt w i) hinitial hstep
  refine ⟨q, ⟨hzero, fun i => (hq i).1, fun i => (hq i).2.1, fun i => ?_⟩, fun u hu i => ?_⟩
  · refine holds_literals_iff.mpr fun f hf l hl => ?_
    exact (holdsAt_iff_of_toLiteral? hl).mp ((hq i).2.2.now f (.inl hf))
  · -- an until that is never settled holds at instant `i`, and its right side later on
    by_contra hnever
    obtain ⟨f, g, rfl⟩ : ∃ f g, u = .until f g := by
      have huntil := (SortedSet.mem_filter.mp hu).2
      unfold Formula.isUntil at huntil
      split at huntil
      · exact ⟨_, _, rfl⟩
      · cases huntil
    have hunsettled : ∀ j, i ≤ j → .until f g ∈ (q j).old ∧ ¬ g ∈ (q j).old := by
      intro j hij
      by_contra hsettled
      refine hnever ⟨j, hij, ?_⟩
      simp only [State.settles, Bool.or_eq_true, SortedSet.contains_iff, Bool.not_eq_true',
        ← Bool.not_eq_true]
      grind
    obtain ⟨j, hij, hg, -⟩ := (hq i).2.2.now _ (.inl (hunsettled (i + 1) (by omega)).1)
    obtain ⟨huntil, hnot⟩ := hunsettled (j + 1) (by omega)
    exact hnot (State.requires_toBranch.mp ((hq j).2.2.settled f g huntil hg))

/-- The automaton of a tableau has an accepting run on exactly the words that satisfy the root. -/
theorem Faithful.exists_fairRun_iff_holds (ht : t.Faithful) (w : OmegaWord) :
    (∃ ρ, t.toAutomaton.IsRun w ρ ∧
        ∀ set ∈ t.toAutomaton.acceptance.sets, OmegaAutomaton.VisitedForever ρ set) ↔
      t.root.Holds w := by
  rw [exists_fairRun_iff]
  constructor
  · rintro ⟨q, htrace, hfair⟩
    exact htrace.holdsAt_of_mem_old ht hfair t.root (htrace.root_mem_old ht)
  · exact exists_trace ht

end Tableau

/-! ### Formulas -/

/-- A sequence of computations gives a result only if each of them does. -/
theorem exists_ok_of_bind {ε α β : Type} {x : Except ε α} {g : α → Except ε β} {r : β}
    (h : x >>= g = .ok r) : ∃ a, x = .ok a ∧ g a = .ok r := by
  cases x with
  | error e => cases h
  | ok a => exact ⟨a, rfl, h⟩

theorem exists_ok_of_map {ε α β : Type} {x : Except ε α} {g : α → β} {r : β}
    (h : x.map g = .ok r) : ∃ a, x = .ok a ∧ g a = r := by
  cases x with
  | error e => cases h
  | ok a => exact ⟨a, rfl, Except.ok.inj h⟩

theorem exists_ok_of_isOk {ε α : Type} {x : Except ε α} (h : x.isOk = true) : ∃ a, x = .ok a := by
  cases x with
  | error e => cases h
  | ok a => exact ⟨a, rfl⟩

namespace Formula

theorem exists_faithful_of_tableauAutomaton {f : Formula}
    {a : GeneralizedBuchiAutomaton Tableau.State} (h : f.tableauAutomaton = .ok a) :
    ∃ t : Tableau, t.Faithful ∧ t.root = f ∧ a = t.toAutomaton := by
  unfold tableauAutomaton tableau at h
  cases hbuild : Tableau.build f with
  | error g =>
    rw [hbuild] at h
    cases h
  | ok t =>
    rw [hbuild] at h
    cases h
    obtain ⟨hroot, ht⟩ := Tableau.faithful_of_build hbuild
    exact ⟨t, ht, hroot, rfl⟩

/-- The automaton of a formula is that of a faithful tableau of its normal form. -/
theorem exists_faithful_of_toAutomaton {options : SynthesisOptions} {f : Formula}
    {a : GeneralizedBuchiAutomaton Tableau.State} (h : f.toAutomaton options = .ok a) :
    ∃ t : Tableau, t.Faithful ∧ t.root = f.normalize ∧ a = t.toAutomaton := by
  obtain ⟨-, -, h⟩ := exists_ok_of_bind h
  exact exists_faithful_of_tableauAutomaton h

/-- The automaton of a formula has a run that visits every acceptance set for ever on exactly the
infinite words of which the formula holds. -/
theorem exists_acceptingRun_iff_holds (options : SynthesisOptions) (f : Formula)
    (a : GeneralizedBuchiAutomaton Tableau.State) (h : f.toAutomaton options = .ok a)
    (w : OmegaWord) :
    (∃ ρ, a.IsRun w ρ ∧ ∀ set ∈ a.acceptance.sets, ∀ i, ∃ j, i ≤ j ∧ ρ j ∈ set) ↔
      f.Holds w := by
  obtain ⟨t, ht, hroot, rfl⟩ := exists_faithful_of_toAutomaton h
  rw [← holds_normalize, ← hroot]
  exact ht.exists_fairRun_iff_holds w

/-- Every request is followed by a grant. -/
def response : Formula := .entails (.prop "request") (.eventually (.prop "grant"))

theorem exists_acceptingRun_response_iff : ∃ a, response.toAutomaton {} = .ok a ∧ ∀ w,
    (∃ ρ, a.IsRun w ρ ∧ ∀ set ∈ a.acceptance.sets, ∀ i, ∃ j, i ≤ j ∧ ρ j ∈ set) ↔
      response.Holds w := by
  obtain ⟨a, ha⟩ := exists_ok_of_isOk (x := response.toAutomaton {}) (by decide +kernel)
  exact ⟨a, ha, exists_acceptingRun_iff_holds {} response a ha⟩

end Formula

end TemporalMonitor
