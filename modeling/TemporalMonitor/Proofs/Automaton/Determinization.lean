import Mathlib.Data.Finset.Powerset
import Mathlib.Tactic.Choose
import TemporalMonitor.Proofs.Automaton.PowerSet

/-!
# Determinized automata

The subset construction, with or without merging parallel edges, gives an automaton that is in one
node at a time. After a word this is the node of the set of all nodes that the word leads to in the
original automaton, and there is none if that set is empty. Different nodes stand for different
sets, none of them empty, which bounds their number.

## Main definitions

* `FiniteAutomaton.IsSubsetAutomaton` — the runs, words and nodes of a determinized automaton

## Main results

* `FiniteAutomaton.Determinizes.standsFor_of_mem_run`, `FiniteAutomaton.Determinizes.exists_mem_run`
  — where a word leads
* `FiniteAutomaton.Determinizes.isDeterministic` — the test for determinism is passed
* `FiniteAutomaton.Determinizes.size_le` — the number of nodes
* `FiniteAutomaton.exists_isSubsetAutomaton` — both constructions give such an automaton
-/

namespace TemporalMonitor

theorem Graph.exists_standsFor {κ : Type} {g : Graph κ} {i : NodeId} (h : i < g.size) :
    ∃ k, g.StandsFor i k :=
  ⟨_, _, Array.getElem?_eq_getElem h, rfl⟩

namespace FiniteAutomaton

variable {κ : Type} {a : FiniteAutomaton κ} {d : PowerSetAutomaton} {word : List Valuation}
  {v : Valuation} {i x y start : NodeId}

/-! ### Words -/

theorem mem_run_nil : i ∈ a.run [] ↔ a.graph.initial = some i := by
  simp [run, runFrom]

theorem run_append_singleton (a : FiniteAutomaton κ) (word : List Valuation) (v : Valuation) :
    a.run (word ++ [v]) = a.graph.postSet (Guard.holds v) (a.run word) := by
  rw [run, runFrom, List.foldl_append]
  rfl

theorem mem_run_append_singleton :
    i ∈ a.run (word ++ [v]) ↔ ∃ j ∈ a.run word, a.graph.Step v j i := by
  rw [run_append_singleton, Graph.mem_postSet_holds]

/-! ### Where words lead -/

namespace Determinizes

/-- Wherever a word leads is the node of the set that it leads to. -/
theorem standsFor_of_mem_run (h : a.Determinizes d) (hx : x ∈ d.run word) :
    d.graph.StandsFor x (a.run word) := by
  induction word using List.reverseRecOn generalizing x with
  | nil => exact h.initial x (mem_run_nil.mp hx)
  | append_singleton word v ih =>
    obtain ⟨y, hy, hstep⟩ := mem_run_append_singleton.mp hx
    rw [run_append_singleton]
    exact h.step y x _ v (ih hy) hstep

/-- A word that leads to some node of `a` leads to a node of `d`. -/
theorem exists_mem_run (h : a.Determinizes d) (hstart : d.graph.initial = some start)
    (hi : i ∈ a.run word) : ∃ x, x ∈ d.run word := by
  induction word using List.reverseRecOn generalizing i with
  | nil => exact ⟨start, mem_run_nil.mpr hstart⟩
  | append_singleton word v ih =>
    -- the shorter word leads somewhere too, and from its node there is a step
    obtain ⟨j, hj, -⟩ := mem_run_append_singleton.mp hi
    obtain ⟨x, hx⟩ := ih hj
    rw [run_append_singleton] at hi
    obtain ⟨y, hy⟩ := h.exists_step x _ v i (h.standsFor_of_mem_run hx) hi
    exact ⟨y, mem_run_append_singleton.mpr ⟨x, hx, hy⟩⟩

/-- A word leads to one node at most. -/
theorem run_eq_singleton (h : a.Determinizes d) (hx : x ∈ d.run word) : d.run word = {x} := by
  ext y
  rw [SortedSet.mem_singleton]
  constructor
  · intro hy
    exact h.unique y x _ (h.standsFor_of_mem_run hy) (h.standsFor_of_mem_run hx)
  · rintro rfl
    exact hx

theorem accepts_eq (h : a.Determinizes d) (hstart : d.graph.initial = some start)
    (word : List Valuation) : d.accepts word = a.accepts word := by
  rw [Bool.eq_iff_iff]
  simp only [accepts, SortedSet.any_eq_true, isAccepting, SortedSet.contains_iff]
  constructor
  · rintro ⟨x, hx, hacc⟩
    exact (h.mem_accepting_iff x _ (h.standsFor_of_mem_run hx)).mp hacc
  · rintro ⟨i, hi, hacc⟩
    obtain ⟨x, hx⟩ := h.exists_mem_run hstart hi
    exact ⟨x, hx, (h.mem_accepting_iff x _ (h.standsFor_of_mem_run hx)).mpr ⟨i, hi, hacc⟩⟩

theorem isDeterministic (h : a.Determinizes d) : d.graph.isDeterministic = true := by
  rw [Graph.isDeterministic_iff]
  intro v x y z hy hz
  obtain ⟨members, hx⟩ := Graph.exists_standsFor hy.lt_size
  exact h.unique y z _ (h.step x y _ v hx hy) (h.step x z _ v hx hz)

/-- There are no more nodes than there are sets of nodes that are not empty. -/
theorem size_le (h : a.Determinizes d)
    (hne : ∀ x members, d.graph.StandsFor x members → ∃ i, i ∈ members)
    (hlt : ∀ x members, d.graph.StandsFor x members → ∀ i ∈ members, i < a.graph.size) :
    d.graph.size ≤ 2 ^ a.graph.size - 1 := by
  choose! set hset using fun x (hx : x < d.graph.size) => Graph.exists_standsFor hx
  have hcard : ((Finset.range a.graph.size).powerset.erase ∅).card = 2 ^ a.graph.size - 1 := by
    rw [Finset.card_erase_of_mem (Finset.empty_mem_powerset _), Finset.card_powerset,
      Finset.card_range]
  rw [← hcard, ← Finset.card_range d.graph.size]
  apply Finset.card_le_card_of_injOn fun x => (set x).toFinset
  · intro x hx
    have hx := hset x (Finset.mem_range.mp hx)
    obtain ⟨i, hi⟩ := hne x _ hx
    refine Finset.mem_erase.mpr ⟨?_, Finset.mem_powerset.mpr fun j hj => ?_⟩
    · exact Finset.ne_empty_of_mem (SortedSet.mem_toFinset.mpr hi)
    · exact Finset.mem_range.mpr (hlt x _ hx j (SortedSet.mem_toFinset.mp hj))
  · intro x hx y hy hxy
    have hx := hset x (Finset.mem_range.mp hx)
    have hy := hset y (Finset.mem_range.mp hy)
    rw [← SortedSet.toFinset_injective hxy] at hy
    exact h.unique x y _ hx hy

end Determinizes

/-! ### The two constructions -/

/-- What determinizing `a` is for: after every word, `d` is in the node of the set of nodes that the
word leads to in `a`. -/
structure IsSubsetAutomaton (a : FiniteAutomaton κ) (d : PowerSetAutomaton) : Prop where
  exists_initial : ∃ s, d.graph.initial = some s ∧ s < d.graph.size
  run_of_nonempty : ∀ word, (∃ i, i ∈ a.run word) →
    ∃ s, d.run word = {s} ∧ d.graph.StandsFor s (a.run word)
  run_of_empty : ∀ word, (∀ i, ¬ i ∈ a.run word) → d.run word = ∅
  accepts_eq : ∀ word, d.accepts word = a.accepts word
  isDeterministic : d.graph.isDeterministic = true
  /-- No two nodes stand for the same set. -/
  unique : ∀ x y members, d.graph.StandsFor x members → d.graph.StandsFor y members → x = y
  size_le : a.graph.WellFormed → d.graph.size ≤ 2 ^ a.graph.size - 1

/-- If the nodes of `d` stand for sets that are met from the initial node, `d` is as intended. -/
theorem Determinizes.isSubsetAutomaton (h : a.Determinizes d) (hinitial : d.graph.initial = some 0)
    (hzero : 0 < d.graph.size) (hstart : a.graph.initial = some start)
    (hmet : ∀ x members, d.graph.StandsFor x members →
      Reaches (fun k => (a.powerSetSucc k).map Prod.snd) {start} members) :
    a.IsSubsetAutomaton d where
  exists_initial := ⟨0, hinitial, hzero⟩
  run_of_nonempty word hne := by
    obtain ⟨i, hi⟩ := hne
    obtain ⟨x, hx⟩ := h.exists_mem_run hinitial hi
    exact ⟨x, h.run_eq_singleton hx, h.standsFor_of_mem_run hx⟩
  run_of_empty word hempty := by
    ext x
    refine iff_of_false (fun hx => ?_) SortedSet.notMem_empty
    obtain ⟨i, hi⟩ := exists_mem_of_reaches (hmet x _ (h.standsFor_of_mem_run hx))
    exact hempty i hi
  accepts_eq := h.accepts_eq hinitial
  isDeterministic := h.isDeterministic
  unique := h.unique
  size_le hwf := h.size_le (fun x members hx => exists_mem_of_reaches (hmet x members hx))
    fun x members hx _ hi => lt_size_of_reaches hwf hstart (hmet x members hx) hi

theorem isSubsetAutomaton_powerSet (h : a.powerSet = .ok d) : a.IsSubsetAutomaton d := by
  obtain ⟨start, hstart, hgen⟩ := generated_of_powerSet h
  obtain ⟨n, hn, -⟩ := hgen.standsFor_zero
  exact (determinizes_powerSet h).isSubsetAutomaton hgen.initial
    (Array.getElem?_eq_some_iff.mp hn).1 hstart fun x members hx =>
      (hgen.exists_iff members).mp ⟨x, hx⟩

theorem isSubsetAutomaton_determinize (h : a.determinize = .ok d) : a.IsSubsetAutomaton d := by
  have hdet := determinizes_determinize h
  unfold determinize at h
  split at h
  · rename_i d' hd'
    cases h
    obtain ⟨start, hstart, hgen⟩ := generated_of_powerSet hd'
    -- merging edges keeps the nodes and what they stand for
    obtain ⟨n, hn, -⟩ := standsFor_simplify.mpr hgen.standsFor_zero
    exact hdet.isSubsetAutomaton hgen.initial (Array.getElem?_eq_some_iff.mp hn).1 hstart
      fun x members hx => (hgen.exists_iff members).mp ⟨x, standsFor_simplify.mp hx⟩
  · cases h

theorem exists_powerSet (hstart : a.graph.initial = some start) : ∃ d, a.powerSet = .ok d := by
  simp only [powerSet, hstart]
  exact ⟨_, rfl⟩

/-- An automaton with an initial node, whatever its guards, is determinized by the subset
construction, and still is after parallel edges have been merged. -/
theorem exists_isSubsetAutomaton (a : FiniteAutomaton κ) (start : NodeId)
    (hstart : a.graph.initial = some start) :
    ∃ d d', a.powerSet = .ok d ∧ a.IsSubsetAutomaton d ∧
      a.determinize = .ok d' ∧ a.IsSubsetAutomaton d' := by
  obtain ⟨d, hd⟩ := exists_powerSet hstart
  have hd' : a.determinize = .ok { d with graph := d.graph.simplify } := by
    rw [determinize, hd]
  exact ⟨d, _, hd, isSubsetAutomaton_powerSet hd, hd', isSubsetAutomaton_determinize hd'⟩

/-- Guards at one node that overlap, are repeated, contradict themselves or never hold. -/
def overlapping : FiniteAutomaton Unit where
  graph :=
    { nodes := #[⟨"choice", ∅, (), [⟨1, .cube {⟨"p", true⟩}⟩, ⟨2, .cube {⟨"q", true⟩}⟩,
          ⟨2, .cube {⟨"q", true⟩}⟩, ⟨0, .cube {⟨"p", true⟩, ⟨"p", false⟩}⟩, ⟨0, .never⟩]⟩,
        ⟨"left", ∅, (), [⟨1, .cube {⟨"p", true⟩}⟩]⟩, ⟨"right", ∅, (), [⟨2, .always⟩]⟩]
      initial := some 0 }
  accepting := {2}

theorem run_subsetAutomaton_overlapping :
    overlapping.graph.initial = some 0 ∧ overlapping.graph.WellFormed ∧
      ∃ d d', overlapping.powerSet = .ok d ∧ overlapping.determinize = .ok d' ∧
        (∃ s, d.run [fun _ => true] = {s} ∧ d.graph.StandsFor s {1, 2}) ∧
        (∃ s, d'.run [fun _ => true] = {s} ∧ d'.graph.StandsFor s {1, 2}) ∧
        d.run [fun _ => false] = ∅ ∧ d'.run [fun _ => false] = ∅ ∧
        d.graph.size ≤ 7 ∧ d'.graph.size ≤ 7 := by
  have hwf : overlapping.graph.WellFormed := by
    refine ⟨fun id e he => ?_, by decide +kernel⟩
    have hid : id < 3 := Graph.lt_size_of_mem_edgesOf he
    have hedges : ∀ id < 3, ∀ e ∈ overlapping.graph.edgesOf id, e.target < 3 := by decide +kernel
    exact hedges id hid e he
  have hboth : overlapping.run [fun _ => true] = {1, 2} := by decide +kernel
  have hnone : overlapping.run [fun _ => false] = ∅ := by decide +kernel
  obtain ⟨d, d', hd, h, hd', h'⟩ := exists_isSubsetAutomaton overlapping 0 rfl
  have hsome : ∃ i, i ∈ overlapping.run [fun _ => true] := ⟨1, by decide +kernel⟩
  have hempty : ∀ i, ¬ i ∈ overlapping.run [fun _ => false] := by
    intro i
    rw [hnone]
    exact SortedSet.notMem_empty
  refine ⟨rfl, hwf, d, d', hd, hd', ?_, ?_, h.run_of_empty _ hempty, h'.run_of_empty _ hempty,
    h.size_le hwf, h'.size_le hwf⟩
  · rw [← hboth]
    exact h.run_of_nonempty _ hsome
  · rw [← hboth]
    exact h'.run_of_nonempty _ hsome

end FiniteAutomaton

end TemporalMonitor
