import TemporalMonitor.Proofs.Automaton.Acceptance
import TemporalMonitor.Proofs.Graph.Condensation

/-!
# Membership of lassos

The runs of an automaton on the word of a lasso are the infinite paths through the product of its
graph with the positions of the lasso. Such a path ends up inside one component of the product, and
in a component with a cycle some path meets every node for ever. A condition that is not spoilt by
meeting more nodes is therefore met by some run exactly when it is met by all the nodes of some
component that has a cycle.

## Main definitions

* `Lasso.position` — the position that the word of a lasso has come to
* `OmegaAutomaton.lassoState` — the number of a node at a position

## Main results

* `OmegaAutomaton.isRun_of_path`, `OmegaAutomaton.path_of_isRun` — runs are paths of the product
* `OmegaAutomaton.accepts_of_component`, `OmegaAutomaton.exists_component_of_accepts` — acceptance
  is a matter of components
* `OmegaAutomaton.acceptsLasso_iff_accepts` — the test for membership is exact
-/

namespace TemporalMonitor

/-! ### Positions -/

namespace Lasso

variable {l : Lasso} {i pos : Nat}

/-- The position of the lasso at an instant of its word. -/
def position (l : Lasso) (i : Nat) : Nat :=
  if i < l.stem.length then i else l.stem.length + (i - l.stem.length) % l.loop.length

/-- The word reads the letters of its positions. -/
theorem word_eq (l : Lasso) (i : Nat) : l.word i = l.letter (l.position i) := by
  unfold word position
  split <;> rfl

theorem position_zero (l : Lasso) : l.position 0 = 0 := by
  unfold position
  split
  · rfl
  · rw [Nat.zero_sub, Nat.zero_mod]
    omega

theorem stem_length_lt (hloop : l.loop ≠ []) : l.stem.length < l.length :=
  Nat.lt_add_of_pos_right (List.length_pos_iff.mpr hloop)

theorem advance_lt (hloop : l.loop ≠ []) : l.advance pos < l.length := by
  unfold advance
  split
  · assumption
  · exact stem_length_lt hloop

/-- The position moves on as the test for membership has it. -/
theorem position_succ (hloop : l.loop ≠ []) : l.position (i + 1) = l.advance (l.position i) := by
  by_cases hi : i < l.stem.length
  · -- inside the stem, or at the step from its end to the start of the loop
    have hlt : i + 1 < l.length := Nat.lt_of_le_of_lt hi (stem_length_lt hloop)
    rw [position, position, if_pos hi, advance, if_pos hlt]
    split
    · rfl
    · rw [show i + 1 - l.stem.length = 0 by omega, Nat.zero_mod]
      omega
  · -- inside the loop, where the last position is followed by the first one
    obtain ⟨k, rfl⟩ := Nat.exists_eq_add_of_le (Nat.le_of_not_lt hi)
    have hk := Nat.mod_lt k (List.length_pos_iff.mpr hloop)
    have hsucc : (k + 1) % l.loop.length = (k % l.loop.length + 1) % l.loop.length :=
      (Nat.mod_add_mod k l.loop.length 1).symm
    rw [position, position, if_neg (by omega), if_neg hi, Nat.add_assoc, Nat.add_sub_cancel_left,
      Nat.add_sub_cancel_left, hsucc, advance, length]
    split
    · rw [Nat.mod_eq_of_lt (by omega), Nat.add_assoc]
    · rw [show k % l.loop.length + 1 = l.loop.length by omega, Nat.mod_self, Nat.add_zero]

theorem position_lt (hloop : l.loop ≠ []) : l.position i < l.length := by
  cases i with
  | zero =>
    rw [position_zero]
    exact Nat.zero_lt_of_lt (stem_length_lt hloop)
  | succ i =>
    rw [position_succ hloop]
    exact advance_lt hloop

end Lasso

namespace OmegaAutomaton

variable {κ C : Type} {a : OmegaAutomaton κ C} {l : Lasso} {x y pos : Nat} {id start : NodeId}

/-! ### The product of graph and positions -/

/-- The number of a node at a position of the lasso. -/
def lassoState (a : OmegaAutomaton κ C) (pos : Nat) (id : NodeId) : Nat := pos * a.graph.size + id

theorem lassoState_mod (hid : id < a.graph.size) : a.lassoState pos id % a.graph.size = id := by
  rw [lassoState, Nat.mul_add_mod_self_right, Nat.mod_eq_of_lt hid]

theorem lassoState_div (hid : id < a.graph.size) : a.lassoState pos id / a.graph.size = pos := by
  rw [lassoState, Nat.add_comm, Nat.add_mul_div_right _ _ (Nat.zero_lt_of_lt hid),
    Nat.div_eq_of_lt hid, Nat.zero_add]

theorem lassoState_lt (hpos : pos < l.length) (hid : id < a.graph.size) :
    a.lassoState pos id < a.graph.size * l.length := by
  calc a.lassoState pos id
    _ < pos * a.graph.size + a.graph.size := Nat.add_lt_add_left hid _
    _ = (pos + 1) * a.graph.size := (Nat.succ_mul _ _).symm
    _ ≤ l.length * a.graph.size := Nat.mul_le_mul_right _ hpos
    _ = a.graph.size * l.length := Nat.mul_comm _ _

theorem mem_lassoSucc : y ∈ a.lassoSucc l x ↔
    ∃ j, a.graph.Step (l.letter (x / a.graph.size)) (x % a.graph.size) j ∧
      a.lassoState (l.advance (x / a.graph.size)) j = y := by
  simp only [lassoSucc, List.mem_map, SortedSet.mem_toList, Graph.mem_post_holds, lassoState]

/-- Edges of the product lead to nodes of the product. -/
theorem lt_of_mem_lassoSucc (hwf : a.graph.WellFormed) (hloop : l.loop ≠ [])
    (h : y ∈ a.lassoSucc l x) : y < a.graph.size * l.length := by
  obtain ⟨j, ⟨e, he, rfl, -⟩, rfl⟩ := mem_lassoSucc.mp h
  exact lassoState_lt (Lasso.advance_lt hloop) (hwf.1 _ e he)

/-! ### Runs as paths -/

variable {ρ σ : Nat → Nat}

/-- A run together with the positions of the word is a path of the product. -/
theorem path_of_isRun (hloop : l.loop ≠ []) (h : a.IsRun l.word ρ) (i : Nat) :
    a.lassoState (l.position (i + 1)) (ρ (i + 1)) ∈
      a.lassoSucc l (a.lassoState (l.position i) (ρ i)) := by
  have hi := h.lt_size i
  have hstep := h.2 i
  rw [Lasso.word_eq] at hstep
  rw [mem_lassoSucc, lassoState_div hi, lassoState_mod hi, Lasso.position_succ hloop]
  exact ⟨ρ (i + 1), hstep, rfl⟩

/-- A path of the product moves from position to position as the word does. -/
theorem div_eq_position_of_path (hwf : a.graph.WellFormed) (hloop : l.loop ≠ [])
    (hstart : σ 0 < a.graph.size) (hpath : ∀ i, σ (i + 1) ∈ a.lassoSucc l (σ i)) (i : Nat) :
    σ i / a.graph.size = l.position i := by
  induction i with
  | zero => rw [Nat.div_eq_of_lt hstart, Lasso.position_zero]
  | succ i ih =>
    obtain ⟨j, ⟨e, he, rfl, -⟩, hσ⟩ := mem_lassoSucc.mp (hpath i)
    rw [← hσ, lassoState_div (hwf.1 _ e he), ih, Lasso.position_succ hloop]

/-- The nodes along a path of the product are a run. -/
theorem isRun_of_path (hwf : a.graph.WellFormed) (hloop : l.loop ≠ [])
    (hinitial : a.graph.initial = some (σ 0)) (hpath : ∀ i, σ (i + 1) ∈ a.lassoSucc l (σ i)) :
    a.IsRun l.word fun i => σ i % a.graph.size := by
  have hstart : σ 0 < a.graph.size := hwf.2 (σ 0) hinitial
  constructor
  · dsimp only
    rw [hinitial, Nat.mod_eq_of_lt hstart]
  · intro i
    obtain ⟨j, hstep, hσ⟩ := mem_lassoSucc.mp (hpath i)
    have hj : σ (i + 1) % a.graph.size = j := by
      obtain ⟨e, he, rfl, -⟩ := hstep
      rw [← hσ, lassoState_mod (hwf.1 _ e he)]
    dsimp only
    rw [hj, Lasso.word_eq, ← div_eq_position_of_path hwf hloop hstart hpath i]
    exact hstep

/-! ### Acceptance by components -/

/-- What an infinite path among finitely many nodes meets for ever lies in one component, which has
a cycle. -/
theorem exists_component_of_path {n : Nat} {succ : Nat → List Nat} {roots : List Nat}
    {cs : List (List Nat)} (hcond : IsCondensation succ roots cs)
    (hpath : ∀ i, σ (i + 1) ∈ succ (σ i)) (hroot : σ 0 ∈ roots) (hlt : ∀ i, σ i < n) :
    ∃ c ∈ cs, (∃ m ∈ c, OnCycle succ m) ∧ ∀ x, MetForever σ x → x ∈ c := by
  -- there are finitely many nodes, so one of them is met for ever, and its component is the one
  obtain ⟨m, -, hm⟩ : ∃ m, True ∧ MetForever σ m :=
    exists_metForever fun i => ⟨i, Nat.le_refl i, hlt i, trivial⟩
  have hreached : m ∈ cs.flatten :=
    (hcond.mem_flatten_iff m).mpr ⟨σ 0, hroot, reaches_of_met_forever hpath hm 0⟩
  obtain ⟨c, hc, hmc⟩ := List.mem_flatten.mp hreached
  have hreach : ∀ x y, MetForever σ x → MetForever σ y → Reaches succ x y := by
    intro x y hx hy
    obtain ⟨i, -, rfl⟩ := hx 0
    exact reaches_of_met_forever hpath hy i
  refine ⟨c, hc, ⟨m, hmc, onCycle_of_met_forever hpath hm⟩, fun x hx => ?_⟩
  exact (hcond.mem_iff hc hmc).mpr ⟨hreach m x hm hx, hreach x m hx hm⟩

/-- The components of the product that the start of the word leads to. -/
def lassoComponents (a : OmegaAutomaton κ C) (l : Lasso) (start : NodeId) : List (List Nat) :=
  components (a.graph.size * l.length) (a.lassoSucc l) [start]

theorem isCondensation_lassoComponents (hwf : a.graph.WellFormed) (hloop : l.loop ≠ [])
    (hstart : start < a.graph.size) :
    IsCondensation (a.lassoSucc l) [start] (a.lassoComponents l start) := by
  refine isCondensation_components (fun _ _ _ hy => lt_of_mem_lassoSucc hwf hloop hy) ?_
  intro r hr
  have hpos : 0 < l.length := Nat.zero_lt_of_lt (Lasso.stem_length_lt hloop)
  rw [List.mem_singleton.mp hr]
  exact Nat.lt_of_lt_of_le hstart (Nat.le_mul_of_pos_right _ hpos)

theorem isNontrivial_lassoComponents_iff (hwf : a.graph.WellFormed) (hloop : l.loop ≠ [])
    {c : List Nat} (hc : c ∈ a.lassoComponents l start) (hx : x ∈ c) :
    isNontrivial (a.lassoSucc l) c = true ↔ OnCycle (a.lassoSucc l) x :=
  isNontrivial_components_iff (fun _ _ _ hy => lt_of_mem_lassoSucc hwf hloop hy) hc hx

variable [Acceptance C NodeId]

theorem acceptsLasso_iff_exists_component (hinitial : a.graph.initial = some start)
    (hloop : l.loop ≠ []) : a.acceptsLasso l = true ↔ ∃ c ∈ a.lassoComponents l start,
      isNontrivial (a.lassoSucc l) c = true ∧
        Acceptance.accepts a.acceptance (.ofList (c.map (· % a.graph.size))) = true := by
  simp only [acceptsLasso, hinitial, lassoComponents, Bool.and_eq_true, List.any_eq_true,
    Bool.not_eq_true', List.isEmpty_eq_false_iff, ne_eq, hloop, not_false_eq_true, true_and]

variable [MonotoneAcceptance C]

/-- In a component with a cycle, some run meets all nodes for ever. -/
theorem accepts_of_component (hwf : a.graph.WellFormed) (hloop : l.loop ≠ [])
    (hinitial : a.graph.initial = some start) {c : List Nat} (hc : c ∈ a.lassoComponents l start)
    (hcycle : isNontrivial (a.lassoSucc l) c = true)
    (haccepts : Acceptance.accepts a.acceptance (.ofList (c.map (· % a.graph.size))) = true) :
    a.Accepts l.word := by
  have hcond := isCondensation_lassoComponents hwf hloop (hwf.2 start hinitial)
  have hreached : ∀ x ∈ c, Reaches (a.lassoSucc l) start x := by
    intro x hx
    simpa using (hcond.mem_flatten_iff x).mp (List.mem_flatten.mpr ⟨c, hc, hx⟩)
  obtain ⟨σ, rfl, hpath, hmet⟩ := exists_path_meeting_all (hcond.ne_nil c hc) hreached
    (fun x hx y hy => ((hcond.mem_iff hc hx).mp hy).1)
    fun x hx => (isNontrivial_lassoComponents_iff hwf hloop hc hx).mp hcycle
  have hrun := isRun_of_path hwf hloop hinitial hpath
  obtain ⟨s, hs⟩ := hrun.exists_limit
  refine ⟨_, hrun, s, hs, MonotoneAcceptance.accepts_mono (fun id hid => ?_) haccepts⟩
  -- what the path meets for ever, the run meets for ever
  obtain ⟨x, hx, rfl⟩ := List.mem_map.mp (SortedSet.mem_ofList.mp hid)
  rw [hs]
  intro i
  obtain ⟨j, hij, rfl⟩ := hmet x hx i
  exact ⟨j, hij, rfl⟩

/-- What a run meets for ever lies in one component, which has a cycle. -/
theorem exists_component_of_accepts (hwf : a.graph.WellFormed) (hloop : l.loop ≠ [])
    (hinitial : a.graph.initial = some start) (h : a.Accepts l.word) :
    ∃ c ∈ a.lassoComponents l start, isNontrivial (a.lassoSucc l) c = true ∧
      Acceptance.accepts a.acceptance (.ofList (c.map (· % a.graph.size))) = true := by
  obtain ⟨ρ, hrun, s, hs, haccepts⟩ := h
  let σ : Nat → Nat := fun i => a.lassoState (l.position i) (ρ i)
  have hpath : ∀ i, σ (i + 1) ∈ a.lassoSucc l (σ i) := path_of_isRun hloop hrun
  have hlt : ∀ i, σ i < a.graph.size * l.length :=
    fun i => lassoState_lt (Lasso.position_lt hloop) (hrun.lt_size i)
  have hnode : ∀ i, σ i % a.graph.size = ρ i := fun i => lassoState_mod (hrun.lt_size i)
  have hstart : σ 0 = start := by
    have hzero : ρ 0 = start := Option.some.inj (hrun.1.symm.trans hinitial)
    simp only [σ, Lasso.position_zero, lassoState, Nat.zero_mul, Nat.zero_add, hzero]
  have hcond := isCondensation_lassoComponents hwf hloop (hwf.2 start hinitial)
  obtain ⟨c, hc, ⟨m, hm, hcycle⟩, hmet⟩ :=
    exists_component_of_path hcond hpath (List.mem_singleton.mpr hstart) hlt
  refine ⟨c, hc, (isNontrivial_lassoComponents_iff hwf hloop hc hm).mpr hcycle,
    MonotoneAcceptance.accepts_mono (fun id hid => ?_) haccepts⟩
  -- a node that is met for ever is so at one position in particular
  obtain ⟨x, rfl, hx⟩ : ∃ x, x % a.graph.size = id ∧ MetForever σ x := by
    refine exists_metForever (n := a.graph.size * l.length) fun i => ?_
    obtain ⟨j, hij, hj⟩ := (hs id).mp hid i
    exact ⟨j, hij, hlt j, (hnode j).trans hj⟩
  exact SortedSet.mem_ofList.mpr (List.mem_map.mpr ⟨x, hmet x hx, rfl⟩)

/-- For a condition that meeting more nodes cannot spoil, such as a Büchi or a generalized Büchi
condition, the test accepts a lasso exactly when some run on its word is accepted. -/
theorem acceptsLasso_iff_accepts (a : OmegaAutomaton κ C) (hwf : a.graph.WellFormed) (l : Lasso)
    (hloop : l.loop ≠ []) : a.acceptsLasso l = true ↔ a.Accepts l.word := by
  cases hinitial : a.graph.initial with
  | none =>
    -- neither the test nor any run can start
    simp [acceptsLasso, Accepts, IsRun, hinitial]
  | some start =>
    rw [acceptsLasso_iff_exists_component hinitial hloop]
    constructor
    · rintro ⟨c, hc, hcycle, haccepts⟩
      exact accepts_of_component hwf hloop hinitial hc hcycle haccepts
    · exact exists_component_of_accepts hwf hloop hinitial

/-- Two nodes between which `p` and its negation lead back and forth. The edge from the first node
to itself is never taken, the one from the second only where `q` holds. -/
def backAndForth : Graph Unit where
  nodes := #[⟨"low", ∅, (), [⟨0, .never⟩, ⟨1, .cube {⟨"p", true⟩}⟩]⟩,
    ⟨"high", ∅, (), [⟨0, .cube {⟨"p", false⟩}⟩, ⟨1, .cube {⟨"q", true⟩}⟩]⟩]
  initial := some 0

theorem accepts_backAndForth :
    backAndForth.WellFormed ∧
      (OmegaAutomaton.mk backAndForth (⟨[{0}, {1}]⟩ : GeneralizedBuchi NodeId)).Accepts
        (Lasso.word ⟨[fun _ => true], [fun _ => true, fun _ => false, fun _ => true]⟩) ∧
      ¬ (OmegaAutomaton.mk backAndForth (⟨{0}⟩ : Buchi NodeId)).Accepts
        (Lasso.word ⟨[fun _ => true], [fun _ => true]⟩) := by
  have hwf : backAndForth.WellFormed := by
    refine ⟨fun id e he => ?_, by decide⟩
    have hid : id < 2 := Graph.lt_size_of_mem_edgesOf he
    have hedges : ∀ id < 2, ∀ e ∈ backAndForth.edgesOf id, e.target < backAndForth.size := by
      decide +kernel
    exact hedges id hid e he
  refine ⟨hwf, ?_, ?_⟩
  · rw [← acceptsLasso_iff_accepts _ hwf _ (by simp)]
    decide +kernel
  · rw [← acceptsLasso_iff_accepts _ hwf _ (by simp)]
    decide +kernel

end OmegaAutomaton

end TemporalMonitor
