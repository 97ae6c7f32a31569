import Mathlib.Data.List.Pairwise
import TemporalMonitor.Proofs.Graph.Components

/-!
# Components of a closed graph

In a graph whose edges lead to nodes of the graph the search never meets anything else, so what it
finds can be said in terms of reachability alone: its components partition the nodes that the roots
reach, two nodes are together exactly when each reaches the other, and edges lead to the same
component or to an earlier one.

A search opens an unseen node at every level of its recursion. The recursion is therefore no deeper
than there are nodes, and a larger bound on its depth makes no difference.

## Main definitions

* `IsCondensation` — a list of the components reached from some roots, sinks first

## Main results

* `IsCondensation.mem_iff` — the component of a node
* `isCondensation_components` — what the search finds
* `Components.visit_eq_of_le`, `Components.foldl_visitRoot_eq_of_le` — the bound on the depth is
  never met
* `isNontrivial_components_iff` — the components with a cycle
* `components_end_in_condensation` — the search as a whole
-/

namespace TemporalMonitor

/-- The strongly connected components of the nodes that some root reaches, each listed after the
ones that it leads to. -/
structure IsCondensation (succ : Nat → List Nat) (roots : List Nat) (cs : List (List Nat)) : Prop
    where
  ne_nil : ∀ c ∈ cs, c ≠ []
  /-- No node occurs twice, be it in one component or in two. -/
  nodup : cs.flatten.Nodup
  mem_flatten_iff : ∀ v, v ∈ cs.flatten ↔ ∃ r ∈ roots, Reaches succ r v
  together_iff : ∀ v ∈ cs.flatten, ∀ w ∈ cs.flatten,
    (∃ c ∈ cs, v ∈ c ∧ w ∈ c) ↔ Reaches succ v w ∧ Reaches succ w v
  sinks_first : ∀ (i j : Nat) (c d : List Nat), cs[i]? = some c → cs[j]? = some d →
    ∀ v ∈ c, ∀ w ∈ d, w ∈ succ v → j ≤ i

variable {n : Nat} {succ : Nat → List Nat} {roots : List Nat} {v w : Nat}

/-- The component of a node consists of what it reaches and is reached from. -/
theorem IsCondensation.mem_iff {cs : List (List Nat)} (h : IsCondensation succ roots cs)
    {c : List Nat} (hc : c ∈ cs) (hv : v ∈ c) :
    w ∈ c ↔ Reaches succ v w ∧ Reaches succ w v := by
  have hvcs : v ∈ cs.flatten := List.mem_flatten.mpr ⟨c, hc, hv⟩
  constructor
  · intro hw
    exact (h.together_iff v hvcs w (List.mem_flatten.mpr ⟨c, hc, hw⟩)).mp ⟨c, hc, hv, hw⟩
  · intro hreach
    obtain ⟨r, hr, hrv⟩ := (h.mem_flatten_iff v).mp hvcs
    have hwcs : w ∈ cs.flatten := (h.mem_flatten_iff w).mpr ⟨r, hr, hrv.trans hreach.1⟩
    obtain ⟨d, hd, hvd, hwd⟩ := (h.together_iff v hvcs w hwcs).mpr hreach
    -- the two components have `v` in common
    have hsymm : Std.Symm (@List.Disjoint Nat) := ⟨fun _ _ hcd => hcd.symm⟩
    by_cases hcd : c = d
    · exact hcd ▸ hwd
    · exact absurd hvd ((List.nodup_flatten.mp h.nodup).2.forall hc hd hcd hv)

/-! ### Closed graphs -/

theorem reaches_inBounds_iff (hsucc : ∀ v < n, ∀ w ∈ succ v, w < n) (hv : v < n) :
    Reaches (inBounds n succ) v w ↔ Reaches succ v w := by
  constructor
  · exact Reaches.of_inBounds
  · intro h
    -- the node that a path has come to is one of the graph
    have hreach : w < n ∧ Reaches (inBounds n succ) v w := by
      induction h with
      | refl => exact ⟨hv, .refl⟩
      | @tail b c _ hedge ih =>
        have hc := hsucc b ih.1 c hedge
        exact ⟨hc, ih.2.tail (mem_inBounds.mpr ⟨ih.1, hedge, hc⟩)⟩
    exact hreach.2

theorem onCycle_inBounds_iff (hsucc : ∀ v < n, ∀ w ∈ succ v, w < n) (hv : v < n) :
    OnCycle (inBounds n succ) v ↔ OnCycle succ v := by
  refine exists_congr fun b => ?_
  constructor
  · rintro ⟨hvb, hbv⟩
    exact ⟨(mem_inBounds.mp hvb).2.1, hbv.of_inBounds⟩
  · rintro ⟨hvb, hbv⟩
    have hb := hsucc v hv b hvb
    exact ⟨mem_inBounds.mpr ⟨hv, hvb, hb⟩, (reaches_inBounds_iff hsucc hb).mpr hbv⟩

theorem mem_flatten_components_iff (hsucc : ∀ v < n, ∀ w ∈ succ v, w < n)
    (hroots : ∀ r ∈ roots, r < n) :
    v ∈ (components n succ roots).flatten ↔ ∃ r ∈ roots, Reaches succ r v := by
  rw [List.mem_flatten, exists_mem_components_iff]
  refine exists_congr fun r => and_congr_right fun hr => ?_
  rw [reaches_inBounds_iff hsucc (hroots r hr), and_iff_right (hroots r hr)]

/-- What the search finds in a closed graph. -/
theorem isCondensation_components (hsucc : ∀ v < n, ∀ w ∈ succ v, w < n)
    (hroots : ∀ r ∈ roots, r < n) : IsCondensation succ roots (components n succ roots) := by
  have hlisted : Components.Listed n succ (components n succ roots).reverse := listed_components
  have hlt : ∀ c ∈ components n succ roots, ∀ v ∈ c, v < n :=
    fun c hc => hlisted.lt c (List.mem_reverse.mpr hc)
  have hmem : ∀ c ∈ components n succ roots, ∀ v ∈ c, ∀ w,
      w ∈ c ↔ Reaches (inBounds n succ) v w ∧ Reaches (inBounds n succ) w v :=
    fun c hc => hlisted.mem_iff c (List.mem_reverse.mpr hc)
  constructor
  case ne_nil => exact fun c hc => hlisted.ne_nil c (List.mem_reverse.mpr hc)
  case nodup => exact (List.reverse_perm _).flatten.nodup_iff.mp hlisted.nodup
  case mem_flatten_iff => exact fun v => mem_flatten_components_iff hsucc hroots
  case together_iff =>
    intro v hv w hw
    constructor
    · rintro ⟨c, hc, hvc, hwc⟩
      obtain ⟨hvw, hwv⟩ := (hmem c hc v hvc w).mp hwc
      exact ⟨hvw.of_inBounds, hwv.of_inBounds⟩
    · rintro ⟨hvw, hwv⟩
      obtain ⟨c, hc, hvc⟩ := List.mem_flatten.mp hv
      obtain ⟨d, hd, hwd⟩ := List.mem_flatten.mp hw
      refine ⟨c, hc, hvc, (hmem c hc v hvc w).mpr ⟨?_, ?_⟩⟩
      · exact (reaches_inBounds_iff hsucc (hlt c hc v hvc)).mpr hvw
      · exact (reaches_inBounds_iff hsucc (hlt d hd w hwd)).mpr hwv
  case sinks_first =>
    intro i j c d hi hj v hv w hw hvw
    obtain ⟨hi', rfl⟩ := List.getElem?_eq_some_iff.mp hi
    obtain ⟨hj', rfl⟩ := List.getElem?_eq_some_iff.mp hj
    have horder := List.pairwise_iff_getElem.mp (List.pairwise_reverse.mp hlisted.order)
    have hedge : w ∈ inBounds n succ v :=
      mem_inBounds.mpr ⟨hlt _ (List.getElem_mem hi') v hv, hvw, hlt _ (List.getElem_mem hj') w hw⟩
    by_contra hij
    exact horder i j hi' hj' (Nat.lt_of_not_le hij) v hv w hw hedge

/-- The nodes of a component with a cycle lie on cycles. -/
theorem isNontrivial_components_iff (hsucc : ∀ v < n, ∀ w ∈ succ v, w < n) {c : List Nat}
    (hc : c ∈ components n succ roots) (hv : v ∈ c) :
    isNontrivial succ c = true ↔ OnCycle succ v := by
  have hlisted : Components.Listed n succ (components n succ roots).reverse := listed_components
  have hc' := List.mem_reverse.mpr hc
  rw [hlisted.isNontrivial_iff hc' hv, onCycle_inBounds_iff hsucc (hlisted.lt c hc' v hv)]

/-! ### The bound on the depth -/

namespace Components

variable {trail : List Nat} {s : Search} {fuel fuel' : Nat}

/-- A search that has fuel for the unseen nodes does not change with more fuel. -/
theorem visit_eq_of_le (hs : Entered n succ trail v s) (hfuel : (s.unseen n).card ≤ fuel)
    (hle : fuel ≤ fuel') : visit succ fuel' v s = visit succ fuel v s := by
  induction fuel generalizing trail v s fuel' with
  | zero =>
    have hpos := hs.card_unseen_pos
    omega
  | succ fuel ih =>
    obtain ⟨fuel', rfl⟩ : ∃ k, fuel' = k + 1 := ⟨fuel' - 1, by omega⟩
    -- both loops pass through the same states, and at an unseen node the induction applies
    have hfold : (succ v).foldl (follow succ fuel') (s.opened, s.openNode v) =
        (succ v).foldl (follow succ fuel) (s.opened, s.openNode v) := by
      refine foldl_eq_of_invariant (I := fun ws (r : Nat × Search) =>
        Scanned n succ trail v s ws r.1 r.2) hs.scanned_nil fun ws w rest r hsucc h => ?_
      have hw : w ∈ succ v := by simp [hsucc]
      have hunseen := h.card_unseen_le hs hfuel
      refine ⟨h.follow hs hw fun hentered => finished_visit n succ fuel hentered hunseen, ?_⟩
      unfold follow
      cases hmark : r.2.mark w with
      | unseen =>
        have hvisit := ih (h.entered hs hmark hw) hunseen (Nat.le_of_succ_le_succ hle)
        simp only [hvisit]
      | active i => rfl
      | done => rfl
    rw [visit_succ, visit_succ, hfold]

/-- A search that may follow `n` edges in a row gains nothing if it may follow more. -/
theorem foldl_visitRoot_eq_of_le (hle : n ≤ fuel) :
    roots.foldl (visitRoot succ fuel) (.start n) = roots.foldl (visitRoot succ n) (.start n) := by
  refine foldl_eq_of_invariant (I := fun seen (s : Search) => s.AtRest n succ seen)
    (atRest_foldl_visitRoot n succ []) fun seen v rest s _ h => ⟨h.visitRoot v, ?_⟩
  unfold visitRoot
  cases hv : s.mark v with
  | unseen =>
    have hvisit := visit_eq_of_le ⟨h.sound, hv, nofun⟩ (s.card_unseen_le n) hle
    simp only [hvisit]
  | active i => rfl
  | done => rfl

end Components

/-! ### The search as a whole -/

/-- In a graph whose edges lead to its nodes, the search from roots in the graph lists the strongly
connected components of the nodes that they reach, sinks first. The search ends by itself: following
more than `n` edges in a row is never called for. -/
theorem components_end_in_condensation (n : Nat) (succ : Nat → List Nat) (roots : List Nat)
    (hsucc : ∀ v < n, ∀ w ∈ succ v, w < n) (hroots : ∀ r ∈ roots, r < n) :
    IsCondensation succ roots (components n succ roots) ∧
      ∀ depth, n ≤ depth →
        (roots.foldl (Components.visitRoot succ depth) (.start n)).found.reverse =
          components n succ roots := by
  refine ⟨isCondensation_components hsucc hroots, fun depth hdepth => ?_⟩
  rw [Components.foldl_visitRoot_eq_of_le hdepth]
  rfl

/-- A cycle with two ways into another cycle, a node that leads to both and to itself, and a node
that nothing leads to. -/
def linkedCycles : Nat → List Nat
  | 0 => [1]
  | 1 => [2, 4]
  | 2 => [0, 3]
  | 3 => [4]
  | 4 => [3]
  | 5 => [4, 0, 5]
  | 6 => [5]
  | _ => []

theorem isCondensation_linkedCycles :
    (∀ v < 7, ∀ w ∈ linkedCycles v, w < 7) ∧ (∀ r ∈ [2, 5, 2], r < 7) ∧
      IsCondensation linkedCycles [2, 5, 2] [[3, 4], [1, 0, 2], [5]] := by
  have hsucc : ∀ v < 7, ∀ w ∈ linkedCycles v, w < 7 := by decide
  have hroots : ∀ r ∈ [2, 5, 2], r < 7 := by decide
  have hfound : components 7 linkedCycles [2, 5, 2] = [[3, 4], [1, 0, 2], [5]] := by decide +kernel
  exact ⟨hsucc, hroots, hfound ▸ (components_end_in_condensation 7 _ _ hsucc hroots).1⟩

end TemporalMonitor
