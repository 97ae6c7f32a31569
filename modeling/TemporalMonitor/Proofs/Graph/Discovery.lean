import Mathlib.Data.List.Perm.Subperm
import TemporalMonitor.Graph.Discovery
import TemporalMonitor.Proofs.Graph.Reachability
import TemporalMonitor.Proofs.Graph.Unfolding

/-!
# Discovery draws exactly what is reachable

The table of numbers, the pending values and the graph of a discovery go together: every value that
has a number has the node of that number, which has no edges as long as the value is pending, and
one edge for each successor, in order, once it has been looked at. Everything met is reachable.
Looking at a value uses up one unit of fuel and every value is looked at once, so with as much fuel
as there are reachable values nothing stays pending.

## Main definitions

* `Graph.StandsFor` — what a node stands for
* `Graph.Generated` — a graph with one node for every reachable value
* `Discovery.Drawn` — the nodes and edges drawn so far
* `Discovery.Explored` — the invariant

## Main results

* `Discovery.Drawn.link` — drawing one edge
* `Discovery.Explored.look` — looking at one value
* `Graph.generated_generate` — the graph by discovery has one node for every reachable value, with
  the edges of that value in order
-/

namespace TemporalMonitor

/-! ### Numberings -/

namespace Numbering

variable {κ : Type} [Ord κ] {n : Numbering κ} {j k : κ} {i : Nat}

theorem mem_values_iff : k ∈ n.values ↔ ∃ i : Nat, n.values[i]? = some k := by
  rw [Array.mem_iff_getElem?]

theorem number?_eq_none_iff : n.number? k = none ↔ ¬ k ∈ n.values := by
  rw [mem_values_iff, not_exists, Option.eq_none_iff_forall_ne_some]
  exact forall_congr' fun i => not_congr number?_eq_some_iff

theorem number_unique {i' : Nat} (hi : n.values[i]? = some k) (hi' : n.values[i']? = some k) :
    i = i' := by
  rw [← number?_eq_some_iff] at hi hi'
  exact Option.some_inj.mp (hi.symm.trans hi')

theorem nodup_values (n : Numbering κ) : n.values.toList.Nodup := by
  rw [List.nodup_iff_getElem?_ne_getElem?]
  intro i i' hlt hi' heq
  rw [Array.getElem?_toList, Array.getElem?_toList] at heq
  have hget : n.values[i']? = some (n.values.toList.get ⟨i', hi'⟩) := by simp
  have hsame : i = i' := number_unique (heq.trans hget) hget
  omega

variable [Std.LawfulEqOrd κ] [Std.TransOrd κ]

theorem values_add_of_notMem (h : ¬ k ∈ n.values) : (n.add k).values = n.values.push k := by
  rw [add, dif_pos (number?_eq_none_iff.mpr h)]

end Numbering

/-! ### What the nodes of a graph stand for -/

namespace Graph

/-- The node stands for the value. -/
def StandsFor {κ : Type} (g : Graph κ) (i : NodeId) (k : κ) : Prop :=
  ∃ n, g.nodes[i]? = some n ∧ n.origin = k

/-- A node stands for one value. -/
theorem standsFor_unique {κ : Type} {g : Graph κ} {i : NodeId} {k k' : κ} (h : g.StandsFor i k)
    (h' : g.StandsFor i k') : k = k' := by
  obtain ⟨n, hn, rfl⟩ := h
  obtain ⟨n', hn', rfl⟩ := h'
  rw [Option.some_inj.mp (hn.symm.trans hn')]

/-- The graph has one node for every value that is reachable from `start` along `succ`, with the
edges of that value in order. -/
structure Generated {κ : Type} (succ : κ → List (Guard × κ)) (start : κ) (g : Graph κ) : Prop where
  initial : g.initial = some 0
  standsFor_zero : g.StandsFor 0 start
  unique : ∀ i j k, g.StandsFor i k → g.StandsFor j k → i = j
  exists_iff : ∀ k, (∃ i, g.StandsFor i k) ↔ Reaches (fun k => (succ k).map Prod.snd) start k
  edges : ∀ i k, g.StandsFor i k →
    List.Forall₂ (fun e s => e.guard = s.1 ∧ g.StandsFor e.target s.2) (g.edgesOf i) (succ k)

theorem exists_mem_of_forall₂ {α β : Type} {R : α → β → Prop} {xs : List α} {ys : List β}
    (h : List.Forall₂ R xs ys) {x : α} (hx : x ∈ xs) : ∃ y ∈ ys, R x y := by
  induction h with
  | nil => simp at hx
  | cons hxy _ ih =>
    rcases List.mem_cons.mp hx with rfl | hx
    · exact ⟨_, List.mem_cons_self, hxy⟩
    · obtain ⟨y, hy, hR⟩ := ih hx
      exact ⟨y, List.mem_cons_of_mem _ hy, hR⟩

/-- Every guard of the graph is that of a successor of some value. -/
theorem Generated.exists_guard_eq {κ : Type} {succ : κ → List (Guard × κ)} {start : κ}
    {g : Graph κ} (h : Generated succ start g) {i : NodeId} {e : Edge} (he : e ∈ g.edgesOf i) :
    ∃ k, ∃ s ∈ succ k, e.guard = s.1 := by
  obtain ⟨n, hn⟩ : ∃ n, g.nodes[(i : Nat)]? = some n :=
    ⟨_, Array.getElem?_eq_getElem (lt_size_of_mem_edgesOf he)⟩
  obtain ⟨s, hs, hguard, -⟩ := exists_mem_of_forall₂ (h.edges i n.origin ⟨n, hn, rfl⟩) he
  exact ⟨n.origin, s, hs, hguard⟩

/-- A step from the node of a value leads to the node of a successor whose guard is met. -/
theorem Generated.step_iff {κ : Type} {succ : κ → List (Guard × κ)} {start k : κ} {g : Graph κ}
    (h : Generated succ start g) {i j : NodeId} {v : Valuation} (hi : g.StandsFor i k) :
    g.Step v i j ↔ ∃ s ∈ succ k, s.1.holds v = true ∧ g.StandsFor j s.2 := by
  have hedges := h.edges i k hi
  constructor
  · rintro ⟨e, he, rfl, hv⟩
    obtain ⟨s, hs, hguard, htarget⟩ := exists_mem_of_forall₂ hedges he
    exact ⟨s, hs, hguard ▸ hv, htarget⟩
  · rintro ⟨s, hs, hv, hj⟩
    obtain ⟨e, he, hguard, htarget⟩ := exists_mem_of_forall₂ hedges.flip hs
    exact ⟨e, he, h.unique _ _ _ htarget hj, hguard ▸ hv⟩

/-! ### Adding nodes and edges -/

section Adding

variable {κ : Type} {g : Graph κ} {n : Node κ} {i j : NodeId} {e : Edge} {k : κ}

theorem standsFor_addNode_iff :
    (g.addNode n).StandsFor i k ↔ g.StandsFor i k ∨ i = g.size ∧ n.origin = k := by
  simp only [StandsFor, addNode, size, Array.getElem?_push]
  grind

theorem edgesOf_addNode (hn : n.edges = []) : (g.addNode n).edgesOf i = g.edgesOf i := by
  by_cases hi : i = g.nodes.size
  · simp [edgesOf, addNode, hi, hn]
  · simp [edgesOf, addNode, Array.getElem?_push, hi]

theorem standsFor_addEdge_iff : (g.addEdge j e).StandsFor i k ↔ g.StandsFor i k := by
  simp only [StandsFor, addEdge, Array.getElem?_modify]
  split <;> simp

theorem edgesOf_addEdge_self (hi : i < g.size) :
    (g.addEdge i e).edgesOf i = g.edgesOf i ++ [e] := by
  simp [edgesOf, addEdge, Array.getElem?_modify, Array.getElem?_eq_getElem hi]

theorem edgesOf_addEdge_of_ne (h : i ≠ j) : (g.addEdge j e).edgesOf i = g.edgesOf i := by
  simp [edgesOf, addEdge, Array.getElem?_modify, Ne.symm h]

theorem StandsFor.lt_size (h : g.StandsFor i k) : i < g.size := by
  obtain ⟨n, hn, -⟩ := h
  exact (Array.getElem?_eq_some_iff.mp hn).1

end Adding

end Graph

namespace Discovery

open TemporalMonitor.Graph

variable {κ : Type} [Ord κ] [Std.LawfulEqOrd κ] [Std.TransOrd κ]
variable {describe : κ → String × Cube} {succ : κ → List (Guard × κ)} {start k : κ}
variable {d d' d'' : Discovery κ} {ks ks' new new' : List κ} {source : NodeId}

/-! ### Meeting values -/

theorem meet_of_getElem? {i : NodeId} (h : d.found.values[i]? = some k) :
    d.meet describe k = (i, d) := by
  rw [meet, Numbering.number?_eq_some_iff.mpr h]

theorem meet_of_notMem (h : ¬ k ∈ d.found.values) :
    d.meet describe k = (d.graph.size, ⟨d.found.add k, k :: d.pending,
      d.graph.addNode ⟨(describe k).1, (describe k).2, k, []⟩⟩) := by
  rw [meet, Numbering.number?_eq_none_iff.mpr h]

theorem meet_empty (describe : κ → String × Cube) (start : κ) :
    (empty.meet describe start).1 = 0 ∧ (empty.meet describe start).2.pending = [start] ∧
      (empty.meet describe start).2.found.values = #[start] := by
  have hnone : ¬ start ∈ (empty : Discovery κ).found.values := by simp [empty, Numbering.empty]
  rw [meet_of_notMem hnone]
  exact ⟨rfl, rfl, Numbering.values_add_of_notMem hnone⟩

/-- What meeting the values `ks` does: those of them that are `new` are numbered after the others,
and come to be looked at before the others, the last one first. -/
structure Extends (d d' : Discovery κ) (ks new : List κ) : Prop where
  values : d'.found.values.toList = d.found.values.toList ++ new
  pending : d'.pending = new.reverse ++ d.pending
  mem_new_iff : ∀ k, k ∈ new ↔ k ∈ ks ∧ ¬ k ∈ d.found.values

omit [Std.LawfulEqOrd κ] [Std.TransOrd κ] in
theorem Extends.mem_found_iff (h : Extends d d' ks new) :
    k ∈ d'.found.values ↔ k ∈ d.found.values ∨ k ∈ ks := by
  rw [← Array.mem_toList_iff, h.values, List.mem_append, h.mem_new_iff, Array.mem_toList_iff]
  tauto

omit [Std.LawfulEqOrd κ] [Std.TransOrd κ] in
theorem Extends.mem_pending_iff (h : Extends d d' ks new) :
    k ∈ d'.pending ↔ k ∈ new ∨ k ∈ d.pending := by
  rw [h.pending, List.mem_append, List.mem_reverse]

omit [Std.LawfulEqOrd κ] [Std.TransOrd κ] in
/-- Numbers stay as they are. -/
theorem Extends.getElem? (h : Extends d d' ks new) {i : Nat} (hi : d.found.values[i]? = some k) :
    d'.found.values[i]? = some k := by
  rw [← Array.getElem?_toList] at hi ⊢
  rw [h.values, List.getElem?_append_left (List.getElem?_eq_some_iff.mp hi).1]
  exact hi

omit [Std.LawfulEqOrd κ] [Std.TransOrd κ] in
/-- No value becomes pending twice. -/
theorem Extends.nodup_pending (h : Extends d d' ks new) (hnodup : d.pending.Nodup)
    (hfound : ∀ k ∈ d.pending, k ∈ d.found.values) : d'.pending.Nodup := by
  have hvalues := d'.found.nodup_values
  rw [h.values] at hvalues
  rw [h.pending]
  have hnew := List.nodup_reverse.mpr (List.nodup_append.mp hvalues).2.1
  refine List.nodup_append.mpr ⟨hnew, hnodup, ?_⟩
  rintro k hk _ hk' rfl
  exact ((h.mem_new_iff k).mp (List.mem_reverse.mp hk)).2 (hfound k hk')

omit [Std.LawfulEqOrd κ] [Std.TransOrd κ] in
theorem Extends.trans (h : Extends d d' ks new) (h' : Extends d' d'' ks' new') :
    Extends d d'' (ks ++ ks') (new ++ new') where
  values := by rw [h'.values, h.values, List.append_assoc]
  pending := by rw [h'.pending, h.pending, List.reverse_append, List.append_assoc]
  mem_new_iff k := by
    rw [List.mem_append, List.mem_append, h.mem_new_iff, h'.mem_new_iff, h.mem_found_iff]
    tauto

theorem exists_extends_meet (describe : κ → String × Cube) (d : Discovery κ) (k : κ) :
    ∃ new, Extends d (d.meet describe k).2 [k] new := by
  by_cases hk : k ∈ d.found.values
  · obtain ⟨i, hi⟩ := Numbering.mem_values_iff.mp hk
    rw [meet_of_getElem? hi]
    exact ⟨[], by simp, rfl, by simp; grind⟩
  · rw [meet_of_notMem hk]
    exact ⟨[k], by simp [Numbering.values_add_of_notMem hk], rfl, by simp; grind⟩

/-- Drawing edges meets their targets. -/
theorem exists_extends_foldl (describe : κ → String × Cube) (source : NodeId)
    (ss : List (Guard × κ)) (d : Discovery κ) :
    ∃ new, Extends d (ss.foldl (link describe source) d) (ss.map Prod.snd) new := by
  induction ss generalizing d with
  | nil => exact ⟨[], by simp, rfl, by simp⟩
  | cons s ss ih =>
    obtain ⟨new, hnew⟩ := exists_extends_meet describe d s.2
    have hlink : Extends d (link describe source d s) [s.2] new :=
      ⟨hnew.values, hnew.pending, hnew.mem_new_iff⟩
    obtain ⟨rest, hrest⟩ := ih (link describe source d s)
    exact ⟨new ++ rest, hlink.trans hrest⟩

theorem look_of_getElem? {i : NodeId} (h : d.found.values[i]? = some k) :
    d.look describe succ k = (succ k).foldl (link describe i) d := by
  rw [look, meet_of_getElem? h]

/-! ### The graph drawn so far -/

/-- Every value met has the node of its number, and the edges drawn so far of the value `k` are
`done k`. -/
structure Drawn (done : κ → List (Guard × κ)) (d : Discovery κ) : Prop where
  standsFor_iff : ∀ i k, d.graph.StandsFor i k ↔ d.found.values[i]? = some k
  edges : ∀ i k, d.graph.StandsFor i k → List.Forall₂
    (fun e s => e.guard = s.1 ∧ d.graph.StandsFor e.target s.2) (d.graph.edgesOf i) (done k)
  fresh : ∀ k, ¬ k ∈ d.found.values → done k = []

variable {done : κ → List (Guard × κ)}

omit [Std.LawfulEqOrd κ] [Std.TransOrd κ] in
theorem Drawn.size_eq (h : Drawn done d) : d.graph.size = d.found.values.size := by
  have hlt : ∀ i, i < d.graph.size ↔ i < d.found.values.size := by
    intro i
    constructor
    · intro hi
      have hi := (h.standsFor_iff i _).mp ⟨_, Array.getElem?_eq_getElem hi, rfl⟩
      exact (Array.getElem?_eq_some_iff.mp hi).1
    · intro hi
      exact ((h.standsFor_iff i _).mpr (Array.getElem?_eq_getElem hi)).lt_size
  exact eq_of_forall_lt_iff hlt

/-- Meeting a value draws at most a node without edges, and gives the node of the value. -/
theorem Drawn.meet (h : Drawn done d) (describe : κ → String × Cube) (k : κ) :
    Drawn done (d.meet describe k).2 ∧
      (d.meet describe k).2.graph.StandsFor (d.meet describe k).1 k := by
  by_cases hk : k ∈ d.found.values
  · obtain ⟨i, hi⟩ := Numbering.mem_values_iff.mp hk
    rw [meet_of_getElem? hi]
    exact ⟨h, (h.standsFor_iff i k).mpr hi⟩
  · rw [meet_of_notMem hk]
    have hvalues := Numbering.values_add_of_notMem hk
    refine ⟨⟨fun i j => ?_, fun i j hij => ?_, fun j hj => ?_⟩, ?_⟩
    · rw [standsFor_addNode_iff, h.standsFor_iff, hvalues, Array.getElem?_push, h.size_eq]
      grind
    · rw [edgesOf_addNode rfl]
      rcases standsFor_addNode_iff.mp hij with hold | ⟨rfl, rfl⟩
      · refine (h.edges i j hold).imp fun e s hes => ⟨hes.1, ?_⟩
        exact standsFor_addNode_iff.mpr (.inl hes.2)
      · -- the new node comes after all nodes that have edges
        have hnil : d.graph.edgesOf d.graph.size = [] := by simp [edgesOf, Graph.size]
        rw [hnil, h.fresh _ hk]
        exact .nil
    · refine h.fresh j fun hold => hj ?_
      rw [hvalues]
      exact Array.mem_push.mpr (.inl hold)
    · exact standsFor_addNode_iff.mpr (.inr ⟨rfl, rfl⟩)

open Classical in
/-- Drawing an edge of the value `k` adds it to the edges of `k` and leaves all others alone. -/
theorem Drawn.link (h : Drawn done d) (describe : κ → String × Cube)
    (hk : d.graph.StandsFor source k) (s : Guard × κ) :
    Drawn (Function.update done k (done k ++ [s])) (link describe source d s) ∧
      (link describe source d s).graph.StandsFor source k := by
  obtain ⟨hmet, htarget⟩ := h.meet describe s.2
  have hsource : (d.meet describe s.2).2.graph.StandsFor source k := by
    obtain ⟨new, hext⟩ := exists_extends_meet describe d s.2
    rw [hmet.standsFor_iff]
    exact hext.getElem? ((h.standsFor_iff _ _).mp hk)
  have hstands : ∀ i j, (Discovery.link describe source d s).graph.StandsFor i j ↔
      (d.meet describe s.2).2.graph.StandsFor i j := fun i j => standsFor_addEdge_iff
  refine ⟨⟨fun i j => ?_, fun i j hij => ?_, fun j hj => ?_⟩, (hstands _ _).mpr hsource⟩
  · rw [hstands]
    exact hmet.standsFor_iff i j
  · rw [hstands] at hij
    simp only [hstands]
    by_cases hi : i = source
    · obtain rfl : j = k := standsFor_unique hij (hi ▸ hsource)
      subst hi
      rw [Function.update_self]
      exact (edgesOf_addEdge_self hsource.lt_size).symm ▸
        List.rel_append (hmet.edges i j hij) (.cons ⟨rfl, htarget⟩ .nil)
    · -- no other node stands for `k`, so none of the other edges is recorded under it
      have hne : j ≠ k := by
        rintro rfl
        rw [hmet.standsFor_iff] at hij hsource
        exact hi (Numbering.number_unique hij hsource)
      rw [Function.update_of_ne hne]
      exact (edgesOf_addEdge_of_ne hi).symm ▸ hmet.edges i j hij
  · have hne : j ≠ k := by
      rintro rfl
      exact hj (Numbering.mem_values_iff.mpr ⟨source, (hmet.standsFor_iff _ _).mp hsource⟩)
    rw [Function.update_of_ne hne]
    exact hmet.fresh j hj

open Classical in
theorem Drawn.foldl (h : Drawn done d) (describe : κ → String × Cube)
    (hk : d.graph.StandsFor source k) (ss : List (Guard × κ)) :
    Drawn (Function.update done k (done k ++ ss))
      (ss.foldl (Discovery.link describe source) d) := by
  induction ss generalizing done d with
  | nil => simpa using h
  | cons s ss ih =>
    obtain ⟨hlink, hsource⟩ := h.link describe hk s
    have hrest := ih hlink hsource
    rwa [Function.update_self, Function.update_idem, List.append_assoc, List.singleton_append]
      at hrest

/-! ### The invariant -/

/-- Everything met is reachable. Of the values met, those that are pending have no edges yet, and
the others have all their edges. -/
structure Explored (succ : κ → List (Guard × κ)) (start : κ) (done : κ → List (Guard × κ))
    (d : Discovery κ) : Prop where
  first : d.found.values[0]? = some start
  reaches : ∀ k ∈ d.found.values, Reaches (fun k => (succ k).map Prod.snd) start k
  pending : ∀ k ∈ d.pending, k ∈ d.found.values
  nodup : d.pending.Nodup
  drawn : Drawn done d
  waiting : ∀ k ∈ d.pending, done k = []
  looked : ∀ k ∈ d.found.values, ¬ k ∈ d.pending → done k = succ k

theorem explored_start (describe : κ → String × Cube) (succ : κ → List (Guard × κ)) (start : κ) :
    Explored succ start (fun _ => []) (empty.meet describe start).2 := by
  obtain ⟨-, hpending, hvalues⟩ := meet_empty describe start
  have hempty : Drawn (fun _ => []) (empty : Discovery κ) := by
    refine ⟨fun i k => ?_, fun i k hik => ?_, fun _ _ => rfl⟩
    · simp [StandsFor, empty, Graph.empty, Numbering.empty]
    · obtain ⟨n, hn, -⟩ := hik
      simp [empty, Graph.empty] at hn
  refine ⟨by simp [hvalues], ?_, by simp [hvalues, hpending], by simp [hpending],
    (hempty.meet describe start).1, fun _ _ => rfl, by simp [hvalues, hpending]⟩
  simp only [hvalues, List.mem_toArray, List.mem_singleton]
  rintro k rfl
  exact .refl

open Classical in
/-- Looking at the next pending value draws all its edges, and those of no other value. -/
theorem Explored.look (h : Explored succ start done d) (hd : d.pending = k :: ks) :
    Explored succ start (Function.update done k (succ k))
      (look describe succ { d with pending := ks } k) := by
  have hk : k ∈ d.found.values := h.pending k (hd ▸ List.mem_cons_self)
  obtain ⟨i, hi⟩ := Numbering.mem_values_iff.mp hk
  rw [look_of_getElem? (d := { d with pending := ks }) hi]
  obtain ⟨hkks, hnodup⟩ := List.nodup_cons.mp (hd ▸ h.nodup)
  have hks : ∀ j ∈ ks, j ∈ d.pending := fun j hj => hd ▸ List.mem_cons_of_mem _ hj
  have hpopped : Drawn done { d with pending := ks } := ⟨h.drawn.1, h.drawn.2, h.drawn.3⟩
  have hdrawn := hpopped.foldl describe ((h.drawn.standsFor_iff i k).mpr hi) (succ k)
  rw [h.waiting k (hd ▸ List.mem_cons_self), List.nil_append] at hdrawn
  obtain ⟨new, hext⟩ := exists_extends_foldl describe i (succ k) { d with pending := ks }
  have hnew : ∀ j ∈ new, ¬ j ∈ d.found.values := fun j hj => ((hext.mem_new_iff j).mp hj).2
  refine ⟨hext.getElem? h.first, fun j hj => ?_, fun j hj => ?_,
    hext.nodup_pending hnodup fun j hj => h.pending j (hks j hj), hdrawn, fun j hj => ?_,
    fun j hj hnot => ?_⟩
  · -- only successors of `k` have been met in addition
    rcases hext.mem_found_iff.mp hj with hj | hj
    · exact h.reaches j hj
    · exact .tail (h.reaches k hk) hj
  · rcases hext.mem_pending_iff.mp hj with hj | hj
    · exact hext.mem_found_iff.mpr (.inr ((hext.mem_new_iff j).mp hj).1)
    · exact hext.mem_found_iff.mpr (.inl (h.pending j (hks j hj)))
  · -- `k` is no longer pending, and it cannot become so again
    rw [hext.mem_pending_iff] at hj
    have hne : j ≠ k := by
      rintro rfl
      exact hj.elim (fun hj => hnew j hj hk) hkks
    rw [Function.update_of_ne hne]
    exact hj.elim (fun hj => h.drawn.fresh j (hnew j hj)) fun hj => h.waiting j (hks j hj)
  · rw [hext.mem_pending_iff, not_or] at hnot
    by_cases hjk : j = k
    · rw [hjk, Function.update_self]
    · rw [Function.update_of_ne hjk]
      -- a value that is neither new nor pending has been looked at before
      have hold : j ∈ d.found.values := by
        by_contra hjnew
        have hmet := (hext.mem_found_iff.mp hj).resolve_left hjnew
        exact hnot.1 ((hext.mem_new_iff j).mpr ⟨hmet, hjnew⟩)
      refine h.looked j hold ?_
      rw [hd, List.mem_cons, not_or]
      exact ⟨hjk, hnot.2⟩

omit [Std.LawfulEqOrd κ] [Std.TransOrd κ] in
theorem Explored.size_le (h : Explored succ start done d) {U : List κ}
    (hU : ∀ k, Reaches (fun k => (succ k).map Prod.snd) start k → k ∈ U) :
    d.found.values.size ≤ U.length := by
  have hsub : d.found.values.toList ⊆ U := fun k hk => hU k (h.reaches k (Array.mem_def.mpr hk))
  simpa using (List.subperm_of_subset d.found.nodup_values hsub).length_le

/-- With fuel for every reachable value, nothing stays pending. -/
theorem Explored.run (h : Explored succ start done d) (describe : κ → String × Cube) {U : List κ}
    (hU : ∀ k, Reaches (fun k => (succ k).map Prod.snd) start k → k ∈ U) {fuel : Nat}
    (hfuel : U.length + d.pending.length ≤ fuel + d.found.values.size) :
    ∃ done', Explored succ start done' (Discovery.run describe succ fuel d) ∧
      (Discovery.run describe succ fuel d).pending = [] := by
  classical
  induction fuel generalizing done d with
  | zero =>
    -- no more than `U` can have been found, so the balance leaves nothing pending
    have hsize := h.size_le hU
    have hnil : d.pending = [] := List.eq_nil_of_length_eq_zero (by omega)
    exact ⟨done, h, hnil⟩
  | succ fuel ih =>
    unfold Discovery.run
    cases hd : d.pending with
    | nil => exact ⟨done, h, hd⟩
    | cons k ks =>
      refine ih (h.look hd) ?_
      -- every value that becomes pending is also found, so only `k` makes a difference
      obtain ⟨i, hi⟩ := Numbering.mem_values_iff.mp (h.pending k (hd ▸ List.mem_cons_self))
      rw [look_of_getElem? (d := { d with pending := ks }) hi]
      obtain ⟨new, hext⟩ := exists_extends_foldl describe i (succ k) { d with pending := ks }
      have hsize := congrArg List.length hext.values
      have hpending := congrArg List.length hext.pending
      rw [hd, List.length_cons] at hfuel
      simp only [List.length_append, List.length_reverse, Array.length_toList] at hsize hpending
      omega

end Discovery

/-! ### Graphs by discovery -/

/-- Once nothing is pending, the graph has one node for every reachable value. -/
theorem Discovery.Explored.generated {κ : Type} [Ord κ] {succ : κ → List (Guard × κ)} {start : κ}
    {done : κ → List (Guard × κ)} {d : Discovery κ} (h : Explored succ start done d)
    (hnil : d.pending = []) :
    Graph.Generated succ start { d.graph with initial := some 0 } := by
  have hstands := h.drawn.standsFor_iff
  have hedges : ∀ i k, d.graph.StandsFor i k → List.Forall₂
      (fun e s => e.guard = s.1 ∧ d.graph.StandsFor e.target s.2) (d.graph.edgesOf i) (succ k) := by
    intro i k hik
    have hk := Numbering.mem_values_iff.mpr ⟨i, (hstands i k).mp hik⟩
    rw [← h.looked k hk (by simp [hnil])]
    exact h.drawn.edges i k hik
  refine ⟨rfl, (hstands 0 start).mpr h.first, fun i j k hi hj => ?_, fun k => ⟨?_, fun hk => ?_⟩,
    hedges⟩
  · exact Numbering.number_unique ((hstands i k).mp hi) ((hstands j k).mp hj)
  · rintro ⟨i, hi⟩
    exact h.reaches k (Numbering.mem_values_iff.mpr ⟨i, (hstands i k).mp hi⟩)
  · refine hk.mem_of_closed (S := fun k => ∃ i, d.graph.StandsFor i k) ?_
      ⟨0, (hstands 0 start).mpr h.first⟩
    rintro k ⟨i, hi⟩ j hj
    obtain ⟨s, hs, rfl⟩ := List.mem_map.mp hj
    obtain ⟨e, -, -, htarget⟩ := Graph.exists_mem_of_forall₂ (hedges i k hi).flip hs
    exact ⟨e.target, htarget⟩

/-- The graph by discovery has one node for every reachable value, provided the bound is large
enough for all of them. -/
theorem Graph.generated_generate {κ : Type} [Ord κ] [Std.LawfulEqOrd κ] [Std.TransOrd κ]
    {describe : κ → String × Cube} {succ : κ → List (Guard × κ)} {start : κ} {bound : Nat}
    {U : List κ} (hU : ∀ k, Reaches (fun k => (succ k).map Prod.snd) start k → k ∈ U)
    (hbound : U.length ≤ bound) :
    Generated succ start (generate describe succ bound start) := by
  obtain ⟨hzero, hpending, hvalues⟩ := Discovery.meet_empty describe start
  obtain ⟨done, hrun, hnil⟩ := (Discovery.explored_start describe succ start).run
    describe hU (show _ ≤ bound + _ by simp [hpending, hvalues, hbound])
  rw [generate, hzero]
  exact hrun.generated hnil

end TemporalMonitor
