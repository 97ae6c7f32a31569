import Mathlib.Data.Finset.Card
import Mathlib.Data.Finset.Range
import TemporalMonitor.Graph.Components
import TemporalMonitor.Proofs.Fold
import TemporalMonitor.Proofs.Graph.Reachability

/-!
# The search finds the strongly connected components

The nodes whose search has begun and not ended form a path, the *trail*. Two facts about the stack
carry the proof: a node of the trail reaches everything above it on the stack, and everything on the
stack reaches a node of the trail that is not above it. When the search from a node ends without
having met an older open node, the part of the stack down to that node is closed under edges up to
components that are complete, so it is a component.

Edges to nodes outside the graph are never followed. The theory is about the edges `inBounds`
between the nodes `0, …, n - 1`.

## Main definitions

* `inBounds` — the edges between nodes of the graph
* `Components.Listed` — a list of distinct components, each before the ones it leads to
* `Components.Search.Sound` — the invariant of the search, given the trail
* `Components.Finished` — what the search from one node achieves

## Main results

* `Components.finished_visit` — the search from a node
* `listed_components`, `exists_mem_components_iff` — the components of a graph
* `Components.Listed.isNontrivial_iff` — which of them contain cycles
-/

namespace TemporalMonitor

/-- The edges between the nodes `0, …, n - 1`. -/
def inBounds (n : Nat) (succ : Nat → List Nat) (v : Nat) : List Nat :=
  if v < n then (succ v).filter (· < n) else []

theorem mem_inBounds {n : Nat} {succ : Nat → List Nat} {v w : Nat} :
    w ∈ inBounds n succ v ↔ v < n ∧ w ∈ succ v ∧ w < n := by
  unfold inBounds
  split <;> simp_all

theorem Reaches.of_inBounds {n : Nat} {succ : Nat → List Nat} {v w : Nat}
    (h : Reaches (inBounds n succ) v w) : Reaches succ v w := by
  induction h with
  | refl => exact .refl
  | tail _ hedge ih => exact ih.tail (mem_inBounds.mp hedge).2.1

/-- Where the nodes outside the graph have no edges, cycles stay inside it. -/
theorem reaches_onCycle_inBounds_iff {n : Nat} {succ : Nat → List Nat}
    (hsucc : ∀ v w, w ∈ succ v → v < n) {v m : Nat} :
    Reaches (inBounds n succ) v m ∧ OnCycle (inBounds n succ) m ↔
      Reaches succ v m ∧ OnCycle succ m := by
  have hin : ∀ x y, Reaches succ x y → y < n → Reaches (inBounds n succ) x y := by
    intro x y h hy
    induction h with
    | refl => exact .refl
    | tail _ hedge ih =>
      -- a node with an edge lies inside the graph
      have hb := hsucc _ _ hedge
      exact (ih hb).tail (mem_inBounds.mpr ⟨hb, hedge, hy⟩)
  constructor
  · rintro ⟨hvm, b, hmb, hbm⟩
    exact ⟨hvm.of_inBounds, b, (mem_inBounds.mp hmb).2.1, hbm.of_inBounds⟩
  · rintro ⟨hvm, b, hmb, hbm⟩
    have hm := hsucc m b hmb
    have hb : b < n := by
      rcases hbm.cases_head with rfl | ⟨c, hbc, -⟩
      · exact hm
      · exact hsucc b c hbc
    exact ⟨hin v m hvm hm, b, mem_inBounds.mpr ⟨hm, hmb, hb⟩, hin b m hbm hm⟩

namespace Components

variable {n : Nat} {succ : Nat → List Nat} {trail : List Nat} {s t u : Search} {v w x y : Nat}

/-! ### Marks -/

namespace Search

/-- The index of an open node. -/
def rank (s : Search) (v : Nat) : Nat :=
  match s.mark v with
  | .active i => i
  | _ => 0

theorem rank_of_mark {i : Nat} (h : s.mark v = .active i) : s.rank v = i := by
  rw [rank, h]

theorem mark_eq_getD (s : Search) (v : Nat) : s.mark v = s.marks[v]?.getD .done := by
  rw [mark, Array.getD_eq_getD_getElem?]

theorem mark_openNode (hv : v < s.marks.size) :
    (s.openNode v).mark x = if x = v then .active s.opened else s.mark x := by
  rw [mark_eq_getD, mark_eq_getD, openNode, Array.getElem?_setIfInBounds]
  by_cases hxv : x = v
  · simp [hxv, hv]
  · simp [hxv, Ne.symm hxv]

theorem getElem?_foldl_setIfInBounds (marks : Array Mark) (vs : List Nat) (x : Nat) :
    (vs.foldl (fun marks w => marks.setIfInBounds w .done) marks)[x]?.getD .done =
      if x ∈ vs then .done else marks[x]?.getD .done := by
  induction vs generalizing marks with
  | nil => rfl
  | cons w ws ih =>
    rw [List.foldl_cons, ih, Array.getElem?_setIfInBounds]
    by_cases hxw : x = w
    · subst hxw
      -- a write outside the array changes nothing, and what is read there is `.done` anyway
      by_cases hx : x < marks.size <;> simp [hx]
    · simp [hxw, Ne.symm hxw]

/-- The part of the stack that is taken off when a component is closed. -/
def top (s : Search) (v : Nat) : List Nat := s.stack.takeWhile (· != v) ++ [v]

theorem mark_closeNode : (s.closeNode v).mark x = if x ∈ s.top v then .done else s.mark x := by
  rw [mark_eq_getD, mark_eq_getD, closeNode]
  exact getElem?_foldl_setIfInBounds _ _ _

theorem size_closeNode : (s.closeNode v).marks.size = s.marks.size := by
  simp only [closeNode]
  generalize s.stack.takeWhile (· != v) ++ [v] = vs
  generalize s.marks = marks
  induction vs generalizing marks with
  | nil => rfl
  | cons w ws ih => rw [List.foldl_cons, ih, Array.size_setIfInBounds]

/-- Where the node stands on the stack, what is above it is taken off with it. -/
theorem takeWhile_of_stack {above below : List Nat} (hstack : s.stack = above ++ v :: below)
    (hv : ¬ v ∈ above) : s.top v = above ++ [v] ∧ (s.closeNode v).stack = below := by
  have htake : s.stack.takeWhile (· != v) = above ∧
      s.stack.dropWhile (· != v) = v :: below := by
    rw [hstack]
    clear hstack
    induction above with
    | nil => simp
    | cons w ws ih =>
      rw [List.mem_cons, not_or] at hv
      have hw : (w != v) = true := by simpa using Ne.symm hv.1
      simp [hw, ih hv.2]
  rw [top, closeNode, htake.1, htake.2]
  exact ⟨rfl, rfl⟩

end Search

/-! ### Lists of components -/

/-- Distinct strongly connected components, each standing before the ones that it leads to. -/
structure Listed (n : Nat) (succ : Nat → List Nat) (found : List (List Nat)) : Prop where
  ne_nil : ∀ c ∈ found, c ≠ []
  lt : ∀ c ∈ found, ∀ v ∈ c, v < n
  nodup : found.flatten.Nodup
  mem_iff : ∀ c ∈ found, ∀ v ∈ c, ∀ w, w ∈ c ↔
    Reaches (inBounds n succ) v w ∧ Reaches (inBounds n succ) w v
  order : found.Pairwise fun c d => ∀ v ∈ d, ∀ w ∈ c, ¬ w ∈ inBounds n succ v

/-! ### The invariant of the search -/

/-- The invariant of the search while the nodes of `trail` are being searched. -/
structure Search.Sound (n : Nat) (succ : Nat → List Nat) (trail : List Nat) (s : Search) : Prop
    where
  size : s.marks.size = n
  mem_stack_iff : ∀ v, v ∈ s.stack ↔ ∃ i, s.mark v = .active i
  descending : s.stack.Pairwise fun v w => s.rank w < s.rank v
  rank_lt : ∀ v ∈ s.stack, s.rank v < s.opened
  trail_stack : ∀ v ∈ trail, v ∈ s.stack
  /-- The successors of a node whose search has ended have been met. -/
  met : ∀ v, s.mark v ≠ .unseen → ¬ v ∈ trail → ∀ w ∈ inBounds n succ v, s.mark w ≠ .unseen
  done : ∀ v, s.mark v = .done → ∀ w ∈ inBounds n succ v, s.mark w = .done
  to_trail : ∀ v ∈ s.stack, ∃ u ∈ trail, s.rank u ≤ s.rank v ∧ Reaches (inBounds n succ) v u
  from_trail : ∀ u ∈ trail, ∀ v ∈ s.stack, s.rank u ≤ s.rank v → Reaches (inBounds n succ) u v
  listed : Listed n succ s.found
  mark_done_iff : ∀ v, v < n → (s.mark v = .done ↔ ∃ c ∈ s.found, v ∈ c)

namespace Search.Sound

theorem lt_of_unseen (h : s.Sound n succ trail) (hv : s.mark v = .unseen) : v < n := by
  rw [mark_eq_getD] at hv
  by_contra hge
  rw [← h.size] at hge
  simp [Array.getElem?_eq_none (Nat.le_of_not_lt hge)] at hv

theorem not_mem_stack_of_unseen (h : s.Sound n succ trail) (hv : s.mark v = .unseen) :
    ¬ v ∈ s.stack := by
  intro hmem
  obtain ⟨i, hi⟩ := (h.mem_stack_iff v).mp hmem
  simp [hv] at hi

theorem nodup_stack (h : s.Sound n succ trail) : s.stack.Nodup :=
  h.descending.imp fun hlt heq => by simp [heq] at hlt

/-- Whatever a node of a complete component reaches is in a complete component. -/
theorem done_of_reaches (h : s.Sound n succ trail) (hv : s.mark v = .done)
    (hvw : Reaches (inBounds n succ) v w) : s.mark w = .done :=
  hvw.mem_of_closed (S := fun x => s.mark x = .done) h.done hv

theorem start (n : Nat) (succ : Nat → List Nat) : (Search.start n).Sound n succ [] := by
  have hmark : ∀ v, (Search.start n).mark v = if v < n then .unseen else .done := by
    intro v
    rw [mark_eq_getD, Search.start, Array.getElem?_replicate]
    split <;> rfl
  refine ⟨by simp [Search.start], fun v => ?_, .nil, nofun, nofun, fun v hv _ w hw => ?_,
    fun v hv w hw => ?_, nofun, nofun, ⟨nofun, nofun, .nil, nofun, .nil⟩, fun v hv => ?_⟩
  · rw [hmark]
    split <;> simp [Search.start]
  · rw [hmark, if_pos (mem_inBounds.mp hw).1] at hv
    exact absurd rfl hv
  · rw [hmark, if_pos (mem_inBounds.mp hw).1] at hv
    simp at hv
  · rw [hmark, if_pos hv]
    simp [Search.start]

theorem mark_openNode (h : s.Sound n succ trail) (hv : s.mark v = .unseen) (x : Nat) :
    (s.openNode v).mark x = if x = v then .active s.opened else s.mark x :=
  Search.mark_openNode (h.size.symm ▸ h.lt_of_unseen hv)

theorem mark_openNode_done_iff (h : s.Sound n succ trail) (hv : s.mark v = .unseen) :
    (s.openNode v).mark x = .done ↔ s.mark x = .done := by
  rw [h.mark_openNode hv]
  by_cases hx : x = v
  · simp [hx, hv]
  · rw [if_neg hx]

theorem rank_openNode_self (h : s.Sound n succ trail) (hv : s.mark v = .unseen) :
    (s.openNode v).rank v = s.opened :=
  rank_of_mark (by rw [h.mark_openNode hv, if_pos rfl])

theorem rank_openNode (h : s.Sound n succ trail) (hv : s.mark v = .unseen) (hx : x ∈ s.stack) :
    (s.openNode v).rank x = s.rank x := by
  have hne : x ≠ v := by
    rintro rfl
    exact h.not_mem_stack_of_unseen hv hx
  rw [rank, rank, h.mark_openNode hv, if_neg hne]

/-- Opening a node that every node of the trail reaches puts it on the trail. -/
theorem openNode (h : s.Sound n succ trail) (hv : s.mark v = .unseen)
    (htrail : ∀ u ∈ trail, Reaches (inBounds n succ) u v) :
    (s.openNode v).Sound n succ (v :: trail) := by
  have hstack : (s.openNode v).stack = v :: s.stack := rfl
  constructor
  case size => simpa [Search.openNode] using h.size
  case mem_stack_iff =>
    intro x
    rw [hstack, List.mem_cons, h.mem_stack_iff, h.mark_openNode hv]
    by_cases hxv : x = v <;> simp [hxv]
  case descending =>
    rw [hstack]
    refine List.pairwise_cons.mpr ⟨fun x hx => ?_, ?_⟩
    · rw [h.rank_openNode hv hx, h.rank_openNode_self hv]
      exact h.rank_lt x hx
    · refine h.descending.imp_of_mem fun {x y} hx hy hlt => ?_
      rw [h.rank_openNode hv hx, h.rank_openNode hv hy]
      exact hlt
  case rank_lt =>
    intro x hx
    rcases List.mem_cons.mp hx with rfl | hx
    · rw [h.rank_openNode_self hv]
      exact Nat.lt_succ_self _
    · rw [h.rank_openNode hv hx]
      exact Nat.lt_succ_of_lt (h.rank_lt x hx)
  case trail_stack =>
    intro x hx
    rcases List.mem_cons.mp hx with rfl | hx
    · exact List.mem_cons_self
    · exact List.mem_cons_of_mem _ (h.trail_stack x hx)
  case met =>
    intro x hx hxt w hw
    -- `v` is on the trail now, so nothing is claimed about its successors
    rw [List.mem_cons, not_or] at hxt
    rw [h.mark_openNode hv, if_neg hxt.1] at hx
    have hw' := h.met x hx hxt.2 w hw
    rw [h.mark_openNode hv]
    split
    · simp
    · exact hw'
  case done =>
    intro x hx w hw
    rw [h.mark_openNode_done_iff hv] at hx ⊢
    exact h.done x hx w hw
  case to_trail =>
    intro x hx
    rcases List.mem_cons.mp hx with rfl | hx
    · exact ⟨x, List.mem_cons_self, Nat.le_refl _, .refl⟩
    · obtain ⟨u, hu, hle, hreach⟩ := h.to_trail x hx
      refine ⟨u, List.mem_cons_of_mem _ hu, ?_, hreach⟩
      rw [h.rank_openNode hv (h.trail_stack u hu), h.rank_openNode hv hx]
      exact hle
  case from_trail =>
    intro u hu x hx hle
    rcases List.mem_cons.mp hx with rfl | hxs
    · rcases List.mem_cons.mp hu with rfl | hu
      · exact .refl
      · exact htrail u hu
    · rw [h.rank_openNode hv hxs] at hle
      rcases List.mem_cons.mp hu with rfl | hu
      · -- the new node has the largest index, so nothing older is above it
        have hlt := h.rank_lt x hxs
        rw [h.rank_openNode_self hv] at hle
        omega
      · rw [h.rank_openNode hv (h.trail_stack u hu)] at hle
        exact h.from_trail u hu x hxs hle
  case listed => exact h.listed
  case mark_done_iff =>
    intro x hx
    rw [h.mark_openNode_done_iff hv]
    exact h.mark_done_iff x hx

theorem lt_of_mem_stack (h : s.Sound n succ trail) (hv : v ∈ s.stack) : v < n := by
  obtain ⟨i, hi⟩ := (h.mem_stack_iff v).mp hv
  rw [mark_eq_getD] at hi
  by_contra hge
  rw [← h.size] at hge
  simp [Array.getElem?_eq_none (Nat.le_of_not_lt hge)] at hi

theorem not_done_of_mem_stack (h : s.Sound n succ trail) (hv : v ∈ s.stack) :
    s.mark v ≠ .done := by
  obtain ⟨i, hi⟩ := (h.mem_stack_iff v).mp hv
  simp [hi]

/-- A met node is on the stack or its component is complete. -/
theorem mem_stack_or_done (h : s.Sound n succ trail) (hv : s.mark v ≠ .unseen) :
    v ∈ s.stack ∨ s.mark v = .done := by
  cases hm : s.mark v with
  | unseen => exact absurd hm hv
  | active i => exact .inl ((h.mem_stack_iff v).mpr ⟨i, hm⟩)
  | done => exact .inr rfl

/-- A node whose successors are met and that reaches back to the rest of the trail leaves it. -/
theorem leave (h : s.Sound n succ (v :: trail))
    (hmet : ∀ w ∈ inBounds n succ v, s.mark w ≠ .unseen)
    (hback : ∃ u ∈ trail, s.rank u ≤ s.rank v ∧ Reaches (inBounds n succ) v u) :
    s.Sound n succ trail := by
  refine { h with
    trail_stack := fun u hu => h.trail_stack u (List.mem_cons_of_mem _ hu)
    met := fun x hx hxt w hw => ?_
    to_trail := fun x hx => ?_
    from_trail := fun u hu => h.from_trail u (List.mem_cons_of_mem _ hu) }
  · by_cases hxv : x = v
    · exact hmet w (hxv ▸ hw)
    · exact h.met x hx (by simp [hxv, hxt]) w hw
  · obtain ⟨u, hu, hle, hxu⟩ := h.to_trail x hx
    rcases List.mem_cons.mp hu with rfl | hu
    · -- what led to `v` leads on to where `v` leads back to
      obtain ⟨u', hu', hle', hreach⟩ := hback
      exact ⟨u', hu', Nat.le_trans hle' hle, hxu.trans hreach⟩
    · exact ⟨u, hu, hle, hxu⟩

end Search.Sound

/-! ### What the search keeps -/

/-- Later states of a search keep the stack and the marks of the nodes met. -/
structure Search.Grows (s t : Search) : Prop where
  stack : s.stack <:+ t.stack
  active : ∀ v i, s.mark v = .active i → t.mark v = .active i
  done : ∀ v, s.mark v = .done → t.mark v = .done
  opened : s.opened ≤ t.opened

namespace Search.Grows

theorem refl (s : Search) : s.Grows s :=
  ⟨List.suffix_refl _, fun _ _ h => h, fun _ h => h, Nat.le_refl _⟩

theorem trans (h : s.Grows t) (h' : t.Grows u) : s.Grows u where
  stack := h.stack.trans h'.stack
  active := fun v i hv => h'.active v i (h.active v i hv)
  done := fun v hv => h'.done v (h.done v hv)
  opened := Nat.le_trans h.opened h'.opened

theorem openNode (hs : s.Sound n succ trail) (hv : s.mark v = .unseen) :
    s.Grows (s.openNode v) := by
  have hmark : ∀ x, s.mark x ≠ .unseen → (s.openNode v).mark x = s.mark x := by
    intro x hx
    rw [hs.mark_openNode hv, if_neg]
    rintro rfl
    exact hx hv
  exact ⟨List.suffix_cons _ _, fun x i hx => by rw [hmark x (by simp [hx]), hx],
    fun x hx => by rw [hmark x (by simp [hx]), hx], Nat.le_succ _⟩

theorem met (h : s.Grows t) (hv : s.mark v ≠ .unseen) : t.mark v ≠ .unseen := by
  cases hm : s.mark v with
  | unseen => exact absurd hm hv
  | active i => simp [h.active v i hm]
  | done => simp [h.done v hm]

theorem unseen (h : s.Grows t) (hv : t.mark v = .unseen) : s.mark v = .unseen := by
  by_contra hne
  exact h.met hne hv

theorem mem_stack (h : s.Grows t) (hv : v ∈ s.stack) : v ∈ t.stack :=
  h.stack.subset hv

theorem rank_eq (h : s.Grows t) (hs : s.Sound n succ trail) (hv : v ∈ s.stack) :
    t.rank v = s.rank v := by
  obtain ⟨i, hi⟩ := (hs.mem_stack_iff v).mp hv
  rw [rank_of_mark hi, rank_of_mark (h.active v i hi)]

end Search.Grows

/-- The nodes that have not been met. -/
def Search.unseen (n : Nat) (s : Search) : Finset Nat :=
  (Finset.range n).filter (s.mark · = .unseen)

theorem Search.mem_unseen : v ∈ s.unseen n ↔ v < n ∧ s.mark v = .unseen := by
  simp [unseen]

theorem Search.card_unseen_le (n : Nat) (s : Search) : (s.unseen n).card ≤ n := by
  have hle := Finset.card_filter_le (Finset.range n) (s.mark · = .unseen)
  rwa [Finset.card_range] at hle

theorem Search.Grows.unseen_subset (h : s.Grows t) : t.unseen n ⊆ s.unseen n := by
  intro v hv
  rw [mem_unseen] at hv ⊢
  exact ⟨hv.1, h.unseen hv.2⟩

/-- Opening a node leaves fewer unseen ones. -/
theorem Search.Sound.card_unseen_openNode (h : s.Sound n succ trail) (hv : s.mark v = .unseen) :
    ((s.openNode v).unseen n).card < (s.unseen n).card := by
  refine Finset.card_lt_card (Finset.ssubset_iff_subset_ne.mpr
    ⟨(Search.Grows.openNode h hv).unseen_subset, fun heq => ?_⟩)
  have hmem : v ∈ (s.openNode v).unseen n := by
    rw [heq, mem_unseen]
    exact ⟨h.lt_of_unseen hv, hv⟩
  rw [mem_unseen, h.mark_openNode hv, if_pos rfl] at hmem
  simp at hmem

/-! ### The search from a node -/

/-- What the search from `v` has achieved once the edges to `ws` have been followed. -/
structure Scanned (n : Nat) (succ : Nat → List Nat) (trail : List Nat) (v : Nat) (s : Search)
    (ws : List Nat) (low : Nat) (t : Search) : Prop where
  sound : t.Sound n succ (v :: trail)
  grows : (s.openNode v).Grows t
  met : ∀ w ∈ ws, t.mark w ≠ .unseen
  new : ∀ x, s.mark x = .unseen → t.mark x ≠ .unseen → Reaches (inBounds n succ) v x
  low_le : low ≤ s.opened
  low_reaches : low < s.opened → ∃ y ∈ s.stack, s.rank y = low ∧ Reaches (inBounds n succ) v y
  /-- No edge followed from a new node leads further down the stack than `low`. -/
  low_le_rank : ∀ x ∈ t.stack, ¬ x ∈ s.stack → ∀ y ∈ s.stack, y ∈ inBounds n succ x →
    (x = v → y ∈ ws) → low ≤ s.rank y

/-- What the search from `v` achieves. -/
structure Finished (n : Nat) (succ : Nat → List Nat) (trail : List Nat) (v : Nat) (s : Search)
    (low : Nat) (t : Search) : Prop where
  sound : t.Sound n succ trail
  grows : s.Grows t
  met : t.mark v ≠ .unseen
  new : ∀ x, s.mark x = .unseen → t.mark x ≠ .unseen → Reaches (inBounds n succ) v x
  low_reaches : low < s.opened → ∃ y ∈ s.stack, s.rank y = low ∧ Reaches (inBounds n succ) v y
  low_le_rank : ∀ x ∈ t.stack, ¬ x ∈ s.stack → ∀ y ∈ s.stack, y ∈ inBounds n succ x →
    low ≤ s.rank y

/-- A node that is about to be searched. -/
structure Entered (n : Nat) (succ : Nat → List Nat) (trail : List Nat) (v : Nat) (s : Search) :
    Prop where
  sound : s.Sound n succ trail
  unseen : s.mark v = .unseen
  reached : ∀ u ∈ trail, Reaches (inBounds n succ) u v

/-- There is an unseen node, namely the one about to be searched. -/
theorem Entered.card_unseen_pos (h : Entered n succ trail v s) : 0 < (s.unseen n).card :=
  Finset.card_pos.mpr ⟨v, Search.mem_unseen.mpr ⟨h.sound.lt_of_unseen h.unseen, h.unseen⟩⟩

/-- Follows one edge. -/
def follow (succ : Nat → List Nat) (fuel : Nat) (acc : Nat × Search) (w : Nat) : Nat × Search :=
  match acc.2.mark w with
  | .unseen => (min acc.1 (visit succ fuel w acc.2).1, (visit succ fuel w acc.2).2)
  | .active i => (min acc.1 i, acc.2)
  | .done => acc

theorem visit_succ (succ : Nat → List Nat) (fuel v : Nat) (s : Search) :
    visit succ (fuel + 1) v s =
      let r := (succ v).foldl (follow succ fuel) (s.opened, s.openNode v)
      if r.1 = s.opened then (r.1, r.2.closeNode v) else r := by
  rfl

section Scan

variable {ws : List Nat} {low : Nat}

theorem Entered.scanned_nil (h : Entered n succ trail v s) :
    Scanned n succ trail v s [] s.opened (s.openNode v) where
  sound := h.sound.openNode h.unseen h.reached
  grows := .refl _
  met := nofun
  new := fun x hx hx' => by
    rw [h.sound.mark_openNode h.unseen] at hx'
    split at hx'
    · rename_i hxv
      subst hxv
      exact .refl
    · exact absurd hx hx'
  low_le := Nat.le_refl _
  low_reaches := fun hlt => absurd hlt (Nat.lt_irrefl _)
  low_le_rank := fun x hx hxs y _ _ hxv => by
    rcases List.mem_cons.mp hx with rfl | hx
    · exact absurd (hxv rfl) List.not_mem_nil
    · exact absurd hx hxs

namespace Scanned

/-- The stack as the search from `v` leaves it. -/
theorem exists_stack (h : Scanned n succ trail v s ws low t) :
    ∃ above, t.stack = above ++ v :: s.stack := by
  obtain ⟨above, habove⟩ := h.grows.stack
  exact ⟨above, habove.symm⟩

theorem rank_self (h : Scanned n succ trail v s ws low t) (hs : Entered n succ trail v s) :
    t.rank v = s.opened := by
  refine Search.rank_of_mark (h.grows.active v _ ?_)
  rw [hs.sound.mark_openNode hs.unseen, if_pos rfl]

/-- The nodes opened since have larger indices. -/
theorem opened_le_rank (h : Scanned n succ trail v s ws low t) (hs : Entered n succ trail v s)
    (hx : x ∈ t.stack) (hxs : ¬ x ∈ s.stack) : s.opened ≤ t.rank x := by
  obtain ⟨above, habove⟩ := h.exists_stack
  have hdesc := h.sound.descending
  rw [habove, List.mem_append, List.mem_cons] at hx
  rw [habove, List.pairwise_append] at hdesc
  rcases hx with hx | rfl | hx
  · have hlt := hdesc.2.2 x hx v List.mem_cons_self
    rw [h.rank_self hs] at hlt
    exact Nat.le_of_lt hlt
  · exact Nat.le_of_eq (h.rank_self hs).symm
  · exact absurd hx hxs

theorem mem_stack_of_rank_lt (h : Scanned n succ trail v s ws low t)
    (hs : Entered n succ trail v s) (hx : x ∈ t.stack) (hlt : t.rank x < s.opened) :
    x ∈ s.stack := by
  by_contra hxs
  exact absurd (h.opened_le_rank hs hx hxs) (Nat.not_le_of_lt hlt)

theorem grows_start (h : Scanned n succ trail v s ws low t) (hs : Entered n succ trail v s) :
    s.Grows t :=
  (Search.Grows.openNode hs.sound hs.unseen).trans h.grows

/-- A met successor whose component is complete changes nothing. -/
theorem of_done (h : Scanned n succ trail v s ws low t) (hs : Entered n succ trail v s)
    (hw : t.mark w = .done) : Scanned n succ trail v s (ws ++ [w]) low t := by
  refine { h with
    met := fun x hx => ?_
    low_le_rank := fun x hx hxs y hy hxy hxv => ?_ }
  · rcases List.mem_append.mp hx with hx | hx
    · exact h.met x hx
    · rw [List.mem_singleton.mp hx, hw]
      nofun
  · -- a node of the old stack is open, so it is not the successor followed last
    refine h.low_le_rank x hx hxs y hy hxy fun hxv' => ?_
    rcases List.mem_append.mp (hxv hxv') with hy' | hy'
    · exact hy'
    · rw [← List.mem_singleton.mp hy'] at hw
      exact absurd hw (h.sound.not_done_of_mem_stack ((h.grows_start hs).mem_stack hy))

/-- An open successor lowers the bound to its index. -/
theorem of_active (h : Scanned n succ trail v s ws low t) (hs : Entered n succ trail v s)
    {i : Nat} (hw : t.mark w = .active i) (hvw : w ∈ succ v) :
    Scanned n succ trail v s (ws ++ [w]) (min low i) t := by
  have hwt : w ∈ t.stack := (h.sound.mem_stack_iff w).mpr ⟨i, hw⟩
  have hedge : w ∈ inBounds n succ v :=
    mem_inBounds.mpr ⟨hs.sound.lt_of_unseen hs.unseen, hvw, h.sound.lt_of_mem_stack hwt⟩
  have hrank : ∀ y ∈ s.stack, t.rank y = s.rank y :=
    fun y hy => (h.grows_start hs).rank_eq hs.sound hy
  refine { h with
    met := fun x hx => ?_
    low_le := Nat.le_trans (Nat.min_le_left _ _) h.low_le
    low_reaches := fun hlt => ?_
    low_le_rank := fun x hx hxs y hy hxy hxv => ?_ }
  · rcases List.mem_append.mp hx with hx | hx
    · exact h.met x hx
    · rw [List.mem_singleton.mp hx, hw]
      nofun
  · -- an index below `low` was given out before `v` was opened
    by_cases hi : i < low
    · have hws : w ∈ s.stack := by
        refine h.mem_stack_of_rank_lt hs hwt ?_
        rw [Search.rank_of_mark hw]
        exact Nat.lt_of_lt_of_le hi h.low_le
      refine ⟨w, hws, ?_, .single hedge⟩
      rw [← hrank w hws, Search.rank_of_mark hw, Nat.min_eq_right (Nat.le_of_lt hi)]
    · rw [Nat.min_eq_left (Nat.le_of_not_lt hi)] at hlt ⊢
      exact h.low_reaches hlt
  · by_cases hyw : y = w
    · rw [← hrank y hy, hyw, Search.rank_of_mark hw]
      exact Nat.min_le_right _ _
    · refine Nat.le_trans (Nat.min_le_left _ _) (h.low_le_rank x hx hxs y hy hxy fun hxv' => ?_)
      simpa [hyw] using hxv hxv'

/-- An unseen successor is searched with `v` on the trail. -/
theorem entered (h : Scanned n succ trail v s ws low t) (hs : Entered n succ trail v s)
    (hw : t.mark w = .unseen) (hvw : w ∈ succ v) : Entered n succ (v :: trail) w t := by
  have hedge : w ∈ inBounds n succ v :=
    mem_inBounds.mpr ⟨hs.sound.lt_of_unseen hs.unseen, hvw, h.sound.lt_of_unseen hw⟩
  refine ⟨h.sound, hw, fun u hu => ?_⟩
  rcases List.mem_cons.mp hu with rfl | hu
  · exact .single hedge
  · exact (hs.reached u hu).tail hedge

theorem of_finished (h : Scanned n succ trail v s ws low t) (hs : Entered n succ trail v s)
    {lowW : Nat} (hw : Entered n succ (v :: trail) w t)
    (hu : Finished n succ (v :: trail) w t lowW u) :
    Scanned n succ trail v s (ws ++ [w]) (min low lowW) u := by
  have hvw : Reaches (inBounds n succ) v w := hw.reached v List.mem_cons_self
  have hrank : ∀ y ∈ s.stack, t.rank y = s.rank y :=
    fun y hy => (h.grows_start hs).rank_eq hs.sound hy
  refine ⟨hu.sound, h.grows.trans hu.grows, fun x hx => ?_, fun x hx hxu => ?_,
    Nat.le_trans (Nat.min_le_left _ _) h.low_le, fun hlt => ?_, fun x hx hxs y hy hxy hxv => ?_⟩
  · rcases List.mem_append.mp hx with hx | hx
    · exact hu.grows.met (h.met x hx)
    · rw [List.mem_singleton.mp hx]
      exact hu.met
  · by_cases hxt : t.mark x = .unseen
    · exact hvw.trans (hu.new x hxt hxu)
    · exact h.new x hx hxt
  · by_cases hlow : lowW < low
    · -- the node met is older than `v`, so it was on the stack before
      rw [Nat.min_eq_right (Nat.le_of_lt hlow)] at hlt ⊢
      have hlt' : lowW < t.opened :=
        Nat.lt_of_lt_of_le hlt (h.grows_start hs).opened
      obtain ⟨y, hy, hyrank, hwy⟩ := hu.low_reaches hlt'
      have hys : y ∈ s.stack := h.mem_stack_of_rank_lt hs hy (hyrank.symm ▸ hlt)
      exact ⟨y, hys, (hrank y hys).symm.trans hyrank, hvw.trans hwy⟩
    · rw [Nat.min_eq_left (Nat.le_of_not_lt hlow)] at hlt ⊢
      exact h.low_reaches hlt
  · have hyt : y ∈ t.stack := (h.grows_start hs).mem_stack hy
    -- the edge starts at a node that was there before, or at one that the search from `w` opened
    by_cases hxt : x ∈ t.stack
    · refine Nat.le_trans (Nat.min_le_left _ _) (h.low_le_rank x hxt hxs y hy hxy fun hxv' => ?_)
      rcases List.mem_append.mp (hxv hxv') with hy' | hy'
      · exact hy'
      · rw [List.mem_singleton.mp hy'] at hyt
        exact absurd hyt (h.sound.not_mem_stack_of_unseen hw.unseen)
    · rw [← hrank y hy]
      exact Nat.le_trans (Nat.min_le_right _ _) (hu.low_le_rank x hx hxt y hyt hxy)

/-! ### Closing a component -/

theorem leave (h : Scanned n succ trail v s (succ v) low t) (hs : Entered n succ trail v s)
    (hlt : low < s.opened) : Finished n succ trail v s low t := by
  have hgrows := h.grows_start hs
  refine ⟨h.sound.leave (fun w hw => h.met w (mem_inBounds.mp hw).2.1) ?_, hgrows, ?_, h.new,
    h.low_reaches, fun x hx hxs y hy hxy => ?_⟩
  · -- the older node met leads on to the trail
    obtain ⟨y, hy, hyrank, hvy⟩ := h.low_reaches hlt
    obtain ⟨u, hu, hle, hyu⟩ := hs.sound.to_trail y hy
    refine ⟨u, hu, ?_, hvy.trans hyu⟩
    rw [hgrows.rank_eq hs.sound (hs.sound.trail_stack u hu), h.rank_self hs]
    omega
  · obtain ⟨i, hi⟩ := (h.sound.mem_stack_iff v).mp (h.sound.trail_stack v List.mem_cons_self)
    simp [hi]
  · exact h.low_le_rank x hx hxs y hy hxy fun hxv => (mem_inBounds.mp (hxv ▸ hxy)).2.1

/-- Closing `v` takes exactly the nodes off the stack that were opened since. -/
theorem exists_above (h : Scanned n succ trail v s ws low t) :
    ∃ above, t.stack = above ++ v :: s.stack ∧ t.top v = above ++ [v] ∧
      (t.closeNode v).stack = s.stack := by
  obtain ⟨above, habove⟩ := h.exists_stack
  have hnodup := h.sound.nodup_stack
  rw [habove] at hnodup
  have hv : ¬ v ∈ above := fun hv =>
    List.disjoint_of_nodup_append hnodup hv List.mem_cons_self
  exact ⟨above, habove, Search.takeWhile_of_stack habove hv⟩

theorem stack_closeNode (h : Scanned n succ trail v s ws low t) :
    (t.closeNode v).stack = s.stack := by
  obtain ⟨_, -, -, hstack⟩ := h.exists_above
  exact hstack

theorem nodup_top (h : Scanned n succ trail v s ws low t) : (t.top v).Nodup := by
  obtain ⟨above, habove, htop, -⟩ := h.exists_above
  have hnodup := h.sound.nodup_stack
  rw [habove] at hnodup
  rw [htop]
  exact hnodup.sublist (List.Sublist.append_left (List.singleton_sublist.mpr List.mem_cons_self) _)

theorem mem_top_iff (h : Scanned n succ trail v s ws low t) :
    x ∈ t.top v ↔ x ∈ t.stack ∧ ¬ x ∈ s.stack := by
  obtain ⟨above, habove, htop, -⟩ := h.exists_above
  have hnodup := h.sound.nodup_stack
  rw [habove, List.append_cons] at hnodup
  have hdisjoint := List.disjoint_of_nodup_append hnodup
  rw [htop, habove, List.append_cons above v s.stack, List.mem_append (t := s.stack)]
  constructor
  · intro hx
    exact ⟨.inl hx, hdisjoint hx⟩
  · rintro ⟨hx | hx, hxs⟩
    · exact hx
    · exact absurd hx hxs

/-- The new nodes on the stack are strongly connected. -/
theorem reaches_of_mem_top (h : Scanned n succ trail v s ws low t)
    (hs : Entered n succ trail v s) (hx : x ∈ t.top v) :
    Reaches (inBounds n succ) v x ∧ Reaches (inBounds n succ) x v := by
  obtain ⟨hxt, hxs⟩ := h.mem_top_iff.mp hx
  constructor
  · refine h.sound.from_trail v List.mem_cons_self x hxt ?_
    rw [h.rank_self hs]
    exact h.opened_le_rank hs hxt hxs
  · obtain ⟨u, hu, -, hxu⟩ := h.sound.to_trail x hxt
    -- the node of the trail is `v`, or it leads to `v`
    rcases List.mem_cons.mp hu with rfl | hu
    · exact hxu
    · exact hxu.trans (hs.reached u hu)

/-- Where no older open node was met, edges from the new nodes on the stack lead to one another and
to complete components. -/
theorem top_closed (h : Scanned n succ trail v s (succ v) s.opened t)
    (hs : Entered n succ trail v s) (hx : x ∈ t.top v) (hxy : y ∈ inBounds n succ x) :
    y ∈ t.top v ∨ t.mark y = .done := by
  obtain ⟨hxt, hxs⟩ := h.mem_top_iff.mp hx
  -- the nodes above `v` have left the trail, and the edges of `v` have all been followed
  have hmet : t.mark y ≠ .unseen := by
    by_cases hxv : x = v
    · exact h.met y (mem_inBounds.mp (hxv ▸ hxy)).2.1
    · refine h.sound.met x ?_ ?_ y hxy
      · obtain ⟨i, hi⟩ := (h.sound.mem_stack_iff x).mp hxt
        simp [hi]
      · rw [List.mem_cons, not_or]
        exact ⟨hxv, fun hxtrail => hxs (hs.sound.trail_stack x hxtrail)⟩
  rcases h.sound.mem_stack_or_done hmet with hyt | hdone
  · -- an edge further down the stack would have lowered the bound
    refine .inl (h.mem_top_iff.mpr ⟨hyt, fun hys => ?_⟩)
    have hle := h.low_le_rank x hxt hxs y hys hxy fun hxv => (mem_inBounds.mp (hxv ▸ hxy)).2.1
    exact absurd (hs.sound.rank_lt y hys) (Nat.not_lt_of_le hle)
  · exact .inr hdone

theorem listed_closeNode (h : Scanned n succ trail v s (succ v) s.opened t)
    (hs : Entered n succ trail v s) : Listed n succ (t.closeNode v).found := by
  change Listed n succ (t.top v :: t.found)
  have hopen : ∀ x ∈ t.top v, t.mark x ≠ .done :=
    fun x hx => h.sound.not_done_of_mem_stack (h.mem_top_iff.mp hx).1
  have hlt : ∀ x ∈ t.top v, x < n :=
    fun x hx => h.sound.lt_of_mem_stack (h.mem_top_iff.mp hx).1
  have hdone : ∀ c ∈ t.found, ∀ x ∈ c, t.mark x = .done :=
    fun c hc x hx => (h.sound.mark_done_iff x (h.sound.listed.lt c hc x hx)).mpr ⟨c, hc, hx⟩
  have hlisted := h.sound.listed
  refine ⟨?_, ?_, ?_, ?_, List.pairwise_cons.mpr ⟨fun c hc x hx y hy hxy => ?_, hlisted.order⟩⟩
  · exact List.forall_mem_cons.mpr ⟨by simp [Search.top], hlisted.ne_nil⟩
  · exact List.forall_mem_cons.mpr ⟨hlt, hlisted.lt⟩
  · rw [List.flatten_cons, List.nodup_append]
    refine ⟨h.nodup_top, hlisted.nodup, ?_⟩
    rintro x hx y hy rfl
    obtain ⟨c, hc, hxc⟩ := List.mem_flatten.mp hy
    exact hopen x hx (hdone c hc x hxc)
  · refine List.forall_mem_cons.mpr ⟨fun x hx w => ⟨fun hw => ?_, fun ⟨hxw, hwx⟩ => ?_⟩,
      hlisted.mem_iff⟩
    · obtain ⟨hvx, hxv⟩ := h.reaches_of_mem_top hs hx
      obtain ⟨hvw, hwv⟩ := h.reaches_of_mem_top hs hw
      exact ⟨hxv.trans hvw, hwv.trans hvx⟩
    · have hclosed := hxw.mem_of_closed (S := fun y => y ∈ t.top v ∨ t.mark y = .done)
        (fun y hy z hyz => ?_) (.inl hx)
      · rcases hclosed with hw | hw
        · exact hw
        · -- complete components are left by no path
          exact absurd (h.sound.done_of_reaches hw hwx) (hopen x hx)
      · rcases hy with hy | hy
        · exact h.top_closed hs hy hyz
        · exact .inr (h.sound.done y hy z hyz)
  · exact hopen y hy (h.sound.done x (hdone c hc x hx) y hxy)

theorem grows_closeNode (h : Scanned n succ trail v s ws low t) (hs : Entered n succ trail v s) :
    s.Grows (t.closeNode v) := by
  have hgrows := h.grows_start hs
  refine ⟨h.stack_closeNode ▸ List.suffix_refl _, fun x i hx => ?_, fun x hx => ?_, hgrows.opened⟩
  · rw [Search.mark_closeNode, if_neg]
    · exact hgrows.active x i hx
    · intro hmem
      exact (h.mem_top_iff.mp hmem).2 ((hs.sound.mem_stack_iff x).mpr ⟨i, hx⟩)
  · rw [Search.mark_closeNode]
    split
    · rfl
    · exact hgrows.done x hx

theorem mark_closeNode_done_iff :
    (t.closeNode v).mark x = .done ↔ x ∈ t.top v ∨ t.mark x = .done := by
  rw [Search.mark_closeNode]
  split <;> simp_all

theorem mark_closeNode_unseen_iff (h : Scanned n succ trail v s ws low t) :
    (t.closeNode v).mark x = .unseen ↔ t.mark x = .unseen := by
  rw [Search.mark_closeNode]
  split
  · rename_i hx
    simpa using fun hx' => h.sound.not_mem_stack_of_unseen hx' (h.mem_top_iff.mp hx).1
  · rfl

/-- Closing a component restores the stack, and with it what was known about its nodes. -/
theorem sound_closeNode (h : Scanned n succ trail v s (succ v) s.opened t)
    (hs : Entered n succ trail v s) : (t.closeNode v).Sound n succ trail := by
  have hgrows := h.grows_closeNode hs
  have hstack := h.stack_closeNode
  have hrank : ∀ x ∈ s.stack, (t.closeNode v).rank x = s.rank x :=
    fun x hx => hgrows.rank_eq hs.sound hx
  constructor
  case size => exact Search.size_closeNode.trans h.sound.size
  case mem_stack_iff =>
    intro x
    rw [hstack, Search.mark_closeNode]
    constructor
    · intro hx
      rw [if_neg fun hmem => (h.mem_top_iff.mp hmem).2 hx]
      exact (h.sound.mem_stack_iff x).mp ((h.grows_start hs).mem_stack hx)
    · rintro ⟨i, hi⟩
      split at hi
      · cases hi
      · rename_i hxtop
        by_contra hxs
        exact hxtop (h.mem_top_iff.mpr ⟨(h.sound.mem_stack_iff x).mpr ⟨i, hi⟩, hxs⟩)
  case descending =>
    rw [hstack]
    refine hs.sound.descending.imp_of_mem fun {x y} hx hy hlt => ?_
    rw [hrank x hx, hrank y hy]
    exact hlt
  case rank_lt =>
    intro x hx
    rw [hstack] at hx
    rw [hrank x hx]
    exact Nat.lt_of_lt_of_le (hs.sound.rank_lt x hx) hgrows.opened
  case trail_stack =>
    rw [hstack]
    exact hs.sound.trail_stack
  case met =>
    intro x hx hxt w hw
    rw [ne_eq, h.mark_closeNode_unseen_iff] at hx ⊢
    by_cases hxv : x = v
    · exact h.met w (mem_inBounds.mp (hxv ▸ hw)).2.1
    · exact h.sound.met x hx (by simp [hxv, hxt]) w hw
  case done =>
    intro x hx w hw
    rw [mark_closeNode_done_iff] at hx ⊢
    rcases hx with hx | hx
    · exact h.top_closed hs hx hw
    · exact .inr (h.sound.done x hx w hw)
  case to_trail =>
    intro x hx
    rw [hstack] at hx
    obtain ⟨u, hu, hle, hxu⟩ := hs.sound.to_trail x hx
    refine ⟨u, hu, ?_, hxu⟩
    rw [hrank u (hs.sound.trail_stack u hu), hrank x hx]
    exact hle
  case from_trail =>
    intro u hu x hx hle
    rw [hstack] at hx
    rw [hrank u (hs.sound.trail_stack u hu), hrank x hx] at hle
    exact hs.sound.from_trail u hu x hx hle
  case listed => exact h.listed_closeNode hs
  case mark_done_iff =>
    intro x hx
    change _ ↔ ∃ c ∈ t.top v :: t.found, x ∈ c
    rw [mark_closeNode_done_iff, h.sound.mark_done_iff x hx]
    simp

theorem close (h : Scanned n succ trail v s (succ v) s.opened t) (hs : Entered n succ trail v s) :
    Finished n succ trail v s s.opened (t.closeNode v) := by
  refine ⟨h.sound_closeNode hs, h.grows_closeNode hs, ?_, fun x hx hxt => ?_,
    fun hlt => absurd hlt (Nat.lt_irrefl _), fun x hx hxs => ?_⟩
  · rw [Search.mark_closeNode, if_pos (by simp [Search.top])]
    nofun
  · rw [Search.mark_closeNode] at hxt
    split at hxt
    · rename_i hmem
      exact (h.reaches_of_mem_top hs hmem).1
    · exact h.new x hx hxt
  · rw [h.stack_closeNode] at hx
    exact absurd hx hxs

end Scanned

/-! ### Whole searches -/

/-- Following one edge, given what searches from unseen nodes achieve. -/
theorem Scanned.follow {fuel : Nat} (h : Scanned n succ trail v s ws low t)
    (hs : Entered n succ trail v s) (hvw : w ∈ succ v)
    (hvisit : Entered n succ (v :: trail) w t →
      Finished n succ (v :: trail) w t (visit succ fuel w t).1 (visit succ fuel w t).2) :
    Scanned n succ trail v s (ws ++ [w]) (follow succ fuel (low, t) w).1
      (follow succ fuel (low, t) w).2 := by
  unfold Components.follow
  cases hw : t.mark w with
  | unseen =>
    have hentered := h.entered hs hw hvw
    exact h.of_finished hs hentered (hvisit hentered)
  | active i => exact h.of_active hs hw hvw
  | done => exact h.of_done hs hw

/-- Opening `v` has used up one of the unseen nodes. -/
theorem Scanned.card_unseen_le {fuel : Nat} (h : Scanned n succ trail v s ws low t)
    (hs : Entered n succ trail v s) (hfuel : (s.unseen n).card ≤ fuel + 1) :
    (t.unseen n).card ≤ fuel := by
  have hopened := hs.sound.card_unseen_openNode hs.unseen
  have hgrows := Finset.card_le_card (h.grows.unseen_subset (n := n))
  omega

/-- The search from a node, if there is fuel for the unseen nodes. -/
theorem finished_visit (n : Nat) (succ : Nat → List Nat) (fuel : Nat) {trail : List Nat} {v : Nat}
    {s : Search} (hs : Entered n succ trail v s) (hfuel : (s.unseen n).card ≤ fuel) :
    Finished n succ trail v s (visit succ fuel v s).1 (visit succ fuel v s).2 := by
  induction fuel generalizing trail v s with
  | zero =>
    have hpos := hs.card_unseen_pos
    omega
  | succ fuel ih =>
    have hscan : Scanned n succ trail v s (succ v)
        ((succ v).foldl (Components.follow succ fuel) (s.opened, s.openNode v)).1
        ((succ v).foldl (Components.follow succ fuel) (s.opened, s.openNode v)).2 := by
      refine foldl_invariant (I := fun ws (r : Nat × Search) =>
        Scanned n succ trail v s ws r.1 r.2) hs.scanned_nil fun ws w rest r hsucc h => ?_
      have hw : w ∈ succ v := by simp [hsucc]
      exact h.follow hs hw fun hentered => ih hentered (h.card_unseen_le hs hfuel)
    rw [visit_succ]
    dsimp only
    split
    · rename_i hlow
      rw [hlow] at hscan ⊢
      exact hscan.close hs
    · rename_i hlow
      exact hscan.leave hs (Nat.lt_of_le_of_ne hscan.low_le hlow)

end Scan

/-- Between searches from the roots no node is open. -/
structure Search.AtRest (n : Nat) (succ : Nat → List Nat) (roots : List Nat) (s : Search) : Prop
    where
  sound : s.Sound n succ []
  met : ∀ v ∈ roots, s.mark v ≠ .unseen
  reached : ∀ v, v < n → s.mark v ≠ .unseen → ∃ u ∈ roots, u < n ∧ Reaches (inBounds n succ) u v

theorem Search.AtRest.visitRoot {roots : List Nat} (h : s.AtRest n succ roots) (v : Nat) :
    (visitRoot succ n s v).AtRest n succ (roots ++ [v]) := by
  unfold Components.visitRoot
  split
  · rename_i hv
    have hfin := finished_visit n succ n ⟨h.sound, hv, nofun⟩ (s.card_unseen_le n)
    refine ⟨hfin.sound, fun x hx => ?_, fun x hx hmet => ?_⟩
    · rcases List.mem_append.mp hx with hx | hx
      · exact hfin.grows.met (h.met x hx)
      · rw [List.mem_singleton.mp hx]
        exact hfin.met
    · by_cases hxs : s.mark x = .unseen
      · exact ⟨v, by simp, h.sound.lt_of_unseen hv, hfin.new x hxs hmet⟩
      · obtain ⟨u, hu, hreach⟩ := h.reached x hx hxs
        exact ⟨u, List.mem_append_left _ hu, hreach⟩
  · rename_i hv
    refine ⟨h.sound, fun x hx => ?_, fun x hx hmet => ?_⟩
    · rcases List.mem_append.mp hx with hx | hx
      · exact h.met x hx
      · rw [List.mem_singleton.mp hx]
        exact hv
    · obtain ⟨u, hu, hreach⟩ := h.reached x hx hmet
      exact ⟨u, List.mem_append_left _ hu, hreach⟩

theorem atRest_foldl_visitRoot (n : Nat) (succ : Nat → List Nat) (roots : List Nat) :
    (roots.foldl (visitRoot succ n) (.start n)).AtRest n succ roots := by
  have hstart : (Search.start n).AtRest n succ [] := by
    refine ⟨.start n succ, nofun, fun v hv hmet => ?_⟩
    rw [Search.mark_eq_getD, Search.start, Array.getElem?_replicate, if_pos hv] at hmet
    exact absurd rfl hmet
  exact foldl_invariant (I := fun seen (s : Search) => s.AtRest n succ seen) hstart
    fun _ v _ _ _ h => h.visitRoot v

end Components

open Components

/-- An edge leads to the same component or to one that was completed earlier. -/
theorem Components.Listed.mem_of_edge {n : Nat} {succ : Nat → List Nat}
    {later earlier : List (List Nat)} {c : List Nat} (h : Listed n succ (later ++ c :: earlier))
    {v w : Nat} (hw : ∃ d ∈ later ++ c :: earlier, w ∈ d) (hv : v ∈ c)
    (hvw : w ∈ inBounds n succ v) : w ∈ c ∨ ∃ d ∈ earlier, w ∈ d := by
  obtain ⟨d, hd, hwd⟩ := hw
  rw [List.mem_append, List.mem_cons] at hd
  rcases hd with hd | rfl | hd
  · have horder := (List.pairwise_append.mp h.order).2.2 d hd c List.mem_cons_self
    exact absurd hvw (horder v hv w hwd)
  · exact .inl hwd
  · exact .inr ⟨d, hd, hwd⟩

/-- The nodes of a component with a cycle lie on cycles. -/
theorem Components.Listed.isNontrivial_iff {n : Nat} {succ : Nat → List Nat}
    {found : List (List Nat)} (h : Listed n succ found) {c : List Nat} (hc : c ∈ found) {v : Nat}
    (hv : v ∈ c) : isNontrivial succ c = true ↔ OnCycle (inBounds n succ) v := by
  have hlt := h.lt c hc
  have hmem := h.mem_iff c hc
  have hnodup : c.Nodup := (List.nodup_flatten.mp h.nodup).1 c hc
  match c with
  | [u] =>
    -- a node alone in its component is on a cycle only by an edge to itself
    obtain rfl : v = u := List.mem_singleton.mp hv
    rw [isNontrivial, List.contains_iff_mem]
    constructor
    · intro hself
      exact ⟨v, mem_inBounds.mpr ⟨hlt v hv, hself, hlt v hv⟩, .refl⟩
    · rintro ⟨w, hvw, hwv⟩
      have hw : w ∈ [v] := (hmem v hv w).mpr ⟨.single hvw, hwv⟩
      rw [List.mem_singleton] at hw
      rw [hw] at hvw
      exact (mem_inBounds.mp hvw).2.1
  | u₁ :: u₂ :: us =>
    refine iff_of_true rfl ?_
    -- the component has a second node, and the path to it starts with an edge
    obtain ⟨w, hw, hwv⟩ : ∃ w ∈ u₁ :: u₂ :: us, w ≠ v := by
      by_cases hu : u₁ = v
      · refine ⟨u₂, by simp, ?_⟩
        rintro rfl
        simp [hu] at hnodup
      · exact ⟨u₁, List.mem_cons_self, hu⟩
    obtain ⟨hreach, hback⟩ := (hmem v hv w).mp hw
    rcases hreach.cases_head with heq | ⟨b, hvb, hbw⟩
    · exact absurd heq.symm hwv
    · exact ⟨b, hvb, hbw.trans hback⟩

variable {n : Nat} {succ : Nat → List Nat} {roots : List Nat}

/-- The components come out distinct and complete, each after the ones it leads to. -/
theorem listed_components : Listed n succ (components n succ roots).reverse := by
  rw [components, List.reverse_reverse]
  exact (atRest_foldl_visitRoot n succ roots).sound.listed

/-- The components are those of the nodes that some root reaches. -/
theorem exists_mem_components_iff {v : Nat} :
    (∃ c ∈ components n succ roots, v ∈ c) ↔
      ∃ u ∈ roots, u < n ∧ Reaches (inBounds n succ) u v := by
  have hrest := atRest_foldl_visitRoot n succ roots
  -- where the trail is empty, so is the stack
  have hdone : ∀ u ∈ roots, (roots.foldl (visitRoot succ n) (.start n)).mark u = .done := by
    intro u hu
    rcases hrest.sound.mem_stack_or_done (hrest.met u hu) with hstack | hdone
    · obtain ⟨_, hmem, _⟩ := hrest.sound.to_trail u hstack
      exact absurd hmem List.not_mem_nil
    · exact hdone
  simp only [components, List.mem_reverse]
  constructor
  · rintro ⟨c, hc, hvc⟩
    have hv := hrest.sound.listed.lt c hc v hvc
    refine hrest.reached v hv ?_
    rw [(hrest.sound.mark_done_iff v hv).mpr ⟨c, hc, hvc⟩]
    nofun
  · rintro ⟨u, hu, hun, huv⟩
    have hvn : v < n :=
      huv.mem_of_closed (S := (· < n)) (fun _ _ _ h => (mem_inBounds.mp h).2.2) hun
    exact (hrest.sound.mark_done_iff v hvn).mp
      (hrest.sound.done_of_reaches (hdone u hu) huv)

end TemporalMonitor
