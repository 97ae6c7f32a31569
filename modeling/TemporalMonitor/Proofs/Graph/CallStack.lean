import TemporalMonitor.Proofs.Graph.Components

/-!
# The search with a stack of calls

A deep search must not use up the stack of the program that runs it. The calls that have not
returned are therefore kept as a list of frames: a node, its edges, and how many of them have been
followed. A loop follows the next edge of the latest frame, and takes the frame off when there is
none. What a search has met so far is kept by node, and handed to the frame below in the end.

The loop does what the recursion does. While the search from a node is under way, the frames below
are left alone, and they know as much as before; when it ends, the latest of them is told what the
recursive search returns, and the state of the search is the one that it leaves.

## Main definitions

* `Components.Frame`, `Components.Machine` — calls as data
* `Components.Machine.step` — one turn of the loop
* `Components.Machine.Returns` — what a call achieves for the frames below

## Main results

* `Components.Machine.returns_visit` — a call returns what the recursive search does
* `Components.Machine.ends_with_components` — the loop ends, with the components of the graph
-/

namespace TemporalMonitor

namespace Components

/-- The search from a node, as long as it has not ended. -/
structure Frame where
  node : Nat
  edges : List Nat
  /-- The number of edges that have been followed. -/
  cursor : Nat

/-- The search with its calls as data. -/
structure Machine where
  /-- The roots that are left. -/
  roots : List Nat
  /-- The calls that have not returned, latest first. -/
  calls : List Frame
  /-- The least index of an open node that the search from a node has met. -/
  low : Nat → Nat
  search : Search

namespace Machine

/-- The machine before the first root. -/
def start (n : Nat) (roots : List Nat) : Machine := ⟨roots, [], fun _ => 0, .start n⟩

/-- Opens a node and calls the search from it. -/
def enter (succ : Nat → List Nat) (m : Machine) (v : Nat) : Machine :=
  { m with
    calls := ⟨v, succ v, 0⟩ :: m.calls
    low := Function.update m.low v m.search.opened
    search := m.search.openNode v }

/-- Tells the latest call of an index that has been met. -/
def report (m : Machine) (i : Nat) : Machine :=
  match m.calls with
  | [] => m
  | c :: _ => { m with low := Function.update m.low c.node (min (m.low c.node) i) }

/-- Follows an edge of the latest call. -/
def cross (succ : Nat → List Nat) (m : Machine) (w : Nat) : Machine :=
  match m.search.mark w with
  | .unseen => m.enter succ w
  | .active i => m.report i
  | .done => m

/-- Returns from the search from `v` to the latest of the calls. -/
def finish (m : Machine) (v : Nat) : Machine :=
  -- the report is idle where a component is completed, since the calls below are older
  let m := m.report (m.low v)
  if m.low v = m.search.rank v then { m with search := m.search.closeNode v } else m

/-- One turn of the loop, unless there is nothing left to do. -/
def step (succ : Nat → List Nat) (m : Machine) : Option Machine :=
  match m.calls, m.roots with
  | c :: cs, _ =>
    match c.edges[c.cursor]? with
    -- the cursor moves on first, since following the edge may put a frame on top
    | some w => some ({ m with calls := { c with cursor := c.cursor + 1 } :: cs }.cross succ w)
    | none => some ({ m with calls := cs }.finish c.node)
  | [], v :: vs =>
    match m.search.mark v with
    | .unseen => some ({ m with roots := vs }.enter succ v)
    | _ => some { m with roots := vs }
  | [], [] => none

/-- The machine gets from one state to another. -/
abbrev Runs (succ : Nat → List Nat) : Machine → Machine → Prop :=
  Relation.ReflTransGen fun m m' => m.step succ = some m'

/-- The nodes that are being searched. -/
abbrev trail (m : Machine) : List Nat := m.calls.map Frame.node

variable {n fuel i : Nat} {succ : Nat → List Nat} {m : Machine} {v w : Nat} {ws : List Nat}
  {r : Nat × Search}

/-! ### Reports -/

theorem report_cons {roots : List Nat} {c : Frame} {cs : List Frame} {low : Nat → Nat}
    {search : Search} : report ⟨roots, c :: cs, low, search⟩ i =
      ⟨roots, c :: cs, Function.update low c.node (min (low c.node) i), search⟩ := rfl

/-- A report changes only what the calls know. -/
theorem report_eq (m : Machine) (i : Nat) : m.report i = { m with low := (m.report i).low } := by
  unfold report
  split <;> rfl

theorem low_report_of_notMem (hv : ¬ v ∈ m.trail) : (m.report i).low v = m.low v := by
  unfold report
  split
  · rfl
  · rename_i c cs hcalls
    have hne : v ≠ c.node := by
      rintro rfl
      exact hv (by simp [trail, hcalls])
    exact Function.update_of_ne hne _ _

/-- Returning tells the latest call of what has been met, and may complete a component. -/
theorem finish_eq (hv : ¬ v ∈ m.trail) : m.finish v =
    ⟨m.roots, m.calls, (m.report (m.low v)).low,
      if m.low v = m.search.rank v then m.search.closeNode v else m.search⟩ := by
  rw [finish, report_eq]
  simp only [low_report_of_notMem hv]
  split <;> rfl

/-- What the calls know after a report depends on what they knew before. -/
theorem low_report_congr {low : Nat → Nat} {search : Search}
    (hlow : ∀ u ∈ m.trail, low u = m.low u) :
    ∀ u ∈ m.trail, (report { m with low, search } i).low u = (m.report i).low u := by
  intro u hu
  unfold report
  cases hcalls : m.calls with
  | nil => exact hlow u hu
  | cons c cs =>
    have hc : low c.node = m.low c.node := hlow _ (by simp [trail, hcalls])
    simp only [Function.update_apply, hc, hlow u hu]

/-! ### The loop over the edges of a node -/

/-- The search from `v` has followed the edges to `ws`, with the result `r` so far, and has left the
calls below alone. -/
def Follows (succ : Nat → List Nat) (m : Machine) (v : Nat) (ws : List Nat) (r : Nat × Search) :
    Prop :=
  ∃ low, (m.enter succ v).Runs succ ⟨m.roots, ⟨v, succ v, ws.length⟩ :: m.calls, low, r.2⟩ ∧
    low v = r.1 ∧ ∀ u ∈ m.trail, low u = m.low u

/-- The call of the search from `v` returns `r`: the state of the search is that of `r`, and the
latest of the other calls has been told of its index. -/
def Returns (succ : Nat → List Nat) (m : Machine) (v : Nat) (r : Nat × Search) : Prop :=
  ∃ low, (m.enter succ v).Runs succ ⟨m.roots, m.calls, low, r.2⟩ ∧
    ∀ u ∈ m.trail, low u = (m.report r.1).low u

theorem notMem_trail (hs : Entered n succ m.trail v m.search) : ¬ v ∈ m.trail := fun hv =>
  hs.sound.not_mem_stack_of_unseen hs.unseen (hs.sound.trail_stack v hv)

theorem follows_nil (hv : ¬ v ∈ m.trail) :
    m.Follows succ v [] (m.search.opened, m.search.openNode v) := by
  refine ⟨_, .refl, Function.update_self _ _ _, fun u hu => Function.update_of_ne ?_ _ _⟩
  rintro rfl
  exact hv hu

/-- One turn of the loop follows one edge, given that calls from unseen nodes return. -/
theorem Follows.append {rest : List Nat} (h : m.Follows succ v ws r) (hv : ¬ v ∈ m.trail)
    (hsucc : succ v = ws ++ w :: rest)
    (hvisit : ∀ low, r.2.mark w = .unseen →
      Returns succ ⟨m.roots, ⟨v, succ v, ws.length + 1⟩ :: m.calls, low, r.2⟩ w
        (visit succ fuel w r.2)) :
    m.Follows succ v (ws ++ [w]) (Components.follow succ fuel r w) := by
  obtain ⟨low, hrun, hself, hbelow⟩ := h
  have hbelow' : ∀ i, ∀ u ∈ m.trail, Function.update low v i u = m.low u := by
    intro i u hu
    have hne : u ≠ v := fun huv => hv (huv ▸ hu)
    rw [Function.update_of_ne hne, hbelow u hu]
  have hturn : (m.enter succ v).Runs succ
      (cross succ ⟨m.roots, ⟨v, succ v, ws.length + 1⟩ :: m.calls, low, r.2⟩ w) :=
    hrun.tail (by simp [step, hsucc])
  rw [Follows, List.length_append, List.length_singleton, Components.follow]
  rw [cross] at hturn
  cases hw : r.2.mark w with
  | unseen =>
    simp only [hw] at hturn
    obtain ⟨low', hcall, hlow⟩ := hvisit low hw
    simp only [report_cons] at hlow
    -- the call returns to the frame of `v`, so the report is for `v` and no other node
    refine ⟨low', hturn.trans hcall, ?_, fun u hu => ?_⟩
    · rw [hlow v List.mem_cons_self, Function.update_self, hself]
    · rw [hlow u (List.mem_cons_of_mem _ hu), hbelow' _ u hu]
  | active i =>
    simp only [hw, report_cons] at hturn
    refine ⟨_, hturn, ?_, hbelow' _⟩
    rw [Function.update_self, hself]
  | done =>
    simp only [hw] at hturn
    exact ⟨low, hturn, hself, hbelow⟩

/-- When all edges have been followed, the frame is taken off and the call returns. -/
theorem Follows.returns (h : m.Follows succ v (succ v) r) (hv : ¬ v ∈ m.trail)
    (hrank : r.2.rank v = m.search.opened) :
    m.Returns succ v (if r.1 = m.search.opened then (r.1, r.2.closeNode v) else r) := by
  obtain ⟨low, hrun, hself, hbelow⟩ := h
  have hturn : (m.enter succ v).Runs succ (finish ⟨m.roots, m.calls, low, r.2⟩ v) :=
    hrun.tail (by simp [step])
  have hfinish := finish_eq (m := ⟨m.roots, m.calls, low, r.2⟩) hv
  simp only [hself, hrank] at hfinish
  rw [hfinish] at hturn
  have hpair : (if r.1 = m.search.opened then (r.1, r.2.closeNode v) else r) =
      (r.1, if r.1 = m.search.opened then r.2.closeNode v else r.2) := by
    split <;> rfl
  rw [hpair]
  exact ⟨_, hturn, low_report_congr hbelow⟩

/-! ### Calls and roots -/

/-- A call returns what the recursive search from the node does. -/
theorem returns_visit (n : Nat) (succ : Nat → List Nat) (fuel : Nat) {m : Machine} {v : Nat}
    (hs : Entered n succ m.trail v m.search) (hfuel : (m.search.unseen n).card ≤ fuel) :
    m.Returns succ v (visit succ fuel v m.search) := by
  induction fuel generalizing m v with
  | zero =>
    have hpos := hs.card_unseen_pos
    omega
  | succ fuel ih =>
    have hv := notMem_trail hs
    let I : List Nat → Nat × Search → Prop := fun ws r =>
      Scanned n succ m.trail v m.search ws r.1 r.2 ∧ m.Follows succ v ws r
    -- both go through the same edges, and at an unseen node the induction applies
    have hloop : I (succ v) ((succ v).foldl (Components.follow succ fuel)
        (m.search.opened, m.search.openNode v)) := by
      refine foldl_invariant ⟨hs.scanned_nil, follows_nil hv⟩ ?_
      rintro ws w rest r hsucc ⟨hscanned, hfollows⟩
      have hw : w ∈ succ v := by simp [hsucc]
      have hunseen := hscanned.card_unseen_le hs hfuel
      exact ⟨hscanned.follow hs hw fun hentered => finished_visit n succ fuel hentered hunseen,
        hfollows.append hv hsucc fun low hmark => ih (hscanned.entered hs hmark hw) hunseen⟩
    rw [visit_succ]
    exact hloop.2.returns hv (hloop.1.rank_self hs)

theorem step_unique (succ : Nat → List Nat) :
    Relator.RightUnique fun m m' : Machine => m.step succ = some m' := by
  intro m a b ha hb
  exact Option.some.inj (ha.symm.trans hb)

/-- The loop over the roots ends in the state that the recursive search ends in. -/
theorem exists_runs_foldl_visitRoot (n : Nat) (succ : Nat → List Nat) (roots : List Nat) :
    ∃ low, (start n roots).Runs succ
      ⟨[], [], low, roots.foldl (visitRoot succ n) (.start n)⟩ := by
  let I : List Nat → Search → Prop := fun seen s => s.AtRest n succ seen ∧
    ∃ low, (start n roots).Runs succ ⟨roots.drop seen.length, [], low, s⟩
  have hloop : I roots (roots.foldl (visitRoot succ n) (.start n)) := by
    refine foldl_invariant ⟨atRest_foldl_visitRoot n succ [], _, .refl⟩ ?_
    rintro seen v rest s hsplit ⟨hrest, low, hrun⟩
    refine ⟨hrest.visitRoot v, ?_⟩
    have hdrop : roots.drop seen.length = v :: rest := by simp [hsplit]
    have hdrop' : roots.drop (seen ++ [v]).length = rest := by simp [hsplit]
    rw [hdrop] at hrun
    rw [hdrop', visitRoot]
    cases hv : s.mark v with
    | unseen =>
      have hentered : Entered n succ [] v s := ⟨hrest.sound, hv, nofun⟩
      obtain ⟨low', hcall, -⟩ :=
        returns_visit n succ n (m := ⟨rest, [], low, s⟩) hentered (s.card_unseen_le n)
      exact ⟨low', (hrun.tail (by simp [step, hv])).trans hcall⟩
    | active i => exact ⟨low, hrun.tail (by simp [step, hv])⟩
    | done => exact ⟨low, hrun.tail (by simp [step, hv])⟩
  obtain ⟨-, low, hrun⟩ := hloop
  rw [List.drop_length] at hrun
  exact ⟨low, hrun⟩

/-- The loop ends, wherever it has come to, and it has found the components then. -/
theorem ends_with_components (n : Nat) (succ : Nat → List Nat) (roots : List Nat) :
    ∃ last : Machine, last.step succ = none ∧
      last.search.found.reverse = components n succ roots ∧
      ∀ m, (start n roots).Runs succ m → m.Runs succ last := by
  obtain ⟨low, hlast⟩ := exists_runs_foldl_visitRoot n succ roots
  refine ⟨⟨[], [], low, _⟩, rfl, rfl, fun m hm => ?_⟩
  rcases hlast.total_of_right_unique (step_unique succ) hm with h | h
  · -- nothing comes after the last state
    rcases h.cases_head with rfl | ⟨m', hstep, -⟩
    · exact .refl
    · cases hstep
  · exact h

end Machine

end Components

end TemporalMonitor
