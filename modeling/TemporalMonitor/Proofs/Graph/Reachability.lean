import Mathlib.Logic.Relation
import Mathlib.Tactic.Choose

/-!
# Reachability

The nodes reached along edges, nodes that lie on a cycle, and infinite paths that come back to such
a node again and again.

## Main definitions

* `Reaches` — a node is reached from another along edges
* `OnCycle` — a node can be reached from itself by at least one edge

## Main results

* `Reaches.mem_of_closed` — a set closed under edges contains whatever it reaches
* `reaches_iff_reflTransGen`, `onCycle_iff_transGen` — both notions as closures of a relation
* `exists_seq_of_step` — steps that can always be taken give an infinite path
* `exists_path_meeting_each` — targets of which each leads to the next are met by one infinite path
* `exists_path_meeting_forever`, `exists_path_meeting_all` — from a node that reaches a node on a
  cycle, or several such nodes that reach one another, some infinite path meets them for ever
* `onCycle_of_met_forever` — what an infinite path meets for ever lies on a cycle
-/

namespace TemporalMonitor

/-- The nodes reached from a node along edges. -/
abbrev Reaches {α : Type} (succ : α → List α) : α → α → Prop :=
  Relation.ReflTransGen fun a b => b ∈ succ a

namespace Reaches

variable {α : Type} {succ : α → List α} {a b c : α}

/-- A set that is closed under edges contains whatever is reached from it. -/
theorem mem_of_closed {S : α → Prop} (hclosed : ∀ x, S x → ∀ y ∈ succ x, S y) (ha : S a)
    (h : Reaches succ a b) : S b := by
  induction h with
  | refl => exact ha
  | tail _ hmem ih => exact hclosed _ ih _ hmem

/-- A path that ends outside a set leaves it by some edge. -/
theorem exists_leaving {S : α → Prop} (ha : S a) (h : Reaches succ a c) (hc : ¬ S c) :
    ∃ x, S x ∧ ∃ y ∈ succ x, ¬ S y ∧ Reaches succ y c := by
  induction h with
  | refl => exact absurd ha hc
  | @tail b c _ hmem ih =>
    by_cases hb : S b
    · exact ⟨b, hb, c, hmem, hc, .refl⟩
    · obtain ⟨x, hx, y, hxy, hy, hyb⟩ := ih hb
      exact ⟨x, hx, y, hxy, hy, hyb.tail hmem⟩

end Reaches

variable {α : Type} {succ : α → List α} {a b m : α}

/-- The node can be reached from itself by at least one edge. -/
def OnCycle (succ : α → List α) (a : α) : Prop := ∃ b ∈ succ a, Reaches succ b a

section Closure

variable {r : α → α → Prop}

theorem reaches_iff_reflTransGen (hr : ∀ x y, y ∈ succ x ↔ r x y) :
    Reaches succ a b ↔ Relation.ReflTransGen r a b := by
  have hsame : (fun x y => y ∈ succ x) = r := by
    funext x y
    exact propext (hr x y)
  rw [Reaches, hsame]

theorem onCycle_iff_transGen (hr : ∀ x y, y ∈ succ x ↔ r x y) :
    OnCycle succ a ↔ Relation.TransGen r a a := by
  rw [Relation.TransGen.head'_iff]
  refine exists_congr fun b => ?_
  rw [hr, reaches_iff_reflTransGen hr]

end Closure

/-! ### Infinite paths -/

/-- If a property holds at the start and can be kept by some step from wherever it holds, there is
an infinite path of such steps. -/
theorem exists_seq_of_step {P : Nat → α → Prop} {R : Nat → α → α → Prop} (h0 : P 0 a)
    (hstep : ∀ i x, P i x → ∃ y, R i x y ∧ P (i + 1) y) :
    ∃ ρ : Nat → α, ρ 0 = a ∧ (∀ i, P i (ρ i)) ∧ ∀ i, R i (ρ i) (ρ (i + 1)) := by
  choose next hnext using hstep
  let walk : (i : Nat) → {x // P i x} := fun i =>
    i.rec ⟨a, h0⟩ fun i x => ⟨next i x.1 x.2, (hnext i x.1 x.2).2⟩
  exact ⟨fun i => (walk i).1, rfl, fun i => (walk i).2,
    fun i => (hnext i (walk i).1 (walk i).2).1⟩

/-- The node reaches `m` by a path of exactly `n` edges. -/
inductive ReachesIn (succ : α → List α) (m : α) : Nat → α → Prop where
  | refl : ReachesIn succ m 0 m
  | head {n : Nat} {x y : α} : y ∈ succ x → ReachesIn succ m n y → ReachesIn succ m (n + 1) x

theorem ReachesIn.eq_of_zero (h : ReachesIn succ m 0 a) : a = m := by
  cases h
  rfl

theorem ReachesIn.exists_head {n : Nat} (h : ReachesIn succ m (n + 1) a) :
    ∃ b ∈ succ a, ReachesIn succ m n b := by
  cases h with
  | head hab hb => exact ⟨_, hab, hb⟩

theorem Reaches.exists_reachesIn (h : Reaches succ a m) : ∃ n, ReachesIn succ m n a := by
  induction h with
  | refl => exact ⟨0, .refl⟩
  | @tail b c _ hmem ih =>
    obtain ⟨n, hn⟩ := ih
    have hsnoc : ∀ n x, ReachesIn succ b n x → ReachesIn succ c (n + 1) x := by
      intro n x hx
      induction hx with
      | refl => exact .head hmem .refl
      | head hxy _ ih => exact .head hxy ih
    exact ⟨n + 1, hsnoc n a hn⟩

/-- A node on its way to one of several targets. -/
structure Walker (α : Type) where
  node : α
  /-- The number of the present target. -/
  goal : Nat
  /-- The number of edges still to go. -/
  left : Nat

/-- The walker can reach its present target by as many edges as it has to go. -/
def Walker.OnTrack (succ : α → List α) (target : Nat → α) (x : Walker α) : Prop :=
  ReachesIn succ (target x.goal) x.left x.node

/-- A walker takes an edge that brings it closer to its target, or has arrived and takes one towards
the next target. -/
theorem Walker.OnTrack.exists_step {target : Nat → α}
    (hnext : ∀ k, ∃ b ∈ succ (target k), Reaches succ b (target (k + 1))) {x : Walker α}
    (hx : x.OnTrack succ target) :
    ∃ y : Walker α, (y.node ∈ succ x.node ∧ (x.left = 0 → y.goal = x.goal + 1) ∧
      (x.left ≠ 0 → y.goal = x.goal ∧ y.left + 1 = x.left)) ∧ y.OnTrack succ target := by
  obtain ⟨x, k, n⟩ := x
  cases n with
  | zero =>
    obtain rfl : x = target k := hx.eq_of_zero
    obtain ⟨b, hb, hbm⟩ := hnext k
    obtain ⟨n, hn⟩ := hbm.exists_reachesIn
    exact ⟨⟨b, k + 1, n⟩, ⟨hb, fun _ => rfl, fun h => absurd rfl h⟩, hn⟩
  | succ n =>
    obtain ⟨y, hxy, hy⟩ := hx.exists_head
    exact ⟨⟨y, k, n⟩, ⟨hxy, fun h => absurd h n.succ_ne_zero, fun _ => ⟨rfl, rfl⟩⟩, hy⟩

/-- Targets each of which reaches the next one by at least one edge are met one after the other by
some infinite path. -/
theorem exists_path_meeting_each {target : Nat → α} (ha : Reaches succ a (target 0))
    (hnext : ∀ k, ∃ b ∈ succ (target k), Reaches succ b (target (k + 1))) :
    ∃ ρ : Nat → α, ρ 0 = a ∧ (∀ i, ρ (i + 1) ∈ succ (ρ i)) ∧ ∀ k, ∃ j, k ≤ j ∧ ρ j = target k := by
  obtain ⟨n, hn⟩ := ha.exists_reachesIn
  have hstart : Walker.OnTrack succ target ⟨a, 0, n⟩ := hn
  obtain ⟨ρ, hzero, htrack, hmove⟩ := exists_seq_of_step
    (P := fun _ x => Walker.OnTrack succ target x) hstart fun _ _ hx => hx.exists_step hnext
  -- the number of edges to go decreases until it is zero, with the same target
  have harrive : ∀ d i, (ρ i).left = d → (ρ (i + d)).goal = (ρ i).goal ∧ (ρ (i + d)).left = 0 := by
    intro d
    induction d with
    | zero => exact fun i hi => ⟨rfl, hi⟩
    | succ d ih =>
      intro i hi
      obtain ⟨hsame, hless⟩ := (hmove i).2.2 (by omega)
      rw [Nat.add_comm d 1, ← Nat.add_assoc, ← hsame]
      exact ih (i + 1) (by omega)
  have harrived : ∀ k, ∃ j, k ≤ j ∧ (ρ j).goal = k ∧ (ρ j).left = 0 := by
    intro k
    induction k with
    | zero =>
      obtain ⟨hsame, hleft⟩ := harrive _ 0 rfl
      exact ⟨_, Nat.zero_le _, by rw [hsame, hzero], hleft⟩
    | succ k ih =>
      obtain ⟨j, hkj, hgoal, hleft⟩ := ih
      obtain ⟨hsame, hleft'⟩ := harrive _ (j + 1) rfl
      exact ⟨_, by omega, by rw [hsame, (hmove j).2.1 hleft, hgoal], hleft'⟩
  refine ⟨fun i => (ρ i).node, congrArg Walker.node hzero, fun i => (hmove i).1, fun k => ?_⟩
  obtain ⟨j, hkj, hgoal, hleft⟩ := harrived k
  have harrival := htrack j
  rw [Walker.OnTrack, hleft, hgoal] at harrival
  exact ⟨j, hkj, harrival.eq_of_zero⟩

/-- A node that reaches a node on a cycle starts an infinite path meeting the latter for ever. -/
theorem exists_path_meeting_forever (ha : Reaches succ a m) (hm : OnCycle succ m) :
    ∃ ρ : Nat → α, ρ 0 = a ∧ (∀ i, ρ (i + 1) ∈ succ (ρ i)) ∧ ∀ i, ∃ j, i ≤ j ∧ ρ j = m :=
  @exists_path_meeting_each _ _ _ (fun _ => m) ha fun _ => hm

/-- Nodes on cycles that all reach one another are all met for ever by some infinite path. The path
goes through them in turn. -/
theorem exists_path_meeting_all {c : List α} (hc : c ≠ []) (ha : ∀ v ∈ c, Reaches succ a v)
    (hconnected : ∀ v ∈ c, ∀ w ∈ c, Reaches succ v w) (hcycle : ∀ v ∈ c, OnCycle succ v) :
    ∃ ρ : Nat → α, ρ 0 = a ∧ (∀ i, ρ (i + 1) ∈ succ (ρ i)) ∧
      ∀ v ∈ c, ∀ i, ∃ j, i ≤ j ∧ ρ j = v := by
  have hpos : 0 < c.length := List.length_pos_iff.mpr hc
  let target : Nat → α := fun k => c.get ⟨k % c.length, Nat.mod_lt k hpos⟩
  have hmem : ∀ k, target k ∈ c := fun k => List.get_mem c _
  have hnext : ∀ k, ∃ b ∈ succ (target k), Reaches succ b (target (k + 1)) := by
    intro k
    obtain ⟨b, hb, hback⟩ := hcycle _ (hmem k)
    exact ⟨b, hb, hback.trans (hconnected _ (hmem k) _ (hmem (k + 1)))⟩
  obtain ⟨ρ, hzero, hpath, hmet⟩ := exists_path_meeting_each (ha _ (hmem 0)) hnext
  refine ⟨ρ, hzero, hpath, fun v hv i => ?_⟩
  obtain ⟨m, rfl⟩ := List.get_of_mem hv
  -- the turn of `v` that comes after `i` rounds
  obtain ⟨j, hj, hjv⟩ := hmet (m + c.length * i)
  have hround : i ≤ c.length * i := Nat.le_mul_of_pos_left i hpos
  have hturn : (m + c.length * i) % c.length = m := by
    rw [Nat.add_mul_mod_self_left, Nat.mod_eq_of_lt m.isLt]
  exact ⟨j, by omega, hjv.trans (congrArg c.get (Fin.ext hturn))⟩

/-! ### What infinite paths meet -/

section Path

variable {ρ : Nat → α}

theorem reaches_of_path (hpath : ∀ i, ρ (i + 1) ∈ succ (ρ i)) {i j : Nat} (hij : i ≤ j) :
    Reaches succ (ρ i) (ρ j) := by
  induction hij with
  | refl => exact .refl
  | step _ ih => exact ih.tail (hpath _)

/-- Every node of an infinite path reaches what the path meets for ever. -/
theorem reaches_of_met_forever (hpath : ∀ i, ρ (i + 1) ∈ succ (ρ i))
    (hm : ∀ i, ∃ j, i ≤ j ∧ ρ j = m) (i : Nat) : Reaches succ (ρ i) m := by
  obtain ⟨j, hij, rfl⟩ := hm i
  exact reaches_of_path hpath hij

/-- What an infinite path meets for ever lies on a cycle. -/
theorem onCycle_of_met_forever (hpath : ∀ i, ρ (i + 1) ∈ succ (ρ i))
    (hm : ∀ i, ∃ j, i ≤ j ∧ ρ j = m) : OnCycle succ m := by
  obtain ⟨j, -, hj⟩ := hm 0
  have hedge := hpath j
  rw [hj] at hedge
  exact ⟨ρ (j + 1), hedge, reaches_of_met_forever hpath hm (j + 1)⟩

end Path

end TemporalMonitor
