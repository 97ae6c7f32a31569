import Std.Data.TreeMap
import TemporalMonitor.Graph.Basic

/-!
# Graphs by discovery

Many automata are built by starting from one value and following a successor function until
nothing new is met. The values are numbered in the order in which they are met, and the value met
last is the first to be looked at. Its edges are drawn while its successors are met.

## Main definitions

* `Numbering` — distinct values numbered in order, with a look-up of their numbers
* `Discovery` — a graph under construction, with the values that are still to be looked at
* `Graph.generate` — the graph of the values met

## Main results

* `Numbering.number?_eq_some_iff` — the number of a value is its position
-/

namespace TemporalMonitor

/-- Distinct values numbered in order. -/
structure Numbering (κ : Type) [Ord κ] where
  /-- The values, in the order of their numbers. -/
  values : Array κ
  /-- The number of each value. -/
  index : Std.TreeMap κ Nat
  index_iff : ∀ (k : κ) (i : Nat), index[k]? = some i ↔ values[i]? = some k

namespace Numbering

variable {κ : Type} [Ord κ] [Std.LawfulEqOrd κ] [Std.TransOrd κ]
variable {n : Numbering κ} {j k : κ} {i : Nat}

/-- No value is numbered. -/
def empty : Numbering κ := ⟨#[], ∅, by simp⟩

/-- The number of a value. -/
def number? (n : Numbering κ) (k : κ) : Option Nat := n.index[k]?

omit [Std.LawfulEqOrd κ] [Std.TransOrd κ] in
theorem number?_eq_some_iff : n.number? k = some i ↔ n.values[i]? = some k :=
  n.index_iff k i

theorem index_iff_push (h : n.number? k = none) :
    (n.index.insert k n.values.size)[j]? = some i ↔ (n.values.push k)[i]? = some j := by
  rw [Std.TreeMap.getElem?_insert, Array.getElem?_push]
  by_cases hkj : k = j
  · subst hkj
    have hne : n.values[i]? ≠ some k := fun hi => by
      rw [number?_eq_some_iff.mpr hi] at h
      cases h
    by_cases hi : i = n.values.size
    · simp [hi]
    · simp [hi, hne, Ne.symm hi]
  · have hc : compare k j ≠ .eq := fun he => hkj (Std.LawfulEqOrd.eq_of_compare he)
    by_cases hi : i = n.values.size
    · have := n.index_iff j n.values.size
      simp_all
    · simp [hi, hc, n.index_iff j i]

/-- Gives a value the next number, unless it has one. -/
def add (n : Numbering κ) (k : κ) : Numbering κ :=
  if h : n.number? k = none then
    ⟨n.values.push k, n.index.insert k n.values.size, fun _ _ => index_iff_push h⟩
  else n

end Numbering

variable {κ : Type} [Ord κ] [Std.LawfulEqOrd κ] [Std.TransOrd κ]

/-- The values met so far, those of them that are still to be looked at, and the graph drawn so far,
in which the node of a value is its number. -/
structure Discovery (κ : Type) [Ord κ] where
  found : Numbering κ
  /-- The values to be looked at, the next one first. -/
  pending : List κ
  graph : Graph κ

namespace Discovery

variable (describe : κ → String × Cube) (succ : κ → List (Guard × κ))

/-- Nothing has been met. -/
def empty : Discovery κ := ⟨.empty, [], .empty⟩

/-- Meets a value, and gives its node. A value that is new gets a node without edges and is to be
looked at next. -/
def meet (d : Discovery κ) (k : κ) : NodeId × Discovery κ :=
  match d.found.number? k with
  | some id => (id, d)
  | none =>
    (d.graph.size,
      { found := d.found.add k
        pending := k :: d.pending
        graph := d.graph.addNode
          { name := (describe k).1, labels := (describe k).2, origin := k, edges := [] } })

/-- Meets a successor of the value of the node `source`, and draws the edge to it. -/
def link (source : NodeId) (d : Discovery κ) (s : Guard × κ) : Discovery κ :=
  let met := d.meet describe s.2
  { met.2 with graph := met.2.graph.addEdge source ⟨met.1, s.1⟩ }

/-- Looks at a value: its edges are drawn in turn. -/
def look (d : Discovery κ) (k : κ) : Discovery κ :=
  let met := d.meet describe k
  (succ k).foldl (link describe met.1) met.2

/-- Looks at pending values, at most `fuel` of them. -/
def run : (fuel : Nat) → Discovery κ → Discovery κ
  | 0, d => d
  | fuel + 1, d =>
    match d.pending with
    | [] => d
    | k :: pending => run fuel (look describe succ { d with pending } k)

end Discovery

/-- The graph of the values met from `start`, which becomes the initial node. The function `describe`
gives a value its name and labels, and `succ` its edges. All reachable values are met if there are
no more than `bound`. -/
def Graph.generate (describe : κ → String × Cube) (succ : κ → List (Guard × κ)) (bound : Nat)
    (start : κ) : Graph κ :=
  let met := Discovery.empty.meet describe start
  { (Discovery.run describe succ bound met.2).graph with initial := some met.1 }

end TemporalMonitor
