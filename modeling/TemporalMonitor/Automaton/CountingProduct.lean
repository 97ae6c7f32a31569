import TemporalMonitor.Automaton.Omega
import TemporalMonitor.Graph.Discovery
import TemporalMonitor.Synthesis.Error

/-!
# From several acceptance sets to one

A generalized Büchi automaton with several sets becomes a Büchi automaton by counting: a node is
paired with the index of the set awaited, and leaving a node of that set moves on to the next index.
Every set is met infinitely often exactly when set 0 is met infinitely often while it is awaited.

With one set or none there is nothing to count: the graph stays as it is, and the one set, or the
set of all nodes, accepts.

## Main definitions

* `CountedNode` — a node with the index of the set awaited
* `OmegaAutomaton.degeneralize` — the Büchi automaton
-/

namespace TemporalMonitor

/-- A node with the index of the acceptance set awaited. -/
structure CountedNode where
  base : NodeId
  index : Nat
deriving DecidableEq

namespace CountedNode

/-- Counted nodes are compared by index first. -/
instance : Ord CountedNode := ⟨compareLex (compareOn index) (compareOn base)⟩

instance : Std.TransOrd CountedNode :=
  inferInstanceAs (Std.TransCmp (compareLex (compareOn index) (compareOn base)))

instance : Std.LawfulEqOrd CountedNode where
  compare_self := Std.ReflOrd.compare_self (α := CountedNode)
  eq_of_compare {a b} h := by
    obtain ⟨hi, hb⟩ := compareLex_eq_eq.mp h
    cases a
    cases b
    cases Std.LawfulEqOrd.eq_of_compare (α := Nat) hi
    cases Std.LawfulEqOrd.eq_of_compare (α := Nat) hb
    rfl

/-- The name of a node with an index. -/
def render (name : String) (index : Nat) : String :=
  "(" ++ name ++ "," ++ toString index ++ ")"

end CountedNode

/-- The same graph with every node paired with index 0. -/
def Graph.withIndexZero {κ : Type} (g : Graph κ) : Graph CountedNode where
  nodes := g.nodes.mapIdx fun i n =>
    { name := CountedNode.render n.name 0, labels := n.labels, origin := ⟨i, 0⟩, edges := n.edges }
  initial := g.initial

namespace OmegaAutomaton

variable {κ : Type}

/-- The name and the labels of a counted node. -/
def describeCounted (a : GeneralizedBuchiAutomaton κ) (c : CountedNode) : String × Cube :=
  match a.graph.nodes[c.base]? with
  | some n => (CountedNode.render n.name c.index, n.labels)
  | none => (CountedNode.render "" c.index, ∅)

/-- The index awaited after a node is left: the next one, in turn, if the node is in the set that is
awaited. -/
def nextIndex (a : GeneralizedBuchiAutomaton κ) (c : CountedNode) : Nat :=
  match a.acceptance.sets[c.index]? with
  | some set => if c.base ∈ set then (c.index + 1) % a.acceptance.sets.length else c.index
  | none => c.index

/-- The edges of a counted node. -/
def countedSucc (a : GeneralizedBuchiAutomaton κ) (c : CountedNode) : List (Guard × CountedNode) :=
  (a.graph.edgesOf c.base).map fun e => (e.guard, ⟨e.target, a.nextIndex c⟩)

/-- The product of the graph with the indices of the sets, as far as it is reached. -/
def countingGraph (a : GeneralizedBuchiAutomaton κ) (start : NodeId) : Graph CountedNode :=
  .generate a.describeCounted a.countedSucc (a.acceptance.sets.length * (a.graph.edgeCount + 1))
    ⟨start, 0⟩

/-- The positions of the nodes that stand for a node of `set` with index 0. -/
def countedAccepting (g : Graph CountedNode) (set : SortedSet NodeId) : SortedSet NodeId :=
  .ofList (g.nodeIds.filter fun id =>
    match g.nodes[id]? with
    | some n => n.origin.index == 0 && set.contains n.origin.base
    | none => false)

/-- The Büchi automaton that accepts the same infinite words. -/
def degeneralize (a : GeneralizedBuchiAutomaton κ) :
    Except SynthesisError (BuchiAutomaton CountedNode) :=
  match a.graph.initial with
  | none => .error (.missingInitialNode .degeneralize)
  | some start =>
    match a.acceptance.sets with
    | [] => .ok ⟨a.graph.withIndexZero, ⟨.ofList a.graph.nodeIds⟩⟩
    | [set] => .ok ⟨a.graph.withIndexZero, ⟨set⟩⟩
    | set :: _ =>
      let graph := a.countingGraph start
      .ok ⟨graph, ⟨countedAccepting graph set⟩⟩

end OmegaAutomaton

end TemporalMonitor
