import TemporalMonitor.Automaton.Finite
import TemporalMonitor.Graph.Discovery
import TemporalMonitor.Graph.Unfolding
import TemporalMonitor.Synthesis.Error

/-!
# The subset construction

A deterministic automaton whose nodes stand for the sets of nodes that a word can lead to. The
edges of a set follow the distinct guards of its members if these are pairwise disjoint. Otherwise
the guards are first cut into disjoint cubes, and a cube leads to the targets of every guard that
covers it.

## Main definitions

* `FiniteAutomaton.powerSet` — the subset construction
* `FiniteAutomaton.determinize` — the same with parallel edges merged
-/

namespace TemporalMonitor

/-- An automaton whose nodes stand for sets of nodes. -/
abbrev PowerSetAutomaton := FiniteAutomaton (SortedSet NodeId)

/-- The name of a set, given the names of its members. -/
def memberNames (names : List String) : String := "\x7b" ++ ",".intercalate names ++ "\x7d"

namespace FiniteAutomaton

variable {κ : Type}

/-- The distinct guards of the edges of the members that are cubes, each with the targets of the
edges that carry it. -/
def guardedTargets (a : FiniteAutomaton κ) (members : SortedSet NodeId) :
    List (Guard × SortedSet NodeId) :=
  ((a.graph.guardsOf members).filter Guard.isCube).map fun guard =>
    (guard, a.graph.postSet (· == guard) members)

/-- Whether no valuation meets two of the guards. -/
def areDisjoint (moves : List (Guard × SortedSet NodeId)) : Bool :=
  moves.Pairwise fun m n => m.1.isDisjointFrom n.1

/-- Disjoint cubes that cover what the guards cover. -/
def disjointCubes (moves : List (Guard × SortedSet NodeId)) : List Cube :=
  (partition ((SortedSet.ofList (moves.map Prod.fst)).toList.map fun g => (g, 0))).map Region.cube

/-- The targets of the guards that cover a cube. -/
def targetsOver (moves : List (Guard × SortedSet NodeId)) (c : Cube) : SortedSet NodeId :=
  .ofList ((moves.filter fun m => m.1.isImpliedBy c).flatMap fun m => m.2.toList)

/-- The edges of a set of nodes. -/
def powerSetSucc (a : FiniteAutomaton κ) (members : SortedSet NodeId) :
    List (Guard × SortedSet NodeId) :=
  let moves := a.guardedTargets members
  if areDisjoint moves then moves
  else (disjointCubes moves).map fun c => (.cube c, targetsOver moves c)

/-- The name of a set of nodes, which has no labels. -/
def describeMembers (a : FiniteAutomaton κ) (members : SortedSet NodeId) : String × Cube :=
  (memberNames (members.toList.map a.graph.nameOf), ∅)

/-- The deterministic automaton that accepts the same words. A set accepts if one of its members
does. -/
def powerSet (a : FiniteAutomaton κ) : Except SynthesisError PowerSetAutomaton :=
  match a.graph.initial with
  | none => .error (.missingInitialNode .determinize)
  | some start =>
    let bound := Nat.pow 2 (a.graph.edgeCount + 1)
    let graph := Graph.generate a.describeMembers a.powerSetSucc bound {start}
    .ok ⟨graph, .ofList (graph.nodeIds.filter fun id =>
      match graph.nodes[id]? with
      | some n => n.origin.any a.isAccepting
      | none => false)⟩

/-- The subset construction, with parallel edges merged. -/
def determinize (a : FiniteAutomaton κ) : Except SynthesisError PowerSetAutomaton :=
  match a.powerSet with
  | .ok d => .ok { d with graph := d.graph.simplify }
  | .error e => .error e

end FiniteAutomaton

end TemporalMonitor
