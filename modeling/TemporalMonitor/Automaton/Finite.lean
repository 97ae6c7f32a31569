import TemporalMonitor.Automaton.Omega

/-!
# Automata on finite words

A guarded graph with a set of accepting nodes, read as an automaton on finite words.

## Main definitions

* `FiniteAutomaton`
* `FiniteAutomaton.run`, `FiniteAutomaton.accepts` — the nodes a word leads to, and acceptance
* `OmegaAutomaton.project` — the finite words that can be continued to an accepted infinite one
-/

namespace TemporalMonitor

/-- A guarded graph with a set of accepting nodes. -/
structure FiniteAutomaton (κ : Type) where
  graph : Graph κ
  accepting : SortedSet NodeId

namespace FiniteAutomaton

variable {κ : Type}

/-- Whether a node is accepting. -/
def isAccepting (a : FiniteAutomaton κ) (id : NodeId) : Bool := a.accepting.contains id

/-- The nodes that a word leads to from a set of nodes. -/
def runFrom (a : FiniteAutomaton κ) (ids : SortedSet NodeId) (word : List Valuation) :
    SortedSet NodeId :=
  word.foldl (fun ids v => a.graph.postSet (Guard.holds v) ids) ids

/-- The nodes that a word leads to from the initial node. -/
def run (a : FiniteAutomaton κ) (word : List Valuation) : SortedSet NodeId :=
  a.runFrom (.ofList a.graph.initial.toList) word

/-- Whether a word leads to an accepting node. -/
def accepts (a : FiniteAutomaton κ) (word : List Valuation) : Bool :=
  (a.run word).any a.isAccepting

end FiniteAutomaton

/-- The automaton on finite words with the same graph, in which the live nodes accept. -/
def OmegaAutomaton.project {κ : Type} (a : BuchiAutomaton κ) : FiniteAutomaton κ :=
  ⟨a.graph, a.liveNodes⟩

end TemporalMonitor
