import TemporalMonitor.Automaton.Finite
import TemporalMonitor.Graph.Dot

/-!
# Drawings of automata

How the nodes of each kind of automaton are marked in its drawing. Under a generalized Büchi
condition a node shows the indices of the sets it belongs to. Under a Rabin condition it shows the
indices of the pairs that name it, with a plus for the accept set and a minus for the reject set.
-/

namespace TemporalMonitor

/-- Accepting nodes are marked, without further text. -/
def Buchi.dotMark (c : Buchi NodeId) (id : NodeId) : Dot.Mark :=
  { accepting := c.accepting.contains id }

/-- A node in some set is marked, with the indices of its sets. -/
def GeneralizedBuchi.dotMark (c : GeneralizedBuchi NodeId) (id : NodeId) : Dot.Mark :=
  match c.memberships id with
  | [] => {}
  | is =>
    { accepting := true
      note := some ("acc \x7b" ++ ",".intercalate (is.map fun i => toString i) ++ "\x7d") }

/-- What a pair with index `i` writes at a node. -/
def RabinPair.notes (i : Nat) (p : RabinPair NodeId) (id : NodeId) : List String :=
  (if p.accept.contains id then ["+" ++ toString i] else []) ++
    (if p.reject.contains id then ["-" ++ toString i] else [])

/-- A node in some accept set is marked, with the indices of the pairs that name it. -/
def Rabin.dotMark (c : Rabin NodeId) (id : NodeId) : Dot.Mark :=
  let notes := c.pairs.zipIdx.flatMap fun (p, i) => p.notes i id
  { accepting := c.pairs.any fun p => p.accept.contains id
    note := if notes.isEmpty then none else some (" ".intercalate notes) }

/-- The drawing of an automaton on finite words. -/
def FiniteAutomaton.dot {κ : Type} (a : FiniteAutomaton κ) : String :=
  a.graph.dot {} fun id => { accepting := a.isAccepting id }

/-- The drawing of an automaton on infinite words, given how its condition marks nodes. -/
def OmegaAutomaton.dot {κ C : Type} (mark : C → NodeId → Dot.Mark) (a : OmegaAutomaton κ C) :
    String :=
  a.graph.dot {} (mark a.acceptance)

end TemporalMonitor
