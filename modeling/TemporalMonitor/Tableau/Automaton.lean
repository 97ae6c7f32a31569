import TemporalMonitor.Automaton.Omega
import TemporalMonitor.Tableau.Basic

/-!
# The automaton of a tableau

The states of a tableau are the nodes of a generalized Büchi automaton. An edge into a state asks
for the literals recorded there. For every until among the subformulas there is one acceptance set:
the states where its right side holds or it is not recorded, so that no run puts it off for ever.

## Main definitions

* `Formula.toLiteral?` — propositions and negated propositions as literals
* `Tableau.toAutomaton`
-/

namespace TemporalMonitor

/-- A proposition or negated proposition as a literal. -/
def Formula.toLiteral? : Formula → Option Literal
  | .prop name => some ⟨name, true⟩
  | .not (.prop name) => some ⟨name, false⟩
  | _ => none

namespace Tableau

/-- The name of the node of a state. -/
def State.name (q : State) : String := if q.id = 0 then "init" else "s" ++ toString q.id

/-- The literals recorded in a state. -/
def State.literals (q : State) : Cube := .ofList (q.old.toList.filterMap Formula.toLiteral?)

/-- Whether a state settles an until: its right side is recorded, or the until is not. -/
def State.settles (q : State) : Formula → Bool
  | .until f g => q.old.contains g || !q.old.contains (.until f g)
  | _ => true

/-- The edges that leave a state for the given nodes. -/
def edgesFrom (nodes : List State) (q : State) : List Edge :=
  nodes.zipIdx.filterMap fun (r, i) =>
    if r.incoming.contains q.id then some ⟨i, .ofCube r.literals⟩ else none

/-- The nodes that settle an until. -/
def settlingNodes (nodes : List State) (u : Formula) : SortedSet NodeId :=
  .ofList (nodes.zipIdx.filterMap fun (q, i) => if q.settles u then some i else none)

/-- The generalized Büchi automaton of a tableau. -/
def toAutomaton (t : Tableau) : GeneralizedBuchiAutomaton State where
  graph :=
    { nodes := (t.nodes.map fun q => ⟨q.name, q.literals, q, edgesFrom t.nodes q⟩).toArray
      initial := some 0 }
  acceptance := ⟨t.root.untils.toList.map (settlingNodes t.nodes)⟩

end Tableau

end TemporalMonitor
