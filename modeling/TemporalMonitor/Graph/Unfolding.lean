import TemporalMonitor.Graph.Basic
import TemporalMonitor.Guard.Partition

/-!
# Disjoint guards and simplified edges

Two ways to change the edges of every node that keep the nodes a valuation leads to.
Unfolding makes the guards at each node pairwise equal or disjoint. Simplifying joins parallel edges:
an edge is dropped if a parallel one asks for less, and two parallel edges that differ in the sign
of one literal become one without that literal.

## Main definitions

* `Graph.unfold` — edges with disjoint guards
* `Graph.simplify` — fewer parallel edges
* `Graph.isDeterministic` — no valuation enables edges to two different nodes
-/

namespace TemporalMonitor

/-! ### Unfolding -/

/-- Edges to the same targets with pairwise equal or disjoint guards. -/
def unfoldEdges (edges : List Edge) : List Edge :=
  (partition (edges.map fun e => (e.guard, e.target))).flatMap fun r =>
    r.payloads.toList.map fun target => ⟨target, .cube r.cube⟩

/-- Makes the guards of the edges of every node pairwise equal or disjoint. -/
def Graph.unfold {κ : Type} (g : Graph κ) : Graph κ := g.mapEdges unfoldEdges

/-! ### Simplifying -/

namespace Cube

/-- The common part of two cubes that differ in the sign of one literal. -/
def joinAdjacent (c d : Cube) : Option Cube :=
  if c.size = d.size then
    match c.toList.filter (fun l => !d.contains l), d.toList.filter (fun l => !c.contains l) with
    | [l], [m] => if l.name = m.name then some (c.erase l) else none
    | _, _ => none
  else none

/-- The cubes that do not ask for more than another one. -/
def dropImplied (cs : List Cube) : List Cube :=
  cs.filter fun c => !cs.any fun d => d != c && implies c d

/-- Two cubes that can be joined, with the cube that they join to. -/
structure Joint where
  fst : Cube
  snd : Cube
  joined : Cube

/-- The first two cubes of a list that can be joined. -/
def findJoint : List Cube → Option Joint
  | [] => none
  | c :: cs =>
    match cs.findSome? (fun d => (joinAdjacent c d).map (Joint.mk c d)) with
    | some j => some j
    | none => findJoint cs

/-- Replaces the two cubes by what they join to, which goes to the end unless it is there. -/
def Joint.apply (j : Joint) (cs : List Cube) : List Cube :=
  let kept := cs.filter fun c => c != j.fst && c != j.snd
  if kept.contains j.joined then kept else kept ++ [j.joined]

/-- Drops implied cubes and joins two cubes, again and again, for at most `fuel` rounds. Every round
but the last shortens the list. -/
def mergeRounds : (fuel : Nat) → List Cube → List Cube
  | 0, cs => cs
  | fuel + 1, cs =>
    let kept := dropImplied cs
    match findJoint kept with
    | some j => mergeRounds fuel (j.apply kept)
    | none => kept

/-- Cubes satisfied by the same valuations, none implying another and no two joinable. -/
def merge (cs : List Cube) : List Cube :=
  let distinct := (SortedSet.ofList (cs.filter isConsistent)).toList
  mergeRounds (distinct.length + 1) distinct

end Cube

/-- The cubes of the edges to one target. -/
def cubesTo (edges : List Edge) (target : NodeId) : List Cube :=
  edges.filterMap fun e =>
    match e.guard with
    | .cube c => if e.target = target then some c else none
    | .never => none

/-- Edges that lead to the same targets at the same valuations, grouped by target, with the cubes
of parallel edges merged. -/
def simplifyEdges (edges : List Edge) : List Edge :=
  ((edges.filter (·.guard.isCube)).map Edge.target).eraseDups.flatMap fun target =>
    (Cube.merge (cubesTo edges target)).map fun c => ⟨target, .cube c⟩

/-- Merges the parallel edges of every node. -/
def Graph.simplify {κ : Type} (g : Graph κ) : Graph κ := g.mapEdges simplifyEdges

/-! ### Determinism -/

/-- Whether two edges lead to the same node or can never be taken at the same valuation. -/
def Edge.compatible (e f : Edge) : Bool := e.target == f.target || e.guard.isDisjointFrom f.guard

/-- Whether no valuation enables edges of one node to two different nodes. -/
def Graph.isDeterministic {κ : Type} (g : Graph κ) : Bool :=
  g.nodes.all fun n => n.edges.Pairwise (fun e f => e.compatible f)

end TemporalMonitor
