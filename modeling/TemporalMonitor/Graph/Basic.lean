import TemporalMonitor.Guard.Basic

/-!
# Guarded graphs

The graph of an automaton: nodes in the order of their creation, each with a name, the literals it
is labelled with, what it stands for, and its outgoing edges in the order they were added. A node
is referred to by its position, and at most one node is the initial one.

## Main definitions

* `Edge`, `Node`, `Graph`
* `Graph.addNode`, `Graph.addEdge` — building a graph
* `Graph.edgesOf`, `Graph.transitions` — the edges of a node and of the graph
* `Graph.post`, `Graph.postSet` — successors through the edges with a suitable guard
* `Graph.WellFormed` — every position mentioned is one of a node
-/

namespace TemporalMonitor

/-- The position of a node in its graph. -/
abbrev NodeId := Nat

/-- How a node is referred to in text. -/
def NodeId.render (id : NodeId) : String := "n" ++ toString id

/-- An outgoing edge: where it leads, and when it may be taken. -/
structure Edge where
  target : NodeId
  guard : Guard
deriving DecidableEq

/-- A node that stands for a value of type `κ`. -/
structure Node (κ : Type) where
  name : String
  labels : Cube
  /-- What the node stands for. -/
  origin : κ
  edges : List Edge
deriving DecidableEq

/-- A graph whose nodes stand for values of type `κ`. -/
structure Graph (κ : Type) where
  /-- The nodes, in the order of their creation. -/
  nodes : Array (Node κ)
  initial : Option NodeId
deriving DecidableEq

/-- An edge together with the node it leaves. -/
structure Transition where
  source : NodeId
  edge : Edge
deriving DecidableEq

/-- A node that stands for nothing but itself. -/
def Node.plain (name : String) (labels : Cube) : Node Unit := ⟨name, labels, (), []⟩

namespace Graph

variable {κ : Type}

/-- The graph without nodes. -/
def empty : Graph κ := ⟨#[], none⟩

/-- The number of nodes. -/
def size (g : Graph κ) : Nat := g.nodes.size

/-- Appends a node. -/
def addNode (g : Graph κ) (node : Node κ) : Graph κ := { g with nodes := g.nodes.push node }

/-- Appends an edge to those of a node. -/
def addEdge (g : Graph κ) (source : NodeId) (edge : Edge) : Graph κ :=
  { g with nodes := g.nodes.modify source fun n => { n with edges := n.edges ++ [edge] } }

/-- The outgoing edges of a node. -/
def edgesOf (g : Graph κ) (id : NodeId) : List Edge :=
  match g.nodes[id]? with
  | some node => node.edges
  | none => []

/-- The name of a node. -/
def nameOf (g : Graph κ) (id : NodeId) : String :=
  match g.nodes[id]? with
  | some node => node.name
  | none => ""

/-- The positions of the nodes. -/
def nodeIds (g : Graph κ) : List NodeId := List.range g.size

/-- All edges with the nodes they leave, node by node. -/
def transitions (g : Graph κ) : List Transition :=
  g.nodeIds.flatMap fun id => (g.edgesOf id).map (Transition.mk id)

/-- The number of edges. -/
def edgeCount (g : Graph κ) : Nat := g.transitions.length

/-- The targets of the edges of a node whose guards satisfy `p`. -/
def post (g : Graph κ) (p : Guard → Bool) (id : NodeId) : SortedSet NodeId :=
  .ofList (((g.edgesOf id).filter (p ·.guard)).map Edge.target)

/-- The targets of the edges of several nodes whose guards satisfy `p`. -/
def postSet (g : Graph κ) (p : Guard → Bool) (ids : SortedSet NodeId) : SortedSet NodeId :=
  ids.flatMap fun id => ((g.edgesOf id).filter (p ·.guard)).map Edge.target

/-- The distinct guards of the edges of several nodes, in the order of their first occurrence. -/
def guardsOf (g : Graph κ) (ids : SortedSet NodeId) : List Guard :=
  (ids.toList.flatMap fun id => (g.edgesOf id).map Edge.guard).eraseDups

/-- The first node of a name. -/
def findNode (g : Graph κ) (name : String) : Option NodeId :=
  g.nodes.findIdx? fun n => n.name == name

/-- Replaces the edges of every node. -/
def mapEdges (f : List Edge → List Edge) (g : Graph κ) : Graph κ :=
  { g with nodes := g.nodes.map fun n => { n with edges := f n.edges } }

/-- Every edge leads to a node, and the initial node is a node. -/
def WellFormed (g : Graph κ) : Prop :=
  (∀ id, ∀ e ∈ g.edgesOf id, e.target < g.size) ∧ ∀ id ∈ g.initial, id < g.size

end Graph

end TemporalMonitor
