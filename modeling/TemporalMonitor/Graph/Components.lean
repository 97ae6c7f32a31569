/-!
# Strongly connected components

The strongly connected components of the part of a finite directed graph that is reachable from some
roots, found by one depth-first search. The search gives every node an index when it is opened and
keeps the open nodes on a stack. A node whose search has reached no open node older than itself is
the oldest of its component, which then is the part of the stack down to that node.

Components come out before the ones that lead to them. Inside a component the nodes stand latest
opened first.

## Main definitions

* `components` — the components reachable from some roots
* `isNontrivial` — whether a component contains a cycle
-/

namespace TemporalMonitor

namespace Components

/-- How far the search has come with a node. -/
inductive Mark where
  /-- The node has not been met. -/
  | unseen
  /-- The node is on the stack; it was given this index. -/
  | active (index : Nat)
  /-- The component of the node is complete. -/
  | done
deriving DecidableEq

/-- The state of the search. -/
structure Search where
  /-- How far the search has come with each node. -/
  marks : Array Mark
  /-- The number of nodes opened, which is the next index. -/
  opened : Nat
  /-- The open nodes, latest first. -/
  stack : List Nat
  /-- The components found, latest first. -/
  found : List (List Nat)

namespace Search

/-- The search before any of the `n` nodes is met. -/
def start (n : Nat) : Search := ⟨Array.replicate n .unseen, 0, [], []⟩

/-- The mark of a node; there is nothing to do about a node outside the graph. -/
def mark (s : Search) (v : Nat) : Mark := s.marks.getD v .done

/-- Gives a node the next index and puts it on the stack. -/
def openNode (s : Search) (v : Nat) : Search :=
  { s with
    marks := s.marks.setIfInBounds v (.active s.opened)
    opened := s.opened + 1
    stack := v :: s.stack }

/-- Takes the nodes down to `v` off the stack as a component. -/
def closeNode (s : Search) (v : Nat) : Search :=
  let component := s.stack.takeWhile (· != v) ++ [v]
  { s with
    marks := component.foldl (fun marks w => marks.setIfInBounds w .done) s.marks
    stack := (s.stack.dropWhile (· != v)).drop 1
    found := component :: s.found }

end Search

/-- Opens a node and searches from it. Returns the least index of an open node that the search has
met. Following more than `fuel` edges in a row is not needed if there are at most `fuel` nodes. -/
def visit (succ : Nat → List Nat) : (fuel : Nat) → Nat → Search → Nat × Search
  | 0, _, s => (s.opened, s)
  | fuel + 1, v, s =>
    let index := s.opened
    let (low, s) := (succ v).foldl
      (fun (low, s) w =>
        match s.mark w with
        | .unseen =>
          let (lowW, s) := visit succ fuel w s
          (min low lowW, s)
        | .active i => (min low i, s)
        | .done => (low, s))
      (index, s.openNode v)
    if low = index then (low, s.closeNode v) else (low, s)

/-- Searches from a root, unless it has been met already. -/
def visitRoot (succ : Nat → List Nat) (n : Nat) (s : Search) (root : Nat) : Search :=
  match s.mark root with
  | .unseen => (visit succ n root s).2
  | _ => s

end Components

/-- The strongly connected components that can be reached from the roots, in a graph with nodes
`0, …, n - 1`. -/
def components (n : Nat) (succ : Nat → List Nat) (roots : List Nat) : List (List Nat) :=
  (roots.foldl (Components.visitRoot succ n) (.start n)).found.reverse

/-- Whether a component contains a cycle: a single node must have an edge to itself. -/
def isNontrivial (succ : Nat → List Nat) : List Nat → Bool
  | [] => false
  | [v] => (succ v).contains v
  | _ => true

end TemporalMonitor
