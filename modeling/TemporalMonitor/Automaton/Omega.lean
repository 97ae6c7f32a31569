import TemporalMonitor.Acceptance
import TemporalMonitor.Graph.Basic
import TemporalMonitor.Graph.Components

/-!
# Automata on infinite words

A guarded graph with an acceptance condition on the nodes. Membership of an infinite word is a
matter of runs; for a word that repeats itself from some point on it is decided by looking for a
suitable cycle in the product of the graph and the positions of the word.

## Main definitions

* `OmegaAutomaton` — a graph with an acceptance condition
* `OmegaAutomaton.IsRun`, `OmegaAutomaton.Accepts` — runs and accepted words
* `Lasso` — an infinite word that repeats itself from some point on
* `OmegaAutomaton.acceptsLasso` — membership of such a word
* `OmegaAutomaton.liveNodes` — the nodes from which an accepting node can be met for ever
-/

namespace TemporalMonitor

/-- A guarded graph with an acceptance condition on its nodes. -/
structure OmegaAutomaton (κ C : Type) where
  graph : Graph κ
  acceptance : C

/-- An automaton with a Büchi condition. -/
abbrev BuchiAutomaton (κ : Type) := OmegaAutomaton κ (Buchi NodeId)

/-- An automaton with a generalized Büchi condition. -/
abbrev GeneralizedBuchiAutomaton (κ : Type) := OmegaAutomaton κ (GeneralizedBuchi NodeId)

/-- An automaton with a Rabin condition. -/
abbrev RabinAutomaton (κ : Type) := OmegaAutomaton κ (Rabin NodeId)

/-- Some edge leads from `i` to `j` at the valuation `v`. -/
def Graph.Step {κ : Type} (g : Graph κ) (v : Valuation) (i j : NodeId) : Prop :=
  ∃ e ∈ g.edgesOf i, e.target = j ∧ e.guard.holds v = true

namespace OmegaAutomaton

variable {κ C : Type}

/-- The nodes `ρ 0, ρ 1, …` are a run on `w` from the initial node. -/
def IsRun (a : OmegaAutomaton κ C) (w : OmegaWord) (ρ : Nat → NodeId) : Prop :=
  a.graph.initial = some (ρ 0) ∧ ∀ i, a.graph.Step (w i) (ρ i) (ρ (i + 1))

/-- The value is met infinitely often. -/
def MetForever (ρ : Nat → NodeId) (id : NodeId) : Prop := ∀ i, ∃ j, i ≤ j ∧ ρ j = id

/-- Some run on `w` meets exactly the nodes of an accepted set infinitely often. -/
def Accepts [Acceptance C NodeId] (a : OmegaAutomaton κ C) (w : OmegaWord) : Prop :=
  ∃ ρ, a.IsRun w ρ ∧ ∃ s : SortedSet NodeId, (∀ id, id ∈ s ↔ MetForever ρ id) ∧
    Acceptance.accepts a.acceptance s = true

end OmegaAutomaton

/-! ### Lassos -/

/-- An infinite word that repeats itself: a stem, followed by a loop again and again. -/
structure Lasso where
  stem : List Valuation
  loop : List Valuation

namespace Lasso

/-- The number of positions before the word returns to an earlier one. -/
def length (l : Lasso) : Nat := l.stem.length + l.loop.length

/-- The valuation at a position. -/
def letter (l : Lasso) (pos : Nat) : Valuation := (l.stem ++ l.loop).getD pos fun _ => false

/-- The position after a position. -/
def advance (l : Lasso) (pos : Nat) : Nat :=
  if pos + 1 < l.length then pos + 1 else l.stem.length

/-- The infinite word itself. -/
def word (l : Lasso) : OmegaWord := fun i =>
  if i < l.stem.length then l.letter i
  else l.letter (l.stem.length + (i - l.stem.length) % l.loop.length)

end Lasso

namespace OmegaAutomaton

variable {κ C : Type}

/-- The successors in the product of graph and positions, where node `i` at position `pos` has the
number `pos * n + i` in a graph with `n` nodes. -/
def lassoSucc (a : OmegaAutomaton κ C) (l : Lasso) (state : Nat) : List Nat :=
  let n := a.graph.size
  let pos := state / n
  (a.graph.post (Guard.holds (l.letter pos)) (state % n)).toList.map fun j => l.advance pos * n + j

/-- Whether the infinite word is accepted. A lasso without a loop is no infinite word. -/
def acceptsLasso [Acceptance C NodeId] (a : OmegaAutomaton κ C) (l : Lasso) : Bool :=
  match a.graph.initial with
  | none => false
  | some start =>
    let n := a.graph.size
    !l.loop.isEmpty && (components (n * l.length) (a.lassoSucc l) [start]).any fun component =>
      isNontrivial (a.lassoSucc l) component &&
        Acceptance.accepts a.acceptance (.ofList (component.map (· % n)))

/-- The targets of the edges whose guards are cubes. -/
def cubeSucc (a : OmegaAutomaton κ C) (id : NodeId) : List NodeId :=
  ((a.graph.edgesOf id).filter (·.guard.isCube)).map Edge.target

/-- Adds a component to the live nodes if it has an accepting cycle or leads to a live node. -/
def addLive (a : BuchiAutomaton κ) (live : SortedSet NodeId) (component : List NodeId) :
    SortedSet NodeId :=
  let hasCycle := isNontrivial a.cubeSucc component &&
    component.any a.acceptance.accepting.contains
  let reachesLive := component.any fun i => (a.cubeSucc i).any live.contains
  if hasCycle || reachesLive then live.insertMany component else live

/-- The nodes from which an accepting node can be reached and met again for ever, along edges whose
guards are cubes. -/
def liveNodes (a : BuchiAutomaton κ) : SortedSet NodeId :=
  (components a.graph.size a.cubeSucc a.graph.nodeIds).foldl a.addLive ∅

end OmegaAutomaton

end TemporalMonitor
