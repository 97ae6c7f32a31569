import TemporalMonitor.Formula.Closure
import TemporalMonitor.Tableau.Rule

/-!
# Tableaux

The tableau of a formula in normal form is a set of states, each a set of formulas that hold now
together with a set of formulas put off to the next instant. It is found by expanding obligations:
a branch takes its smallest open obligation, and either turns it into others by its rule, splits in
two, or is dropped on a contradiction. A branch without open obligations is complete. It becomes a
new state, followed by a branch for what it has put off, unless a state with the same formulas
exists, which then takes over the predecessors of the branch.

The branch started last is expanded first. Every branch has a number of its own, and a split gives
both parts new ones, the second part the smaller; states keep the numbers of their branches.

## Main definitions

* `Tableau.State`, `Tableau.Branch` — complete and incomplete branches
* `Tableau.Search`, `Tableau.Search.step` — the search for states, and one step of it
* `Tableau.build` — the tableau of a formula
-/

namespace TemporalMonitor

/-- Counts of what became of the branches. -/
structure Tableau.Stats where
  /-- Branches taken up for expansion. -/
  expanded : Nat := 0
  /-- Branches dropped on a contradiction. -/
  pruned : Nat := 0
  /-- Complete branches that matched an existing state. -/
  merged : Nat := 0
deriving DecidableEq

/-- A complete branch. -/
structure Tableau.State where
  id : Nat
  /-- The numbers of the states that it can follow. -/
  incoming : SortedSet Nat
  /-- The formulas recorded as holding now. -/
  old : SortedSet Formula
  /-- The formulas put off to the next instant. -/
  next : SortedSet Formula
deriving DecidableEq

/-- The states found for a formula, and how they were found. -/
structure Tableau where
  root : Formula
  /-- The states, in the order of their completion. The initial state is not one of them. -/
  states : List Tableau.State
  stats : Tableau.Stats

namespace Tableau

/-- The state that precedes every instant. -/
def State.initial : State := ⟨0, ∅, ∅, ∅⟩

/-- A branch under expansion. -/
structure Branch where
  id : Nat
  /-- The numbers of the states that it follows. -/
  incoming : SortedSet Nat
  /-- The open obligations. -/
  new : SortedSet Formula
  /-- The obligations dealt with. -/
  old : SortedSet Formula
  /-- The obligations put off to the next instant. -/
  next : SortedSet Formula
deriving DecidableEq

namespace Branch

/-- A branch with nothing but open obligations. -/
def start (id : Nat) (predecessor : Nat) (new : SortedSet Formula) : Branch :=
  ⟨id, {predecessor}, new, ∅, ∅⟩

/-- Records a formula as dealt with. -/
def record (b : Branch) (f : Formula) : Branch := { b with old := insert f b.old }

/-- Adds obligations; one that is dealt with is not opened again. -/
def add (b : Branch) (o : Obligations) : Branch :=
  { b with
    new := b.new.insertMany (o.now.filter fun f => !b.old.contains f)
    next := b.next.insertMany o.later }

/-- Whether a state has the formulas of a branch. -/
def agrees (b : Branch) (q : State) : Bool := q.old == b.old && q.next == b.next

end Branch

/-- The state of the search for states. -/
structure Search where
  /-- The next number to be given to a branch. -/
  fresh : Nat
  /-- The branch being expanded. -/
  current : Option Branch
  /-- The other branches, the next one first. -/
  waiting : List Branch
  /-- The states found, in the order of their completion. -/
  states : List State
  stats : Stats

namespace Search

/-- The search before its first step. -/
def start (f : Formula) : Search := ⟨2, none, [.start 1 0 {f}], [], {}⟩

/-- Whether there is no branch left. -/
def isDone (s : Search) : Bool := s.current.isNone && s.waiting.isEmpty

/-- Drops the current branch. -/
def prune (s : Search) : Search :=
  { s with current := none, stats.pruned := s.stats.pruned + 1 }

/-- Splits the current branch in two and goes on with the first part. -/
def split (s : Search) (b : Branch) (first second : Obligations) : Search :=
  { s with
    fresh := s.fresh + 2
    current := some { b.add first with id := s.fresh + 1 }
    waiting := { b.add second with id := s.fresh } :: s.waiting }

/-- Deals with a formula taken from the open obligations of the current branch. A formula without a
rule is an error. -/
def expand (s : Search) (b : Branch) (f : Formula) : Except Formula Search :=
  if f ∈ b.old then .ok { s with current := some b }
  else
    match rule f with
    | none => .error f
    | some .impossible => .ok s.prune
    | some (.literal opposite) =>
      .ok (if opposite ∈ b.old then s.prune else { s with current := some (b.record f) })
    | some (.extend obligations) =>
      .ok { s with current := some ((b.record f).add obligations) }
    | some (.choice first second) => .ok (s.split (b.record f) first second)

/-- Completes the current branch. -/
def complete (s : Search) (b : Branch) : Search :=
  if s.states.any b.agrees then
    { s with
      current := none
      states := s.states.map fun q =>
        if b.agrees q then { q with incoming := q.incoming ∪ b.incoming } else q
      stats.merged := s.stats.merged + 1 }
  else
    { s with
      fresh := s.fresh + 1
      current := none
      waiting := .start s.fresh b.id b.next :: s.waiting
      states := s.states ++ [⟨b.id, b.incoming, b.old, b.next⟩] }

/-- One step of the search: take up a branch, deal with one formula, or complete a branch. -/
def step (s : Search) : Except Formula Search :=
  match s.current, s.waiting with
  | some b, _ =>
    match b.new.pop? with
    | some (f, rest) => s.expand { b with new := rest } f
    | none => .ok (s.complete b)
  | none, b :: waiting =>
    .ok { s with current := some b, waiting, stats.expanded := s.stats.expanded + 1 }
  | none, [] => .ok s

/-- Searches until there is no branch left, for at most `fuel` steps. -/
def run : (fuel : Nat) → Search → Except Formula Search
  | 0, s => .ok s
  | fuel + 1, s =>
    if s.isDone then .ok s
    else
      match s.step with
      | .ok s => run fuel s
      | .error f => .error f

end Search

/-- A number of steps that is always enough. Of `c` subformulas there are at most `4 ^ c` states,
and a branch whose open obligations have `m` symbols is done after at most `3 * 2 ^ m` steps. -/
def stepBound (f : Formula) : Nat :=
  let closure := f.subformulas
  let symbols := closure.toList.foldr (fun g n => g.size + n) 0
  (Nat.pow 4 closure.size + 1) * (3 * Nat.pow 2 symbols)

/-- The tableau of a formula, or a part of the formula that is not in normal form. -/
def build (f : Formula) : Except Formula Tableau :=
  match Search.run (stepBound f) (.start f) with
  | .ok s => .ok ⟨f, s.states, s.stats⟩
  | .error g => .error g

/-- The states in the order of their completion, after the initial one. -/
def nodes (t : Tableau) : List State := .initial :: t.states

end Tableau

end TemporalMonitor
