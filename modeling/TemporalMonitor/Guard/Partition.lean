import TemporalMonitor.Guard.Basic

/-!
# Partitions of guards

Overlapping guards are cut into disjoint cubes, each labelled with the payloads of the guards that
cover it. Cutting one cube out of another leaves one piece per literal of the second that the first
does not already contain: that literal is denied, the ones before it are granted.

## Main definitions

* `Cube.difference` — disjoint cubes covering one cube without another
* `Region` — a cube with the payloads of the guards that cover it
* `partition` — the disjoint regions of a list of guards
-/

namespace TemporalMonitor

/-- The pieces of `c` in which one of the given literals is denied, all earlier ones granted. -/
def Cube.denials (c : Cube) : List Literal → List Cube
  | [] => []
  | l :: ls =>
    if l ∈ c then denials c ls
    else insert l.negated c :: denials (insert l c) ls

/-- Disjoint cubes which together cover what satisfies `c` and not `d`. A cube that does not meet
`d` stays whole. -/
def Cube.difference (c d : Cube) : List Cube :=
  if Cube.intersects c d then Cube.denials c d.toList else [c]

/-- A cube, with the payloads of the guards that cover it. -/
structure Region (α : Type) [Ord α] where
  cube : Cube
  /-- What the guards covering it carry. -/
  payloads : SortedSet α
deriving DecidableEq

variable {α : Type} [Ord α] [Std.LawfulEqOrd α] [Std.TransOrd α]

/-- Lays a cube with payload `p` over disjoint regions. A region that meets the cube is cut in two,
and what is left of the cube after all regions, which starts as `rest`, comes last. -/
def Region.overlay (c : Cube) (p : α) : List (Region α) → (rest : List Cube) → List (Region α)
  | [], rest => rest.map (fun r => ⟨r, {p}⟩)
  | r :: rs, rest =>
    if Cube.intersects r.cube c then
      (Cube.difference r.cube c).map (fun d => ⟨d, r.payloads⟩) ++
        ⟨r.cube ∪ c, insert p r.payloads⟩ ::
          overlay c p rs (rest.flatMap (fun d => Cube.difference d r.cube))
    else r :: overlay c p rs rest

/-- Lays a guard over disjoint regions; a guard that nothing meets changes nothing. -/
def Region.add (rs : List (Region α)) : Guard × α → List (Region α)
  | (.cube c, p) => if Cube.isConsistent c then overlay c p rs [c] else rs
  | (.never, _) => rs

/-- The disjoint regions into which a list of guards with payloads divides the valuations. -/
def partition (items : List (Guard × α)) : List (Region α) := items.foldl Region.add []

end TemporalMonitor
