import TemporalMonitor.Json.Basic
import TemporalMonitor.Valuation

/-!
# Observations

An observation records the truth values of some propositions; the others count as false. The names
are kept in order, each with one value.

## Main definitions

* `Observation`, `Observation.insert`, `Observation.ofList` — a later value replaces an earlier one
* `Observation.valuation` — what the observation says about every proposition
-/

namespace TemporalMonitor

/-- The truth values of some propositions. -/
structure Observation where
  /-- The names with their values, in ascending order. -/
  entries : List (String × Bool)
  ascending : entries.Pairwise (fun a b => compare a.1 b.1 = .lt)
deriving DecidableEq

namespace Observation

/-- Puts an entry in its place, replacing one of the same name. -/
def insertInto (name : String) (value : Bool) : List (String × Bool) → List (String × Bool)
  | [] => [(name, value)]
  | (n, v) :: es =>
    match compare name n with
    | .lt => (name, value) :: (n, v) :: es
    | .eq => (name, value) :: es
    | .gt => (n, v) :: insertInto name value es

theorem mem_insertInto {name : String} {value : Bool} {e : String × Bool}
    {es : List (String × Bool)} (h : e ∈ insertInto name value es) :
    e = (name, value) ∨ e ∈ es := by
  induction es with
  | nil => simpa [insertInto] using h
  | cons d ds ih =>
    obtain ⟨n, v⟩ := d
    unfold insertInto at h
    split at h
    · simpa using h
    · exact (List.mem_cons.mp h).imp_right (List.mem_cons_of_mem _)
    · rcases List.mem_cons.mp h with rfl | h
      · exact .inr List.mem_cons_self
      · exact (ih h).imp_right (List.mem_cons_of_mem _)

theorem pairwise_insertInto {name : String} {value : Bool} {es : List (String × Bool)}
    (h : es.Pairwise (fun a b => compare a.1 b.1 = .lt)) :
    (insertInto name value es).Pairwise (fun a b => compare a.1 b.1 = .lt) := by
  induction es with
  | nil => simp [insertInto]
  | cons d ds ih =>
    obtain ⟨n, v⟩ := d
    obtain ⟨hd, hds⟩ := List.pairwise_cons.mp h
    unfold insertInto
    split
    · rename_i hlt
      refine List.pairwise_cons.mpr ⟨fun e he => ?_, h⟩
      rcases List.mem_cons.mp he with rfl | he
      · exact hlt
      · exact Std.TransCmp.lt_trans hlt (hd e he)
    · rename_i heq
      obtain rfl := Std.LawfulEqOrd.eq_of_compare heq
      exact List.pairwise_cons.mpr ⟨hd, hds⟩
    · rename_i hgt
      refine List.pairwise_cons.mpr ⟨fun e he => ?_, ih hds⟩
      rcases mem_insertInto he with rfl | he
      · exact Std.OrientedCmp.lt_of_gt hgt
      · exact hd e he

/-- The observation of nothing. -/
def empty : Observation := ⟨[], .nil⟩

/-- Records the value of a proposition, replacing an earlier one. -/
def insert (o : Observation) (name : String) (value : Bool) : Observation :=
  ⟨insertInto name value o.entries, pairwise_insertInto o.ascending⟩

/-- Records values in turn. -/
def ofList (es : List (String × Bool)) : Observation :=
  es.foldl (fun o e => o.insert e.1 e.2) empty

/-- What the observation says about every proposition; one that is not recorded is false. -/
def valuation (o : Observation) : Valuation := fun name => (o.entries.lookup name).getD false

/-- The JSON object of an observation. -/
def toJson (o : Observation) : Json :=
  .obj (o.entries.map fun (name, value) => (some name, .bool value))

/-- A name with a truth value. -/
def entry? : Option String × Json → Option (String × Bool)
  | (some name, .bool value) => some (name, value)
  | _ => none

/-- The observation of a JSON object; of values for the same name the last one counts. -/
def ofJson? : Json → Option Observation
  | .obj members => (members.mapM entry?).map ofList
  | _ => none

end Observation

end TemporalMonitor
