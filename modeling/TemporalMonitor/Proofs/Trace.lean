import TemporalMonitor.Proofs.Json.RoundTrip
import TemporalMonitor.Trace

/-!
# Documents of traces are read back

The document of a trace is read back as that trace, whatever its observations record, and only then
is the version looked at. An observation is written in the order of its names, so when its entries
are put in one by one, each lands after those before it.

## Main results

* `Observation.ofJson?_toJson`, `Trace.ofJson?_toJson` — observations and traces as JSON values
* `Trace.parse_toText` — traces as documents
-/

namespace TemporalMonitor

/-- Values that can each be decoded can be decoded together. -/
theorem mapM_map_eq_some {α β : Type} {encode : α → β} {decode : β → Option α}
    (h : ∀ a, decode (encode a) = some a) (l : List α) : (l.map encode).mapM decode = some l := by
  have hcomp : decode ∘ encode = fun a => pure (id a) := by
    funext a
    exact h a
  rw [List.mapM_map, hcomp, List.mapM_pure, List.map_id]
  rfl

namespace Observation

variable {name : String} {value : Bool} {es : List (String × Bool)}

/-! ### Observations -/

theorem insertInto_of_forall_lt (h : ∀ e ∈ es, compare e.1 name = .lt) :
    insertInto name value es = es ++ [(name, value)] := by
  induction es with
  | nil => rfl
  | cons e es ih =>
    have hgt : compare name e.1 = .gt := Std.OrientedCmp.gt_of_lt (h e List.mem_cons_self)
    have hrest := ih fun e' he' => h e' (List.mem_cons_of_mem _ he')
    rw [insertInto, hgt, List.cons_append]
    exact congrArg _ hrest

/-- Entries that come after all others are appended. -/
theorem entries_foldl_insert {o : Observation}
    (h : (o.entries ++ es).Pairwise (fun a b => compare a.1 b.1 = .lt)) :
    (es.foldl (fun o e => o.insert e.1 e.2) o).entries = o.entries ++ es := by
  induction es generalizing o with
  | nil => exact (List.append_nil _).symm
  | cons e es ih =>
    have hlast : (o.insert e.1 e.2).entries = o.entries ++ [e] := by
      apply insertInto_of_forall_lt
      intro d hd
      exact (List.pairwise_append.mp h).2.2 d hd e List.mem_cons_self
    -- moving an entry over leaves the list of all entries as it is, and so their order
    rw [List.append_cons, ← hlast] at h ⊢
    exact ih h

theorem eq_of_entries_eq {o o' : Observation} (h : o.entries = o'.entries) : o = o' := by
  cases o
  cases o'
  congr

theorem ofList_entries (o : Observation) : ofList o.entries = o := by
  apply eq_of_entries_eq
  exact entries_foldl_insert (o := empty) o.ascending

theorem ofJson?_toJson (o : Observation) : ofJson? o.toJson = some o := by
  rw [toJson, ofJson?, mapM_map_eq_some, Option.map_some, ofList_entries]
  intro e
  rfl

theorem readsBack_toJson (layout : Json.Layout) (o : Observation) :
    o.toJson.ReadsBack layout := by
  apply Json.readsBack_obj
  intro m hm
  obtain ⟨⟨name, value⟩, -, rfl⟩ := List.mem_map.mp hm
  exact Json.readsBack_bool value

end Observation

namespace Trace

/-! ### Traces -/

theorem version?_toNat (version : UInt32) : version? (.nat version.toNat) = some version := by
  simp [version?, Json.natBelow?, version.toNat_lt_size]

theorem ofJson?_toJson (t : Trace) : ofJson? t.toJson = some t := by
  have hsteps : steps? (.arr (t.steps.map Observation.toJson)) = some t.steps :=
    mapM_map_eq_some Observation.ofJson?_toJson t.steps
  simp [toJson, ofJson?, Json.keysDenote, Json.field?, Json.valuesOf, version?_toNat, hsteps]

theorem readsBack_toJson (layout : Json.Layout) (t : Trace) : t.toJson.ReadsBack layout := by
  have hsteps : (Json.arr (t.steps.map Observation.toJson)).ReadsBack layout := by
    apply Json.readsBack_arr
    intro v hv
    obtain ⟨o, -, rfl⟩ := List.mem_map.mp hv
    exact o.readsBack_toJson layout
  apply Json.readsBack_obj
  simpa using ⟨Json.readsBack_nat _, hsteps⟩

/-- The document of a trace is read back as the trace if it is in version 1. The document of a trace
in any other version is refused, and the version it is in is reported. -/
theorem parse_toText (t : Trace) : parse t.toText =
    if t.schemaVersion = 1 then .ok t else .error (.unsupportedSchema t.schemaVersion) := by
  have hread : Json.parse? t.toText = some t.toJson := (t.readsBack_toJson .pretty).parse?_write
  rw [parse, hread, Option.bind_some, ofJson?_toJson]
  rfl

end Trace

end TemporalMonitor
