import TemporalMonitor.Json.Reader
import TemporalMonitor.Json.Writer
import TemporalMonitor.Observation

/-!
# Recorded traces

A trace is a sequence of observations with the version of the format it is recorded in. Its document
is an object with the keys `schema_version` and `steps`, or the list of their values; other keys are
ignored. Only version 1 is read, and the version is looked at after the rest of the document.

## Main definitions

* `Trace`, `Trace.push`
* `Trace.toText`, `Trace.parse` — traces as JSON documents
* `TraceError` — why a document is refused
-/

namespace TemporalMonitor

/-- A sequence of observations. -/
structure Trace where
  schemaVersion : UInt32
  /-- The observations, earliest first. -/
  steps : List Observation
deriving DecidableEq

/-- Why the document of a trace is refused. -/
inductive TraceError where
  /-- The document is not that of a trace. -/
  | malformed
  /-- The trace is recorded in another version of the format. -/
  | unsupportedSchema (found : UInt32)
deriving DecidableEq

namespace Trace

/-- The version of the format that is read and written. -/
def currentVersion : UInt32 := 1

/-- A trace in the current version. -/
def ofSteps (steps : List Observation) : Trace := ⟨currentVersion, steps⟩

/-- Appends an observation. -/
def push (t : Trace) (o : Observation) : Trace := { t with steps := t.steps ++ [o] }

/-- The JSON value of a trace. -/
def toJson (t : Trace) : Json :=
  .obj [(some "schema_version", .nat t.schemaVersion.toNat),
    (some "steps", .arr (t.steps.map Observation.toJson))]

/-- A version number. -/
def version? (v : Json) : Option UInt32 := (v.natBelow? UInt32.size).map UInt32.ofNat

/-- A list of observations. -/
def steps? : Json → Option (List Observation)
  | .arr items => items.mapM Observation.ofJson?
  | _ => none

/-- The trace of a JSON value, in any version. The observations may be left out. -/
def ofJson? : Json → Option Trace
  | .obj members =>
    if Json.keysDenote members then do
      let version ← Json.field? members "schema_version" version? none
      let steps ← Json.field? members "steps" steps? (some [])
      return ⟨version, steps⟩
    else none
  | .arr [v] => (version? v).map (⟨·, []⟩)
  | .arr [v, w] => do return ⟨← version? v, ← steps? w⟩
  | _ => none

/-- The document of a trace. -/
def toText (t : Trace) : String := t.toJson.pretty

/-- The trace of a document. -/
def parse (text : String) : Except TraceError Trace :=
  match (Json.parse? text).bind ofJson? with
  | none => .error .malformed
  | some t =>
    if t.schemaVersion = currentVersion then .ok t
    else .error (.unsupportedSchema t.schemaVersion)

end Trace

/-- The message shown for the error. -/
def TraceError.message : TraceError → String
  | .malformed => "invalid observation trace"
  | .unsupportedSchema found =>
    "unsupported trace schema version " ++ toString found.toNat ++ " (expected " ++
      toString Trace.currentVersion.toNat ++ ")"

end TemporalMonitor
