import TemporalMonitor.Json.Reader
import TemporalMonitor.Synthesis.Basic

/-!
# Options as JSON

The document of the options is an object with the keys `max_closure_size` and
`simplify_transitions`, or a list of their values. What is left out keeps its default, and other keys
are ignored.
-/

namespace TemporalMonitor

namespace SynthesisOptions

/-- A limit on the number of subformulas, a 64-bit number. -/
def limit? (v : Json) : Option (Option Nat) := v.nullable? (Json.natBelow? UInt64.size)

/-- The options of a JSON value. -/
def ofJson? : Json → Option SynthesisOptions
  | .obj members =>
    if Json.keysDenote members then do
      let limit ← Json.field? members "max_closure_size" limit? (some none)
      let simplify ← Json.field? members "simplify_transitions" Json.bool? (some true)
      return ⟨limit, simplify⟩
    else none
  | .arr [] => some {}
  | .arr [v] => (limit? v).map (⟨·, true⟩)
  | .arr [v, w] => do return ⟨← limit? v, ← w.bool?⟩
  | _ => none

/-- The options of a document. -/
def parse? (text : String) : Option SynthesisOptions := (Json.parse? text).bind ofJson?

end SynthesisOptions

end TemporalMonitor
