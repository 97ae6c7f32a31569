import TemporalMonitor.Formula.Json
import TemporalMonitor.Proofs.Json.RoundTrip

/-!
# Documents of formulas are read back

The document of a formula is read back as that formula unless it is nested too deeply. How deeply
it is nested can be seen from the formula: the name of a symbol makes one level, and the list of two
operands another one. What propositions are called plays no part in that.

## Main definitions

* `Formula.nesting` — how deeply the document of a formula is nested

## Main results

* `Formula.depth_toJson`, `Formula.ofJson?_toJson` — formulas as JSON values
* `Formula.parse?_toText` — formulas as documents
-/

namespace TemporalMonitor

namespace Formula

/-- How deeply lists and objects are nested in the document of a formula. -/
def nesting : Formula → Nat
  | .verum | .falsum => 0
  | .prop _ => 1
  | .unary _ f => 1 + f.nesting
  | .binary _ f g => 2 + max f.nesting g.nesting

variable {f g : Formula} {v w : Json}

theorem depth_toJson (f : Formula) : f.toJson.depth = f.nesting := by
  induction f with
  | verum | falsum | prop => rfl
  | unary op f ih =>
    simp only [toJson, Json.depth, Json.depthOfMembers, nesting, ih]
    omega
  | binary op f g ihf ihg =>
    simp only [toJson, Json.depth, Json.depthOfMembers, Json.depthOfItems, nesting, ihf, ihg]
    omega

/-! ### Reading the value of a formula -/

/-- An operator is read whatever its operand looks like: an operand that is text is a constant, as
no unary operator has the key of propositions. -/
theorem ofJson?_unary (op : UnaryOp) (h : ofJson? v = some f) :
    ofJson? (.obj [(some op.key, v)]) = some (.unary op f) := by
  cases v with
  | null | bool | nat | number | arr => simp [ofJson?] at h
  | obj members => simp [ofJson?, UnaryOp.ofKey?_key, h]
  | str s =>
    cases s with
    | none => simp [ofJson?] at h
    | some name =>
      have hkey : op.key ≠ "prop" := by cases op <;> decide
      rw [ofJson?] at h
      simp [ofJson?, hkey, UnaryOp.ofKey?_key, h]

theorem ofJson?_binary (op : BinaryOp) (hf : ofJson? v = some f) (hg : ofJson? w = some g) :
    ofJson? (.obj [(some op.key, .arr [v, w])]) = some (.binary op f g) := by
  simp [ofJson?, BinaryOp.ofKey?_key, hf, hg]

theorem ofJson?_toJson (f : Formula) : ofJson? f.toJson = some f := by
  induction f with
  | verum | falsum => rfl
  | prop name => simp [toJson, ofJson?]
  | unary op f ih => exact ofJson?_unary op ih
  | binary op f g ihf ihg => exact ofJson?_binary op ihf ihg

/-! ### Reading the document of a formula -/

theorem readsBack_toJson (layout : Json.Layout) (f : Formula) : f.toJson.ReadsBack layout := by
  induction f with
  | verum | falsum => exact Json.readsBack_str _
  | prop name =>
    apply Json.readsBack_obj
    simpa using Json.readsBack_str (some name)
  | unary op f ih =>
    apply Json.readsBack_obj
    simpa using ih
  | binary op f g ihf ihg =>
    apply Json.readsBack_obj
    have hoperands : (Json.arr [f.toJson, g.toJson]).ReadsBack layout := by
      apply Json.readsBack_arr
      simp [ihf, ihg]
    simpa using hoperands

/-- The document of a formula is read back as the formula if it is nested at most 127 deep, and
refused otherwise. -/
theorem parse?_toText (f : Formula) :
    parse? f.toText = if f.nesting ≤ 127 then some f else none := by
  have hread : Json.parse? f.toText = some f.toJson := (readsBack_toJson .compact f).parse?_write
  rw [parse?, hread, ← ofJson?_toJson, ← depth_toJson]
  rfl

end Formula

end TemporalMonitor
