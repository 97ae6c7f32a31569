import TemporalMonitor.Formula.Basic
import TemporalMonitor.Json.Reader
import TemporalMonitor.Json.Writer

/-!
# Formulas as JSON

The constants are the texts `true` and `false`. Any other formula is an object with the name of its
outermost symbol as the only key: a proposition gives its name, a unary operator its operand, and a
binary operator the list of its two operands. A constant may also be given as an object, with the
value `null`.

Documents are exchanged through a JSON library that is not part of this development. What is
assumed of it is written out in `Json.Reader` and `Json.Writer`, and one thing here: it counts down
from 128 with each list and object that it enters, and refuses the document when nothing is left.

## Main definitions

* `Formula.toJson`, `Formula.ofJson?` — formulas as JSON values
* `Formula.toText`, `Formula.parse?` — formulas as JSON documents
-/

namespace TemporalMonitor

/-- The key that names the operator. -/
def UnaryOp.key : UnaryOp → String
  | .not => "not"
  | .next => "next"
  | .eventually => "finally"
  | .always => "globally"

/-- The key that names the operator. -/
def BinaryOp.key : BinaryOp → String
  | .and => "and"
  | .or => "or"
  | .implies => "implies"
  | .iff => "equiv"
  | .entails => "strong_implies"
  | .congruent => "strong_equiv"
  | .until => "until"
  | .release => "release"
  | .weakUntil => "unless"

/-- The unary operator with a key. -/
def UnaryOp.ofKey? : String → Option UnaryOp
  | "not" => some .not
  | "next" => some .next
  | "finally" => some .eventually
  | "globally" => some .always
  | _ => none

/-- The binary operator with a key. -/
def BinaryOp.ofKey? : String → Option BinaryOp
  | "and" => some .and
  | "or" => some .or
  | "implies" => some .implies
  | "equiv" => some .iff
  | "strong_implies" => some .entails
  | "strong_equiv" => some .congruent
  | "until" => some .until
  | "release" => some .release
  | "unless" => some .weakUntil
  | _ => none

theorem UnaryOp.ofKey?_key (op : UnaryOp) : UnaryOp.ofKey? op.key = some op := by
  cases op <;> rfl

theorem BinaryOp.ofKey?_key (op : BinaryOp) : BinaryOp.ofKey? op.key = some op := by
  cases op <;> rfl

namespace Formula

/-- The JSON value of a formula. -/
def toJson : Formula → Json
  | .verum => .str (some "true")
  | .falsum => .str (some "false")
  | .prop name => .obj [(some "prop", .str (some name))]
  | .unary op f => .obj [(some op.key, f.toJson)]
  | .binary op f g => .obj [(some op.key, .arr [f.toJson, g.toJson])]

/-- The constant with a name. -/
def ofConstant? : String → Option Formula
  | "true" => some .verum
  | "false" => some .falsum
  | _ => none

/-- The formula of a JSON value. -/
def ofJson? : Json → Option Formula
  | .str (some name) => ofConstant? name
  | .obj [(some key, .null)] => ofConstant? key
  | .obj [(some key, .arr [v, w])] =>
    match BinaryOp.ofKey? key, ofJson? v, ofJson? w with
    | some op, some f, some g => some (.binary op f g)
    | _, _, _ => none
  | .obj [(some key, .str (some s))] =>
    if key = "prop" then some (.prop s)
    else
      match UnaryOp.ofKey? key, ofConstant? s with
      | some op, some f => some (.unary op f)
      | _, _ => none
  | .obj [(some key, v)] =>
    match UnaryOp.ofKey? key, ofJson? v with
    | some op, some f => some (.unary op f)
    | _, _ => none
  | _ => none

/-- How deeply lists and objects may be nested in the document of a formula. The 128th level uses up
the count of the library that reads it. -/
def maxDepth : Nat := 127

/-- The document of a formula. -/
def toText (f : Formula) : String := f.toJson.compact

/-- The formula of a document. -/
def parse? (text : String) : Option Formula :=
  match Json.parse? text with
  | some v => if v.depth ≤ maxDepth then ofJson? v else none
  | none => none

end Formula

end TemporalMonitor
