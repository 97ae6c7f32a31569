/-!
# JSON values

A JSON document as a tree. A number keeps the way it is written, except that a natural number in
plain digits is that number. Text written with an unpaired surrogate escape denotes no string; such
text is `none`.

## Main definitions

* `Json` — the values
* `Json.depth` — how deeply lists and objects are nested
* `Json.field?` — the member of an object, if it is given at most once
-/

namespace TemporalMonitor

/-- A JSON value. -/
inductive Json where
  | null
  | bool (b : Bool)
  /-- A natural number in plain digits. -/
  | nat (n : Nat)
  /-- Any other number, as it is written. -/
  | number (text : List Char)
  /-- Text, which denotes a string unless a surrogate in it is unpaired. -/
  | str (s : Option String)
  | arr (items : List Json)
  /-- An object, with its members in the order in which they are written. -/
  | obj (members : List (Option String × Json))

namespace Json

/-- An integer. -/
def ofInt : Int → Json
  | .ofNat n => .nat n
  | .negSucc n => .number ('-' :: (toString (n + 1)).toList)

/-- Text that denotes a string. -/
def ofString (s : String) : Json := .str (some s)

/-- An object given by its members. -/
def ofMembers (members : List (String × Json)) : Json :=
  .obj (members.map fun (k, v) => (some k, v))

mutual

/-- How deeply lists and objects are nested. -/
def depth : Json → Nat
  | .arr items => depthOfItems items + 1
  | .obj members => depthOfMembers members + 1
  | _ => 0

/-- The depth of the deepest item. -/
def depthOfItems : List Json → Nat
  | [] => 0
  | v :: vs => max v.depth (depthOfItems vs)

/-- The depth of the deepest member. -/
def depthOfMembers : List (Option String × Json) → Nat
  | [] => 0
  | (_, v) :: ms => max v.depth (depthOfMembers ms)

end

/-- The values that an object gives to a key. -/
def valuesOf (key : String) (members : List (Option String × Json)) : List Json :=
  members.filterMap fun (k, v) => if k = some key then some v else none

/-- The value that an object gives to a key, or `fallback` if there is none. A key given twice, or a
value that `decode` refuses, is an error. -/
def field? {α : Type} (members : List (Option String × Json)) (key : String)
    (decode : Json → Option α) (fallback : Option α) : Option α :=
  match valuesOf key members with
  | [] => fallback
  | [v] => decode v
  | _ => none

/-- Whether every key of an object denotes a string. -/
def keysDenote (members : List (Option String × Json)) : Bool := members.all (·.1.isSome)

/-- A truth value. -/
def bool? : Json → Option Bool
  | .bool b => some b
  | _ => none

/-- A natural number below `limit`, in plain digits. -/
def natBelow? (limit : Nat) : Json → Option Nat
  | .nat n => if n < limit then some n else none
  | _ => none

/-- A value that may be absent, which `null` stands for. -/
def nullable? {α : Type} (decode : Json → Option α) : Json → Option (Option α)
  | .null => some none
  | v => (decode v).map some

/-- The name of a constant: text, or an object with the name as its only key and the value `null`. -/
def constant? : Json → Option String
  | .str name => name
  | .obj [(name, .null)] => name
  | _ => none

end Json

end TemporalMonitor
