import TemporalMonitor.Json.Basic

/-!
# Writing JSON

A value is written without any space, or spread over lines with an indentation of two spaces per
level. In text only quotes, backslashes and control characters are escaped, the latter by a letter
where there is one and by four hexadecimal digits otherwise. The two layouts are those that the
library that writes the documents is assumed to have.

## Main definitions

* `Json.Layout` — whether there are line breaks
* `Json.write` — the characters of a value
* `Json.compact`, `Json.pretty` — the text of a value in either layout
-/

namespace TemporalMonitor

namespace Json

/-- How a value is laid out. -/
inductive Layout where
  /-- Without any space. -/
  | compact
  /-- On lines of their own, indented by level. -/
  | pretty
deriving DecidableEq

/-- What comes before an item or a closing bracket at a level. -/
def Layout.newline : Layout → (level : Nat) → List Char
  | .compact, _ => []
  | .pretty, level => '\n' :: List.replicate (2 * level) ' '

/-- What comes between a key and its value. -/
def Layout.colon : Layout → List Char
  | .compact => [':']
  | .pretty => [':', ' ']

/-- The hexadecimal digit of a number below 16, in lower case. -/
def hexDigit (n : Nat) : Char := Nat.digitChar n

/-- How a character is written inside quotes. -/
def escapeChar (c : Char) : List Char :=
  if c = '"' then ['\\', '"']
  else if c = '\\' then ['\\', '\\']
  else if c = '\x08' then ['\\', 'b']
  else if c = '\t' then ['\\', 't']
  else if c = '\n' then ['\\', 'n']
  else if c = '\x0c' then ['\\', 'f']
  else if c = '\r' then ['\\', 'r']
  else if c.toNat < 32 then
    ['\\', 'u', '0', '0', hexDigit (c.toNat / 16), hexDigit (c.toNat % 16)]
  else [c]

/-- Text in quotes; text that denotes no string is written as an unpaired surrogate. -/
def writeText : Option String → List Char
  | some s => '"' :: (s.toList.flatMap escapeChar ++ ['"'])
  | none => ['"', '\\', 'u', 'd', '8', '0', '0', '"']

mutual

/-- The characters of a value at a level. -/
def write (layout : Layout) (level : Nat) : Json → List Char
  | .null => ['n', 'u', 'l', 'l']
  | .bool true => ['t', 'r', 'u', 'e']
  | .bool false => ['f', 'a', 'l', 's', 'e']
  | .nat n => (toString n).toList
  | .number text => text
  | .str s => writeText s
  | .arr [] => ['[', ']']
  | .arr (v :: vs) =>
    '[' :: (layout.newline (level + 1) ++ (write layout (level + 1) v ++
      (writeItems layout (level + 1) vs ++ (layout.newline level ++ [']']))))
  | .obj [] => ['\x7b', '\x7d']
  | .obj ((k, v) :: ms) =>
    '\x7b' :: (layout.newline (level + 1) ++ (writeText k ++ (layout.colon ++
      (write layout (level + 1) v ++ (writeMembers layout (level + 1) ms ++
        (layout.newline level ++ ['\x7d']))))))

/-- The characters of the items after the first. -/
def writeItems (layout : Layout) (level : Nat) : List Json → List Char
  | [] => []
  | v :: vs =>
    ',' :: (layout.newline level ++ (write layout level v ++ writeItems layout level vs))

/-- The characters of the members after the first. -/
def writeMembers (layout : Layout) (level : Nat) : List (Option String × Json) → List Char
  | [] => []
  | (k, v) :: ms =>
    ',' :: (layout.newline level ++ (writeText k ++ (layout.colon ++
      (write layout level v ++ writeMembers layout level ms))))

end

/-- The text of a value without any space. -/
def compact (v : Json) : String := .ofList (v.write .compact 0)

/-- The text of a value on several lines. -/
def pretty (v : Json) : String := .ofList (v.write .pretty 0)

end Json

end TemporalMonitor
