import TemporalMonitor.Json.Basic

/-!
# Reading JSON

Strict JSON: one value with nothing but white space around it, no comments, no trailing commas, no
leading zeros, and no control characters in text. This is how the library that reads the documents
is assumed to behave. Nesting is not limited here, since only some documents are refused for it.

Readers take the characters that are left and return a value with the characters after it.

## Main definitions

* `Json.readText`, `Json.readNumber`, `Json.readValue` — readers
* `Json.parse?` — the value of a whole text
-/

namespace TemporalMonitor

namespace Json

/-- Whether a character is white space. -/
def isSpace (c : Char) : Bool := c == ' ' || c == '\t' || c == '\n' || c == '\r'

/-- Drops white space. -/
def skipSpace (cs : List Char) : List Char := cs.dropWhile isSpace

/-! ### Text -/

/-- The value of a hexadecimal digit. -/
def hexValue (c : Char) : Option Nat :=
  if '0' ≤ c ∧ c ≤ '9' then some (c.toNat - '0'.toNat)
  else if 'a' ≤ c ∧ c ≤ 'f' then some (c.toNat - 'a'.toNat + 10)
  else if 'A' ≤ c ∧ c ≤ 'F' then some (c.toNat - 'A'.toNat + 10)
  else none

/-- The value of four hexadecimal digits. -/
def hexUnit (a b c d : Char) : Option Nat := do
  return ((← hexValue a) * 16 + (← hexValue b)) * 256 + ((← hexValue c) * 16 + (← hexValue d))

/-- Whether a unit is the first half of a surrogate pair. -/
def isHighSurrogate (u : Nat) : Bool := 0xD800 ≤ u && u < 0xDC00

/-- Whether a unit is the second half of a surrogate pair. -/
def isLowSurrogate (u : Nat) : Bool := 0xDC00 ≤ u && u < 0xE000

/-- The character of a surrogate pair. -/
def pairChar (high low : Nat) : Char :=
  .ofNat (0x10000 + (high - 0xD800) * 0x400 + (low - 0xDC00))

/-- The character that a letter after a backslash stands for. -/
def escapedChar : Char → Option Char
  | '"' => some '"'
  | '\\' => some '\\'
  | '/' => some '/'
  | 'b' => some '\x08'
  | 'f' => some '\x0c'
  | 'n' => some '\n'
  | 'r' => some '\r'
  | 't' => some '\t'
  | _ => none

/-- A piece of a text: a character, or a unit given by four hexadecimal digits. -/
inductive Piece where
  | char (c : Char)
  /-- A unit, which may be half of a surrogate pair. -/
  | unit (u : Nat)

/-- Reads the pieces of a text up to its closing quote. -/
def readPieces : List Char → Option (List Piece × List Char)
  | [] => none
  | '"' :: rest => some ([], rest)
  | '\\' :: 'u' :: a :: b :: c :: d :: rest =>
    match hexUnit a b c d with
    | some u => (readPieces rest).map fun (ps, rest) => (.unit u :: ps, rest)
    | none => none
  | '\\' :: c :: rest =>
    match escapedChar c with
    | some c => (readPieces rest).map fun (ps, rest) => (.char c :: ps, rest)
    | none => none
  | c :: rest =>
    if c.toNat < 32 then none
    else (readPieces rest).map fun (ps, rest) => (.char c :: ps, rest)

/-- The characters that pieces denote, unless a surrogate is unpaired. -/
def assemble : List Piece → Option (List Char)
  | [] => some []
  | .char c :: ps => (assemble ps).map (c :: ·)
  | [.unit u] => if isHighSurrogate u || isLowSurrogate u then none else some [.ofNat u]
  | .unit u :: .unit v :: ps =>
    if isHighSurrogate u then
      if isLowSurrogate v then (assemble ps).map (pairChar u v :: ·) else none
    else if isLowSurrogate u then none
    else (assemble (.unit v :: ps)).map (.ofNat u :: ·)
  | .unit u :: .char c :: ps =>
    if isHighSurrogate u || isLowSurrogate u then none
    else (assemble ps).map (.ofNat u :: c :: ·)

/-- Reads a text after its opening quote. -/
def readText (cs : List Char) : Option (Option String × List Char) :=
  (readPieces cs).map fun (ps, rest) => ((assemble ps).map String.ofList, rest)

/-! ### Numbers -/

/-- Whether a character is a decimal digit. -/
def isDigit (c : Char) : Bool := '0' ≤ c && c ≤ '9'

/-- The number written by decimal digits. -/
def ofDigits (ds : List Char) : Nat := ds.foldl (fun n d => 10 * n + (d.toNat - '0'.toNat)) 0

/-- The leading digits and the rest. -/
def spanDigits (cs : List Char) : List Char × List Char := (cs.takeWhile isDigit, cs.dropWhile isDigit)

/-- Reads one digit or more. -/
def readDigits (cs : List Char) : Option (List Char × List Char) :=
  match spanDigits cs with
  | ([], _) => none
  | r => some r

/-- Reads the digits before the point: a zero stands alone. -/
def readWhole : List Char → Option (List Char × List Char)
  | '0' :: rest => some (['0'], rest)
  | cs => readDigits cs

/-- Reads a point with digits, if there is one. -/
def readFraction : List Char → Option (List Char × List Char)
  | '.' :: rest => (readDigits rest).map fun (ds, rest) => ('.' :: ds, rest)
  | cs => some ([], cs)

/-- Reads the sign of an exponent, if there is one. -/
def readSign : List Char → List Char × List Char
  | '+' :: rest => (['+'], rest)
  | '-' :: rest => (['-'], rest)
  | cs => ([], cs)

/-- Reads an exponent, if there is one. -/
def readExponent : List Char → Option (List Char × List Char)
  | [] => some ([], [])
  | c :: rest =>
    if c = 'e' ∨ c = 'E' then
      let (sign, rest) := readSign rest
      (readDigits rest).map fun (ds, rest) => (c :: (sign ++ ds), rest)
    else some ([], c :: rest)

/-- Reads a number without a sign: its digits before the point, the remainder of its text, and what
is left. -/
def readUnsigned (cs : List Char) : Option (List Char × List Char × List Char) := do
  let (whole, cs) ← readWhole cs
  let (fraction, cs) ← readFraction cs
  let (exponent, cs) ← readExponent cs
  return (whole, fraction ++ exponent, cs)

/-- Reads a number. -/
def readNumber : List Char → Option (Json × List Char)
  | '-' :: rest =>
    (readUnsigned rest).map fun (whole, tail, rest) => (.number ('-' :: (whole ++ tail)), rest)
  | cs =>
    (readUnsigned cs).map fun (whole, tail, rest) =>
      (if tail.isEmpty then .nat (ofDigits whole) else .number (whole ++ tail), rest)

/-! ### Values -/

/-- Reads the quoted key of a member and the colon after it. -/
def readKey (cs : List Char) : Option (Option String × List Char) :=
  match skipSpace cs with
  | '"' :: rest =>
    match readText rest with
    | some (k, rest) =>
      match skipSpace rest with
      | ':' :: rest => some (k, rest)
      | _ => none
    | none => none
  | _ => none

mutual

/-- Reads a value, after white space. The fuel bounds the nesting of calls. -/
def readValue : (fuel : Nat) → List Char → Option (Json × List Char)
  | 0, _ => none
  | fuel + 1, cs =>
    match skipSpace cs with
    | 'n' :: 'u' :: 'l' :: 'l' :: rest => some (.null, rest)
    | 't' :: 'r' :: 'u' :: 'e' :: rest => some (.bool true, rest)
    | 'f' :: 'a' :: 'l' :: 's' :: 'e' :: rest => some (.bool false, rest)
    | '"' :: rest => (readText rest).map fun (s, rest) => (.str s, rest)
    | '[' :: rest =>
      match skipSpace rest with
      | ']' :: rest => some (.arr [], rest)
      | rest => (readItems fuel rest).map fun (vs, rest) => (.arr vs, rest)
    | '\x7b' :: rest =>
      match skipSpace rest with
      | '\x7d' :: rest => some (.obj [], rest)
      | rest => (readMembers fuel rest).map fun (ms, rest) => (.obj ms, rest)
    | cs => readNumber cs

/-- Reads one item or more, and the closing bracket. -/
def readItems : (fuel : Nat) → List Char → Option (List Json × List Char)
  | 0, _ => none
  | fuel + 1, cs =>
    match readValue fuel cs with
    | none => none
    | some (v, rest) =>
      match skipSpace rest with
      | ',' :: rest => (readItems fuel rest).map fun (vs, rest) => (v :: vs, rest)
      | ']' :: rest => some ([v], rest)
      | _ => none

/-- Reads one member or more, and the closing brace. -/
def readMembers : (fuel : Nat) → List Char → Option (List (Option String × Json) × List Char)
  | 0, _ => none
  | fuel + 1, cs =>
    match readKey cs with
    | none => none
    | some (k, rest) =>
      match readValue fuel rest with
      | none => none
      | some (v, rest) =>
        match skipSpace rest with
        | ',' :: rest => (readMembers fuel rest).map fun (ms, rest) => ((k, v) :: ms, rest)
        | '\x7d' :: rest => some ([(k, v)], rest)
        | _ => none

end

/-- The value of a whole text. -/
def parse? (text : String) : Option Json :=
  let cs := text.toList
  match readValue (2 * cs.length + 2) cs with
  | some (v, rest) => if (skipSpace rest).isEmpty then some v else none
  | none => none

end Json

end TemporalMonitor
