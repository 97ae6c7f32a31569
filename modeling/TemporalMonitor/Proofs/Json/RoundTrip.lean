import Mathlib.Data.List.DropRight
import TemporalMonitor.Json.Reader
import TemporalMonitor.Json.Writer

/-!
# What is written is read back

In either layout the reader gets back the value that was written, whatever comes after it, unless
that continues a number. This is stated as a property of values, `ReadsBack`, which lists and
objects inherit from their items and members. The writer puts at most one character of white space
where the reader expects something else, and the reader skips any amount of it.

## Main definitions

* `Json.EndsNumber` — a number does not go on
* `Json.ReadsBack` — a value is read back, whatever follows

## Main results

* `Json.readsBack_str`, `Json.readsBack_bool`, `Json.readsBack_nat`, `Json.readsBack_arr`,
  `Json.readsBack_obj` — one for each kind of value
* `Json.ReadsBack.parse?_write` — whole texts
-/

namespace TemporalMonitor

namespace Json

variable {layout : Layout} {level fuel : Nat} {cs tail rest : List Char}

/-! ### White space -/

theorem skipSpace_cons {c : Char} (h : isSpace c = false) : skipSpace (c :: cs) = c :: cs := by
  rw [skipSpace, List.dropWhile_cons_of_neg (by simp [h])]

theorem isSpace_of_mem_newline {c : Char} (h : c ∈ layout.newline level) : isSpace c = true := by
  cases layout with
  | compact => cases h
  | pretty =>
    simp only [Layout.newline, List.mem_cons, List.mem_replicate] at h
    cases h with
    | inl h => rw [h]; rfl
    | inr h => rw [h.2]; rfl

theorem skipSpace_newline : skipSpace (layout.newline level ++ cs) = skipSpace cs :=
  List.dropWhile_append_of_pos fun _ => isSpace_of_mem_newline

/-- Only what comes after the white space matters to the readers. -/
theorem readValue_congr (h : skipSpace cs = skipSpace tail) :
    readValue fuel cs = readValue fuel tail := by
  cases fuel with
  | zero => rfl
  | succ fuel => rw [readValue, readValue, h]

theorem readItems_skipSpace : readItems fuel (skipSpace cs) = readItems fuel cs := by
  have hskip : skipSpace (skipSpace cs) = skipSpace cs := List.dropWhile_idempotent isSpace cs
  cases fuel with
  | zero => rfl
  | succ fuel => rw [readItems, readItems, readValue_congr hskip]

theorem readMembers_skipSpace : readMembers fuel (skipSpace cs) = readMembers fuel cs := by
  have hskip : skipSpace (skipSpace cs) = skipSpace cs := List.dropWhile_idempotent isSpace cs
  cases fuel with
  | zero => rfl
  | succ fuel => rw [readMembers, readMembers, readKey, readKey, hskip]

/-! ### Text -/

theorem hexValue_hexDigit {n : Nat} (h : n < 16) : hexValue (hexDigit n) = some n := by
  revert n
  decide

theorem readPieces_letter {letter c : Char} (h : escapedChar letter = some c) :
    readPieces ('\\' :: letter :: cs) =
      (readPieces cs).map fun (ps, rest) => (.char c :: ps, rest) := by
  rw [readPieces]
  · rw [h]
  · rintro a b c d rest rfl
    cases h

theorem readPieces_plain {c : Char} (hquote : c ≠ '"') (hbackslash : c ≠ '\\')
    (h : 32 ≤ c.toNat) :
    readPieces (c :: cs) = (readPieces cs).map fun (ps, rest) => (.char c :: ps, rest) := by
  rw [readPieces]
  · rw [if_neg (by omega)]
  all_goals simp_all

/-- A unit that is no surrogate stands for its character, whatever follows. -/
theorem assemble_unit {u : Nat} {ps : List Piece} (h : u < 0xD800) :
    assemble (.unit u :: ps) = (assemble ps).map (Char.ofNat u :: ·) := by
  have hhigh : isHighSurrogate u = false := by simp [isHighSurrogate]; omega
  have hlow : isLowSurrogate u = false := by simp [isLowSurrogate]; omega
  cases ps with
  | nil => simp [assemble, hhigh, hlow]
  | cons p ps =>
    cases p with
    | char c => simp [assemble, hhigh, hlow, Function.comp_def]
    | unit v => simp [assemble, hhigh, hlow]

/-- A character is written as a letter after a backslash, by its number, or as it is. -/
theorem escapeChar_cases (c : Char) :
    (∃ letter, escapedChar letter = some c ∧ escapeChar c = ['\\', letter]) ∨
    (c.toNat < 32 ∧ escapeChar c =
      ['\\', 'u', '0', '0', hexDigit (c.toNat / 16), hexDigit (c.toNat % 16)]) ∨
    (c ≠ '"' ∧ c ≠ '\\' ∧ 32 ≤ c.toNat ∧ escapeChar c = [c]) := by
  simp only [escapeChar]
  split_ifs with hquote hbackslash _ _ _ _ _ hcontrol
  any_goals exact .inl ⟨_, by simp [*, escapedChar], rfl⟩
  · exact .inr (.inl ⟨hcontrol, rfl⟩)
  · exact .inr (.inr ⟨hquote, hbackslash, by omega, rfl⟩)

/-- What a character is written as is read as one piece, which denotes the character. -/
theorem exists_piece (c : Char) : ∃ p : Piece,
    (∀ cs, readPieces (escapeChar c ++ cs) =
      (readPieces cs).map fun (ps, rest) => (p :: ps, rest)) ∧
    ∀ ps, assemble (p :: ps) = (assemble ps).map (c :: ·) := by
  obtain ⟨letter, hletter, hc⟩ | ⟨hcontrol, hc⟩ | ⟨hquote, hbackslash, hplain, hc⟩ :=
    escapeChar_cases c
  · refine ⟨.char c, fun cs => ?_, fun ps => by rw [assemble]⟩
    rw [hc]
    exact readPieces_letter hletter
  · -- the number of a control character has two digits
    have hunit : hexUnit '0' '0' (hexDigit (c.toNat / 16)) (hexDigit (c.toNat % 16)) =
        some c.toNat := by
      have hzero : hexValue '0' = some 0 := rfl
      simp [hexUnit, hzero, hexValue_hexDigit (show c.toNat / 16 < 16 by omega),
        hexValue_hexDigit (show c.toNat % 16 < 16 by omega)]
      omega
    refine ⟨.unit c.toNat, fun cs => ?_, fun ps => ?_⟩
    · rw [hc]
      simp only [List.cons_append, List.nil_append]
      rw [readPieces, hunit]
    · rw [assemble_unit (by omega), Char.ofNat_toNat]
  · refine ⟨.char c, fun cs => ?_, fun ps => by rw [assemble]⟩
    rw [hc]
    exact readPieces_plain hquote hbackslash hplain

theorem exists_readPieces (l : List Char) : ∃ ps, assemble ps = some l ∧
    ∀ rest, readPieces (l.flatMap escapeChar ++ '"' :: rest) = some (ps, rest) := by
  induction l with
  | nil => exact ⟨[], rfl, fun rest => rfl⟩
  | cons c l ih =>
    obtain ⟨ps, hps, hread⟩ := ih
    obtain ⟨p, hp, hassemble⟩ := exists_piece c
    refine ⟨p :: ps, ?_, fun rest => ?_⟩
    · rw [hassemble, hps, Option.map_some]
    · rw [List.flatMap_cons, List.append_assoc, hp, hread, Option.map_some]

/-- Text is read back after its opening quote, also text that denotes no string. -/
theorem exists_body (s : Option String) : ∃ body, writeText s = '"' :: body ∧
    ∀ rest, readText (body ++ rest) = some (s, rest) := by
  cases s with
  | none =>
    have hunit : hexUnit 'd' '8' '0' '0' = some 0xD800 := by decide
    refine ⟨_, rfl, fun rest => ?_⟩
    simp [readText, readPieces, hunit, assemble, isHighSurrogate]
  | some s =>
    obtain ⟨ps, hps, hread⟩ := exists_readPieces s.toList
    refine ⟨_, rfl, fun rest => ?_⟩
    rw [List.append_assoc, List.singleton_append, readText, hread]
    simp [hps]

/-! ### Numbers -/

/-- What follows a number does not go on with it. -/
def EndsNumber : List Char → Prop
  | [] => True
  | c :: _ => isDigit c = false ∧ c ≠ '.' ∧ c ≠ 'e' ∧ c ≠ 'E'

theorem isDigit_of_mem_toDigits {n : Nat} {c : Char} (h : c ∈ Nat.toDigits 10 n) :
    isDigit c = true := by
  have hdigit := Nat.isDigit_of_mem_toDigits (by decide) (by decide) h
  simpa [isDigit, Char.isDigit, Char.le_def] using hdigit

theorem ofDigits_toDigits (n : Nat) : ofDigits (Nat.toDigits 10 n) = n := by
  rw [ofDigits, ← Nat.ofDigitChars_eq_foldl]
  exact Nat.ofDigitChars_ten_toDigits

theorem spanDigits_append {ds : List Char} (hds : ∀ c ∈ ds, isDigit c = true)
    (hrest : EndsNumber rest) : spanDigits (ds ++ rest) = (ds, rest) := by
  have hstop : rest.takeWhile isDigit = [] ∧ rest.dropWhile isDigit = rest := by
    cases rest with
    | nil => exact ⟨rfl, rfl⟩
    | cons c cs => simp [hrest.1]
  rw [spanDigits, List.takeWhile_append_of_pos hds, List.dropWhile_append_of_pos hds, hstop.1,
    hstop.2, List.append_nil]

/-- A zero in front stands alone. -/
theorem eq_nil_of_toDigits_eq_cons {n : Nat} {ds : List Char}
    (h : Nat.toDigits 10 n = '0' :: ds) : ds = [] := by
  induction n using Nat.strong_induction_on generalizing ds with
  | _ n ih =>
    by_cases hn : n < 10
    · rw [Nat.toDigits_of_lt_base hn] at h
      injection h with _ h
      exact h.symm
    · rw [Nat.toDigits_of_base_le (by decide) (by omega)] at h
      cases hhead : Nat.toDigits 10 (n / 10) with
      | nil => exact absurd hhead Nat.toDigits_ne_nil
      | cons c cs =>
        -- the digits but for the last one would be a single zero
        rw [hhead, List.cons_append] at h
        injection h with hc
        subst hc
        have hzero := ofDigits_toDigits (n / 10)
        rw [hhead, ih (n / 10) (by omega) hhead] at hzero
        have hzero : 0 = n / 10 := hzero
        omega

theorem readWhole_toDigits (n : Nat) (hrest : EndsNumber rest) :
    readWhole (Nat.toDigits 10 n ++ rest) = some (Nat.toDigits 10 n, rest) := by
  have hspan := spanDigits_append (fun _ => isDigit_of_mem_toDigits (n := n)) hrest
  cases hdigits : Nat.toDigits 10 n with
  | nil => exact absurd hdigits Nat.toDigits_ne_nil
  | cons d ds =>
    by_cases hd : d = '0'
    · subst hd
      rw [eq_nil_of_toDigits_eq_cons hdigits]
      rfl
    · rw [hdigits] at hspan
      rw [List.cons_append, readWhole]
      · rw [readDigits, ← List.cons_append, hspan]
      · intro rest' h
        injection h with h
        exact hd h

theorem readUnsigned_toDigits (n : Nat) (hrest : EndsNumber rest) :
    readUnsigned (Nat.toDigits 10 n ++ rest) = some (Nat.toDigits 10 n, [], rest) := by
  have hfraction : readFraction rest = some ([], rest) := by
    cases rest with
    | nil => rfl
    | cons c cs =>
      rw [readFraction]
      intro cs' h
      injection h with h
      exact hrest.2.1 h
  have hexponent : readExponent rest = some ([], rest) := by
    cases rest with
    | nil => rfl
    | cons c cs => rw [readExponent, if_neg (by simp [hrest.2.2])]
  simp [readUnsigned, readWhole_toDigits n hrest, hfraction, hexponent]

theorem isSpace_of_isDigit {d : Char} (h : isDigit d = true) : isSpace d = false := by
  cases hspace : isSpace d with
  | false => rfl
  | true =>
    simp only [isSpace, Bool.or_eq_true, beq_iff_eq] at hspace
    rcases hspace with ((rfl | rfl) | rfl) | rfl <;> exact absurd h (by decide)

/-- Where a digit comes first, a number without a sign is read. -/
theorem readValue_of_isDigit {d : Char} (h : isDigit d = true) :
    readValue (fuel + 1) (d :: cs) = (readUnsigned (d :: cs)).map fun (whole, tail, rest) =>
      (if tail.isEmpty then .nat (ofDigits whole) else .number (whole ++ tail), rest) := by
  rw [readValue, skipSpace_cons (isSpace_of_isDigit h)]
  split
  case h_7 =>
    rw [readNumber]
    intro rest hcons
    injection hcons with hhead
    exact absurd h (by rw [hhead]; decide)
  -- what the other values begin with are no digits
  all_goals
    rename_i hcons
    injection hcons with hhead
    exact absurd h (by rw [hhead]; decide)

/-! ### Values -/

/-- The value is read back from what is written for it, whatever follows. -/
def ReadsBack (layout : Layout) (v : Json) : Prop :=
  ∀ level fuel rest, EndsNumber rest → 2 * (v.write layout level).length ≤ fuel →
    readValue fuel (v.write layout level ++ rest) = some (v, rest)

theorem readsBack_nat (n : Nat) : ReadsBack layout (.nat n) := by
  intro level fuel rest hrest hfuel
  have htext : write layout level (.nat n) = Nat.toDigits 10 n := by
    rw [write, Nat.toString_eq_ofList_toDigits, String.toList_ofList]
  rw [htext] at hfuel ⊢
  have hread := readUnsigned_toDigits n hrest
  have hvalue := ofDigits_toDigits n
  cases hdigits : Nat.toDigits 10 n with
  | nil => exact absurd hdigits Nat.toDigits_ne_nil
  | cons d ds =>
    have hd : isDigit d = true := isDigit_of_mem_toDigits (n := n) (by simp [hdigits])
    rw [hdigits] at hread hvalue hfuel
    cases fuel with
    | zero => simp at hfuel
    | succ fuel =>
      rw [List.cons_append] at hread ⊢
      rw [readValue_of_isDigit hd, hread]
      simp [hvalue]

theorem readsBack_bool (b : Bool) : ReadsBack layout (.bool b) := by
  intro level fuel rest hrest hfuel
  cases fuel with
  | zero => cases b <;> simp [write] at hfuel
  | succ fuel => cases b <;> rw [write] <;> rfl

theorem readsBack_str (s : Option String) : ReadsBack layout (.str s) := by
  intro level fuel rest hrest hfuel
  obtain ⟨body, hbody, hread⟩ := exists_body s
  rw [write, hbody] at hfuel ⊢
  cases fuel with
  | zero => simp at hfuel
  | succ fuel =>
    rw [List.cons_append, readValue, skipSpace_cons rfl]
    simp [hread]

/-! ### Lists -/

theorem endsNumber_comma : EndsNumber (',' :: cs) := ⟨rfl, by decide, by decide, by decide⟩

theorem endsNumber_newline {c : Char} (h : EndsNumber [c]) :
    EndsNumber (layout.newline level ++ c :: rest) := by
  cases layout with
  | compact => exact h
  | pretty => exact ⟨rfl, by decide, by decide, by decide⟩

theorem readItems_last {v : Json} (hv : readValue fuel cs = some (v, tail))
    (hclose : skipSpace tail = ']' :: rest) : readItems (fuel + 1) cs = some ([v], rest) := by
  simp [readItems, hv, hclose]

theorem readItems_more {v : Json} {vs : List Json} (hv : readValue fuel cs = some (v, ',' :: tail))
    (hvs : readItems fuel tail = some (vs, rest)) :
    readItems (fuel + 1) cs = some (v :: vs, rest) := by
  simp [readItems, hv, skipSpace_cons (show isSpace ',' = false from rfl), hvs]

theorem readItems_bracket : readItems fuel (']' :: cs) = none := by
  cases fuel with
  | zero => rfl
  | succ fuel =>
    have hvalue : readValue fuel (']' :: cs) = none := by
      cases fuel with
      | zero => rfl
      | succ fuel => rw [readValue, skipSpace_cons rfl]; rfl
    rw [readItems, hvalue]

/-- Items make a list: what was read as an item does not begin with a closing bracket. -/
theorem readValue_of_readItems {vs : List Json} (h : readItems fuel cs = some (vs, rest)) :
    readValue (fuel + 1) ('[' :: cs) = some (.arr vs, rest) := by
  rw [readValue, skipSpace_cons rfl]
  simp only
  split
  · rename_i close hclose
    rw [← readItems_skipSpace, hclose, readItems_bracket] at h
    cases h
  · rw [readItems_skipSpace, h]
    rfl

theorem readItems_write {v : Json} {vs : List Json} (h : ∀ u ∈ v :: vs, ReadsBack layout u)
    (htail : EndsNumber tail) (hclose : skipSpace tail = ']' :: rest)
    (hfuel : 2 * (v.write layout level ++ writeItems layout level vs).length ≤ fuel) :
    readItems (fuel + 1) (layout.newline level ++ (v.write layout level ++
      (writeItems layout level vs ++ tail))) = some (v :: vs, rest) := by
  rw [List.length_append] at hfuel
  induction vs generalizing v fuel with
  | nil =>
    apply readItems_last _ hclose
    rw [readValue_congr skipSpace_newline]
    exact h v List.mem_cons_self level fuel tail htail (by omega)
  | cons u us ih =>
    simp only [writeItems, List.cons_append, List.append_assoc, List.length_cons,
      List.length_append] at hfuel ⊢
    -- the comma makes up for the fuel that going on to the next item takes
    cases fuel with
    | zero => omega
    | succ fuel =>
      apply readItems_more
      · rw [readValue_congr skipSpace_newline]
        exact h v List.mem_cons_self level _ _ endsNumber_comma (by omega)
      · exact ih (fun u' hu' => h u' (List.mem_cons_of_mem _ hu')) (by omega)

theorem readsBack_arr {vs : List Json} (h : ∀ v ∈ vs, ReadsBack layout v) :
    ReadsBack layout (.arr vs) := by
  intro level fuel rest hrest hfuel
  cases vs with
  | nil =>
    cases fuel with
    | zero => simp [write] at hfuel
    | succ fuel => rw [write]; rfl
  | cons v vs =>
    simp only [write, List.cons_append, List.append_assoc, List.length_cons, List.length_append,
      List.nil_append] at hfuel ⊢
    -- the opening bracket makes up for the fuel that the list and its first item take
    obtain ⟨fuel, rfl⟩ : ∃ k, fuel = k + 1 + 1 := ⟨fuel - 2, by omega⟩
    apply readValue_of_readItems
    apply readItems_write h
    · exact endsNumber_newline ⟨rfl, by decide, by decide, by decide⟩
    · rw [skipSpace_newline, skipSpace_cons rfl]
    · rw [List.length_append]
      omega

/-! ### Objects -/

theorem exists_readKey (layout : Layout) (level : Nat) (k : Option String) (cs : List Char) : ∃ cs',
    readKey (layout.newline level ++ (writeText k ++ (layout.colon ++ cs))) = some (k, cs') ∧
      skipSpace cs' = skipSpace cs := by
  obtain ⟨body, hbody, hread⟩ := exists_body k
  have hkey : ∀ cs,
      readKey (layout.newline level ++ (writeText k ++ ':' :: cs)) = some (k, cs) := by
    intro cs
    rw [readKey, skipSpace_newline, hbody, List.cons_append, skipSpace_cons rfl]
    simp [hread, skipSpace_cons (show isSpace ':' = false from rfl)]
  cases layout with
  | compact => exact ⟨cs, hkey cs, rfl⟩
  | pretty => exact ⟨' ' :: cs, hkey (' ' :: cs), rfl⟩

theorem readMembers_last {k : Option String} {v : Json} {cs' : List Char}
    (hk : readKey cs = some (k, cs')) (hv : readValue fuel cs' = some (v, tail))
    (hclose : skipSpace tail = '\x7d' :: rest) :
    readMembers (fuel + 1) cs = some ([(k, v)], rest) := by
  simp [readMembers, hk, hv, hclose]

theorem readMembers_more {k : Option String} {v : Json} {ms : List (Option String × Json)}
    {cs' : List Char} (hk : readKey cs = some (k, cs'))
    (hv : readValue fuel cs' = some (v, ',' :: tail))
    (hms : readMembers fuel tail = some (ms, rest)) :
    readMembers (fuel + 1) cs = some ((k, v) :: ms, rest) := by
  simp [readMembers, hk, hv, skipSpace_cons (show isSpace ',' = false from rfl), hms]

theorem readMembers_brace : readMembers fuel ('\x7d' :: cs) = none := by
  cases fuel with
  | zero => rfl
  | succ fuel => rw [readMembers, readKey, skipSpace_cons rfl]; rfl

/-- Members make an object: what was read as a member does not begin with a closing brace. -/
theorem readValue_of_readMembers {ms : List (Option String × Json)}
    (h : readMembers fuel cs = some (ms, rest)) :
    readValue (fuel + 1) ('\x7b' :: cs) = some (.obj ms, rest) := by
  rw [readValue, skipSpace_cons rfl]
  simp only
  split
  · rename_i close hclose
    rw [← readMembers_skipSpace, hclose, readMembers_brace] at h
    cases h
  · rw [readMembers_skipSpace, h]
    rfl

theorem readMembers_write {k : Option String} {v : Json} {ms : List (Option String × Json)}
    (h : ∀ m ∈ (k, v) :: ms, ReadsBack layout m.2) (htail : EndsNumber tail)
    (hclose : skipSpace tail = '\x7d' :: rest)
    (hfuel : 2 * (v.write layout level ++ writeMembers layout level ms).length ≤ fuel) :
    readMembers (fuel + 1) (layout.newline level ++ (writeText k ++ (layout.colon ++
      (v.write layout level ++ (writeMembers layout level ms ++ tail))))) =
        some ((k, v) :: ms, rest) := by
  rw [List.length_append] at hfuel
  induction ms generalizing k v fuel with
  | nil =>
    have hv : ReadsBack layout v := h (k, v) List.mem_cons_self
    obtain ⟨cs', hkey, hcs'⟩ := exists_readKey layout level k
      (v.write layout level ++ (writeMembers layout level [] ++ tail))
    apply readMembers_last hkey _ hclose
    rw [readValue_congr hcs']
    exact hv level fuel tail htail (by omega)
  | cons m ms ih =>
    have hv : ReadsBack layout v := h (k, v) List.mem_cons_self
    obtain ⟨cs', hkey, hcs'⟩ := exists_readKey layout level k
      (v.write layout level ++ (writeMembers layout level (m :: ms) ++ tail))
    simp only [writeMembers, List.cons_append, List.append_assoc, List.length_cons,
      List.length_append] at hfuel hkey hcs' ⊢
    cases fuel with
    | zero => omega
    | succ fuel =>
      apply readMembers_more hkey
      · rw [readValue_congr hcs']
        exact hv level _ _ endsNumber_comma (by omega)
      · exact ih (fun m' hm' => h m' (List.mem_cons_of_mem _ hm')) (by omega)

theorem readsBack_obj {ms : List (Option String × Json)} (h : ∀ m ∈ ms, ReadsBack layout m.2) :
    ReadsBack layout (.obj ms) := by
  intro level fuel rest hrest hfuel
  cases ms with
  | nil =>
    cases fuel with
    | zero => simp [write] at hfuel
    | succ fuel => rw [write]; rfl
  | cons m ms =>
    simp only [write, List.cons_append, List.append_assoc, List.length_cons, List.length_append,
      List.nil_append] at hfuel ⊢
    obtain ⟨fuel, rfl⟩ : ∃ k, fuel = k + 1 + 1 := ⟨fuel - 2, by omega⟩
    apply readValue_of_readMembers
    apply readMembers_write h
    · exact endsNumber_newline ⟨rfl, by decide, by decide, by decide⟩
    · rw [skipSpace_newline, skipSpace_cons rfl]
    · rw [List.length_append]
      omega

/-! ### Whole texts -/

theorem ReadsBack.parse?_write {v : Json} (h : ReadsBack layout v) :
    parse? (.ofList (v.write layout 0)) = some v := by
  have hread := h 0 (2 * (v.write layout 0).length + 2) [] trivial (by omega)
  rw [List.append_nil] at hread
  simp [parse?, hread, skipSpace]

end Json

end TemporalMonitor
