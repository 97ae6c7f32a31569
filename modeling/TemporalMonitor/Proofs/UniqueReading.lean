import Mathlib.Data.List.TakeWhile

/-!
# Texts that can be read in one way only

A text made of parts says what its parts are if each part can be told from whatever comes after it.
Some parts show where they end, such as text in quotes. Others, such as numbers, go on for as long
as there are characters of their kind, and must be followed by something else.

## Main definitions

* `EndsRun` — a text does not begin with a character of some kind
* `UniquelyRead` — values whose texts can be told apart, whatever of some kind follows them

## Main results

* `append_inj_of_endsRun` — runs of characters of one kind
* `uniquelyRead_toDigits` — numbers
* `UniquelyRead.append`, `UniquelyRead.flatMap` — sequences
-/

namespace TemporalMonitor

variable {α β : Type} {r s : List Char}

/-! ### Runs of characters -/

/-- What follows a run of characters does not continue it. -/
def EndsRun (p : Char → Bool) : List Char → Prop
  | [] => True
  | c :: _ => p c = false

theorem EndsRun.takeWhile_append {p : Char → Bool} {l : List Char} (hr : EndsRun p r)
    (hl : ∀ c ∈ l, p c = true) : (l ++ r).takeWhile p = l := by
  rw [List.takeWhile_append_of_pos hl]
  cases r with
  | nil => simp
  | cons c r => simp [show p c = false from hr]

/-- Two runs of the same kind, followed by something else, can be told from what follows. -/
theorem append_inj_of_endsRun {p : Char → Bool} {l m : List Char} (hl : ∀ c ∈ l, p c = true)
    (hm : ∀ c ∈ m, p c = true) (hr : EndsRun p r) (hs : EndsRun p s) (h : l ++ r = m ++ s) :
    l = m ∧ r = s := by
  have hlm : l = m := by
    rw [← hr.takeWhile_append hl, h, hs.takeWhile_append hm]
  subst hlm
  exact ⟨rfl, List.append_cancel_left h⟩

/-! ### Values and their texts -/

/-- Before anything that satisfies `Follows`, the text of a value determines the value and where the
text ends. -/
def UniquelyRead (Follows : List Char → Prop) (text : α → List Char) : Prop :=
  ∀ ⦃x y : α⦄ ⦃r s : List Char⦄, Follows r → Follows s → text x ++ r = text y ++ s → x = y ∧ r = s

/-- A text that can be followed by anything. -/
def Anything (_ : List Char) : Prop := True

variable {F G : List Char → Prop} {text : α → List Char} {text' : β → List Char}

theorem uniquelyRead_toDigits : UniquelyRead (EndsRun Char.isDigit) (Nat.toDigits 10) := by
  intro m n r s hr hs h
  have hdigit : ∀ n, ∀ c ∈ Nat.toDigits 10 n, c.isDigit = true := fun n c hc =>
    Nat.isDigit_of_mem_toDigits (by decide) (by decide) hc
  obtain ⟨hmn, hrs⟩ := append_inj_of_endsRun (hdigit m) (hdigit n) hr hs h
  have hvalue := congrArg (Nat.ofDigitChars 10 · 0) hmn
  simp only [Nat.ofDigitChars_ten_toDigits] at hvalue
  exact ⟨hvalue, hrs⟩

/-- Fixed text in front changes nothing. -/
theorem UniquelyRead.const_append (h : UniquelyRead F text) (c : List Char) :
    UniquelyRead F fun x => c ++ text x := by
  intro x y r s hr hs heq
  rw [List.append_assoc, List.append_assoc] at heq
  exact h hr hs (List.append_cancel_left heq)

/-- One part after another, where the second may follow the first. -/
theorem UniquelyRead.append (h : UniquelyRead F text) (h' : UniquelyRead G text')
    (hF : ∀ y r, G r → F (text' y ++ r)) :
    UniquelyRead G fun v : α × β => text v.1 ++ text' v.2 := by
  rintro ⟨x, y⟩ ⟨x', y'⟩ r s hr hs heq
  simp only [List.append_assoc] at heq
  obtain ⟨rfl, hrest⟩ := h (hF y r hr) (hF y' s hs) heq
  obtain ⟨rfl, hrs⟩ := h' hr hs hrest
  exact ⟨rfl, hrs⟩

/-- Fixed text at the end can make room for anything to follow. -/
theorem UniquelyRead.append_const (h : UniquelyRead F text) {c : List Char}
    (hF : ∀ r, F (c ++ r)) : UniquelyRead Anything fun x => text x ++ c := by
  intro x y r s _ _ heq
  rw [List.append_assoc, List.append_assoc] at heq
  obtain ⟨rfl, hrest⟩ := h (hF r) (hF s) heq
  exact ⟨rfl, List.append_cancel_left hrest⟩

/-- A list of parts, each of which may follow another, ends where no further part begins. -/
theorem UniquelyRead.flatMap (h : UniquelyRead F text) (hF : ∀ x r, F (text x ++ r)) :
    UniquelyRead (fun r => F r ∧ ∀ x t, r ≠ text x ++ t) (List.flatMap text) := by
  have hfollows : ∀ (l : List α) r, F r → F (l.flatMap text ++ r) := by
    intro l r hr
    cases l with
    | nil => exact hr
    | cons x l =>
      rw [List.flatMap_cons, List.append_assoc]
      exact hF x _
  intro l m r s hr hs heq
  induction l generalizing m with
  | nil =>
    cases m with
    | nil => exact ⟨rfl, heq⟩
    | cons y m =>
      rw [List.flatMap_cons, List.append_assoc] at heq
      exact absurd heq (hr.2 y _)
  | cons x l ih =>
    cases m with
    | nil =>
      rw [List.flatMap_cons, List.append_assoc] at heq
      exact absurd heq.symm (hs.2 x _)
    | cons y m =>
      simp only [List.flatMap_cons, List.append_assoc] at heq
      obtain ⟨rfl, hrest⟩ := h (hfollows l r hr.1) (hfollows m s hs.1) heq
      obtain ⟨rfl, hrs⟩ := ih hrest
      exact ⟨rfl, hrs⟩

end TemporalMonitor
