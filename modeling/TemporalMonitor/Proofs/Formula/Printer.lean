import TemporalMonitor.Formula.Printer
import TemporalMonitor.Proofs.UniqueReading

/-!
# Texts of formulas are unambiguous

If propositions have names that are words, and none that the operators and constants use, then the
text of a formula determines the formula. An operand begins with a word or with a sign from which
its outermost symbol can be seen, and it can be told from what follows it, be it a space, a
parenthesis or nothing. At the top, where a binary operator stands without parentheses, the space
after its first operand gives it away.

## Main definitions

* `Formula.IsNamed` — the propositions have proper names
* `Formula.operandText` — a formula as it is written as an operand
* `Outermost.read` — what the beginning of an operand says of its outermost symbol

## Main results

* `Formula.operandText_append_inj` — operands can be told from what follows them
* `Formula.render_eq_iff_of_isNamed` — formulas are equal exactly if their texts are
-/

namespace TemporalMonitor

/-! ### Names -/

/-- Letters, digits and the underscore. -/
def isWordChar (c : Char) : Bool := c.isAlphanum || c == '_'

/-- The words that stand for constants and operators. -/
def reservedWords : List String := ["true", "false", "X", "U", "R", "W"]

/-- A word that does not stand for a constant or an operator. -/
def IsName (name : String) : Prop :=
  name ≠ "" ∧ name.toList.all isWordChar = true ∧ ¬ name ∈ reservedWords

instance (name : String) : Decidable (IsName name) := inferInstanceAs (Decidable (_ ∧ _ ∧ _))

namespace Formula

variable {f g : Formula} {r s : List Char}

/-- The propositions have proper names. -/
def IsNamed (f : Formula) : Prop := ∀ name ∈ f.propositions, IsName name

instance (f : Formula) : Decidable f.IsNamed :=
  inferInstanceAs (Decidable (∀ name ∈ f.propositions.toList, IsName name))

theorem isNamed_prop {name : String} : (prop name).IsNamed ↔ IsName name := by
  simp [IsNamed, propositions]

theorem isNamed_unary {op : UnaryOp} : (unary op f).IsNamed ↔ f.IsNamed := Iff.rfl

theorem isNamed_binary {op : BinaryOp} : (binary op f g).IsNamed ↔ f.IsNamed ∧ g.IsNamed := by
  simp only [IsNamed, propositions, SortedSet.mem_union]
  grind

/-! ### Operands -/

/-- The formula as it is written as an operand, in parentheses where it needs them. -/
def operandText (f : Formula) : List Char := (parenthesize f.isBinary f.render).toList

theorem operandText_of_isBinary (h : f.isBinary = true) :
    f.operandText = '(' :: (f.render.toList ++ [')']) := by
  simp [operandText, parenthesize, h]

theorem operandText_of_not_isBinary (h : f.isBinary = false) :
    f.operandText = f.render.toList := by
  simp [operandText, parenthesize, h]

theorem toList_render_binary (op : BinaryOp) (f g : Formula) : (binary op f g).render.toList =
    f.operandText ++ ' ' :: (op.sign.toList ++ ' ' :: g.operandText) := by
  simp [render, operandText]

theorem operandText_unary (op : UnaryOp) (f : Formula) :
    (unary op f).operandText = op.sign.toList ++ f.operandText := by
  rw [operandText_of_not_isBinary rfl]
  simp [render, operandText]

theorem operandText_binary (op : BinaryOp) (f g : Formula) : (binary op f g).operandText =
    '(' :: (f.operandText ++ ' ' :: (op.sign.toList ++ ' ' :: (g.operandText ++ [')']))) := by
  rw [operandText_of_isBinary rfl, toList_render_binary]
  simp

end Formula

/-! ### The outermost symbol -/

/-- The outermost symbol of an operand, where all binary operators look alike: they stand inside
the parentheses. -/
inductive Outermost where
  | verum
  | falsum
  | prop (name : String)
  | unary (op : UnaryOp)
  | parenthesis

/-- The outermost symbol of the operand that the text begins with. -/
def Outermost.read (text : List Char) : Outermost :=
  let word := String.ofList (text.takeWhile isWordChar)
  if word = "true" then .verum
  else if word = "false" then .falsum
  else if word = "X" then .unary .next
  else if word ≠ "" then .prop word
  else if text.head? = some '!' then .unary .not
  else if text.head? = some '<' then .unary .eventually
  else if text.head? = some '[' then .unary .always
  else .parenthesis

namespace Formula

variable {f g : Formula} {r s : List Char}

/-- The outermost symbol. -/
def outermost : Formula → Outermost
  | .verum => .verum
  | .falsum => .falsum
  | .prop name => .prop name
  | .unary op _ => .unary op
  | .binary _ _ _ => .parenthesis

theorem takeWhile_word {word : String} (hword : word.toList.all isWordChar = true)
    (hr : EndsRun isWordChar r) :
    String.ofList ((word.toList ++ r).takeWhile isWordChar) = word := by
  rw [hr.takeWhile_append (List.all_eq_true.mp hword), String.ofList_toList]

theorem read_operandText (hf : f.IsNamed) (hr : EndsRun isWordChar r) :
    Outermost.read (f.operandText ++ r) = f.outermost := by
  cases f with
  | verum =>
    have hword : String.ofList ((verum.operandText ++ r).takeWhile isWordChar) = "true" :=
      takeWhile_word (by decide) hr
    simp [Outermost.read, hword, outermost]
  | falsum =>
    have hword : String.ofList ((falsum.operandText ++ r).takeWhile isWordChar) = "false" :=
      takeWhile_word (by decide) hr
    simp [Outermost.read, hword, outermost]
  | prop name =>
    obtain ⟨hne, hchars, hfree⟩ := isNamed_prop.mp hf
    have hword : String.ofList (((prop name).operandText ++ r).takeWhile isWordChar) = name :=
      takeWhile_word hchars hr
    simp only [reservedWords, List.mem_cons, not_or] at hfree
    simp [Outermost.read, hword, outermost, hne, hfree]
  | unary op f =>
    -- the sign ends any word at its second character at the latest, so nothing is asked of `f`
    rw [operandText_unary]
    cases op <;> simp [Outermost.read, UnaryOp.sign, outermost, isWordChar]
  | binary op f g =>
    rw [operandText_binary]
    simp [Outermost.read, outermost, isWordChar]

theorem outermost_eq_of_append_eq (hf : f.IsNamed) (hg : g.IsNamed) (hr : EndsRun isWordChar r)
    (hs : EndsRun isWordChar s) (h : f.operandText ++ r = g.operandText ++ s) :
    f.outermost = g.outermost := by
  rw [← read_operandText hf hr, h, read_operandText hg hs]

/-! ### Whole formulas -/

theorem uniquelyRead_sign :
    UniquelyRead (EndsRun (· != ' ')) fun op : BinaryOp => op.sign.toList := by
  intro op op' r s hr hs h
  have hspaceless : ∀ op : BinaryOp, ∀ c ∈ op.sign.toList, (c != ' ') = true := by
    intro op
    rw [← List.all_eq_true]
    cases op <;> rfl
  obtain ⟨hsign, hrs⟩ := append_inj_of_endsRun (hspaceless op) (hspaceless op') hr hs h
  refine ⟨?_, hrs⟩
  cases op <;> cases op' <;> first | rfl | exact absurd hsign (by decide)

/-- Before anything that does not continue a word, an operand can be told from what follows it. -/
theorem operandText_append_inj (hf : f.IsNamed) (hg : g.IsNamed) (hr : EndsRun isWordChar r)
    (hs : EndsRun isWordChar s) (h : f.operandText ++ r = g.operandText ++ s) :
    f = g ∧ r = s := by
  induction f generalizing g r s with
  | verum | falsum | prop =>
    have hsymbol := outermost_eq_of_append_eq hf hg hr hs h
    cases g <;> cases hsymbol
    exact ⟨rfl, List.append_cancel_left h⟩
  | unary op f ih =>
    have hsymbol := outermost_eq_of_append_eq hf hg hr hs h
    cases g <;> cases hsymbol
    rw [operandText_unary, operandText_unary, List.append_assoc, List.append_assoc] at h
    obtain ⟨rfl, hrs⟩ :=
      ih (isNamed_unary.mp hf) (isNamed_unary.mp hg) hr hs (List.append_cancel_left h)
    exact ⟨rfl, hrs⟩
  | binary op f₁ f₂ ih₁ ih₂ =>
    have hsymbol := outermost_eq_of_append_eq hf hg hr hs h
    cases g <;> cases hsymbol
    simp only [operandText_binary, List.cons_append, List.append_assoc, List.cons.injEq,
      true_and] at h
    obtain ⟨hf₁, hf₂⟩ := isNamed_binary.mp hf
    obtain ⟨hg₁, hg₂⟩ := isNamed_binary.mp hg
    -- a space follows the first operand and the sign, a parenthesis the second operand
    obtain ⟨rfl, hafterFirst⟩ := ih₁ hf₁ hg₁ (by rfl) (by rfl) h
    obtain ⟨rfl, hafterSign⟩ :=
      uniquelyRead_sign (by rfl) (by rfl) (List.cons.inj hafterFirst).2
    obtain ⟨rfl, hafterSecond⟩ :=
      ih₂ hf₂ hg₂ (by rfl) (by rfl) (List.cons.inj hafterSign).2
    exact ⟨rfl, (List.cons.inj hafterSecond).2⟩

/-- A space follows the first operand of a binary operator, and nothing a whole operand. -/
theorem isBinary_of_render_eq (hf : f.IsNamed) (hg : g.IsNamed) (h : f.render = g.render)
    (hbinary : f.isBinary = true) : g.isBinary = true := by
  cases f with
  | binary op f₁ f₂ =>
    by_contra hplain
    rw [← String.toList_inj, toList_render_binary,
      ← operandText_of_not_isBinary (Bool.eq_false_iff.mpr hplain)] at h
    obtain ⟨-, hnil⟩ := operandText_append_inj (s := []) (isNamed_binary.mp hf).1 hg (by rfl)
      trivial (h.trans (List.append_nil _).symm)
    cases hnil
  | verum | falsum | prop | unary => cases hbinary

/-- Formulas whose propositions have proper names are equal exactly if their texts are. -/
theorem render_eq_iff_of_isNamed (hf : f.IsNamed) (hg : g.IsNamed) :
    f.render = g.render ↔ f = g := by
  refine ⟨fun h => ?_, congrArg render⟩
  have hbinary : f.isBinary = g.isBinary :=
    Bool.eq_iff_iff.mpr ⟨isBinary_of_render_eq hf hg h, isBinary_of_render_eq hg hf h.symm⟩
  have hoperand : f.operandText = g.operandText := by
    rw [operandText, hbinary, h, operandText]
  exact (operandText_append_inj hf hg (r := []) (s := []) trivial trivial
    (congrArg (· ++ []) hoperand)).1

-- a proposition may not be called like a constant
example : (prop "true").render = verum.render := rfl

/-- Whether the next instant is meant for all of an until formula or for its first operand only can
be read off the text. -/
theorem render_next_until_ne :
    (next ((prop "a").until (prop "b"))).IsNamed ∧ ((next (prop "a")).until (prop "b")).IsNamed ∧
      (next ((prop "a").until (prop "b"))).render ≠
        ((next (prop "a")).until (prop "b")).render := by
  have hnext : (next ((prop "a").until (prop "b"))).IsNamed := by decide +kernel
  have huntil : ((next (prop "a")).until (prop "b")).IsNamed := by decide +kernel
  exact ⟨hnext, huntil, fun h => absurd ((render_eq_iff_of_isNamed hnext huntil).mp h) (by decide)⟩

end Formula

end TemporalMonitor
