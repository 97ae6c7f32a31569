/-!
# Loops as folds

A loop over a list is a fold. Its invariant may speak of the elements that the loop has passed, and
every step may use that the element at hand comes right after them.

## Main results

* `foldl_invariant` — what every step of a loop keeps holds at its end
* `foldl_eq_of_invariant` — loops whose steps agree wherever an invariant holds end alike
-/

namespace TemporalMonitor

variable {α β : Type} {I : List α → β → Prop} {f g : β → α → β} {l : List α} {b : β}

/-- What holds before a fold, and is kept by every step with the elements folded so far known, holds
after the fold. -/
theorem foldl_invariant (hstart : I [] b)
    (hstep : ∀ done x rest b, l = done ++ x :: rest → I done b → I (done ++ [x]) (f b x)) :
    I l (l.foldl f b) := by
  have hrest : ∀ (rest done : List α) (b : β), l = done ++ rest → I done b →
      I l (rest.foldl f b) := by
    intro rest
    induction rest with
    | nil =>
      intro done b hl h
      rw [hl, List.append_nil]
      exact h
    | cons x rest ih =>
      intro done b hl h
      exact ih (done ++ [x]) (f b x) (by simp [hl]) (hstep done x rest b hl h)
  exact hrest l [] b rfl hstart

/-- Two folds agree if their steps do wherever an invariant of the fold holds. -/
theorem foldl_eq_of_invariant (hstart : I [] b)
    (hstep : ∀ done x rest b, l = done ++ x :: rest → I done b →
      I (done ++ [x]) (f b x) ∧ g b x = f b x) :
    l.foldl g b = l.foldl f b := by
  have hfold : I l (l.foldl f b) ∧ l.foldl g b = l.foldl f b := by
    refine foldl_invariant (I := fun done c => I done c ∧ done.foldl g b = c) ⟨hstart, rfl⟩ ?_
    rintro done x rest c hl ⟨hc, hg⟩
    obtain ⟨hkept, hsame⟩ := hstep done x rest c hl hc
    refine ⟨hkept, ?_⟩
    rw [List.foldl_append, hg, List.foldl_cons, List.foldl_nil, hsame]
  exact hfold.2

end TemporalMonitor
