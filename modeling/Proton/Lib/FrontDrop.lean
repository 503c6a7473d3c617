import Mathlib.Data.List.Infix

/-!
# Dropping from the Front of a List

A scan that drops elements from the front of a list as long as a predicate on the element
and on what is left behind it holds. The scan is given by its outcome: a split of the list
whose front holds only elements with the predicate and whose back does not start with one.

## Main results

* `FrontDrop.suffix_of_each`: the scan goes at least as far as any front that can be dropped.
* `FrontDrop.unique`: there is one outcome.
-/

variable {α : Type*} {P : α → List α → Prop} {l front back front' back' : List α}

/-- Every element of the front has the predicate, with what is left of the list behind it. -/
def FrontDrop.Each (P : α → List α → Prop) : List α → List α → Prop
  | [], _ => True
  | a :: front, back => P a (front ++ back) ∧ Each P front back

/-- The outcome of dropping from the front. -/
structure FrontDrop (P : α → List α → Prop) (l front back : List α) : Prop where
  split : l = front ++ back
  each : FrontDrop.Each P front back
  stops : ∀ a rest, back = a :: rest → ¬P a rest

namespace FrontDrop

/-- A front in two parts. -/
theorem each_append {middle : List α} :
    Each P (front ++ middle) back ↔ Each P front (middle ++ back) ∧ Each P middle back := by
  induction front with
  | nil => simp [Each]
  | cons a front ih => simp only [List.cons_append, Each, ih, List.append_assoc, and_assoc]

/-- One element of the front. -/
theorem Each.of_mem (h : Each P front back) {a : α} (ha : a ∈ front) :
    ∃ before behind, front = before ++ a :: behind ∧ P a (behind ++ back) := by
  obtain ⟨before, behind, rfl⟩ := List.append_of_mem ha
  exact ⟨before, behind, rfl, (each_append.mp h).2.1⟩

/-- Nothing is dropped when the first element has not the predicate. -/
theorem of_not (h : ∀ a rest, l = a :: rest → ¬P a rest) : FrontDrop P l [] l :=
  ⟨rfl, trivial, h⟩

variable (h : FrontDrop P l front back)
include h

/-- One more element in front. -/
theorem cons {a : α} (ha : P a l) : FrontDrop P (a :: l) (a :: front) back := by
  obtain ⟨rfl, heach, hstops⟩ := h
  exact ⟨rfl, ⟨ha, heach⟩, hstops⟩

/-- The scan goes at least as far as any front that can be dropped. -/
theorem suffix_of_each (hl : l = front' ++ back')
    (heach : Each P front' back') : back <:+ back' := by
  induction front' generalizing l front with
  | nil => exact ⟨front, h.split.symm.trans hl⟩
  | cons a front' ih =>
    obtain ⟨ha, heach⟩ := heach
    cases front with
    | nil => exact absurd ha (h.stops a _ (h.split.symm.trans hl))
    | cons b front =>
      obtain ⟨rfl, hrest⟩ := List.cons_eq_cons.mp (h.split.symm.trans hl)
      exact ih ⟨rfl, h.each.2, h.stops⟩ hrest heach

/-- **There is one outcome.** -/
theorem unique (h' : FrontDrop P l front' back') : front = front' ∧ back = back' := by
  have hback : back = back' :=
    (h.suffix_of_each h'.split h'.each).eq_of_length_le
      (h'.suffix_of_each h.split h.each).length_le
  subst hback
  exact ⟨List.append_cancel_right (h.split.symm.trans h'.split), rfl⟩

end FrontDrop
