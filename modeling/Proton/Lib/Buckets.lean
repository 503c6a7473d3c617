import Mathlib.Data.List.Range

/-!
# Buckets

The elements of a list are put into buckets by an index. If the elements of one bucket come before
those of another one in the list, one bucket after the other has the elements in the order of the
list.

## Main results

* `Buckets.split_filter`: one bucket after the other.
-/

open List

namespace Buckets

variable {α β : Type*}

/-- The elements of a list are put into buckets, unless they have no index. -/
def fill (index : α → Option ℕ) (push : ℕ → β → α → β) (buckets : List β) (l : List α) : List β :=
  l.foldl
    (fun buckets a =>
      match index a with
      | none => buckets
      | some i => buckets.modify i fun b => push i b a) buckets

/-- The elements for which a condition holds stand first, if it holds before each of them. -/
theorem split_filter {p : α → Bool} {l : List α}
    (h : l.Pairwise fun a b => p b = true → p a = true) :
    l = l.filter p ++ l.filter fun a => !p a := by
  induction l with
  | nil => rfl
  | cons a l ih =>
    obtain ⟨ha, hl⟩ := pairwise_cons.mp h
    by_cases hp : p a = true
    · rw [filter_cons_of_pos hp, filter_cons_of_neg (by simp [hp]), cons_append, ← ih hl]
    · have hall : ∀ b ∈ l, ¬ p b = true := fun b hb h => hp (ha b hb h)
      rw [filter_cons_of_neg hp, filter_cons_of_pos (by simp [hp]), filter_eq_nil_iff.mpr hall,
        nil_append, filter_eq_self.mpr (by simpa using hall)]

end Buckets
