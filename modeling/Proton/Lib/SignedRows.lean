import Mathlib.Algebra.BigOperators.Group.List.Basic
import Mathlib.Tactic.Ring

/-!
# Signed Rows

A changelog is a list of rows with signs: a row with `1` was inserted, one with `-1` retracted.
What it says of a row is the sum of the signs of the row.

## Main results

* `SignedRows.weight_append`: the weights of changelogs add up.
* `SignedRows.weight_map`: rows with one sign.
* `SignedRows.sum_eq_zero`: a changelog that leaves no rows adds up to nothing.
-/

open List

namespace SignedRows

variable {α : Type*} [DecidableEq α]

/-- The sum of the signs of a row. -/
def weight (rows : List (α × ℤ)) (a : α) : ℤ :=
  (rows.map fun row => if row.1 = a then row.2 else 0).sum

@[simp] theorem weight_nil (a : α) : weight [] a = 0 := rfl

@[simp] theorem weight_cons (row : α × ℤ) (rows : List (α × ℤ)) (a : α) :
    weight (row :: rows) a = (if row.1 = a then row.2 else 0) + weight rows a := by
  rw [weight, map_cons, sum_cons, ← weight]

@[simp] theorem weight_append (l r : List (α × ℤ)) (a : α) :
    weight (l ++ r) a = weight l a + weight r a := by
  rw [weight, map_append, sum_append, ← weight, ← weight]

/-- **Rows with one sign** count as often as they are there. -/
theorem weight_map (l : List α) (sign : ℤ) (a : α) :
    weight (l.map (·, sign)) a = sign * l.count a := by
  induction l with
  | nil => simp
  | cons b l ih =>
    rw [map_cons, weight_cons, ih, count_cons]
    by_cases h : b = a
    · simp only [h, if_true, beq_self_eq_true, Nat.cast_add]
      ring
    · simp [h]

/-- Different rows with one sign. -/
theorem weight_map_of_nodup {l : List α} (h : l.Nodup) (sign : ℤ) (a : α) :
    weight (l.map (·, sign)) a = if a ∈ l then sign else 0 := by
  rw [weight_map, h.count]
  split_ifs <;> simp

/-- Other names for the rows. -/
theorem weight_map_injective {β : Type*} [DecidableEq β] {f : α → β} (hf : Function.Injective f)
    (rows : List (α × ℤ)) (a : α) :
    weight (rows.map fun row => (f row.1, row.2)) (f a) = weight rows a := by
  rw [weight, map_map]
  refine congrArg sum (map_congr_left fun row _ => ?_)
  simp only [Function.comp, hf.eq_iff]

/-- A row that does not occur has no weight. -/
theorem weight_of_notMem {rows : List (α × ℤ)} {a : α} (h : a ∉ rows.map (·.1)) :
    weight rows a = 0 := by
  induction rows with
  | nil => rfl
  | cons row rows ih =>
    rw [map_cons, mem_cons, not_or] at h
    rw [weight_cons, if_neg (Ne.symm h.1), ih h.2, add_zero]

section Cancel

variable {M : Type*} [AddCommMonoid M] {f g : α → M} {rows : List (α × ℤ)}

/-- The rows that were inserted, and those that were retracted. -/
theorem exists_inserted_retracted (hsign : ∀ row ∈ rows, row.2 = 1 ∨ row.2 = -1) :
    ∃ inserted retracted : List α,
      (∀ a, weight rows a = inserted.count a - retracted.count a) ∧
      (rows.map (·.2)).sum = inserted.length - retracted.length ∧
      (rows.map fun row => if 0 ≤ row.2 then f row.1 else g row.1).sum =
        (inserted.map f).sum + (retracted.map g).sum := by
  induction rows with
  | nil => exact ⟨[], [], by simp⟩
  | cons row rows ih =>
    obtain ⟨inserted, retracted, hcount, hlength, hsum⟩ :=
      ih fun r hr => hsign r (mem_cons_of_mem _ hr)
    rcases hsign row mem_cons_self with hrow | hrow
    · refine ⟨row.1 :: inserted, retracted, fun a => ?_, ?_, ?_⟩
      · rw [weight_cons, hcount, count_cons, hrow]
        simp only [beq_iff_eq, Nat.cast_add, Nat.cast_ite]
        ring_nf
      · rw [map_cons, sum_cons, hlength, hrow, length_cons, Nat.cast_add]
        ring
      · simp [hrow, hsum, add_assoc]
    · refine ⟨inserted, row.1 :: retracted, fun a => ?_, ?_, ?_⟩
      · rw [weight_cons, hcount, count_cons, hrow]
        simp only [beq_iff_eq, Nat.cast_add]
        split_ifs <;> ring
      · rw [map_cons, sum_cons, hlength, hrow, length_cons, Nat.cast_add]
        ring
      · simp [hrow, hsum, add_left_comm]

/-- No row is retracted more often than it was inserted. -/
theorem sum_sign_nonneg (hsign : ∀ row ∈ rows, row.2 = 1 ∨ row.2 = -1)
    (hweight : ∀ a, 0 ≤ weight rows a) : 0 ≤ (rows.map (·.2)).sum := by
  obtain ⟨inserted, retracted, hcount, hlength, -⟩ :=
    exists_inserted_retracted (f := fun _ => 0) (g := fun _ => (0 : ℕ)) hsign
  have hsub : retracted.Subperm inserted := subperm_ext_iff.2 fun a _ => by
    have := hweight a
    rw [hcount] at this
    omega
  have := hsub.length_le
  omega

/-- **A changelog that leaves no rows** adds up to nothing. -/
theorem sum_eq_zero (hfg : ∀ a, f a + g a = 0) (hsign : ∀ row ∈ rows, row.2 = 1 ∨ row.2 = -1)
    (hweight : ∀ a, 0 ≤ weight rows a) (hnone : (rows.map (·.2)).sum = 0) :
    (rows.map fun row => if 0 ≤ row.2 then f row.1 else g row.1).sum = 0 := by
  obtain ⟨inserted, retracted, hcount, hlength, hsum⟩ :=
    exists_inserted_retracted (f := f) (g := g) hsign
  have hperm : retracted.Perm inserted := by
    refine (subperm_ext_iff.2 fun a _ => ?_).perm_of_length_le (by omega)
    have := hweight a
    rw [hcount] at this
    omega
  rw [hsum, (hperm.map g).sum_eq, ← sum_map_add]
  simp [hfg]

end Cancel

end SignedRows
