import Mathlib.Data.Int.ModEq

/-!
# Machine Words

A fixed-width integer type holds the integers of an interval `[lo, lo + card)`, and a
conversion to it keeps the residue modulo `card`. This module states that conversion once,
for an arbitrary interval, together with the two facts the arithmetic on top of it needs:
a value that fits is unchanged (`Word.wrap_of_mem`), and a value that misses the interval
by less than its length comes back shifted by exactly `card` (`Word.wrap_of_lt`,
`Word.wrap_of_le`).

The module also has the loop that steps a word down until it is at most a bound
(`Word.descend`). As long as no step wraps, its result is the start less a whole number of
steps; a step can wrap only when the bound lies within one step of the smallest word
(`Word.descend_spec`).
-/

/-- A machine integer type: the smallest value and how many values there are. -/
structure Word where
  /-- The smallest value. -/
  lo : ℤ
  /-- The number of values. -/
  card : ℤ
  /-- There is at least one value. -/
  card_pos : 0 < card

open Int

namespace Word

/-- 32-bit unsigned integers. -/
def uint32 : Word := ⟨0, 4294967296, by decide⟩

/-- 64-bit unsigned integers. -/
def uint64 : Word := ⟨0, 18446744073709551616, by decide⟩

/-- 64-bit signed integers. -/
def int64 : Word := ⟨-9223372036854775808, 18446744073709551616, by decide⟩

/-- 32-bit signed integers. -/
def int32 : Word := ⟨-2147483648, 4294967296, by decide⟩

variable (w : Word)

/-- The conversion to a word: the value of the interval with the same residue. -/
def wrap (x : ℤ) : ℤ := (x - w.lo) % w.card + w.lo

/-- The values of the word. -/
def Mem (x : ℤ) : Prop := w.lo ≤ x ∧ x < w.lo + w.card
deriving Decidable

variable {w} {x : ℤ}

/-- A converted value is a value of the word. -/
theorem wrap_mem (x : ℤ) : w.Mem (w.wrap x) := by
  have hpos := w.card_pos
  have hlow := emod_nonneg (x - w.lo) (ne_of_gt hpos)
  have hhigh := emod_lt_of_pos (x - w.lo) hpos
  simp only [Mem, wrap]
  omega

/-- A value that fits is unchanged. -/
theorem wrap_of_mem (h : w.Mem x) : w.wrap x = x := by
  obtain ⟨hlow, hhigh⟩ := h
  rw [wrap, emod_eq_of_lt (by omega) (by omega)]
  omega

@[simp] theorem wrap_wrap (x : ℤ) : w.wrap (w.wrap x) = w.wrap x := wrap_of_mem (wrap_mem x)

/-- A value short of the smallest word by less than `card` comes back `card` higher. -/
theorem wrap_of_lt (hlow : w.lo - w.card ≤ x) (hlt : x < w.lo) : w.wrap x = x + w.card := by
  have hshift : x - w.lo = (x + w.card - w.lo) - w.card := by omega
  rw [wrap, hshift, sub_emod_right, emod_eq_of_lt (by omega) (by omega)]
  omega

/-- A value beyond the largest word by less than `card` comes back `card` lower. -/
theorem wrap_of_le (hle : w.lo + w.card ≤ x) (hhigh : x < w.lo + 2 * w.card) :
    w.wrap x = x - w.card := by
  have hshift : x - w.lo = (x - w.card - w.lo) + w.card := by omega
  rw [wrap, hshift, add_emod_right, emod_eq_of_lt (by omega) (by omega)]
  omega

/-- Converting an addend first does not change the converted sum. -/
theorem wrap_wrap_add (x y : ℤ) : w.wrap (w.wrap x + y) = w.wrap (x + y) := by
  have hinner : (x - w.lo) % w.card + w.lo + y - w.lo = (x - w.lo) % w.card + y := by omega
  have houter : x + y - w.lo = (x - w.lo) + y := by omega
  simp only [wrap]
  rw [hinner, houter, emod_add_emod]

/-- Whole multiples of the number of words do not change a conversion. -/
theorem wrap_add_mul_card (x k : ℤ) : w.wrap (x + k * w.card) = w.wrap x := by
  have hshift : x + k * w.card - w.lo = (x - w.lo) + k * w.card := by omega
  rw [wrap, wrap, hshift, add_mul_emod_self_right]

/-- A conversion takes off a whole multiple of the number of words. -/
theorem exists_wrap_eq (x : ℤ) : ∃ k, x = w.wrap x + k * w.card := by
  refine ⟨(x - w.lo) / w.card, ?_⟩
  have hdecomp := emod_add_mul_ediv (x - w.lo) w.card
  rw [wrap, mul_comm]
  omega

/-- Wrapping an operand does not change a sum. -/
theorem wrap_add_wrap (x y : ℤ) : w.wrap (x + w.wrap y) = w.wrap (x + y) := by
  rw [add_comm, wrap_wrap_add, add_comm]

/-- Wrapping an operand does not change a difference. -/
theorem wrap_sub_wrap (x y : ℤ) : w.wrap (x - w.wrap y) = w.wrap (x - y) := by
  obtain ⟨k, hk⟩ := exists_wrap_eq (w := w) y
  have hshift : x - w.wrap y = x - y + k * w.card := by omega
  rw [hshift, wrap_add_mul_card]

/-- The conversion of a value at or above the smallest word does not exceed it. -/
theorem wrap_le (h : w.lo ≤ x) : w.wrap x ≤ x := by
  have hpos := le_of_lt w.card_pos
  have hdecomp := emod_add_mul_ediv (x - w.lo) w.card
  have hmultiple := Int.mul_nonneg hpos (ediv_nonneg (show 0 ≤ x - w.lo by omega) hpos)
  rw [wrap]
  omega

/-! ### Stepping down to a bound -/

/-- Subtract `step` from `x`, as words, until the value is at most `bound`; `none` when the
fuel runs out first. -/
def descend (w : Word) (step bound : ℤ) : ℕ → ℤ → Option ℤ
  | 0, _ => none
  | fuel + 1, x =>
    if bound < x then descend w step bound fuel (w.wrap (x - step)) else some x

/-- A value at most the bound is returned at once. -/
theorem descend_of_le {step bound : ℤ} {fuel : ℕ} (h : x ≤ bound) :
    w.descend step bound (fuel + 1) x = some x := by
  rw [descend, if_neg (by omega)]

/-- **The result of stepping down**: a word at most the bound, and the start less a whole
number of steps, unless the bound lies within one step of the smallest word. -/
theorem descend_spec {step bound : ℤ} (hstep : 0 < step) :
    ∀ {fuel : ℕ} {x y : ℤ}, w.Mem x → w.descend step bound fuel x = some y →
      w.Mem y ∧ y ≤ bound ∧ ((∃ k : ℤ, y = x - k * step) ∨ bound < w.lo + step)
  | 0, _, _, _, h => by simp [descend] at h
  | fuel + 1, x, y, hx, h => by
    rw [descend] at h
    by_cases hlt : bound < x
    · rw [if_pos hlt] at h
      obtain ⟨hmem, hle, hcase⟩ := descend_spec hstep (wrap_mem (x - step)) h
      refine ⟨hmem, hle, ?_⟩
      by_cases hlow : w.lo ≤ x - step
      · -- The step did not wrap, so the values of the rest are offsets of `x` too.
        have hfit : w.wrap (x - step) = x - step := by
          obtain ⟨_, hhigh⟩ := hx
          exact wrap_of_mem ⟨hlow, by omega⟩
        rcases hcase with ⟨k, hk⟩ | hbound
        · left
          refine ⟨k + 1, ?_⟩
          rw [hk, add_mul]
          omega
        · exact Or.inr hbound
      · omega
    · rw [if_neg hlt] at h
      obtain rfl := Option.some.inj h
      exact ⟨hx, by omega, Or.inl ⟨0, by omega⟩⟩

/-- **Stepping the end of an interval down.** Start from the end of an interval and
step it down to the bound. If the interval of the same length that ends at the result still
begins before it, as words, then nothing wrapped. -/
theorem descend_interval {start len step bound y : ℤ} {fuel : ℕ} (hstep : 0 < step)
    (hle : step ≤ len) (hlen : len < w.card) (hstart : w.Mem start)
    (h : w.descend step bound fuel (w.wrap (start + len)) = some y)
    (hvalid : w.wrap (y - len) < y) : ∃ k : ℤ, y = start + len - k * step := by
  obtain ⟨hmem, hend, hcase⟩ := descend_spec hstep (wrap_mem _) h
  have hnowrap : w.lo + len ≤ y := by
    by_contra hnear
    rw [wrap_of_lt (by obtain ⟨_, _⟩ := hmem; omega) (by omega)] at hvalid
    omega
  obtain ⟨hlow, hhigh⟩ := hstart
  by_cases hfit : start + len < w.lo + w.card
  · rw [wrap_of_mem ⟨by omega, hfit⟩] at hcase
    rcases hcase with hk | hnear
    · exact hk
    · omega
  · -- The end itself wrapped: it is below the bound at once, and too low to be valid.
    rw [wrap_of_le (by omega) (by omega)] at h
    cases fuel with
    | zero => simp [descend] at h
    | succ fuel =>
      rw [descend_of_le (by omega)] at h
      have hy := Option.some.inj h
      omega

end Word
