import Mathlib.Tactic.LinearCombination
import Mathlib.Tactic.Ring
import Proton.Lib.MachineWord

/-!
# When a Descent of Machine Words Ends

`Word.descend` steps a word down until it is at most a bound. A step below the smallest word
comes back near the largest one, so the loop may pass the bound many times. The words it visits
are exactly those with the residue of the start modulo the greatest common divisor of the step
and the number of words, and it ends if and only if one of them is at most the bound
(`Word.exists_descend_iff`).
-/

open Int

namespace Word

variable {w : Word} {x y step bound : ℤ}

/-- Steps that stay above the smallest word are exact. -/
theorem descend_exact (hx : w.Mem x) (hstep : 0 < step) (k : ℕ) (hlow : w.lo ≤ x - k * step)
    (hle : x - k * step ≤ bound) (hfirst : k = 0 ∨ bound < x - k * step + step) :
    w.descend step bound (k + 1) x = some (x - k * step) := by
  induction k generalizing x with
  | zero =>
    rw [Nat.cast_zero, zero_mul, sub_zero] at hle ⊢
    exact descend_of_le hle
  | succ k ih =>
    have hexpand : ((k + 1 : ℕ) : ℤ) * step = k * step + step := by push_cast; ring
    have hk : 0 ≤ (k : ℤ) * step := mul_nonneg (by omega) (le_of_lt hstep)
    have hnext := hfirst.resolve_left (Nat.succ_ne_zero k)
    obtain ⟨hxlow, hxhigh⟩ := hx
    have hfit : w.Mem (x - step) := ⟨by omega, by omega⟩
    rw [descend, if_pos (by omega), wrap_of_mem hfit, ih hfit (by omega) (by omega) (by omega)]
    exact congrArg some (by omega)

/-- More fuel does not change a result. -/
theorem descend_mono {fuel : ℕ} (h : w.descend step bound fuel x = some y) (more : ℕ) :
    w.descend step bound (fuel + more) x = some y := by
  induction fuel generalizing x with
  | zero => cases h
  | succ fuel ih =>
    rw [Nat.add_right_comm]
    rw [descend] at h ⊢
    split at h
    next hlt => rw [if_pos hlt, ih h]
    next hle => rw [if_neg hle, h]

/-- The result does not depend on the fuel. -/
theorem descend_unique {z : ℤ} {fuel fuel' : ℕ} (hy : w.descend step bound fuel x = some y)
    (hz : w.descend step bound fuel' x = some z) : y = z := by
  have hmore := descend_mono hy fuel'
  rw [Nat.add_comm, descend_mono hz fuel] at hmore
  exact (Option.some.inj hmore).symm

/-- The words of a descent have one residue modulo every divisor of the step and the number of
words. -/
theorem descend_emod {g : ℤ} (hcard : g ∣ w.card) (hstep : g ∣ step) {fuel : ℕ}
    (hx : w.Mem x) (h : w.descend step bound fuel x = some y) :
    w.Mem y ∧ y ≤ bound ∧ (y - w.lo) % g = (x - w.lo) % g := by
  induction fuel generalizing x with
  | zero => cases h
  | succ fuel ih =>
    rw [descend] at h
    split at h
    next =>
      obtain ⟨hmem, hle, hres⟩ := ih (wrap_mem _) h
      refine ⟨hmem, hle, hres.trans ?_⟩
      obtain ⟨k, hk⟩ := exists_wrap_eq (w := w) (x - step)
      rw [show w.wrap (x - step) - w.lo = x - w.lo - (step + k * w.card) by omega]
      exact Int.emod_eq_emod_iff_emod_sub_eq_zero.2 (Int.emod_eq_zero_of_dvd (by
        rw [sub_sub_cancel_left, Int.dvd_neg]
        exact Int.dvd_add hstep (Dvd.dvd.mul_left hcard k)))
    next hle =>
      obtain rfl := Option.some.inj h
      exact ⟨hx, not_lt.1 hle, rfl⟩

/-- A descent ends when some number of steps leads to a word at most the bound. -/
theorem exists_descend_of_wrap_le (j : ℕ) (hx : w.Mem x) (h : w.wrap (x - j * step) ≤ bound) :
    ∃ fuel y, w.descend step bound fuel x = some y := by
  induction j generalizing x with
  | zero =>
    rw [Nat.cast_zero, zero_mul, sub_zero, wrap_of_mem hx] at h
    exact ⟨1, x, descend_of_le h⟩
  | succ j ih =>
    by_cases hle : x ≤ bound
    · exact ⟨1, x, descend_of_le hle⟩
    · have hstep : w.wrap (w.wrap (x - step) - j * step) ≤ bound := by
        rw [sub_eq_add_neg _ ((j : ℤ) * step), wrap_wrap_add]
        rwa [show x - step + -((j : ℤ) * step) = x - (j + 1 : ℕ) * step by push_cast; ring]
      obtain ⟨fuel, y, hy⟩ := ih (wrap_mem _) hstep
      exact ⟨fuel + 1, y, by rw [descend, if_pos (not_le.1 hle), hy]⟩

/-- **When a descent ends**: the words it visits are those with the residue of the start modulo
the greatest common divisor of the step and the number of words, and the smallest of them has to
be at most the bound. -/
theorem exists_descend_iff (hx : w.Mem x) :
    (∃ fuel y, w.descend step bound fuel x = some y) ↔
      (x - w.lo) % (Int.gcd step w.card : ℤ) ≤ bound - w.lo := by
  have hstep : (Int.gcd step w.card : ℤ) ∣ step := Int.gcd_dvd_left ..
  have hcard : (Int.gcd step w.card : ℤ) ∣ w.card := Int.gcd_dvd_right ..
  have hcardpos := w.card_pos
  have hpos : (0 : ℤ) < Int.gcd step w.card := by
    exact_mod_cast gcd_pos_of_ne_zero_right step (ne_of_gt hcardpos)
  constructor
  · rintro ⟨fuel, y, h⟩
    obtain ⟨⟨hlow, -⟩, hle, hres⟩ := descend_emod hcard hstep hx h
    have hsplit := emod_add_mul_ediv (y - w.lo) (Int.gcd step w.card)
    have hquot := mul_nonneg (le_of_lt hpos)
      (ediv_nonneg (show 0 ≤ y - w.lo by omega) (le_of_lt hpos))
    omega
  · intro hle
    -- the smallest word with the residue of the start is reached, by Bezout's identity
    obtain ⟨u, v, huv⟩ := (gcd_dvd_iff (a := step) (b := w.card)).1 dvd_rfl
    have hsplit := emod_add_mul_ediv (x - w.lo) (Int.gcd step w.card)
    have hnonneg := emod_nonneg (x - w.lo) (ne_of_gt hpos)
    have hlt := emod_lt_of_pos (x - w.lo) hpos
    have hgcd := le_of_dvd hcardpos hcard
    generalize (x - w.lo) % (Int.gcd step w.card : ℤ) = r at *
    generalize (x - w.lo) / (Int.gcd step w.card : ℤ) = q at *
    have hjnonneg := emod_nonneg (q * u) (ne_of_gt hcardpos)
    have hj := emod_add_mul_ediv (q * u) w.card
    refine exists_descend_of_wrap_le ((q * u) % w.card).toNat hx ?_
    have hreached : x - ((q * u) % w.card).toNat * step =
        w.lo + r + (q * v + q * u / w.card * step) * w.card := by
      rw [toNat_of_nonneg hjnonneg]
      rw [huv] at hsplit
      linear_combination -hsplit - step * hj
    rw [hreached, wrap_add_mul_card, wrap_of_mem ⟨by omega, by omega⟩]
    omega

end Word
