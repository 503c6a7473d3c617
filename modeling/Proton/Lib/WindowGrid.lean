import Mathlib.Algebra.Order.Ring.Int

/-!
# Overlapping Windows on a Grid

Windows of one length start at every multiple of a slide; with the slide equal to the
length they tile the line, with a shorter slide they overlap. The facts here relate a
point that lies before the end of some window to the windows that contain the point:

* `Grid.exists_window_of_lt_end`: one of them ends no later than that end;
* `Grid.window_end_le`: when the windows tile the line, all of them do.
-/

/-- Windows of length `len` that start at the multiples of `slide`. -/
structure Grid where
  /-- The distance between two window starts. -/
  slide : ℤ
  /-- The length of a window. -/
  len : ℤ
  /-- Windows advance. -/
  slide_pos : 0 < slide
  /-- Windows leave no gaps. -/
  slide_le : slide ≤ len

namespace Grid

variable (g : Grid)

/-- The start of the `k`-th window. -/
def start (k : ℤ) : ℤ := k * g.slide

/-- The end of the `k`-th window, the first point after it. -/
def stop (k : ℤ) : ℤ := k * g.slide + g.len

/-- The `k`-th window contains the point `t`. -/
def Contains (k t : ℤ) : Prop := g.start k ≤ t ∧ t < g.stop k

/-- The point `e` is the end of a window. -/
def IsEnd (e : ℤ) : Prop := ∃ k, e = g.stop k

variable {g} {e t : ℤ}

/-- A window ends its length after it starts. -/
theorem stop_eq (k : ℤ) : g.stop k = g.start k + g.len := rfl

/-- The window before starts one slide earlier. -/
theorem start_sub_one (k : ℤ) : g.start (k - 1) = g.start k - g.slide := by
  rw [start, start, Int.sub_mul, one_mul]

/-- The window before ends one slide earlier. -/
theorem stop_sub_one (k : ℤ) : g.stop (k - 1) = g.stop k - g.slide := by
  rw [stop_eq, stop_eq, start_sub_one]
  omega

/-- Windows start in the order of their numbers. -/
theorem start_lt {j k : ℤ} (h : j < k) : g.start j < g.start k :=
  mul_lt_mul_of_pos_right h g.slide_pos

/-- Windows start in the order of their numbers. -/
theorem start_le {j k : ℤ} (h : j ≤ k) : g.start j ≤ g.start k :=
  Int.mul_le_mul_of_nonneg_right h (le_of_lt g.slide_pos)

/-- A window that starts later by the time of its number starts one slide later at least. -/
theorem start_add_slide_le {j k : ℤ} (h : g.start j < g.start k) :
    g.start j + g.slide ≤ g.start k := by
  have hlt : j < k := lt_of_mul_lt_mul_right h (le_of_lt g.slide_pos)
  have hle : g.start j ≤ g.start (k - 1) := start_le (by omega)
  rw [start_sub_one] at hle
  omega

/-- When the windows tile the line, the start of a window is the end of the one before. -/
theorem isEnd_start (htile : g.slide = g.len) (k : ℤ) : g.IsEnd (g.start k) := by
  refine ⟨k - 1, ?_⟩
  rw [start, stop, Int.sub_mul]
  omega

/-- A point before the end of a window lies in a window that ends no later: the first
window to end after the point. -/
theorem exists_window_of_lt_end (he : g.IsEnd e) (ht : t < e) :
    ∃ k, g.Contains k t ∧ g.stop k ≤ e := by
  obtain ⟨j, rfl⟩ := he
  have hpos := g.slide_pos
  have hle := g.slide_le
  -- `q` whole slides separate the point from the end, so dropping them reaches that window.
  have hdecomp := Int.mul_ediv_add_emod (g.stop j - 1 - t) g.slide
  have hnonneg : 0 ≤ (g.stop j - 1 - t) / g.slide := Int.ediv_nonneg (by omega) (by omega)
  have hrem := Int.emod_nonneg (g.stop j - 1 - t) (ne_of_gt hpos)
  have hlt := Int.emod_lt_of_pos (g.stop j - 1 - t) hpos
  generalize (g.stop j - 1 - t) / g.slide = q at hdecomp hnonneg
  have hshift : (j - q) * g.slide = j * g.slide - g.slide * q := by
    rw [Int.sub_mul, Int.mul_comm q]
  have hmul : 0 ≤ g.slide * q := Int.mul_nonneg (by omega) hnonneg
  simp only [stop] at hdecomp hrem hlt
  refine ⟨j - q, ?_, ?_⟩
  · simp only [Contains, start, stop]
    omega
  · simp only [stop]
    omega

/-- When the windows tile the line, every window that contains a point before the end of
a window ends no later. -/
theorem window_end_le (htile : g.slide = g.len) (he : g.IsEnd e) (ht : t < e) {k : ℤ}
    (hk : g.Contains k t) : g.stop k ≤ e := by
  obtain ⟨j, rfl⟩ := he
  obtain ⟨hstart, _⟩ := hk
  have hpos := g.slide_pos
  simp only [start, stop] at *
  have hlt : k * g.slide < (j + 1) * g.slide := by
    rw [add_mul]
    omega
  have hkj : k < j + 1 := lt_of_mul_lt_mul_right hlt (le_of_lt hpos)
  have hle : k * g.slide ≤ j * g.slide := Int.mul_le_mul_of_nonneg_right (by omega) (by omega)
  omega

end Grid
