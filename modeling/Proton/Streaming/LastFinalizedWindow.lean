import Proton.Lib.WordDescent
import Proton.Streaming.HopWindow

/-!
# When the Last Finalised Window is Found

`getLastFinalizedWindow` should return the window of the slide grid that ends last among those
the watermark covers, or an invalid window when the first window of the column's time type ends
after the watermark. Its loop compares window ends that were computed in that type.

With a scale of zero the type is `UInt32`. Before the first window has passed, the end is stepped
below zero and comes back near `2 ^ 32`, so that the loop ends only if it hits the few seconds up
to the watermark: a slide of two seconds and a window of three never do at the epoch. At the other
end of the type the end of the current window wraps, and a covered window is not reported.

## Main results

* `getLastFinalizedWindow_eq`: the loop as a descent of machine words.
* `reportsLast_iff`: for which watermarks and intervals the loop ends with the right window.
-/

open Word Int

namespace Proton.Streaming

open Word

variable (params : HopWindowParams) (watermark : ℤ)

/-! ### The last window -/

/-- The `k`-th window starts at a time of the column's type. -/
def HopWindowParams.InColumn (k : ℤ) : Prop := (timeWord params.timeScale).lo ≤ params.grid.start k

/-- The window is the last one of the column that the watermark covers. -/
def IsLastWindow (window : Window) : Prop :=
  ∃ k, window = ⟨params.grid.start k, params.grid.stop k⟩ ∧ params.InColumn k ∧
    params.grid.stop k ≤ watermark ∧
    ∀ j, params.InColumn j → params.grid.stop j ≤ watermark →
      params.grid.stop j ≤ params.grid.stop k

/-- The loop ends, with the last window the watermark covers if there is one, and with an invalid
window if the first window of the column ends after the watermark. -/
def ReportsLast : Prop :=
  ∃ fuel window, getLastFinalizedWindow fuel watermark params = some window ∧
    ((∃ k, params.InColumn k ∧ params.grid.stop k ≤ watermark) →
      IsLastWindow params watermark window) ∧
    ((∀ k, params.InColumn k → watermark < params.grid.stop k) → window.isValid = false)

/-- The start of the last window of the whole grid that the watermark covers. -/
def lastStart : ℤ := (watermark - params.grid.len) / params.grid.slide * params.grid.slide

/-- The start of the window that starts last, as the source computes it. -/
def currentStart : ℤ :=
  (timeWord params.timeScale).wrap watermark / params.grid.slide * params.grid.slide

/-- The watermarks and intervals for which the loop ends with the right window. -/
def FindsLast : Prop :=
  if params.timeScale = 0 then
    if params.grid.len ≤ watermark then
      currentStart params watermark + params.grid.len < 2 ^ 32 ∧
        (2 ^ 32 ≤ watermark → currentStart params watermark = lastStart params watermark)
    else
      params.grid.len % (Int.gcd params.grid.slide (2 ^ 32) : ℤ) ≤ watermark ∧
        (params.grid.len % 2 ^ 32 = 0 ∨ watermark < params.grid.len % 2 ^ 32 ∨
          2 ^ 32 ≤ currentStart params watermark + params.grid.len % 2 ^ 32)
  else currentStart params watermark + params.grid.len < 2 ^ 63 ∨
    lastStart params watermark < -2 ^ 63
deriving Decidable

variable {params} {watermark}

/-- The last covered window ends at or before the watermark, and the next one after it. -/
theorem lastStart_bounds (params : HopWindowParams) (watermark : ℤ) :
    lastStart params watermark + params.grid.len ≤ watermark ∧
    watermark < lastStart params watermark + params.grid.len + params.grid.slide := by
  obtain ⟨hlow, hhigh⟩ := floor_bounds (t := watermark - params.grid.len) params.grid.slide_pos
  rw [lastStart]
  omega

/-- Windows the watermark covers start no later than the last one. -/
theorem start_le_lastStart {k : ℤ} (h : params.grid.stop k ≤ watermark) :
    params.grid.start k ≤ lastStart params watermark := by
  rw [Grid.stop_eq] at h
  refine mul_le_mul_of_nonneg_right ?_ (le_of_lt params.grid.slide_pos)
  exact (Int.le_ediv_iff_mul_le params.grid.slide_pos).2 (show params.grid.start k ≤ _ by omega)

/-- The window to report, by its start. -/
theorem reportsLast_iff_window : ReportsLast params watermark ↔
    ∃ fuel window, getLastFinalizedWindow fuel watermark params = some window ∧
      if (timeWord params.timeScale).lo ≤ lastStart params watermark then
        window = ⟨lastStart params watermark, lastStart params watermark + params.grid.len⟩
      else window.isValid = false := by
  have hbounds := lastStart_bounds params watermark
  refine exists_congr fun fuel => exists_congr fun window => and_congr_right fun _ => ?_
  split
  next hlow =>
    have hlast : params.InColumn ((watermark - params.grid.len) / params.grid.slide) := hlow
    constructor
    · rintro ⟨hcovered, -⟩
      obtain ⟨k, rfl, -, hstop, hgreatest⟩ := hcovered ⟨_, hlast, hbounds.1⟩
      have hle := start_le_lastStart hstop
      have hge := hgreatest _ hlast hbounds.1
      have heq : params.grid.start k = lastStart params watermark := by
        rw [Grid.stop_eq, Grid.stop_eq] at hge
        exact le_antisymm hle (by simpa [lastStart, Grid.start] using hge)
      rw [Grid.stop_eq, heq]
    · rintro rfl
      refine ⟨fun _ => ⟨_, rfl, hlast, hbounds.1, fun j _ hj => ?_⟩, fun hnone => ?_⟩
      · have hle := start_le_lastStart hj
        exact Int.add_le_add_right hle _
      · exact absurd hbounds.1 (not_le.2 (hnone _ hlast))
  next hlow =>
    constructor
    · rintro ⟨-, hnone⟩
      refine hnone fun k hk => not_le.1 fun hstop => ?_
      exact hlow (le_trans hk (start_le_lastStart hstop))
    · intro hinvalid
      refine ⟨?_, fun _ => hinvalid⟩
      rintro ⟨k, hk, hstop⟩
      exact absurd (le_trans hk (start_le_lastStart hstop)) hlow

/-! ### The loop as a descent -/

section Descent

variable (hkind : params.intervalKind.EpochAligned) (hlen : params.grid.len < 2 ^ 63)
  (hnonneg : 0 ≤ watermark) (hwatermark : watermark < 2 ^ 63)

include hkind hlen hnonneg hwatermark

/-- The source rounds the watermark, as a time of the column, down to the slide. -/
theorem toStartTime_watermark :
    toStartTime params.timeZone watermark params.intervalKind params.slideInterval
      params.timeScale = currentStart params watermark := by
  have hmem : int64.Mem watermark := by
    simp only [Word.Mem, int64]
    omega
  have hmult : (0 : ℤ) < 10 ^ params.timeScale := Int.pow_pos (by decide)
  have hsecond : 0 ≤ secondOf watermark params.timeScale := by
    rw [secondOf]
    split
    · exact (wrap_mem (w := uint32) watermark).1
    · exact Int.tdiv_nonneg hnonneg (le_of_lt hmult)
  rw [toStartTime_eq hkind params.slide_pos (lt_of_le_of_lt params.grid.slide_le hlen) hmem
    (.inl hsecond), currentStart, timeWord, secondOf]
  by_cases hscale : params.timeScale = 0
  · simp only [hscale, if_true, HopWindowParams.grid, IntervalKind.ticks, pow_zero, mul_one]
  · rw [if_neg hscale, if_neg hscale, wrap_of_mem hmem, tdiv_eq_ediv_of_nonneg hnonneg,
      ediv_ediv_of_nonneg (le_of_lt hmult), mul_comm (10 ^ params.timeScale)]
    rfl

omit hkind hlen in
variable (params) in
/-- The window of a watermark does not start after it. -/
theorem currentStart_le : currentStart params watermark ≤ watermark := by
  have hlo : (timeWord params.timeScale).lo ≤ watermark := by
    rw [timeWord]
    split <;> simp only [uint32, int64] <;> omega
  exact le_trans (floor_bounds params.grid.slide_pos).1 (wrap_le hlo)

/-- **The loop** steps the end of the window that starts last down, as a machine word. -/
theorem getLastFinalizedWindow_eq (fuel : ℕ) :
    getLastFinalizedWindow fuel watermark params =
      ((timeWord params.timeScale).descend params.grid.slide watermark fuel
        ((timeWord params.timeScale).wrap
          (currentStart params watermark + params.grid.len))).map fun windowEnd =>
        ⟨(timeWord params.timeScale).wrap (windowEnd - params.grid.len), windowEnd⟩ := by
  have hle := currentStart_le params hnonneg hwatermark
  rw [getLastFinalizedWindow, toStartTime_watermark hkind hlen hnonneg hwatermark]
  simp only [not_lt.2 hle, lastFinalizedWindowEnd_eq hkind, addTime_eq hkind,
    IntervalKind.ticks_neg]
  rfl

/-- The result, by the window end the descent arrives at. -/
theorem reportsLast_iff_descend : ReportsLast params watermark ↔
    ∃ fuel windowEnd, (timeWord params.timeScale).descend params.grid.slide watermark fuel
      ((timeWord params.timeScale).wrap (currentStart params watermark + params.grid.len)) =
        some windowEnd ∧
      if (timeWord params.timeScale).lo ≤ lastStart params watermark then
        (timeWord params.timeScale).wrap (windowEnd - params.grid.len) =
          lastStart params watermark ∧
        windowEnd = lastStart params watermark + params.grid.len
      else windowEnd ≤ (timeWord params.timeScale).wrap (windowEnd - params.grid.len) := by
  rw [reportsLast_iff_window]
  refine exists_congr fun fuel => ?_
  rw [getLastFinalizedWindow_eq hkind hlen hnonneg hwatermark]
  constructor
  · rintro ⟨window, hwindow, hright⟩
    obtain ⟨windowEnd, hdescend, rfl⟩ := Option.map_eq_some_iff.1 hwindow
    refine ⟨windowEnd, hdescend, ?_⟩
    split_ifs at hright ⊢ with hlow
    · exact Window.mk.inj hright
    · exact not_lt.1 (of_decide_eq_false hright)
  · rintro ⟨windowEnd, hdescend, hright⟩
    refine ⟨_, Option.map_eq_some_iff.2 ⟨windowEnd, hdescend, rfl⟩, ?_⟩
    split_ifs at hright ⊢ with hlow
    · rw [hright.1, hright.2]
    · exact decide_eq_false (not_lt.2 hright)

end Descent

/-- A descent from a window end that did not wrap arrives at the last end that the watermark
covers, if that is a word. -/
theorem descend_to_last {w : Word} {slide : ℤ} (len : ℤ) (hslide : 0 < slide) (hlen : 0 ≤ len)
    (hmem : w.Mem (watermark / slide * slide + len))
    (hlow : w.lo ≤ (watermark - len) / slide * slide + len) :
    ∃ fuel, w.descend slide watermark fuel (watermark / slide * slide + len) =
      some ((watermark - len) / slide * slide + len) := by
  have hmono : (watermark - len) / slide ≤ watermark / slide := Int.ediv_le_ediv hslide (by omega)
  obtain ⟨hfloor, hnext⟩ := floor_bounds (t := watermark - len) hslide
  obtain ⟨k, hk⟩ := eq_ofNat_of_zero_le (sub_nonneg_of_le hmono)
  have hend : watermark / slide * slide + len - k * slide =
      (watermark - len) / slide * slide + len := by
    rw [← hk, sub_mul]
    omega
  have hexact : w.descend slide watermark (k + 1) _ = some _ :=
    descend_exact hmem hslide k (by omega) (by omega) (.inr (by omega))
  rw [hend] at hexact
  exact ⟨k + 1, hexact⟩

/-! ### Columns with a scale -/

/-- With a scale, the window is found unless the end of the current window overflows. -/
theorem reportsLast_iff_of_scale (hkind : params.intervalKind.EpochAligned)
    (hlen : params.grid.len < 2 ^ 63) (hnonneg : 0 ≤ watermark) (hwatermark : watermark < 2 ^ 63)
    (hscale : params.timeScale ≠ 0) : ReportsLast params watermark ↔
      currentStart params watermark + params.grid.len < 2 ^ 63 ∨
        lastStart params watermark < -2 ^ 63 := by
  have hword : timeWord params.timeScale = int64 := if_neg hscale
  have hcurrent : currentStart params watermark =
      watermark / params.grid.slide * params.grid.slide := by
    rw [currentStart, hword, wrap_of_mem ⟨by simp only [int64]; omega, by
      simp only [int64]; omega⟩]
  have hslide := params.grid.slide_pos
  have hslideLe := params.grid.slide_le
  have hstart := floor_nonneg hslide hnonneg
  obtain ⟨hcovered, hnext⟩ := lastStart_bounds params watermark
  have hle := currentStart_le params hnonneg hwatermark
  rw [reportsLast_iff_descend hkind hlen hnonneg hwatermark, hword]
  by_cases hfits : currentStart params watermark + params.grid.len < 2 ^ 63
  · refine iff_of_true ?_ (.inl hfits)
    have hmem : int64.Mem (currentStart params watermark + params.grid.len) :=
      ⟨by simp only [int64]; omega, by simp only [int64]; omega⟩
    rw [wrap_of_mem hmem, hcurrent]
    rw [hcurrent] at hmem
    obtain ⟨fuel, hdescend⟩ := descend_to_last params.grid.len hslide (by omega) hmem (by
      show _ ≤ lastStart params watermark + params.grid.len
      simp only [int64]
      omega)
    refine ⟨fuel, _, hdescend, ?_⟩
    show if _ then int64.wrap (lastStart params watermark + _ - _) = _ ∧ _ else
      lastStart params watermark + _ ≤ int64.wrap (lastStart params watermark + _ - _)
    rw [add_sub_cancel_right]
    split
    next hlow =>
      refine ⟨wrap_of_mem ⟨hlow, ?_⟩, rfl⟩
      simp only [int64] at *
      omega
    next hlow =>
      simp only [int64] at hlow
      rw [wrap_of_lt (by simp only [int64]; omega) (by simp only [int64]; omega)]
      simp only [int64]
      omega
  · -- the end wraps below the watermark at once, and the window comes out invalid
    have hend : int64.wrap (currentStart params watermark + params.grid.len) =
        currentStart params watermark + params.grid.len - 18446744073709551616 := by
      rw [wrap_of_le (by simp only [int64]; omega) (by simp only [int64]; omega)]
      rfl
    have hback : int64.wrap (currentStart params watermark + params.grid.len -
        18446744073709551616 - params.grid.len) = currentStart params watermark := by
      rw [wrap_of_lt (by simp only [int64]; omega) (by simp only [int64]; omega)]
      simp only [int64]
      omega
    have hone : int64.descend params.grid.slide watermark 1
        (currentStart params watermark + params.grid.len - 18446744073709551616) = some _ :=
      descend_of_le (by omega)
    rw [hend]
    constructor
    · rintro ⟨fuel, windowEnd, hdescend, hright⟩
      obtain rfl := descend_unique hone hdescend
      by_contra hlow
      rw [if_pos (by simp only [int64]; omega)] at hright
      omega
    · rintro (hfit | hlow)
      · exact absurd hfit hfits
      · refine ⟨1, _, hone, ?_⟩
        rw [if_neg (by simp only [int64]; omega)]
        omega

/-! ### Columns of whole seconds -/

section Seconds

variable {slide len start windowEnd : ℤ}

/-- Only the residue of the window length matters to 32-bit times. -/
theorem wrap_add_emod (x len : ℤ) : uint32.wrap (x + len) = uint32.wrap (x + len % 2 ^ 32) := by
  have hshift : x + len = x + len % 2 ^ 32 + len / 2 ^ 32 * uint32.card := by
    simp only [uint32]
    omega
  rw [hshift, wrap_add_mul_card]

/-- Only the length modulo the word counts. -/
theorem wrap_sub_emod (x len : ℤ) : uint32.wrap (x - len) = uint32.wrap (x - len % 2 ^ 32) := by
  have hshift : x - len = x - len % 2 ^ 32 + -(len / 2 ^ 32) * uint32.card := by
    simp only [uint32]
    omega
  rw [hshift, wrap_add_mul_card]

/-- A window that starts below zero comes out invalid. -/
theorem le_wrap_sub (hmem : uint32.Mem windowEnd)
    (h : len % 2 ^ 32 = 0 ∨ windowEnd < len % 2 ^ 32) :
    windowEnd ≤ uint32.wrap (windowEnd - len) := by
  have hlow := hmem.1
  rw [wrap_sub_emod]
  rcases h with hzero | hlt
  · rw [hzero, sub_zero, wrap_of_mem hmem]
  · rw [wrap_of_lt (by simp only [uint32] at *; omega) (by simp only [uint32] at *; omega)]
    simp only [uint32]
    omega

/-- When the loop ends: the residue of the window is at most the watermark. -/
theorem exists_descend_seconds_iff (hdvd : slide ∣ start) :
    (∃ fuel windowEnd, uint32.descend slide watermark fuel (uint32.wrap (start + len)) =
      some windowEnd) ↔ len % (Int.gcd slide (2 ^ 32) : ℤ) ≤ watermark := by
  have hslide : (Int.gcd slide (2 ^ 32) : ℤ) ∣ slide := Int.gcd_dvd_left ..
  have hcard : (Int.gcd slide (2 ^ 32) : ℤ) ∣ 2 ^ 32 := Int.gcd_dvd_right ..
  rw [exists_descend_iff (wrap_mem _)]
  obtain ⟨k, hk⟩ := exists_wrap_eq (w := uint32) (start + len)
  have hres : (uint32.wrap (start + len) - uint32.lo) % (Int.gcd slide (2 ^ 32) : ℤ) =
      len % (Int.gcd slide (2 ^ 32) : ℤ) := by
    refine emod_eq_emod_iff_emod_sub_eq_zero.2 (emod_eq_zero_of_dvd ?_)
    have hdiff : uint32.wrap (start + len) - uint32.lo - len = start - k * 2 ^ 32 := by
      simp only [uint32] at *
      omega
    rw [hdiff]
    exact Int.dvd_sub (dvd_trans hslide hdvd) (Dvd.dvd.mul_left hcard k)
  show (uint32.wrap (start + len) - uint32.lo) % (Int.gcd slide (2 ^ 32) : ℤ) ≤ watermark - 0 ↔ _
  rw [hres, sub_zero]

/-- On a column of whole seconds, the start is a `UInt32`. -/
theorem currentStart_mem (watermark : ℤ) (hscale : params.timeScale = 0) :
    uint32.Mem (currentStart params watermark) := by
  obtain ⟨hlow, hhigh⟩ := wrap_mem (w := uint32) watermark
  rw [currentStart, timeWord, if_pos hscale]
  exact ⟨floor_nonneg params.grid.slide_pos hlow,
    lt_of_le_of_lt (floor_bounds params.grid.slide_pos).1 hhigh⟩

variable (hkind : params.intervalKind.EpochAligned) (hlen : params.grid.len < 2 ^ 63)
  (hnonneg : 0 ≤ watermark) (hwatermark : watermark < 2 ^ 63) (hscale : params.timeScale = 0)

include hnonneg hscale

/-- The descent from a fitting end to the last covered end of a window of `len` seconds. -/
theorem exists_descend_seconds (len : ℤ) (hle : len % 2 ^ 32 ≤ watermark)
    (hfits : currentStart params watermark + len % 2 ^ 32 < 2 ^ 32) :
    ∃ fuel windowStart, 0 ≤ windowStart ∧
      uint32.descend params.grid.slide watermark fuel
        (uint32.wrap (currentStart params watermark + len)) =
          some (windowStart + len % 2 ^ 32) ∧
      uint32.wrap (windowStart + len % 2 ^ 32 - len) = windowStart ∧
      (watermark < 2 ^ 32 → windowStart =
        (watermark - len % 2 ^ 32) / params.grid.slide * params.grid.slide) ∧
      (2 ^ 32 ≤ watermark → windowStart = currentStart params watermark) := by
  have hres := emod_nonneg len (show (2 ^ 32 : ℤ) ≠ 0 by decide)
  have hstart := currentStart_mem watermark hscale
  have hmem : uint32.Mem (currentStart params watermark + len % 2 ^ 32) := by
    simp only [Word.Mem, uint32] at *
    omega
  have hback {windowStart : ℤ} (h : uint32.Mem windowStart) :
      uint32.wrap (windowStart + len % 2 ^ 32 - len) = windowStart := by
    rw [wrap_sub_emod, add_sub_cancel_right, wrap_of_mem h]
  rw [wrap_add_emod, wrap_of_mem hmem]
  by_cases htype : watermark < 2 ^ 32
  · have hfloor := floor_bounds (t := watermark - len % 2 ^ 32) params.grid.slide_pos
    have hlow := floor_nonneg params.grid.slide_pos (show 0 ≤ watermark - len % 2 ^ 32 by omega)
    rw [currentStart, timeWord, if_pos hscale, wrap_of_mem ⟨hnonneg, by
      simp only [uint32]
      omega⟩] at hmem ⊢
    obtain ⟨fuel, hdescend⟩ := descend_to_last _ params.grid.slide_pos hres hmem
      (show (0 : ℤ) ≤ _ by omega)
    refine ⟨fuel, _, hlow, hdescend, hback ⟨hlow, ?_⟩, fun _ => rfl, fun h => ?_⟩
    · simp only [uint32]
      omega
    · omega
  · -- behind the column's type, every window end is below the watermark
    refine ⟨1, _, hstart.1, descend_of_le ?_, hback hstart, fun h => absurd h htype, fun _ => rfl⟩
    omega

include hwatermark

/-- If the end of the current window wraps, it is below the watermark at once. -/
theorem descend_of_wraps {len : ℤ} {fuel : ℕ}
    (hwrap : 2 ^ 32 ≤ currentStart params watermark + len % 2 ^ 32)
    (hdescend : uint32.descend params.grid.slide watermark fuel
      (uint32.wrap (currentStart params watermark + len)) = some windowEnd) :
    windowEnd = currentStart params watermark + len % 2 ^ 32 - 2 ^ 32 := by
  have hle := currentStart_le params hnonneg hwatermark
  have hhigh := (currentStart_mem watermark hscale).2
  simp only [uint32] at hhigh
  rw [wrap_add_emod, wrap_of_le (by simp only [uint32]; omega) (by simp only [uint32]; omega)]
    at hdescend
  refine descend_unique hdescend (show uint32.descend _ _ 1 _ = some _ from descend_of_le ?_)
  simp only [uint32]
  omega

/-- The window that the descent arrives at if the watermark covers one. -/
theorem descends_to_lastStart_iff (hle : params.grid.len ≤ watermark) :
    (∃ fuel windowEnd, uint32.descend params.grid.slide watermark fuel
      (uint32.wrap (currentStart params watermark + params.grid.len)) = some windowEnd ∧
      uint32.wrap (windowEnd - params.grid.len) = lastStart params watermark ∧
      windowEnd = lastStart params watermark + params.grid.len) ↔
    currentStart params watermark + params.grid.len < 2 ^ 32 ∧
      (2 ^ 32 ≤ watermark → currentStart params watermark = lastStart params watermark) := by
  have hslide := params.grid.slide_pos
  have hpos : 0 < params.grid.len := lt_of_lt_of_le hslide params.grid.slide_le
  have hstart := (currentStart_mem watermark hscale).1
  have hlow : 0 ≤ lastStart params watermark := floor_nonneg hslide (by omega)
  constructor
  · rintro ⟨fuel, windowEnd, hdescend, hback, rfl⟩
    obtain ⟨⟨-, hhigh⟩, -⟩ := descend_spec hslide (wrap_mem _) hdescend
    simp only [uint32] at hhigh
    by_cases hfits : currentStart params watermark + params.grid.len < 2 ^ 32
    · obtain ⟨fuel', windowStart, -, hexact, -, -, hbehind⟩ := exists_descend_seconds
        hnonneg hscale params.grid.len (by omega) (by omega)
      have hsame := descend_unique hdescend hexact
      exact ⟨hfits, fun htype => by rw [← hbehind htype]; omega⟩
    · have hsame := descend_of_wraps hnonneg hwatermark hscale (by omega) hdescend
      have hhigh := (currentStart_mem watermark hscale).2
      simp only [uint32] at hhigh
      omega
  · rintro ⟨hfits, hbehind⟩
    have hres : params.grid.len % 2 ^ 32 = params.grid.len := emod_eq_of_lt (by omega) (by omega)
    obtain ⟨fuel, windowStart, -, hdescend, hback, htype, htype'⟩ := exists_descend_seconds
      hnonneg hscale params.grid.len (by omega) (by omega)
    have hlast : windowStart = lastStart params watermark := by
      by_cases h : watermark < 2 ^ 32
      · rw [htype h, hres, lastStart]
      · rw [htype' (not_lt.1 h), hbehind (not_lt.1 h)]
    rw [hres, hlast] at hdescend hback
    exact ⟨fuel, _, hdescend, hback, rfl⟩

/-- The descent before the first window has passed. -/
theorem descends_to_invalid_iff :
    (∃ fuel windowEnd, uint32.descend params.grid.slide watermark fuel
      (uint32.wrap (currentStart params watermark + params.grid.len)) = some windowEnd ∧
      windowEnd ≤ uint32.wrap (windowEnd - params.grid.len)) ↔
    params.grid.len % (Int.gcd params.grid.slide (2 ^ 32) : ℤ) ≤ watermark ∧
      (params.grid.len % 2 ^ 32 = 0 ∨ watermark < params.grid.len % 2 ^ 32 ∨
        2 ^ 32 ≤ currentStart params watermark + params.grid.len % 2 ^ 32) := by
  have hdvd : params.grid.slide ∣ currentStart params watermark := Dvd.intro_left _ rfl
  constructor
  · rintro ⟨fuel, windowEnd, hdescend, hinvalid⟩
    refine ⟨(exists_descend_seconds_iff hdvd).1 ⟨fuel, windowEnd, hdescend⟩, ?_⟩
    by_contra hvalid
    simp only [not_or, not_lt, not_le] at hvalid
    obtain ⟨hne, hresLe, hfits⟩ := hvalid
    obtain ⟨fuel', windowStart, -, hexact, hback, -⟩ := exists_descend_seconds
      hnonneg hscale params.grid.len hresLe hfits
    rw [descend_unique hdescend hexact] at hinvalid
    omega
  · rintro ⟨hends, hinvalid⟩
    obtain ⟨fuel, windowEnd, hdescend⟩ := (exists_descend_seconds_iff hdvd).2 hends
    obtain ⟨hmem, hend, -⟩ := descend_spec params.grid.slide_pos (wrap_mem _) hdescend
    refine ⟨fuel, windowEnd, hdescend, le_wrap_sub hmem ?_⟩
    rcases hinvalid with hzero | hover | hwrap
    · exact .inl hzero
    · exact .inr (by omega)
    · have hsame := descend_of_wraps hnonneg hwatermark hscale hwrap hdescend
      have hhigh := (currentStart_mem watermark hscale).2
      simp only [uint32] at hhigh
      exact .inr (by omega)

include hkind hlen

/-- **In whole seconds**, a covered window is found unless the end of the current window
overflows, or the watermark is no time of the column; before the first window has passed, an
invalid window is returned if the descent ends. -/
theorem reportsLast_iff_of_seconds : ReportsLast params watermark ↔ FindsLast params watermark := by
  have hword : timeWord params.timeScale = uint32 := if_pos hscale
  have hcovered : uint32.lo ≤ lastStart params watermark ↔ params.grid.len ≤ watermark := by
    have hbounds := lastStart_bounds params watermark
    refine ⟨fun hlow => ?_, fun hle => floor_nonneg params.grid.slide_pos (by omega)⟩
    simp only [uint32] at hlow
    omega
  rw [reportsLast_iff_descend hkind hlen hnonneg hwatermark, FindsLast, if_pos hscale, hword]
  simp only [hcovered]
  by_cases hle : params.grid.len ≤ watermark
  · simp only [if_pos hle]
    exact descends_to_lastStart_iff hnonneg hwatermark hscale hle
  · simp only [if_neg hle]
    exact descends_to_invalid_iff hnonneg hwatermark hscale

end Seconds

/-! ### All columns -/

/-- **The last finalised window.** For second (and minute) intervals whose window is an `Int64`
number of ticks and every watermark from zero on, the loop ends with the last window the watermark
covers, or an invalid one when there is none, if and only if `FindsLast` holds. -/
theorem reportsLast_iff (hkind : params.intervalKind.EpochAligned)
    (hlen : params.grid.len < 2 ^ 63) (hnonneg : 0 ≤ watermark) (hwatermark : watermark < 2 ^ 63) :
    ReportsLast params watermark ↔ FindsLast params watermark := by
  by_cases hscale : params.timeScale = 0
  · exact reportsLast_iff_of_seconds hkind hlen hnonneg hwatermark hscale
  · rw [FindsLast, if_neg hscale]
    exact reportsLast_iff_of_scale hkind hlen hnonneg hwatermark hscale

/-- Windows of three seconds that slide by two, on a column of whole seconds. -/
def hopThreeByTwo : HopWindowParams where
  timeScale := 0
  timeZone := ⟨fun _ t _ => t, fun _ t _ => t⟩
  windowInterval := 3
  slideInterval := 2
  intervalKind := .second
  slide_pos := by decide
  slide_le := by decide

/-- At six seconds the window of the seconds two to four has been finalised. -/
theorem reportsLast_hopThreeByTwo : FindsLast hopThreeByTwo 6 ∧ ReportsLast hopThreeByTwo 6 :=
  ⟨by decide +kernel, (reportsLast_iff (.inl rfl) (by decide) (by decide) (by decide)).2
    (by decide +kernel)⟩

/-- At the epoch the loop never ends: it steps through the odd numbers, modulo `2 ^ 32`. -/
theorem getLastFinalizedWindow_epoch (fuel : ℕ) :
    getLastFinalizedWindow fuel 0 hopThreeByTwo = none := by
  rw [getLastFinalizedWindow_eq (.inl rfl) (by decide) (by decide) (by decide),
    Option.map_eq_none_iff]
  refine Option.eq_none_iff_forall_ne_some.2 fun windowEnd hdescend => ?_
  have hdvd : hopThreeByTwo.grid.slide ∣ currentStart hopThreeByTwo 0 := Dvd.intro_left _ rfl
  have hends := (exists_descend_seconds_iff hdvd).1 ⟨fuel, windowEnd, hdescend⟩
  exact absurd hends (by decide +kernel)

/-- So no window is reported at the epoch, valid or not. -/
theorem not_reportsLast_epoch : ¬ ReportsLast hopThreeByTwo 0 := by
  rintro ⟨fuel, window, hwindow, -⟩
  rw [getLastFinalizedWindow_epoch] at hwindow
  cases hwindow

end Proton.Streaming
