import Proton.Streaming.HopWindow

/-!
# Tumble Windows as a Partition of Time

`tumble` gives an event time the window that starts at `toStartTime` and ends at `addTime`
of that start. Whether these windows partition the line is a question for each kind of
interval and scale of the column: every time of the window of `t` has to be rounded to the
same start (`StartsWindow`).

For seconds and minutes the windows are those of the grid, and only the ends that the
column's type cannot represent are missing. For the kinds below a second there are two
paths. When the interval divides a second, the time is rounded directly. Otherwise it is
rounded from the start of its hour, and the source takes the hour of the tick count divided
by the interval's scale, not by the column's: the rounding starts anew every `3600` seconds
counted in ticks of the interval's scale (`blockTicks`). When the column has a larger scale
than the interval, a window may straddle two such blocks, and the times beyond the boundary
are rounded to it.

## Main results

* `toStartOfSubsecond64_eq`, `toStartOfSubsecond64_overflow`: what the rounding of a
  sub-second kind computes.
* `startsWindow_iff`: for every accepted interval up to a minute, every scale and every time
  at or after the epoch, exactly when the time's window is one of a partition.
-/

open Word

namespace Proton.Streaming

open TumbleWindowParams

/-! ### Accepted intervals -/

namespace TumbleWindowParams

variable (params : TumbleWindowParams)

/-- What the constructor of `TumbleWindowParams` and the types of its fields guarantee. -/
structure Accepted : Prop where
  /-- The interval is an `Int64`. -/
  interval_lt : params.windowInterval < 9223372036854775808
  /-- The data types allow nine digits. -/
  scale_le : params.timeScale ≤ 9
  /-- The column can hold the interval. -/
  window_scale_le :
    getAutoScaleByInterval params.windowInterval params.intervalKind ≤ params.timeScale
  /-- One hour has a whole number of windows. -/
  hour : ∀ intervalScale ∈ params.intervalKind.subsecondScale,
    3600 * 10 ^ intervalScale % params.windowInterval = 0

/-- The start of the window of a time. -/
def windowStart (t : ℤ) : ℤ :=
  toStartTime params.timeZone t params.intervalKind params.windowInterval params.timeScale

/-- The end of the window that starts at a time. -/
def windowEnd (start : ℤ) : ℤ :=
  addTime params.timeZone start params.intervalKind params.windowInterval params.timeScale

/-- **The window of a time is one of a partition**: it contains the time, and every time in
it has the same window. -/
def StartsWindow (t : ℤ) : Prop :=
  params.windowStart t ≤ t ∧ t < params.windowEnd (params.windowStart t) ∧
    ∀ t', params.windowStart t ≤ t' → t' < params.windowEnd (params.windowStart t) →
      params.windowStart t' = params.windowStart t

end TumbleWindowParams

/-! ### Windows counted from the epoch -/

variable {len multiplier numUnits : ℤ}

/-- The quotient of a number between two multiples. -/
theorem ediv_eq_of_bounds {t q : ℤ} (hlen : 0 < len) (hlow : q * len ≤ t)
    (hhigh : t < q * len + len) : t / len = q := by
  refine le_antisymm ?_ (Int.le_ediv_of_mul_le hlen hlow)
  refine Int.lt_add_one_iff.mp (Int.ediv_lt_of_lt_mul hlen ?_)
  rwa [add_mul, one_mul]

/-- Rounding to multiples of a unit first does not change what is rounded to multiples of those. -/
theorem floor_floor {t : ℤ} (hmult : 0 < multiplier) :
    t / multiplier / len * len * multiplier = t / (len * multiplier) * (len * multiplier) := by
  rw [Int.ediv_ediv_of_nonneg (le_of_lt hmult), mul_comm multiplier, mul_assoc]

/-- A rounding to multiples of a length, up to a bound: the window of a time is one of a
partition exactly when its end lies after the time and no later than a length after the
start. -/
theorem floor_partition_iff {f : ℤ → ℤ} {top windowEnd t : ℤ} (hlen : 0 < len)
    (hf : ∀ t', 0 ≤ t' → t' < top → f t' = t' / len * len) (ht : 0 ≤ t) (htop : t < top)
    (hend : windowEnd ≤ top) :
    (f t ≤ t ∧ t < windowEnd ∧ ∀ t', f t ≤ t' → t' < windowEnd → f t' = f t) ↔
      t < windowEnd ∧ windowEnd ≤ t / len * len + len := by
  obtain ⟨hfloor, hnext⟩ := floor_bounds (t := t) hlen
  have hnonneg := floor_nonneg hlen ht
  rw [hf t ht htop]
  constructor
  · rintro ⟨_, hlt, hsame⟩
    by_contra hlate
    -- The time one length after the start begins another window.
    have hother := hsame (t / len * len + len) (by omega) (by omega)
    have hstart : (t / len * len + len) / len * len = t / len * len + len := by
      have hmul : t / len * len + len = (t / len + 1) * len := by ring
      rw [hmul, Int.mul_ediv_cancel _ (ne_of_gt hlen)]
    rw [hf _ (by omega) (by omega)] at hother
    omega
  · rintro ⟨hlt, hle⟩
    refine ⟨hfloor, hlt, fun t' hlow hhigh => ?_⟩
    rw [hf t' (by omega) (by omega)]
    congr 1
    exact ediv_eq_of_bounds hlen hlow (by omega)

namespace TumbleWindowParams

variable (params : TumbleWindowParams)

/-- The length of a window in seconds, as the source computes it. -/
def secondsLen : ℤ := |toInt64 (params.windowInterval * params.intervalKind.seconds)|

/-- The length of a window of seconds or minutes, in ticks. -/
def secondsTicks : ℤ := params.secondsLen * 10 ^ params.timeScale

end TumbleWindowParams

/-- Rounding a time at or after the epoch to whole minutes, whatever the divisor wraps to. -/
theorem toStartOfMinuteInterval_of_nonneg {w : Word} {t minutes : ℤ} (ht : 0 ≤ t)
    (hw : w.Mem (t / |toInt64 (60 * minutes)| * |toInt64 (60 * minutes)|)) :
    toStartOfMinuteInterval w t minutes =
      t / |toInt64 (60 * minutes)| * |toInt64 (60 * minutes)| := by
  have hsign : ∀ d : ℤ, t.tdiv d * d = t / |d| * |d| := by
    intro d
    rcases le_total 0 d with hd | hd
    · rw [abs_of_nonneg hd, Int.tdiv_eq_ediv_of_nonneg ht]
    · rw [abs_of_nonpos hd, Int.tdiv_eq_ediv_of_nonneg ht, Int.ediv_neg, neg_mul_neg]
  simp only [toStartOfMinuteInterval, if_pos ht, hsign, wrap_of_mem hw]

variable {params : TumbleWindowParams} {t : ℤ}

/-- A floor multiple of a time of a type is a value of the type. -/
theorem floor_mem {w : Word} (hlo : w.lo ≤ 0) {t : ℤ} (ht : 0 ≤ t) (htop : t < w.lo + w.card)
    (hlen : 0 ≤ len) : w.Mem (t / len * len) := by
  have hnonneg : 0 ≤ t / len * len := Int.mul_nonneg (Int.ediv_nonneg ht hlen) hlen
  rcases eq_or_lt_of_le hlen with rfl | hpos
  · exact ⟨by omega, by omega⟩
  · have hle := (floor_bounds (t := t) hpos).1
    exact ⟨by omega, by omega⟩

/-- Rounding a time in seconds to the interval, for a time at or after the epoch. -/
theorem toStartOfSeconds_floor (hkind : params.intervalKind.EpochAligned)
    (hinterval : params.windowInterval < 2 ^ 63) {w : Word} (hlo : w.lo ≤ 0)
    (ht : 0 ≤ t) (htop : t < w.lo + w.card) :
    toStartOfSeconds params.timeZone w params.intervalKind t params.windowInterval =
      t / params.secondsLen * params.secondsLen := by
  have hpos := params.window_pos
  rcases hkind with hkind | hkind
  · have hlen : params.secondsLen = params.windowInterval := by
      have hunit : IntervalKind.seconds .second = 1 := rfl
      rw [secondsLen, hkind, hunit, mul_one,
        toInt64_of_bounds (by omega) (by omega), abs_of_pos hpos]
    rw [hkind, hlen]
    exact toStartOfSecondInterval_eq hpos hinterval (floor_mem hlo ht htop (le_of_lt hpos))
      (.inl ht)
  · have hlen : params.secondsLen = |toInt64 (60 * params.windowInterval)| := by
      rw [secondsLen, hkind, IntervalKind.seconds, mul_comm]
    rw [hkind, hlen]
    exact toStartOfMinuteInterval_of_nonneg ht (floor_mem hlo ht htop (abs_nonneg _))

/-- The first time that the column's type cannot represent. -/
def timeTop (timeScale : ℕ) : ℤ := if timeScale = 0 then 4294967296 else 9223372036854775808

section

variable (hkind : params.intervalKind.EpochAligned)
include hkind

/-- Rounding to seconds or minutes gives multiples of the window's length. -/
theorem windowStart_seconds
    (hinterval : params.windowInterval < 2 ^ 63) (ht : 0 ≤ t)
    (htop : t < timeTop params.timeScale) :
    params.windowStart t = t / params.secondsTicks * params.secondsTicks := by
  rw [windowStart, toStartTime_of_epochAligned hkind, secondsTicks]
  by_cases hscale : params.timeScale = 0
  · rw [timeTop] at htop
    have hsame : toUInt32 t = t := wrap_of_mem ⟨ht, by simp only [uint32]; omega⟩
    rw [if_pos hscale, hsame, hscale, pow_zero, mul_one]
    exact toStartOfSeconds_floor hkind hinterval (le_refl _) ht (by simp only [uint32]; omega)
  · rw [timeTop] at htop
    have hmult : (0 : ℤ) < 10 ^ params.timeScale := Int.pow_pos (by decide)
    have hsecond : 0 ≤ t / 10 ^ params.timeScale := Int.ediv_nonneg ht (le_of_lt hmult)
    have hle : t / 10 ^ params.timeScale ≤ t := Int.ediv_le_self _ ht
    rw [if_neg hscale, Int.tdiv_eq_ediv_of_nonneg ht, toStartOfSeconds_floor hkind hinterval
      (by decide) hsecond (by simp only [int64]; omega), floor_floor hmult]
    refine wrap_of_mem (floor_mem (by decide) ht (by simp only [int64]; omega) ?_)
    exact Int.mul_nonneg (abs_nonneg _) (le_of_lt hmult)

/-- The end of a window is a value of the column's type. -/
theorem windowEnd_seconds_mem (start : ℤ) :
    (timeWord params.timeScale).Mem (params.windowEnd start) := by
  rw [windowEnd, addTime_eq hkind]
  exact wrap_mem _

omit hkind in
/-- The bound of the column's type. -/
theorem lo_add_card (timeScale : ℕ) :
    (timeWord timeScale).lo + (timeWord timeScale).card = timeTop timeScale := by
  simp only [timeWord, timeTop]
  split_ifs <;> rfl

/-- A window whose length wraps to zero ends where it starts. -/
theorem windowEnd_of_secondsTicks_zero
    (hzero : params.secondsTicks = 0) : params.windowEnd 0 = 0 := by
  have hmult : (10 : ℤ) ^ params.timeScale ≠ 0 := pow_ne_zero _ (by decide)
  have hlen : toInt64 (params.windowInterval * params.intervalKind.seconds) = 0 := by
    rcases mul_eq_zero.mp hzero with h | h
    · exact abs_eq_zero.mp h
    · exact absurd h hmult
  obtain ⟨k, hk⟩ := exists_wrap_eq (w := .int64)
    (params.windowInterval * params.intervalKind.seconds)
  have hcard : int64.card = 2 ^ 64 := rfl
  rw [show int64.wrap _ = 0 from hlen, zero_add, hcard] at hk
  -- Both types have a number of words that divides `2 ^ 64`.
  have hwords : ∃ c, (2 : ℤ) ^ 64 = c * (timeWord params.timeScale).card ∧
      (timeWord params.timeScale).wrap 0 = 0 := by
    rw [timeWord]
    split_ifs
    · exact ⟨2 ^ 32, rfl, rfl⟩
    · exact ⟨1, rfl, rfl⟩
  obtain ⟨c, hc, hwrap⟩ := hwords
  rw [windowEnd, addTime_eq hkind, IntervalKind.ticks, hk, hc, ← mul_assoc, mul_right_comm,
    wrap_add_mul_card, hwrap]

/-- **Seconds and minutes**: the window of a time is one of a partition exactly when its end
lies after the time and no later than a length after the start. -/
theorem startsWindow_seconds_iff
    (hinterval : params.windowInterval < 2 ^ 63) (ht : 0 ≤ t)
    (htop : t < timeTop params.timeScale) :
    params.StartsWindow t ↔
      t < params.windowEnd (t / params.secondsTicks * params.secondsTicks) ∧
        params.windowEnd (t / params.secondsTicks * params.secondsTicks) ≤
          t / params.secondsTicks * params.secondsTicks + params.secondsTicks := by
  have hstart : ∀ t', 0 ≤ t' → t' < timeTop params.timeScale →
      params.windowStart t' = t' / params.secondsTicks * params.secondsTicks :=
    fun t' => windowStart_seconds hkind hinterval
  rw [TumbleWindowParams.StartsWindow]
  have hnonneg : 0 ≤ params.secondsTicks :=
    Int.mul_nonneg (abs_nonneg _) (le_of_lt (Int.pow_pos (by decide)))
  rcases eq_or_lt_of_le hnonneg with hzero | hpos
  · -- Neither side holds: the window is empty.
    have hempty := windowEnd_of_secondsTicks_zero hkind hzero.symm
    rw [hstart t ht htop, ← hzero, mul_zero]
    omega
  · have hend : params.windowEnd (t / params.secondsTicks * params.secondsTicks) ≤
        timeTop params.timeScale := by
      rw [← lo_add_card]
      exact le_of_lt (windowEnd_seconds_mem hkind _).2
    have h := floor_partition_iff hpos hstart ht htop hend
    rwa [hstart t ht htop] at h ⊢

end

/-! ### Intervals below a second -/

/-- **A rounding that overflows misses the time**: when the scaled time does not fit
`Int64`, the rounded value scaled back does not start a window that contains the time. -/
theorem roundDown_overflow {t : ℤ} (hlen : 0 < len) (hmult : 2 ≤ multiplier)
    (hfits : len * multiplier < 4611686018427387904)
    (hover : 2 ^ 63 ≤ t * multiplier) {start : ℤ}
    (hstart : start = (roundDown (toInt64 (t * multiplier)) (len * multiplier)).tdiv multiplier) :
    start + len ≤ t := by
  have hmem := wrap_mem (w := .int64) (t * multiplier)
  obtain ⟨k, hk⟩ := exists_wrap_eq (w := .int64) (t * multiplier)
  simp only [toInt64] at hstart
  generalize int64.wrap (t * multiplier) = x at *
  simp only [Word.Mem, int64] at hmem hk
  have hdivisor : 0 < len * multiplier := Int.mul_pos hlen (by omega)
  -- It is enough to compare after scaling.
  suffices hscaled : start * multiplier + len * multiplier < t * multiplier + multiplier by
    have hlt : (start + len) * multiplier < (t + 1) * multiplier := by
      rw [add_mul, add_mul, one_mul]
      exact hscaled
    exact Int.lt_add_one_iff.mp (lt_of_mul_lt_mul_right hlt (by omega))
  rw [roundDown] at hstart
  split_ifs at hstart with hx
  · -- The scaled time wrapped to a smaller time.
    have hfloor := (floor_bounds (t := x) hdivisor).1
    have hnonneg := floor_nonneg hdivisor hx
    rw [Int.tdiv_eq_ediv_of_nonneg hnonneg] at hstart
    have hback : start * multiplier ≤ x / (len * multiplier) * (len * multiplier) := by
      rw [hstart]
      exact Int.ediv_mul_le _ (by omega)
    omega
  · have hwrapped : toUInt64 (x + 1 - len * multiplier) =
        x + 1 - len * multiplier + 2 ^ 64 :=
      wrap_of_lt (by simp only [uint64]; omega) (by simp only [uint64]; omega)
    rw [hwrapped] at hstart
    have hfloor := (floor_bounds (t := x + 1 - len * multiplier + 2 ^ 64) hdivisor).1
    have hnonneg : 0 ≤ (x + 1 - len * multiplier + 2 ^ 64) /
        (len * multiplier) * (len * multiplier) := floor_nonneg hdivisor (by omega)
    generalize (x + 1 - len * multiplier + 2 ^ 64) / (len * multiplier) *
      (len * multiplier) = u at *
    by_cases hu : u < 2 ^ 63
    · -- The unsigned quotient is read as a positive number.
      have hsame : toInt64 u = u := toInt64_of_bounds (by omega) (by omega)
      rw [hsame, Int.tdiv_eq_ediv_of_nonneg hnonneg] at hstart
      have hback : start * multiplier ≤ u := by
        rw [hstart]
        exact Int.ediv_mul_le _ (by omega)
      omega
    · -- It is read as a negative one.
      have hneg : toInt64 u = u - 2 ^ 64 :=
        wrap_of_le (by simp only [int64]; omega) (by simp only [int64]; omega)
      rw [hneg] at hstart
      have hzero : start ≤ 0 := by
        rw [hstart, ← neg_neg (u - 2 ^ 64), Int.neg_tdiv]
        have := Int.tdiv_nonneg (show 0 ≤ -(u - 2 ^ 64) by omega)
          (show 0 ≤ multiplier by omega)
        omega
      have hback : start * multiplier ≤ 0 := Int.mul_nonpos_of_nonpos_of_nonneg hzero (by omega)
      omega

/-- Without overflow, rounding the scaled time and scaling back rounds the time. -/
theorem roundDown_scaled {t : ℤ} (ht : 0 ≤ t) (hmult : 0 < multiplier)
    (hfits : t * multiplier < 2 ^ 63) :
    (roundDown (toInt64 (t * multiplier)) (len * multiplier)).tdiv multiplier = t / len * len := by
  have hnonneg : 0 ≤ t * multiplier := Int.mul_nonneg ht (le_of_lt hmult)
  have hsame : toInt64 (t * multiplier) = t * multiplier := toInt64_of_bounds (by omega) (by omega)
  rw [hsame, roundDown, if_pos hnonneg, Int.mul_ediv_mul_of_pos_left _ _ hmult, ← mul_assoc,
    Int.mul_tdiv_cancel _ (ne_of_gt hmult)]

/-- A rounded value scaled back is not below the smallest `Int64`. -/
theorem le_roundDown_tdiv {divisor : ℤ} (hdivisor : 0 < divisor) (hmult : 0 < multiplier) (x : ℤ) :
    -2 ^ 63 ≤ (roundDown (toInt64 x) divisor).tdiv multiplier := by
  have hround : -2 ^ 63 ≤ roundDown (toInt64 x) divisor := by
    rw [roundDown]
    split_ifs with hx
    · have := floor_nonneg hdivisor hx
      omega
    · exact (wrap_mem (w := .int64) _).1
  generalize roundDown (toInt64 x) divisor = r at hround
  by_cases hr : 0 ≤ r
  · have := Int.tdiv_nonneg hr (le_of_lt hmult)
    omega
  · have hneg : (-r).tdiv multiplier ≤ -r := by
      rw [Int.tdiv_eq_ediv_of_nonneg (by omega)]
      exact Int.ediv_le_self _ (by omega)
    rw [Int.neg_tdiv] at hneg
    omega

/-- The start of the block of a time: the epoch when there are no blocks. -/
def blockStart (block : Option ℤ) (t : ℤ) : ℤ :=
  match block with
  | some ticks => t / ticks * ticks
  | none => 0

/-- The block of a time, and of every other time of the block. -/
theorem blockStart_spec {block : Option ℤ} (hblock : ∀ ticks ∈ block, 0 < ticks) {t : ℤ}
    (ht : 0 ≤ t) :
    0 ≤ blockStart block t ∧ blockStart block t ≤ t ∧
      (∀ ticks ∈ block, t - blockStart block t < ticks) ∧
      ∀ t', blockStart block t ≤ t' → (∀ ticks ∈ block, t' < blockStart block t + ticks) →
        blockStart block t' = blockStart block t := by
  cases block with
  | none => exact ⟨le_refl _, ht, by simp, fun _ _ _ => rfl⟩
  | some ticks =>
    have hpos := hblock ticks rfl
    obtain ⟨hfloor, hnext⟩ := floor_bounds (t := t) hpos
    refine ⟨floor_nonneg hpos ht, hfloor, ?_, fun t' hstart hin => ?_⟩
    · rintro _ ⟨⟩
      simp only [blockStart]
      omega
    · have hin := hin ticks rfl
      simp only [blockStart] at hstart hin ⊢
      rw [ediv_eq_of_bounds hpos hstart hin]

/-- **Rounding within blocks.** Times are rounded from the start of their block, exactly
while the scaled offset fits, and missing the time beyond that. The window of a time is one
of a partition exactly when its end fits, it does not leave its block, and the offsets of
all its times fit when scaled. -/
theorem block_partition_iff {f : ℤ → ℤ} {block : Option ℤ} {t : ℤ} (hlen : 0 < len)
    (hlenFits : len < 2 ^ 63) (hblock : ∀ ticks ∈ block, 0 < ticks)
    (hmult : 0 < multiplier)
    (hlow : ∀ t', 0 ≤ t' → t' < 2 ^ 63 → -2 ^ 63 ≤ f t')
    (hexact : ∀ t', 0 ≤ t' → t' < 2 ^ 63 →
      (t' - blockStart block t') * multiplier < 2 ^ 63 →
      f t' = blockStart block t' + (t' - blockStart block t') / len * len)
    (hmiss : ∀ t', 0 ≤ t' → t' < 2 ^ 63 →
      2 ^ 63 ≤ (t' - blockStart block t') * multiplier → f t' + len ≤ t')
    (ht : 0 ≤ t) (htop : t < 2 ^ 63) :
    (f t ≤ t ∧ t < toInt64 (f t + len) ∧
      ∀ t', f t ≤ t' → t' < toInt64 (f t + len) → f t' = f t) ↔
      blockStart block t + (t - blockStart block t) / len * len + len < 2 ^ 63 ∧
        (∀ ticks ∈ block, (t - blockStart block t) / len * len + len ≤ ticks) ∧
        ((t - blockStart block t) / len * len + len - 1) * multiplier < 2 ^ 63 := by
  obtain ⟨hbaseNonneg, hbaseLe, hinside, hsameBlock⟩ := blockStart_spec hblock ht
  generalize hb : blockStart block t = base at *
  obtain ⟨hfloor, hnext⟩ := floor_bounds (t := t - base) hlen
  have hnonneg : 0 ≤ (t - base) / len * len := floor_nonneg hlen (by omega)
  generalize hq : (t - base) / len = q at *
  constructor
  · rintro ⟨-, hlt, hsame⟩
    have hwrap : toInt64 (f t + len) ≤ f t + len :=
      wrap_le (by have := hlow t ht htop; simp only [int64]; omega)
    -- The offset of the time itself fits, since its window contains it.
    have hoffset : (t - base) * multiplier < 2 ^ 63 := by
      by_contra hover
      have := hmiss t ht htop (by rw [hb]; omega)
      omega
    have hstart : f t = base + q * len := by rw [hexact t ht htop (by rwa [hb]), hb, hq]
    rw [hstart] at hlt hsame hwrap
    have hend : base + q * len + len < 2 ^ 63 := by
      by_contra hover
      rw [show toInt64 (base + q * len + len) = base + q * len + len - 2 ^ 64 from
        wrap_of_le (by simp only [int64]; omega) (by simp only [int64]; omega)]
        at hlt
      omega
    have hendSame : toInt64 (base + q * len + len) = base + q * len + len :=
      toInt64_of_bounds (by omega) (by omega)
    -- The window does not leave its block: the next block is rounded to its own start.
    have hfits : ∀ ticks ∈ block, q * len + len ≤ ticks := by
      intro ticks hticks
      by_contra hover
      have hpos := hblock ticks hticks
      have hin := hinside ticks hticks
      have hboundary : blockStart block (base + ticks) = base + ticks := by
        obtain rfl : block = some ticks := hticks
        simp only [blockStart] at hb ⊢
        rw [← hb, show t / ticks * ticks + ticks = (t / ticks + 1) * ticks by ring,
          Int.mul_ediv_cancel _ (ne_of_gt hpos)]
      have hother := hsame (base + ticks) (by omega) (by omega)
      rw [hexact _ (by omega) (by omega) (by rw [hboundary, sub_self, zero_mul]; decide),
        hboundary, sub_self, Int.zero_ediv] at hother
      omega
    refine ⟨hend, hfits, ?_⟩
    -- The last time of the window would be missed if its offset did not fit.
    by_contra hover
    have hlast : blockStart block (base + q * len + len - 1) = base := by
      refine hsameBlock _ (by omega) fun ticks hticks => ?_
      have := hfits ticks hticks
      omega
    have hsameLast := hsame (base + q * len + len - 1) (by omega) (by omega)
    have := hmiss (base + q * len + len - 1) (by omega) (by omega)
      (by rw [hlast, show base + q * len + len - 1 - base = q * len + len - 1 by omega]; omega)
    omega
  · rintro ⟨hend, hfits, hscaled⟩
    have hexactIn : ∀ t', base + q * len ≤ t' → t' < base + q * len + len →
        f t' = base + q * len := by
      intro t' hfrom hto
      have hsameBase : blockStart block t' = base := by
        refine hsameBlock t' (by omega) fun ticks hticks => ?_
        have := hfits ticks hticks
        omega
      have hmono : (t' - base) * multiplier ≤ (q * len + len - 1) * multiplier :=
        Int.mul_le_mul_of_nonneg_right (by omega) (le_of_lt hmult)
      rw [hexact t' (by omega) (by omega) (by rw [hsameBase]; omega), hsameBase,
        ediv_eq_of_bounds hlen (q := q) (by omega) (by omega)]
    have hendSame : toInt64 (base + q * len + len) = base + q * len + len :=
      toInt64_of_bounds (by omega) (by omega)
    rw [hexactIn t (by omega) (by omega), hendSame]
    exact ⟨by omega, by omega, hexactIn⟩

/-! ### The two paths below a second -/

section Subsecond

/-- The length of a window of a sub-second kind, in ticks. -/
def subsecondTicks (intervalScale : ℕ) (numUnits : ℤ) (timeScale : ℕ) : ℤ :=
  numUnits * 10 ^ (timeScale - intervalScale) / 10 ^ (intervalScale - timeScale)

/-- The ticks after which the rounding starts anew: there are blocks when the interval does
not divide a second. -/
def blockTicks (intervalScale : ℕ) (numUnits : ℤ) : Option ℤ :=
  if (10 : ℤ) ^ intervalScale % numUnits = 0 then none else some (3600 * 10 ^ intervalScale)

variable {intervalScale timeScale : ℕ} {numUnits t : ℤ}

/-- What acceptance says about an interval of a sub-second kind. -/
structure SubsecondInterval (intervalScale : ℕ) (numUnits : ℤ) (timeScale : ℕ) : Prop where
  /-- The interval is positive. -/
  pos : 0 < numUnits
  /-- One hour has a whole number of windows. -/
  dvd_hour : numUnits ∣ 3600 * 10 ^ intervalScale
  /-- The interval is a whole number of ticks. -/
  dvd_ticks : (10 : ℤ) ^ (intervalScale - timeScale) ∣ numUnits
  /-- The kinds end at nanoseconds. -/
  interval_le : intervalScale ≤ 9
  /-- The scales end at nine. -/
  scale_le : timeScale ≤ 9

namespace SubsecondInterval

variable (h : SubsecondInterval intervalScale numUnits timeScale)
include h

/-- The length in ticks, scaled to the finer of the two scales. -/
theorem ticks_mul : subsecondTicks intervalScale numUnits timeScale *
    10 ^ (intervalScale - timeScale) = numUnits * 10 ^ (timeScale - intervalScale) :=
  Int.ediv_mul_cancel (h.dvd_ticks.mul_right _)

/-- A window has at least one tick. -/
theorem ticks_pos : 0 < subsecondTicks intervalScale numUnits timeScale := by
  have hmult : (0 : ℤ) < 10 ^ (intervalScale - timeScale) := Int.pow_pos (by decide)
  have hscaled : (0 : ℤ) < numUnits * 10 ^ (timeScale - intervalScale) :=
    Int.mul_pos h.pos (Int.pow_pos (by decide))
  rw [← h.ticks_mul] at hscaled
  exact (pos_iff_pos_of_mul_pos hscaled).mpr hmult

/-- A scaled window is at most an hour on the finer scale. -/
theorem scaled_le : numUnits * 10 ^ (timeScale - intervalScale) ≤ 3600000000000 := by
  have hle := Int.le_of_dvd (Int.mul_pos (by decide) (Int.pow_pos (by decide))) h.dvd_hour
  have hpow : (10 : ℤ) ^ intervalScale * 10 ^ (timeScale - intervalScale) ≤ 10 ^ 9 := by
    rw [← pow_add]
    exact pow_le_pow_right₀ (by decide) (by have := h.interval_le; have := h.scale_le; omega)
  calc numUnits * 10 ^ (timeScale - intervalScale)
      ≤ 3600 * 10 ^ intervalScale * 10 ^ (timeScale - intervalScale) :=
        Int.mul_le_mul_of_nonneg_right hle (le_of_lt (Int.pow_pos (by decide)))
    _ ≤ 3600 * 10 ^ 9 := by
        rw [mul_assoc]
        exact Int.mul_le_mul_of_nonneg_left hpow (by decide)
    _ = 3600000000000 := by norm_num

/-- A window is at most an hour on the finer scale. -/
theorem ticks_le : subsecondTicks intervalScale numUnits timeScale ≤ 3600000000000 := by
  have hmult : (1 : ℤ) ≤ 10 ^ (intervalScale - timeScale) := Int.pow_pos (by decide)
  have hle := le_mul_of_one_le_right (le_of_lt h.ticks_pos) hmult
  have hscaled := h.scaled_le
  rw [h.ticks_mul] at hle
  omega

/-- An offset is rounded as on the finer of the two scales. -/
theorem round_offset {x : ℤ} (hx : 0 ≤ x) (htop : x < 2 ^ 63) :
    (if intervalScale ≤ timeScale then
        roundDown x (toUInt64 (numUnits * 10 ^ (timeScale - intervalScale)))
      else (roundDown (toInt64 (x * 10 ^ (intervalScale - timeScale))) numUnits).tdiv
        (10 ^ (intervalScale - timeScale))) =
      (roundDown (toInt64 (x * 10 ^ (intervalScale - timeScale)))
        (subsecondTicks intervalScale numUnits timeScale * 10 ^ (intervalScale - timeScale))).tdiv
          (10 ^ (intervalScale - timeScale)) := by
  have hpos := h.ticks_pos
  have hle := h.ticks_le
  rw [h.ticks_mul]
  split_ifs with hscale
  · have hmul := h.ticks_mul
    have hsame : toInt64 x = x := toInt64_of_bounds (by omega) (by omega)
    rw [Nat.sub_eq_zero_of_le hscale, pow_zero, mul_one] at hmul ⊢
    rw [← hmul, hsame, Int.tdiv_one]
    congr 1
    exact wrap_of_mem ⟨by simp only [uint64]; omega, by simp only [uint64]; omega⟩
  · rw [Nat.sub_eq_zero_of_le (le_of_not_ge hscale), pow_zero, mul_one]

end SubsecondInterval

/-- The hour the source takes of a time starts a block. -/
theorem startOfHour_eq (ht : 0 ≤ t) (htop : t < 2 ^ 63) :
    toInt64 (toStartOfHour (t.tdiv (10 ^ intervalScale)) * 10 ^ intervalScale) =
      t / (3600 * 10 ^ intervalScale) * (3600 * 10 ^ intervalScale) := by
  have hmult : (0 : ℤ) < 10 ^ intervalScale := Int.pow_pos (by decide)
  have hblock : (0 : ℤ) < 3600 * 10 ^ intervalScale := Int.mul_pos (by decide) hmult
  have hhour : 0 ≤ t / 10 ^ intervalScale := Int.ediv_nonneg ht (le_of_lt hmult)
  rw [toStartOfHour, Int.tdiv_eq_ediv_of_nonneg ht, if_pos hhour, floor_floor hmult]
  exact wrap_of_mem (floor_mem (by decide) ht (by simp only [int64]; omega) (le_of_lt hblock))

/-- The blocks of the rounding have a positive length. -/
theorem blockTicks_pos : ∀ ticks ∈ blockTicks intervalScale numUnits, 0 < ticks := by
  intro ticks hticks
  rw [blockTicks] at hticks
  split_ifs at hticks
  · cases hticks
  · obtain rfl := Option.some.inj hticks
    exact Int.mul_pos (by decide) (Int.pow_pos (by decide))

variable (h : SubsecondInterval intervalScale numUnits timeScale) (ht : 0 ≤ t)
include h ht

/-- The rounding of the offset from the start of the block, which the second path converts. -/
theorem toStartOfSubsecond64_cases (htop : t < 2 ^ 63) :
    ∃ offset, offset =
        (roundDown (toInt64 ((t - blockStart (blockTicks intervalScale numUnits) t) *
          10 ^ (intervalScale - timeScale))) (subsecondTicks intervalScale numUnits timeScale *
            10 ^ (intervalScale - timeScale))).tdiv (10 ^ (intervalScale - timeScale)) ∧
      -2 ^ 63 ≤ offset ∧
      (toStartOfSubsecond64 intervalScale t numUnits timeScale =
          blockStart (blockTicks intervalScale numUnits) t + offset ∨
        toStartOfSubsecond64 intervalScale t numUnits timeScale =
          toInt64 (blockStart (blockTicks intervalScale numUnits) t + offset)) := by
  obtain ⟨hbase, hle, -, -⟩ := @blockStart_spec _ (@blockTicks_pos intervalScale numUnits) t ht
  have hmult : (0 : ℤ) < 10 ^ (intervalScale - timeScale) := Int.pow_pos (by decide)
  refine ⟨_, rfl, le_roundDown_tdiv (Int.mul_pos h.ticks_pos hmult) hmult _, ?_⟩
  rw [← h.round_offset (by omega) (by omega)]
  simp only [toStartOfSubsecond64]
  by_cases hsecond : (10 : ℤ) ^ intervalScale % numUnits = 0
  · -- there are no blocks
    have hblock : blockStart (blockTicks intervalScale numUnits) t = 0 := by
      rw [blockTicks, if_pos hsecond]
      rfl
    rw [if_pos hsecond, hblock, sub_zero, zero_add]
    exact .inl rfl
  · have hblock : blockStart (blockTicks intervalScale numUnits) t =
        t / (3600 * 10 ^ intervalScale) * (3600 * 10 ^ intervalScale) := by
      rw [blockTicks, if_neg hsecond]
      rfl
    have hsame := toInt64_of_bounds (x := t - blockStart (blockTicks intervalScale numUnits) t)
      (by omega) (by omega)
    rw [if_neg hsecond, startOfHour_eq ht htop, ← hblock, hsame]
    split_ifs
    · exact .inr rfl
    · exact .inr rfl

/-- **Rounding below a second**: while the scaled offset fits, the time is rounded from the
start of its block. -/
theorem toStartOfSubsecond64_eq (htop : t < 2 ^ 63)
    (hfits : (t - blockStart (blockTicks intervalScale numUnits) t) *
      10 ^ (intervalScale - timeScale) < 2 ^ 63) :
    toStartOfSubsecond64 intervalScale t numUnits timeScale =
      blockStart (blockTicks intervalScale numUnits) t +
        (t - blockStart (blockTicks intervalScale numUnits) t) /
          subsecondTicks intervalScale numUnits timeScale *
            subsecondTicks intervalScale numUnits timeScale := by
  obtain ⟨hbase, hle, -, -⟩ := @blockStart_spec _ (@blockTicks_pos intervalScale numUnits) t ht
  obtain ⟨offset, hoffset, -, hround⟩ := toStartOfSubsecond64_cases h ht htop
  generalize blockStart (blockTicks intervalScale numUnits) t = base at *
  rw [roundDown_scaled (by omega) (Int.pow_pos (by decide)) hfits] at hoffset
  have hfloor := (floor_bounds (t := t - base) h.ticks_pos).1
  have hnonneg := floor_nonneg h.ticks_pos (show 0 ≤ t - base by omega)
  rw [← hoffset] at hfloor hnonneg ⊢
  rcases hround with hround | hround
  · exact hround
  · rw [hround]
    exact toInt64_of_bounds (by omega) (by omega)

/-- **The rounding overflows** when the scaled offset does not fit; then it misses the
time. -/
theorem toStartOfSubsecond64_overflow (htop : t < 2 ^ 63)
    (hover : 2 ^ 63 ≤ (t - blockStart (blockTicks intervalScale numUnits) t) *
      10 ^ (intervalScale - timeScale)) :
    toStartOfSubsecond64 intervalScale t numUnits timeScale +
      subsecondTicks intervalScale numUnits timeScale ≤ t := by
  obtain ⟨hbase, hle, -, -⟩ := @blockStart_spec _ (@blockTicks_pos intervalScale numUnits) t ht
  obtain ⟨offset, hoffset, hlow, hround⟩ := toStartOfSubsecond64_cases h ht htop
  -- A column at least as fine as the interval does not scale.
  have hscale : intervalScale - timeScale ≠ 0 := by
    intro hfine
    rw [hfine, pow_zero] at hover
    omega
  have hmult : (2 : ℤ) ≤ 10 ^ (intervalScale - timeScale) :=
    le_trans (by decide) (le_self_pow₀ (show (1 : ℤ) ≤ 10 by decide) hscale)
  have hsmall := h.scaled_le
  rw [← h.ticks_mul] at hsmall
  generalize blockStart (blockTicks intervalScale numUnits) t = base at *
  have hmiss := roundDown_overflow h.ticks_pos hmult (by omega) hover hoffset
  have hwrap : toInt64 (base + offset) ≤ base + offset := wrap_le (by simp only [int64]; omega)
  rcases hround with hround | hround <;> omega

/-- The rounding of a time at or after the epoch is not below the smallest `Int64`. -/
theorem le_toStartOfSubsecond64 (htop : t < 2 ^ 63) :
    -2 ^ 63 ≤ toStartOfSubsecond64 intervalScale t numUnits timeScale := by
  have hbase := (@blockStart_spec _ (@blockTicks_pos intervalScale numUnits) t ht).1
  obtain ⟨offset, -, hlow, hround | hround⟩ := toStartOfSubsecond64_cases h ht htop
  · omega
  · rw [hround]
    exact (wrap_mem (w := .int64) _).1

end Subsecond

/-! ### Every accepted interval -/

variable {intervalScale : ℕ}

/-- An accepted interval of a sub-second kind. -/
theorem TumbleWindowParams.Accepted.subsecond (h : params.Accepted)
    (hkind : params.intervalKind.subsecondScale = some intervalScale) :
    SubsecondInterval intervalScale params.windowInterval params.timeScale where
  pos := params.window_pos
  dvd_hour := Int.dvd_of_emod_eq_zero (h.hour intervalScale hkind)
  dvd_ticks := by
    have hscale := (getAutoScaleByInterval_le_iff _ _ _).1 h.window_scale_le
    rwa [IntervalKind.decimals, hkind] at hscale
  interval_le := by
    cases hparams : params.intervalKind <;> rw [hparams] at hkind <;>
      simp only [IntervalKind.subsecondScale, Option.some.injEq, reduceCtorEq] at hkind <;> omega
  scale_le := h.scale_le

/-- A sub-second kind is not one of dates. -/
theorem isDate_of_subsecond (hkind : params.intervalKind.subsecondScale = some intervalScale) :
    params.intervalKind.isDate = false := by
  cases hparams : params.intervalKind <;> rw [hparams] at hkind <;>
    simp only [IntervalKind.subsecondScale, reduceCtorEq] at hkind <;> rfl

/-- The end of a window of a sub-second kind on a column with a positive scale. -/
theorem windowEnd_subsecond (hkind : params.intervalKind.subsecondScale = some intervalScale)
    (hscale : params.timeScale ≠ 0) (start : ℤ) :
    params.windowEnd start =
      toInt64 (start + subsecondTicks intervalScale params.windowInterval params.timeScale) := by
  have hdate := isDate_of_subsecond hkind
  have hpos := params.window_pos
  rw [windowEnd, addTime, if_neg hscale, addTime64, hdate, hkind]
  simp only [Bool.false_eq_true, if_false, subsecondTicks]
  split_ifs with hfine
  · rw [Nat.sub_eq_zero_of_le hfine, pow_zero, Int.ediv_one]
  · rw [Nat.sub_eq_zero_of_le (le_of_lt (not_le.mp hfine)), pow_zero, mul_one,
      Int.tdiv_eq_ediv_of_nonneg (le_of_lt hpos)]

section

variable (h : SubsecondInterval intervalScale numUnits 0)
include h

/-- An interval that a column of whole seconds can hold is a whole number of seconds. -/
theorem SubsecondInterval.wholeSeconds :
    numUnits = subsecondTicks intervalScale numUnits 0 * 10 ^ intervalScale := by
  have hmul := h.ticks_mul
  rw [Nat.zero_sub, pow_zero, mul_one] at hmul
  exact hmul.symm

/-- Such an interval divides an hour. -/
theorem SubsecondInterval.wholeSeconds_dvd : subsecondTicks intervalScale numUnits 0 ∣ 3600 := by
  have hdvd := h.dvd_hour
  rw [h.wholeSeconds] at hdvd
  exact Int.dvd_of_mul_dvd_mul_right (ne_of_gt (Int.pow_pos (by decide))) hdvd

/-- Rounding a time in whole seconds to an interval of a sub-second kind. -/
theorem toStartOfSubsecond_eq (ht : 0 ≤ t) (htop : t < 2 ^ 32) :
    toStartOfSubsecond intervalScale t numUnits =
      t / subsecondTicks intervalScale numUnits 0 * subsecondTicks intervalScale numUnits 0 := by
  have hmult : (0 : ℤ) < 10 ^ intervalScale := Int.pow_pos (by decide)
  have hpos := h.ticks_pos
  have hdivisor := h.wholeSeconds
  obtain ⟨windows, hhour⟩ := h.wholeSeconds_dvd
  generalize subsecondTicks intervalScale numUnits 0 = len at *
  rw [toStartOfSubsecond, hdivisor]
  split_ifs with hsecond
  · -- A window of one second.
    have hone : len = 1 := by
      have hdvd := Int.le_of_dvd hmult (Int.dvd_of_emod_eq_zero hsecond)
      by_contra hne
      have : 2 * 10 ^ intervalScale ≤ len * 10 ^ intervalScale :=
        Int.mul_le_mul_of_nonneg_right (by omega) (le_of_lt hmult)
      omega
    rw [hone, Int.ediv_one, mul_one]
  · have hhourStart : toStartOfHour t = t / 3600 * 3600 := by rw [toStartOfHour, if_pos ht]
    have hsmall : (t - t / 3600 * 3600) * 10 ^ intervalScale < 2 ^ 63 := by
      have hpow : (10 : ℤ) ^ intervalScale ≤ 10 ^ 9 := pow_le_pow_right₀ (by decide) h.interval_le
      have hle : (t - t / 3600 * 3600) * 10 ^ intervalScale ≤ 3600 * 10 ^ 9 :=
        Int.mul_le_mul (by omega) hpow (le_of_lt hmult) (by decide)
      omega
    simp only [hhourStart]
    rw [roundDown_scaled (by omega) hmult hsmall]
    -- Windows that divide the hour are counted from the epoch.
    have hsplit : t / 3600 * 3600 + (t - t / 3600 * 3600) / len * len = t / len * len := by
      have hblock : t / 3600 * 3600 = t / 3600 * windows * len := by
        rw [mul_assoc, mul_comm windows, ← hhour]
      have hquotient : (t - t / 3600 * windows * len) / len = t / len - t / 3600 * windows := by
        rw [sub_eq_add_neg, ← neg_mul, Int.add_mul_ediv_right _ _ (ne_of_gt hpos)]
        omega
      rw [hblock, hquotient, sub_mul]
      omega
    rw [hsplit]
    exact wrap_of_mem (floor_mem (le_refl _) ht (by simp only [uint32]; omega) (le_of_lt hpos))

end

/-- The length of a window of a sub-second kind of these parameters, in ticks. -/
def TumbleWindowParams.ticks (params : TumbleWindowParams) (intervalScale : ℕ) : ℤ :=
  subsecondTicks intervalScale params.windowInterval params.timeScale

/-- The start of the block of a time, for a sub-second kind of these parameters. -/
def TumbleWindowParams.blockOf (params : TumbleWindowParams) (intervalScale : ℕ) (t : ℤ) : ℤ :=
  blockStart (blockTicks intervalScale params.windowInterval) t

/-- The start of the window of a time counted from its block, for a sub-second kind. -/
def TumbleWindowParams.offsetOf (params : TumbleWindowParams) (intervalScale : ℕ) (t : ℤ) : ℤ :=
  (t - params.blockOf intervalScale t) / params.ticks intervalScale * params.ticks intervalScale

/-- **When the window of a time is one of a partition.** For seconds and minutes the end of
the window has to lie after the time, in the column's type, and no later than a length after
the start. For the kinds below a second the end has to fit the column's type; on a column
with a positive scale the window must not leave the block of the time, and the offsets of
its times have to fit when they are scaled to the interval's unit. -/
def TumbleWindowParams.Partitions (params : TumbleWindowParams) (t : ℤ) : Prop :=
  match params.intervalKind.subsecondScale with
  | none =>
    t < params.windowEnd (t / params.secondsTicks * params.secondsTicks) ∧
      params.windowEnd (t / params.secondsTicks * params.secondsTicks) ≤
        t / params.secondsTicks * params.secondsTicks + params.secondsTicks
  | some intervalScale =>
    if params.timeScale = 0 then
      t / params.ticks intervalScale * params.ticks intervalScale + params.ticks intervalScale <
        4294967296
    else
      params.blockOf intervalScale t + params.offsetOf intervalScale t +
          params.ticks intervalScale < 9223372036854775808 ∧
        (∀ ticks ∈ blockTicks intervalScale params.windowInterval,
          params.offsetOf intervalScale t + params.ticks intervalScale ≤ ticks) ∧
        (params.offsetOf intervalScale t + params.ticks intervalScale - 1) *
          10 ^ (intervalScale - params.timeScale) < 9223372036854775808

/-- A sub-second kind on a column of whole seconds. -/
theorem startsWindow_wholeSeconds_iff
    (h : SubsecondInterval intervalScale params.windowInterval params.timeScale)
    (hkind : params.intervalKind.subsecondScale = some intervalScale)
    (hscale : params.timeScale = 0) (ht : 0 ≤ t) :
    params.StartsWindow t ↔
      t / params.ticks intervalScale * params.ticks intervalScale + params.ticks intervalScale <
        4294967296 := by
  have hpos := h.ticks_pos
  have hle : params.ticks intervalScale ≤ 3600 := by
    rw [hscale] at h
    rw [ticks, hscale]
    exact Int.le_of_dvd (by decide) h.wholeSeconds_dvd
  have hdate := isDate_of_subsecond hkind
  have hstart : ∀ t', 0 ≤ t' → t' < 4294967296 → params.windowStart t' =
      t' / params.ticks intervalScale * params.ticks intervalScale := by
    intro t' ht' htop
    have hsame : toUInt32 t' = t' := wrap_of_mem ⟨ht', by simp only [uint32]; omega⟩
    rw [hscale] at h
    rw [windowStart, toStartTime, hkind]
    simp only [if_pos hscale, hsame]
    rw [toStartOfSubsecond_eq h ht' htop, ticks, hscale]
  have hend : ∀ start, params.windowEnd start =
      toUInt32 (start + params.ticks intervalScale) := by
    intro start
    have hticks : params.windowInterval.tdiv (10 ^ intervalScale) =
        params.ticks intervalScale := by
      rw [ticks, subsecondTicks, hscale, Nat.zero_sub, Nat.sub_zero,
        pow_zero, mul_one, Int.tdiv_eq_ediv_of_nonneg (le_of_lt params.window_pos)]
    rw [windowEnd, addTime, if_pos hscale, addTime32, hdate, hkind]
    simp only [Bool.false_eq_true, if_false, hticks, wrap_wrap_add]
  rw [← ticks] at hpos
  obtain ⟨hfloor, hnext⟩ := floor_bounds (t := t) hpos
  by_cases htop : t < 4294967296
  · have hmem : uint32.Mem (params.windowEnd (params.windowStart t)) := by
      rw [hend]
      exact wrap_mem _
    have hiff := floor_partition_iff hpos hstart ht htop
      (show params.windowEnd (params.windowStart t) ≤ 4294967296 from le_of_lt hmem.2)
    rw [TumbleWindowParams.StartsWindow, hiff, hend, hstart t ht htop]
    generalize t / params.ticks intervalScale * params.ticks intervalScale = start at *
    by_cases hfits : start + params.ticks intervalScale < 4294967296
    · rw [show toUInt32 (start + params.ticks intervalScale) = _ from
        wrap_of_mem ⟨by simp only [uint32]; omega, by simp only [uint32]; omega⟩]
      omega
    · rw [show toUInt32 (start + params.ticks intervalScale) = _ from
        wrap_of_le (by simp only [uint32]; omega) (by simp only [uint32]; omega)]
      simp only [uint32]
      omega
  · constructor
    · rintro ⟨_, hlt, _⟩
      have hmem := wrap_mem (w := .uint32) (params.windowStart t + params.ticks intervalScale)
      rw [hend] at hlt
      exact absurd (lt_trans hlt hmem.2) htop
    · omega

/-- **Tumble windows as a partition of time.** For every accepted interval of a kind up to a
minute, every scale and every time at or after the epoch: the window of the time contains it
and is the window of all its times exactly under `Partitions`. -/
theorem startsWindow_iff (haccepted : params.Accepted)
    (hkind : params.intervalKind.subsecondScale ≠ none ∨ params.intervalKind.EpochAligned)
    (ht : 0 ≤ t) (htop : t < 9223372036854775808) :
    params.StartsWindow t ↔ params.Partitions t := by
  rw [TumbleWindowParams.Partitions]
  cases hsub : params.intervalKind.subsecondScale with
  | none =>
    have hkind := hkind.resolve_left (fun hne => hne hsub)
    by_cases hcolumn : t < timeTop params.timeScale
    · exact startsWindow_seconds_iff hkind haccepted.interval_lt ht hcolumn
    · -- A window ends at a time of the column.
      have hend : ∀ start, ¬t < params.windowEnd start := by
        intro start hlt
        have hmem := (windowEnd_seconds_mem hkind start).2
        rw [lo_add_card] at hmem
        omega
      exact iff_of_false (fun h => hend _ h.2.1) (fun h => hend _ h.1)
  | some intervalScale =>
    have h := haccepted.subsecond hsub
    by_cases hscale : params.timeScale = 0
    · simp only [if_pos hscale]
      exact startsWindow_wholeSeconds_iff h hsub hscale ht
    · have hstart : params.windowStart = fun t =>
          toStartOfSubsecond64 intervalScale t params.windowInterval params.timeScale := by
        funext t
        rw [windowStart, toStartTime, hsub]
        simp only [if_neg hscale]
      have hle := h.ticks_le
      have hiff := block_partition_iff h.ticks_pos (by omega) blockTicks_pos
        (Int.pow_pos (by decide)) (fun t' => le_toStartOfSubsecond64 h)
        (fun t' => toStartOfSubsecond64_eq h) (fun t' => toStartOfSubsecond64_overflow h)
        ht htop
      simp only [TumbleWindowParams.StartsWindow, hstart, if_neg hscale,
        windowEnd_subsecond hsub hscale]
      exact hiff

/-- Windows of three milliseconds on a column with nanoseconds. -/
def threeMilliseconds : TumbleWindowParams where
  timeScale := 9
  timeZone := ⟨fun _ _ _ => 0, fun _ _ _ => 0⟩
  windowInterval := 3
  intervalKind := .millisecond
  window_pos := by decide

/-- The constructor accepts them. -/
theorem threeMilliseconds_accepted : threeMilliseconds.Accepted where
  interval_lt := by decide
  scale_le := by decide
  window_scale_le := by decide
  hour := by
    decide

/-- The statement at the first window of three milliseconds. -/
theorem startsWindow_iff_first :
    threeMilliseconds.StartsWindow 1000000 ↔ threeMilliseconds.Partitions 1000000 :=
  startsWindow_iff threeMilliseconds_accepted (.inl (by decide)) (by decide) (by decide)

/-- The second window of three milliseconds is not one of a partition: it ends after six
milliseconds, and times after three point six are rounded to that point. -/
theorem threeMilliseconds_overlap :
    threeMilliseconds.Accepted ∧ threeMilliseconds.windowStart 3000000 = 3000000 ∧
      threeMilliseconds.windowEnd 3000000 = 6000000 ∧
      threeMilliseconds.windowStart 3700000 = 3600000 ∧
      ¬threeMilliseconds.StartsWindow 3000000 := by
  have hstart : threeMilliseconds.windowStart 3000000 = 3000000 := by decide
  have hend : threeMilliseconds.windowEnd 3000000 = 6000000 := by decide
  have hother : threeMilliseconds.windowStart 3700000 = 3600000 := by decide
  refine ⟨threeMilliseconds_accepted, hstart, hend, hother, ?_⟩
  rintro ⟨-, -, hsame⟩
  have := hsame 3700000 (by decide) (by decide)
  exact absurd this (by decide)

end Proton.Streaming
