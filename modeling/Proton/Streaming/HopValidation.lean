import Proton.Streaming.HopWindow

/-!
# Validation of Hop Windows

The constructor of `HopWindowParams` checks the intervals of `hop` against the scale of the
event time column. Aggregation then works in buckets of the greatest common divisor of slide and
window, and moves times by all three intervals with `addTime`, which divides by a power of ten
when the interval's unit is finer than a tick of the column.

The check covers the slide only. `tumble` makes the same check of its window, but `hop` accepts a
window that is no whole number of ticks, and then the bucket is none either.

## Main results

* `addTime_of_ticks`: `addTime` is exact on intervals of whole ticks.
* `hopSound_iff`: accepted intervals are moved by exactly if and only if the scale of the window
  does not exceed that of the column.
-/

namespace Proton.Streaming

open HopWindowParams

/-! ### The constructor -/

/-- Why the constructor throws. -/
inductive HopError
  /-- `Invalid interval value`: it must be a positive integer. -/
  | notPositive (interval : ℤ)
  /-- The units of slide and window differ. -/
  | kindsDiffer
  /-- The slide is longer than the window. -/
  | slideTooLong
  /-- The slide needs more digits than the column has. -/
  | slideScale (slideScale timeScale : ℕ)
  /-- An hour is no whole number of slides. -/
  | slidesPerHour
  deriving DecidableEq, Repr

/-- `HopWindowParams::HopWindowParams`, after its arguments are parsed. -/
def HopWindowParams.create (column : WindowParams) (slide window : WindowInterval) :
    Except HopError HopWindowParams :=
  if hslide : 0 < slide.interval then
    if 0 < window.interval then
      if slide.unit ≠ window.unit then .error .kindsDiffer
      else if hle : slide.interval ≤ window.interval then
        if getAutoScaleByInterval slide.interval slide.unit > column.timeScale then
          .error (.slideScale (getAutoScaleByInterval slide.interval slide.unit) column.timeScale)
        else if slide.unit.subsecondScale.isSome ∧
            3600 * 10 ^ slide.unit.decimals % slide.interval ≠ 0 then
          .error .slidesPerHour
        else
          .ok ⟨column, window.interval, slide.interval, slide.unit, hslide, hle⟩
      else .error .slideTooLong
    else .error (.notPositive window.interval)
  else .error (.notPositive slide.interval)

/-- What an accepted slide satisfies. -/
theorem HopWindowParams.create_eq_ok {column : WindowParams} {slide window : WindowInterval}
    {params : HopWindowParams} (h : create column slide window = .ok params) :
    params.intervalKind = slide.unit ∧
      getAutoScaleByInterval params.slideInterval params.intervalKind ≤ params.timeScale ∧
      (params.intervalKind.subsecondScale.isSome →
        params.slideInterval ∣ 3600 * 10 ^ params.intervalKind.decimals) := by
  rw [create] at h
  split_ifs at h with hslide hwindow hkinds hle hscale hhour
  obtain rfl := Except.ok.inj h
  refine ⟨rfl, not_lt.1 hscale, fun hsome => Int.dvd_of_emod_eq_zero ?_⟩
  by_contra hne
  exact hhour ⟨hsome, hne⟩

/-! ### Moving by whole ticks -/

/-- The kinds up to the second. -/
def IntervalKind.UpToSecond (kind : IntervalKind) : Prop :=
  kind = .nanosecond ∨ kind = .microsecond ∨ kind = .millisecond ∨ kind = .second

/-- An interval of `ticks` ticks of the column: units and ticks are compared in units of the
finer of both. -/
def IsTicks (kind : IntervalKind) (timeScale : ℕ) (numUnits ticks : ℤ) : Prop :=
  numUnits * 10 ^ timeScale = ticks * 10 ^ kind.decimals

variable {lut : DateLUT} {kind : IntervalKind} {timeScale : ℕ} {numUnits ticks t : ℤ}

/-- An interval is a whole number of ticks when it is a multiple of the units in a tick. -/
theorem exists_isTicks_iff :
    (∃ ticks, IsTicks kind timeScale numUnits ticks) ↔
      (10 : ℤ) ^ (kind.decimals - timeScale) ∣ numUnits := by
  have hpos (n : ℕ) : (10 : ℤ) ^ n ≠ 0 := pow_ne_zero n (by decide)
  rcases le_total kind.decimals timeScale with hle | hle
  · obtain ⟨d, hd⟩ := Nat.exists_eq_add_of_le hle
    refine iff_of_true ⟨numUnits * 10 ^ d, ?_⟩ ?_
    · rw [IsTicks, hd]
      ring
    · rw [Nat.sub_eq_zero_of_le hle]
      exact one_dvd _
  · obtain ⟨d, hd⟩ := Nat.exists_eq_add_of_le hle
    have hsub : kind.decimals - timeScale = d := by omega
    rw [hsub]
    constructor
    · rintro ⟨ticks, hticks⟩
      refine ⟨ticks, mul_right_cancel₀ (hpos timeScale) ?_⟩
      rw [hticks, hd]
      ring
    · rintro ⟨ticks, rfl⟩
      refine ⟨ticks, ?_⟩
      rw [IsTicks, hd]
      ring

/-- **Moving by whole ticks** adds them, in the column's type. -/
theorem addTime_of_ticks (hkind : kind.UpToSecond) (h : IsTicks kind timeScale numUnits ticks) :
    addTime lut t kind numUnits timeScale = (timeWord timeScale).wrap (t + ticks) := by
  have hpos (n : ℕ) : (10 : ℤ) ^ n ≠ 0 := pow_ne_zero n (by decide)
  have hdate : kind.isDate = false := by
    rcases hkind with rfl | rfl | rfl | rfl <;> rfl
  have hsecond : kind.seconds = 1 := by
    rcases hkind with rfl | rfl | rfl | rfl <;> rfl
  simp only [addTime, addTime32, addTime64, timeWord, hdate, Bool.false_eq_true, if_false,
    hsecond, one_mul, mul_one]
  rw [IsTicks, IntervalKind.decimals] at h
  cases hsub : kind.subsecondScale with
  | none =>
    rw [hsub] at h
    simp only [Option.getD_none, pow_zero, mul_one] at h
    split_ifs with hscale
    · rw [hscale, pow_zero, mul_one] at h
      rw [h]
      exact Word.wrap_wrap_add t ticks
    · rw [h]
  | some intervalScale =>
    rw [hsub] at h
    simp only [Option.getD_some] at h
    dsimp only
    split_ifs with hscale hle
    · rw [hscale, pow_zero, mul_one] at h
      simp only [h, Int.mul_tdiv_cancel _ (hpos intervalScale), Word.wrap_wrap_add]
    · obtain ⟨d, rfl⟩ := Nat.exists_eq_add_of_le hle
      have hticks : numUnits * 10 ^ d = ticks := by
        refine mul_right_cancel₀ (hpos intervalScale) ?_
        rw [← h]
        ring
      simp only [Nat.add_sub_cancel_left, hticks]
    · obtain ⟨d, rfl⟩ := Nat.exists_eq_add_of_le (le_of_not_ge hle)
      have hticks : numUnits = ticks * 10 ^ d := by
        refine mul_right_cancel₀ (hpos timeScale) ?_
        rw [h]
        ring
      simp only [Nat.add_sub_cancel_left, hticks, Int.mul_tdiv_cancel _ (hpos d)]

/-! ### Soundness -/

/-- Adding `numUnits` to a multiple of the bucket that stays in the column's type moves it by
exactly that interval. Times and intervals are compared in the finer of both units. -/
def MovesExactly (params : HopWindowParams) (numUnits : ℤ) : Prop :=
  ∀ t, (timeWord params.timeScale).Mem t →
    params.gcdInterval * 10 ^ params.timeScale ∣ t * 10 ^ params.intervalKind.decimals →
    (timeWord params.timeScale).lo * 10 ^ params.intervalKind.decimals ≤
      t * 10 ^ params.intervalKind.decimals + numUnits * 10 ^ params.timeScale →
    t * 10 ^ params.intervalKind.decimals + numUnits * 10 ^ params.timeScale <
      ((timeWord params.timeScale).lo + (timeWord params.timeScale).card) *
        10 ^ params.intervalKind.decimals →
    addTime params.timeZone t params.intervalKind numUnits params.timeScale *
      10 ^ params.intervalKind.decimals =
        t * 10 ^ params.intervalKind.decimals + numUnits * 10 ^ params.timeScale

/-- What aggregation relies on. -/
structure HopSound (params : HopWindowParams) : Prop where
  /-- A bucket is a tick at least. -/
  one_tick : 10 ^ params.intervalKind.decimals ≤ params.gcdInterval * 10 ^ params.timeScale
  /-- Times move by buckets. -/
  gcd : MovesExactly params params.gcdInterval
  /-- Times move by slides. -/
  slide : MovesExactly params params.slideInterval
  /-- Times move by windows. -/
  window : MovesExactly params params.windowInterval
  /-- A window is made of buckets. -/
  buckets : ∀ t, (timeWord params.timeScale).Mem t →
    (timeWord params.timeScale).lo * 10 ^ params.intervalKind.decimals ≤
      t * 10 ^ params.intervalKind.decimals + params.windowInterval * 10 ^ params.timeScale →
    t * 10 ^ params.intervalKind.decimals + params.windowInterval * 10 ^ params.timeScale <
      ((timeWord params.timeScale).lo + (timeWord params.timeScale).card) *
        10 ^ params.intervalKind.decimals →
    (fun t => addTime params.timeZone t params.intervalKind params.gcdInterval
      params.timeScale)^[(params.windowInterval / params.gcdInterval).toNat] t =
      addTime params.timeZone t params.intervalKind params.windowInterval params.timeScale

section Sound

variable {params : HopWindowParams}

section

variable (hkind : params.intervalKind.UpToSecond)
  (h : IsTicks params.intervalKind params.timeScale numUnits ticks)
include hkind h

/-- Intervals of whole ticks move exactly. -/
theorem movesExactly_of_ticks : MovesExactly params numUnits := by
  intro t _ _ hlow hhigh
  have hpos : (0 : ℤ) < 10 ^ params.intervalKind.decimals := Int.pow_pos (by decide)
  rw [h, ← add_mul] at hlow hhigh ⊢
  rw [addTime_of_ticks hkind h, Word.wrap_of_mem ⟨le_of_mul_le_mul_right hlow hpos,
    lt_of_mul_lt_mul_right hhigh (le_of_lt hpos)⟩]

/-- Moving by buckets again and again, as long as the type is not left. -/
theorem iterate_addTime (hticks : 0 ≤ ticks) (ht : (timeWord params.timeScale).Mem t) (n : ℕ)
    (hend : (timeWord params.timeScale).Mem (t + n * ticks)) :
    (fun t => addTime params.timeZone t params.intervalKind numUnits params.timeScale)^[n] t =
      t + n * ticks := by
  induction n with
  | zero => simp
  | succ n ih =>
    have hexpand : ((n + 1 : ℕ) : ℤ) * ticks = n * ticks + ticks := by push_cast; ring
    have hn : 0 ≤ (n : ℤ) * ticks := Int.mul_nonneg (by omega) hticks
    obtain ⟨hlow, hhigh⟩ := ht
    obtain ⟨-, hendHigh⟩ := hend
    have hmid : (timeWord params.timeScale).Mem (t + n * ticks) := ⟨by omega, by omega⟩
    rw [Function.iterate_succ_apply', ih hmid, addTime_of_ticks hkind h,
      Word.wrap_of_mem ⟨by omega, by omega⟩]
    omega

end

/-- A bucket has a positive length. -/
theorem gcdInterval_pos (params : HopWindowParams) : 0 < params.gcdInterval := by
  have hne : params.slideInterval ≠ 0 := ne_of_gt params.slide_pos
  rw [gcdInterval]
  exact_mod_cast Int.gcd_pos_of_ne_zero_left params.windowInterval hne

/-- Buckets that divide the window make it up. -/
theorem hopSound_of_ticks (hkind : params.intervalKind.UpToSecond)
    (hgcd : IsTicks params.intervalKind params.timeScale params.gcdInterval ticks) :
    HopSound params := by
  have hpos : (0 : ℤ) < 10 ^ params.intervalKind.decimals := Int.pow_pos (by decide)
  have hscale : (0 : ℤ) < 10 ^ params.timeScale := Int.pow_pos (by decide)
  have hgcdPos := gcdInterval_pos params
  have hticks : 0 < ticks := by
    refine pos_of_mul_pos_left (b := 10 ^ params.intervalKind.decimals) ?_ (le_of_lt hpos)
    rw [← hgcd]
    exact Int.mul_pos hgcdPos hscale
  have hmultiple {n : ℤ} (hdvd : params.gcdInterval ∣ n) :
      IsTicks params.intervalKind params.timeScale n (n / params.gcdInterval * ticks) := by
    rw [IsTicks, mul_assoc, ← hgcd, ← mul_assoc, Int.ediv_mul_cancel hdvd]
  have hwindow := hmultiple (show params.gcdInterval ∣ params.windowInterval from
    Int.gcd_dvd_right ..)
  refine ⟨?_, movesExactly_of_ticks hkind hgcd,
    movesExactly_of_ticks hkind (hmultiple (Int.gcd_dvd_left ..)),
    movesExactly_of_ticks hkind hwindow, fun t ht hlow hhigh => ?_⟩
  · rw [hgcd]
    exact le_mul_of_one_le_left (le_of_lt hpos) hticks
  · have hquot : 0 ≤ params.windowInterval / params.gcdInterval :=
      Int.ediv_nonneg (le_trans (le_of_lt params.slide_pos) params.slide_le) (le_of_lt hgcdPos)
    rw [hwindow, ← add_mul] at hlow hhigh
    have hend : (timeWord params.timeScale).Mem
        (t + params.windowInterval / params.gcdInterval * ticks) :=
      ⟨le_of_mul_le_mul_right hlow hpos, lt_of_mul_lt_mul_right hhigh (le_of_lt hpos)⟩
    rw [iterate_addTime hkind hgcd (le_of_lt hticks) ht, Int.toNat_of_nonneg hquot,
      addTime_of_ticks hkind hwindow, Word.wrap_of_mem hend]
    rwa [Int.toNat_of_nonneg hquot]

/-- Buckets that move exactly are whole numbers of ticks. -/
theorem exists_isTicks_of_movesExactly (hkind : params.intervalKind.UpToSecond)
    (hhour : params.intervalKind.subsecondScale.isSome →
      params.slideInterval ∣ 3600 * 10 ^ params.intervalKind.decimals)
    (h : MovesExactly params params.gcdInterval) :
    ∃ ticks, IsTicks params.intervalKind params.timeScale params.gcdInterval ticks := by
  have hpos : (0 : ℤ) < 10 ^ params.intervalKind.decimals := Int.pow_pos (by decide)
  have hscalePos : (0 : ℤ) < 10 ^ params.timeScale := Int.pow_pos (by decide)
  rcases le_total params.intervalKind.decimals params.timeScale with hle | hlt
  · rw [exists_isTicks_iff, Nat.sub_eq_zero_of_le hle]
    exact one_dvd _
  by_cases hsub : params.intervalKind.subsecondScale.isSome
  · -- the epoch is a multiple of every bucket, and a bucket later is in every column
    have hsmall : params.gcdInterval ≤ 3600 * 10 ^ params.intervalKind.decimals :=
      Int.le_of_dvd (Int.mul_pos (by decide) (Int.pow_pos (by decide)))
        (Int.dvd_trans (Int.gcd_dvd_left ..) (hhour hsub))
    have hnine : params.intervalKind.decimals ≤ 9 := by
      rcases hkind with hk | hk | hk | hk <;> rw [hk] <;> decide
    have hlow : 0 < params.gcdInterval * 10 ^ params.timeScale :=
      Int.mul_pos (gcdInterval_pos params) hscalePos
    have hhigh : params.gcdInterval * 10 ^ params.timeScale <
        ((timeWord params.timeScale).lo + (timeWord params.timeScale).card) *
          10 ^ params.intervalKind.decimals := by
      rw [timeWord]
      split
      next hzero =>
        rw [hzero, pow_zero]
        simp only [Word.uint32]
        omega
      next =>
        have hscale : (10 : ℤ) ^ params.timeScale ≤ 10 ^ 9 :=
          pow_le_pow_right₀ (by decide) (by omega)
        have hbound := Int.mul_le_mul hsmall hscale (le_of_lt hscalePos) (by omega)
        simp only [Word.int64]
        omega
    have hzero : (timeWord params.timeScale).Mem 0 := by
      rw [timeWord]
      split <;> decide
    have hlo := Int.mul_le_mul_of_nonneg_right hzero.1 (le_of_lt hpos)
    have hmove := h 0 hzero (by rw [zero_mul]; exact dvd_zero _) (by omega)
      (by rw [zero_mul, zero_add]; exact hhigh)
    rw [zero_mul, zero_add] at hmove
    exact ⟨_, hmove.symm⟩
  · have hdec : params.intervalKind.decimals = 0 := by
      rw [IntervalKind.decimals, Option.not_isSome_iff_eq_none.1 hsub]
      rfl
    rw [exists_isTicks_iff, hdec, Nat.zero_sub]
    exact one_dvd _

/-- **Validation of hop windows.** For intervals up to the second that the constructor accepts,
times move by exactly one bucket, slide or window, and a window is made of buckets of a tick at
least, if and only if the scale of the window does not exceed the scale of the column. -/
theorem hopSound_iff {column : WindowParams} {slide window : WindowInterval}
    (hkind : slide.unit.UpToSecond) (hok : create column slide window = .ok params) :
    HopSound params ↔
      getAutoScaleByInterval params.windowInterval params.intervalKind ≤ params.timeScale := by
  obtain ⟨hunit, hscale, hhour⟩ := create_eq_ok hok
  rw [← hunit] at hkind
  rw [getAutoScaleByInterval_le_iff] at hscale ⊢
  constructor
  · intro hsound
    have hgcd := exists_isTicks_iff.1 (exists_isTicks_of_movesExactly hkind hhour hsound.gcd)
    exact Int.dvd_trans hgcd (Int.gcd_dvd_right ..)
  · intro hwindow
    obtain ⟨ticks, hticks⟩ := exists_isTicks_iff.2 (Int.dvd_coe_gcd hscale hwindow)
    exact hopSound_of_ticks hkind hticks

end Sound

/-- A column of the scale, whose time zone is not looked at. -/
def columnOfScale (timeScale : ℕ) : WindowParams := ⟨timeScale, ⟨fun _ t _ => t, fun _ t _ => t⟩⟩

/-- Windows of 50 ms that slide by 20 ms, on a column of milliseconds. -/
theorem hopSound_milliseconds : ∃ params,
    create (columnOfScale 3) ⟨20, .millisecond⟩ ⟨50, .millisecond⟩ = .ok params ∧
      HopSound params := by
  have hok : create (columnOfScale 3) ⟨20, .millisecond⟩ ⟨50, .millisecond⟩ =
      .ok ⟨columnOfScale 3, 50, 20, .millisecond, by decide, by decide⟩ := rfl
  exact ⟨_, hok, (hopSound_iff (.inr (.inr (.inl rfl))) hok).2 (by decide)⟩

/-- Windows of 1500 ms that slide by 1000 ms are accepted for a column of whole seconds, and a
time moves by one second when a window is added. -/
theorem hop_accepts_half_second : ∃ params,
    create (columnOfScale 0) ⟨1000, .millisecond⟩ ⟨1500, .millisecond⟩ =
      .ok params ∧
    addTime params.timeZone 0 params.intervalKind params.windowInterval params.timeScale = 1 ∧
    addTime params.timeZone 0 params.intervalKind params.gcdInterval params.timeScale = 0 ∧
    ¬ HopSound params := by
  refine ⟨_, rfl, by decide, by decide, fun hsound => ?_⟩
  exact absurd hsound.one_tick (by decide)

end Proton.Streaming
