import Mathlib.Algebra.Order.Ring.Int
import Mathlib.Tactic.Ring
import Proton.Lib.MachineWord

/-!
# Time Arithmetic of the Streaming Windows

The rounding of an event time to the start of an interval (`toStartTime`) and the shift of
an event time by a number of intervals (`addTime`), from `WindowCommon.cpp`,
`TimeTransformHelper.h` and `DateLUTImpl.h`.

An event time is a count of ticks of `10 ^ -timeScale` seconds since the epoch. With scale
zero the source converts to `UInt32` and computes there; with a positive scale it stays in
`Int64`. Conversions are kept (`toUInt32`, `toInt64`), so that sums wrap where they wrap in
the source, and the division of a negative tick count rounds towards zero as it does there.

For the interval kinds up to minute everything is computed here, in the branch taken by time
zones whose offset is a whole number of hours; the lookups of the date tables for the longer
kinds are a parameter (`DateLUT`).

## Main results

* `addTime_eq`: a shift by seconds, minutes or hours is the exact sum, wrapped once.
* `toStartTime_eq`: rounding gives the exact multiple of the interval at or below the
  event time's second, for every time at or after the epoch, and before it for intervals of
  whole minutes. Before the epoch the other second intervals divide an unsigned number, and
  their results lie off that grid.
-/

open Int Word

namespace Proton.Streaming

/-! ### Interval kinds and conversions -/

/-- The interval kinds (`IntervalKind::Kind`). -/
inductive IntervalKind where
  | nanosecond | microsecond | millisecond
  | second | minute | hour
  | day | week | month | quarter | year
  deriving DecidableEq, Repr

/-- Conversion to `Int64`. -/
abbrev toInt64 (x : ℤ) : ℤ := int64.wrap x

/-- Conversion to `UInt64`. -/
abbrev toUInt64 (x : ℤ) : ℤ := uint64.wrap x

/-- Conversion to `UInt32`. -/
abbrev toUInt32 (x : ℤ) : ℤ := uint32.wrap x

/-- The type an event time of the scale is computed in. -/
def timeWord (timeScale : ℕ) : Word := if timeScale = 0 then uint32 else int64

/-- The lookups in the tables of a time zone: rounding to the interval kinds longer than a
minute, and shifting by the calendar kinds. -/
structure DateLUT where
  /-- The start of the interval of the kind and the number of units that contains a time. -/
  toStartOfInterval : IntervalKind → ℤ → ℤ → ℤ
  /-- A time in seconds shifted by a number of days, weeks, months, quarters or years. -/
  addDate : IntervalKind → ℤ → ℤ → ℤ

/-! ### Rounding down -/

/-- Rounding down to a multiple of an unsigned 64-bit divisor. Before the epoch the
difference is converted to unsigned before it is divided. -/
def roundDown (x divisor : ℤ) : ℤ :=
  if 0 ≤ x then x / divisor * divisor
  else toInt64 (toUInt64 (x + 1 - divisor) / divisor * divisor)

/-- `toStartOfMinuteInterval`, for a time of the type `w`. The divisor is signed here. -/
def toStartOfMinuteInterval (w : Word) (t minutes : ℤ) : ℤ :=
  let divisor := toInt64 (60 * minutes)
  if 0 ≤ t then w.wrap (t.tdiv divisor * divisor)
  else w.wrap ((toInt64 (t + 1 - divisor)).tdiv divisor * divisor)

/-- `toStartOfSecondInterval`, for a time of the type `w`. -/
def toStartOfSecondInterval (w : Word) (t seconds : ℤ) : ℤ :=
  if seconds = 1 then t
  else if seconds % 60 = 0 then toStartOfMinuteInterval w t (seconds / 60)
  else w.wrap (roundDown t seconds)

variable (lut : DateLUT)

/-- `ToStartOfTransform::execute` on a time in seconds. -/
def toStartOfSeconds (w : Word) (kind : IntervalKind) (t numUnits : ℤ) : ℤ :=
  match kind with
  | .second => toStartOfSecondInterval w t numUnits
  | .minute => toStartOfMinuteInterval w t numUnits
  | kind => w.wrap (lut.toStartOfInterval kind t numUnits)

/-- The decimal scale of the sub-second kinds. -/
def IntervalKind.subsecondScale : IntervalKind → Option ℕ
  | .millisecond => some 3
  | .microsecond => some 6
  | .nanosecond => some 9
  | _ => none

/-- `toStartOfHour`; the divisor is signed. -/
def toStartOfHour (t : ℤ) : ℤ :=
  if 0 ≤ t then t / 3600 * 3600 else (t + 1 - 3600).tdiv 3600 * 3600

/-- `ToStartOfTransform::execute` of a sub-second kind on a time in whole seconds. -/
def toStartOfSubsecond (intervalScale : ℕ) (t delta : ℤ) : ℤ :=
  let intervalScaleMultiplier := 10 ^ intervalScale
  if intervalScaleMultiplier % delta = 0 then t
  else
    let startOfHour := toStartOfHour t
    let startIntervalOfHour :=
      (roundDown (toInt64 ((t - startOfHour) * intervalScaleMultiplier)) delta).tdiv
        intervalScaleMultiplier
    toUInt32 (startOfHour + startIntervalOfHour)

/-- `ToStartOfTransform::execute` of a sub-second kind on a time with a positive scale. -/
def toStartOfSubsecond64 (intervalScale : ℕ) (t delta : ℤ) (scale : ℕ) : ℤ :=
  let intervalScaleMultiplier := 10 ^ intervalScale
  if intervalScaleMultiplier % delta = 0 then
    if intervalScale ≤ scale then
      roundDown t (toUInt64 (delta * 10 ^ (scale - intervalScale)))
    else
      let multiplier := 10 ^ (intervalScale - scale)
      (roundDown (toInt64 (t * multiplier)) delta).tdiv multiplier
  else
    -- The hour is taken of a time in interval units, whatever the scale of the column is.
    let startOfHour := toInt64 (toStartOfHour (t.tdiv intervalScaleMultiplier) *
      intervalScaleMultiplier)
    if intervalScale ≤ scale then
      toInt64 (startOfHour +
        roundDown (toInt64 (t - startOfHour)) (toUInt64 (delta * 10 ^ (scale - intervalScale))))
    else
      let multiplier := 10 ^ (intervalScale - scale)
      toInt64 (startOfHour +
        (roundDown (toInt64 (toInt64 (t - startOfHour) * multiplier)) delta).tdiv multiplier)

/-- `toStartTime`: the start of the interval that contains the event time `dt`. -/
def toStartTime (dt : ℤ) (kind : IntervalKind) (numUnits : ℤ) (timeScale : ℕ) : ℤ :=
  match kind.subsecondScale with
  | some intervalScale =>
    if timeScale = 0 then toStartOfSubsecond intervalScale (toUInt32 dt) numUnits
    else toStartOfSubsecond64 intervalScale dt numUnits timeScale
  | none =>
    if timeScale = 0 then toStartOfSeconds lut uint32 kind (toUInt32 dt) numUnits
    else
      let scaleMultiplier := 10 ^ timeScale
      toInt64 (toStartOfSeconds lut int64 kind (dt.tdiv scaleMultiplier) numUnits *
        scaleMultiplier)

/-! ### Shifting -/

/-- The seconds of one unit of the kinds `AddTime` adds directly. -/
def IntervalKind.seconds : IntervalKind → ℤ
  | .minute => 60
  | .hour => 3600
  | _ => 1

/-- The kinds shifted in the calendar. -/
def IntervalKind.isDate : IntervalKind → Bool
  | .day | .week | .month | .quarter | .year => true
  | _ => false

/-- `AddTime::execute` on a time in whole seconds. -/
def addTime32 (timeSec : ℤ) (kind : IntervalKind) (numUnits : ℤ) : ℤ :=
  if kind.isDate then toUInt32 (lut.addDate kind timeSec numUnits)
  else
    match kind.subsecondScale with
    | some intervalScale => toUInt32 (timeSec + numUnits.tdiv (10 ^ intervalScale))
    | none => toUInt32 (timeSec + kind.seconds * numUnits)

/-- `AddTime::execute` on a time with a scale. -/
def addTime64 (t : ℤ) (kind : IntervalKind) (numUnits : ℤ) (scale : ℕ) : ℤ :=
  if kind.isDate then
    let scaleMultiplier := 10 ^ scale
    toInt64 (lut.addDate kind (t.tdiv scaleMultiplier) numUnits * scaleMultiplier +
      t.tmod scaleMultiplier)
  else
    match kind.subsecondScale with
    | some intervalScale =>
      if intervalScale ≤ scale then toInt64 (t + numUnits * 10 ^ (scale - intervalScale))
      else toInt64 (t + numUnits.tdiv (10 ^ (intervalScale - scale)))
    | none => toInt64 (t + numUnits * kind.seconds * 10 ^ scale)

/-- `addTime`: the event time `dt` shifted by `numUnits` intervals. -/
def addTime (dt : ℤ) (kind : IntervalKind) (numUnits : ℤ) (timeScale : ℕ) : ℤ :=
  if timeScale = 0 then addTime32 lut (toUInt32 dt) kind numUnits
  else addTime64 lut dt kind numUnits timeScale

/-! ### Exact values -/

variable (kind : IntervalKind)

/-- The length of `numUnits` intervals in ticks. -/
def IntervalKind.ticks (numUnits : ℤ) (timeScale : ℕ) : ℤ :=
  numUnits * kind.seconds * 10 ^ timeScale

/-- The kinds whose intervals are counted from the epoch: second and minute. -/
def IntervalKind.EpochAligned : Prop := kind = .second ∨ kind = .minute
deriving Decidable

/-- The intervals for which the source rounds a time before the epoch with signed
division: whole minutes, and single seconds, which need no rounding. -/
def IntervalKind.WholeMinutes (numUnits : ℤ) : Prop :=
  kind = .minute ∨ numUnits % 60 = 0 ∨ numUnits = 1
deriving Decidable

/-- The second of an event time, as the source computes it. -/
def secondOf (dt : ℤ) (timeScale : ℕ) : ℤ :=
  if timeScale = 0 then toUInt32 dt else dt.tdiv (10 ^ timeScale)

/-- The event times for which rounding to the interval stays in signed arithmetic: those
at or after the epoch, and before it those of whole-minute intervals whose previous
interval starts at a representable time. -/
def RoundsDown (numUnits : ℤ) (timeScale : ℕ) (dt : ℤ) : Prop :=
  0 ≤ secondOf dt timeScale ∨
    kind.WholeMinutes numUnits ∧ int64.lo ≤ dt - kind.ticks numUnits timeScale
deriving Decidable

variable {lut : DateLUT} {kind : IntervalKind} {dt numUnits : ℤ} {timeScale : ℕ}

/-- Truncated division of a number shifted down by the divisor is floor division, for
negative numbers. -/
theorem tdiv_add_one_sub {t d : ℤ} (hd : 0 < d) (ht : t < 0) : (t + 1 - d).tdiv d = t / d := by
  have hneg : t + 1 - d = -(d - 1 - t) := by omega
  rw [hneg, Int.neg_tdiv, Int.tdiv_eq_ediv_of_nonneg (by omega)]
  have hdecomp := mul_ediv_add_emod t d
  have hrem := emod_nonneg t (ne_of_gt hd)
  have hlt := emod_lt_of_pos t hd
  have hsum : d - 1 - t = (d - 1 - t % d) + d * (-(t / d)) := by
    rw [mul_neg]
    omega
  rw [hsum, add_mul_ediv_left _ _ (ne_of_gt hd), ediv_eq_zero_of_lt (by omega) (by omega)]
  omega

/-- A floor multiple lies at or below the number, by less than the divisor. -/
theorem floor_bounds {t d : ℤ} (hd : 0 < d) : t / d * d ≤ t ∧ t < t / d * d + d := by
  have hdecomp := mul_ediv_add_emod t d
  have hrem := emod_nonneg t (ne_of_gt hd)
  have hlt := emod_lt_of_pos t hd
  rw [mul_comm] at hdecomp
  omega

/-- A floor multiple of a non-negative number is non-negative. -/
theorem floor_nonneg {t d : ℤ} (hd : 0 < d) (ht : 0 ≤ t) : 0 ≤ t / d * d :=
  mul_nonneg (ediv_nonneg ht (le_of_lt hd)) (le_of_lt hd)

/-- A value of `Int64` is unchanged by the conversion. -/
theorem toInt64_of_bounds {x : ℤ} (hlow : -9223372036854775808 ≤ x)
    (hhigh : x < 9223372036854775808) : toInt64 x = x := by
  refine wrap_of_mem ⟨hlow, ?_⟩
  simp only [int64]
  omega

/-- Rounding to whole minutes is exact when the result and the difference it divides fit. -/
theorem toStartOfMinuteInterval_eq {w : Word} {t minutes : ℤ} (hpos : 0 < minutes)
    (hfit : 60 * minutes < 2 ^ 63) (hw : w.Mem (t / (60 * minutes) * (60 * minutes)))
    (hlow : 0 ≤ t ∨ int64.lo ≤ t + 1 - 60 * minutes) :
    toStartOfMinuteInterval w t minutes = t / (60 * minutes) * (60 * minutes) := by
  have hdivisor : toInt64 (60 * minutes) = 60 * minutes := toInt64_of_bounds (by omega) (by omega)
  simp only [toStartOfMinuteInterval, hdivisor]
  by_cases ht : 0 ≤ t
  · rw [if_pos ht, tdiv_eq_ediv_of_nonneg ht, wrap_of_mem hw]
  · have hdiff : toInt64 (t + 1 - 60 * minutes) = t + 1 - 60 * minutes := by
      refine wrap_of_mem ⟨by omega, ?_⟩
      simp only [int64]
      omega
    rw [if_neg ht, hdiff, tdiv_add_one_sub (by omega) (by omega), wrap_of_mem hw]

/-- Rounding to seconds is exact at or after the epoch, and before it for whole minutes and
single seconds. -/
theorem toStartOfSecondInterval_eq {w : Word} {t seconds : ℤ} (hpos : 0 < seconds)
    (hfit : seconds < 2 ^ 63) (hw : w.Mem (t / seconds * seconds))
    (hlow : 0 ≤ t ∨ (seconds % 60 = 0 ∨ seconds = 1) ∧ int64.lo ≤ t + 1 - seconds) :
    toStartOfSecondInterval w t seconds = t / seconds * seconds := by
  simp only [toStartOfSecondInterval]
  by_cases hone : seconds = 1
  · rw [if_pos hone, hone, ediv_one, mul_one]
  rw [if_neg hone]
  by_cases hmod : seconds % 60 = 0
  · have hsixty : 60 * (seconds / 60) = seconds := by omega
    rw [if_pos hmod, toStartOfMinuteInterval_eq (by omega) (by omega) (by rwa [hsixty])
      (by rw [hsixty]; omega), hsixty]
  · have ht : 0 ≤ t := by omega
    rw [if_neg hmod, roundDown, if_pos ht, wrap_of_mem hw]

/-- The second of a time at or after the epoch does not exceed the time; before the epoch
it is not below the time. -/
theorem tdiv_mul_bounds (dt : ℤ) {d : ℤ} (hd : 0 < d) :
    (0 ≤ dt.tdiv d → dt.tdiv d * d ≤ max dt 0) ∧ (dt.tdiv d < 0 → dt ≤ dt.tdiv d * d) := by
  have hdecomp := mul_tdiv_add_tmod dt d
  rw [mul_comm] at hdecomp
  constructor
  · intro hquot
    by_cases hdt : 0 ≤ dt
    · have := tmod_nonneg d hdt
      omega
    · have hzero : dt.tdiv d ≤ 0 := by
        have hneg := Int.tdiv_nonneg (show 0 ≤ -dt by omega) (le_of_lt hd)
        rw [Int.neg_tdiv] at hneg
        omega
      have : dt.tdiv d = 0 := by omega
      rw [this, zero_mul]
      exact le_max_right _ _
  · intro hquot
    have hdt : dt < 0 := by
      by_contra hcon
      exact absurd (Int.tdiv_nonneg (by omega : 0 ≤ dt) (le_of_lt hd)) (by omega)
    have hrem := tmod_nonneg d (show 0 ≤ -dt by omega)
    rw [neg_tmod] at hrem
    omega

/-- Rounding the second of an event time and scaling the result back stays in `Int64`, and
so does the difference that is divided before the epoch. -/
theorem scaled_floor_mem {len mult : ℤ} (hlen : 0 < len) (hmult : 0 < mult)
    (hdt : int64.Mem dt) (hlow : 0 ≤ dt.tdiv mult ∨ int64.lo ≤ dt - len * mult) :
    int64.Mem (dt.tdiv mult / len * len * mult) ∧
      int64.Mem (dt.tdiv mult / len * len) ∧
      (0 ≤ dt.tdiv mult ∨ int64.lo ≤ dt.tdiv mult + 1 - len) := by
  obtain ⟨hafter, hbefore⟩ := tdiv_mul_bounds dt hmult
  obtain ⟨hfloor, hnext⟩ := floor_bounds (t := dt.tdiv mult) hlen
  simp only [Word.Mem, int64] at *
  generalize hq : dt.tdiv mult = q at *
  generalize hr : q / len * len = r at *
  have hscaled : r * mult ≤ q * mult := mul_le_mul_of_nonneg_right hfloor (le_of_lt hmult)
  by_cases hsign : 0 ≤ q
  · have hnonneg : 0 ≤ r := by
      rw [← hr]
      exact floor_nonneg hlen hsign
    have hgrow : r ≤ r * mult := le_mul_of_one_le_right hnonneg hmult
    omega
  · have hneg : q < 0 := by omega
    have hstep : (q + 1 - len) * mult ≤ r * mult :=
      mul_le_mul_of_nonneg_right (by omega) (le_of_lt hmult)
    have hexpand : (q + 1 - len) * mult = q * mult + mult - len * mult := by ring
    have hshrink : (q + 1 - len) * mult ≤ (q + 1 - len) * 1 :=
      Int.mul_le_mul_of_nonpos_left (by omega) hmult
    have hshrink' : r * mult ≤ r * 1 := Int.mul_le_mul_of_nonpos_left (by omega) hmult
    omega

section

variable (hkind : kind.EpochAligned)
include hkind

/-- **Shifting** by seconds or minutes is the exact sum, wrapped once. -/
theorem addTime_eq :
    addTime lut dt kind numUnits timeScale =
      (timeWord timeScale).wrap (dt + kind.ticks numUnits timeScale) := by
  simp only [addTime, addTime32, addTime64, timeWord, IntervalKind.ticks]
  split
  next h =>
    have hcomm : kind.seconds * numUnits = numUnits * kind.seconds * 10 ^ timeScale := by
      rw [h, pow_zero, mul_one, mul_comm]
    rcases hkind with rfl | rfl <;>
      simp only [IntervalKind.isDate, IntervalKind.subsecondScale, Bool.false_eq_true, if_false,
        wrap_wrap_add, hcomm]
  next =>
    rcases hkind with rfl | rfl <;>
      simp only [IntervalKind.isDate, IntervalKind.subsecondScale, Bool.false_eq_true, if_false]

/-- Rounding to an interval of seconds or minutes. -/
theorem toStartTime_of_epochAligned :
    toStartTime lut dt kind numUnits timeScale =
      if timeScale = 0 then toStartOfSeconds lut uint32 kind (toUInt32 dt) numUnits
      else toInt64 (toStartOfSeconds lut int64 kind (dt.tdiv (10 ^ timeScale)) numUnits *
        10 ^ timeScale) := by
  rcases hkind with rfl | rfl <;> rfl

/-- The start of an interval is a value of the type it is computed in. -/
theorem toStartTime_mem :
    (timeWord timeScale).Mem (toStartTime lut dt kind numUnits timeScale) := by
  rw [toStartTime_of_epochAligned hkind, timeWord]
  split
  · rcases hkind with rfl | rfl
    · simp only [toStartOfSeconds, toStartOfSecondInterval, toStartOfMinuteInterval]
      split_ifs <;> exact wrap_mem _
    · simp only [toStartOfSeconds, toStartOfMinuteInterval]
      split_ifs <;> exact wrap_mem _
  · exact wrap_mem _

/-- Rounding a time in seconds to an epoch-aligned interval is exact. -/
theorem toStartOfSeconds_eq {w : Word} {t : ℤ} (hpos : 0 < numUnits)
    (hfit : numUnits * kind.seconds < 2 ^ 63)
    (hw : w.Mem (t / (numUnits * kind.seconds) * (numUnits * kind.seconds)))
    (hlow : 0 ≤ t ∨ kind.WholeMinutes numUnits ∧ int64.lo ≤ t + 1 - numUnits * kind.seconds) :
    toStartOfSeconds lut w kind t numUnits =
      t / (numUnits * kind.seconds) * (numUnits * kind.seconds) := by
  rcases hkind with rfl | rfl
  · simp only [IntervalKind.seconds, mul_one, IntervalKind.WholeMinutes,
      reduceCtorEq, false_or] at *
    exact toStartOfSecondInterval_eq hpos hfit hw hlow
  · have hcomm : numUnits * IntervalKind.seconds .minute = 60 * numUnits := mul_comm _ _
    rw [hcomm] at hfit hw hlow ⊢
    exact toStartOfMinuteInterval_eq hpos hfit hw (hlow.imp_right And.right)

/-- **Rounding**: the start of the interval is the multiple of the interval's length given
by the second of the event time. -/
theorem toStartTime_eq (hpos : 0 < numUnits)
    (hfit : kind.ticks numUnits timeScale < 2 ^ 63) (hdt : int64.Mem dt)
    (hround : RoundsDown kind numUnits timeScale dt) :
    toStartTime lut dt kind numUnits timeScale =
      secondOf dt timeScale / (numUnits * kind.seconds) * kind.ticks numUnits timeScale := by
  have hunit : 0 < kind.seconds := by
    rcases hkind with rfl | rfl <;> decide
  have hlen : 0 < numUnits * kind.seconds := mul_pos hpos hunit
  have hmult : (0 : ℤ) < 10 ^ timeScale := Int.pow_pos (by decide)
  have hlenfit : numUnits * kind.seconds ≤ kind.ticks numUnits timeScale :=
    le_mul_of_one_le_right (le_of_lt hlen) hmult
  obtain ⟨hfloor, hnext⟩ := floor_bounds (t := secondOf dt timeScale) hlen
  simp only [RoundsDown, IntervalKind.ticks, secondOf] at *
  rw [toStartTime_of_epochAligned hkind]
  by_cases hscale : timeScale = 0
  · -- The converted time is never negative, and rounding keeps it in range.
    subst hscale
    simp only [pow_zero, mul_one] at *
    obtain ⟨hlow, hhigh⟩ := wrap_mem (w := uint32) dt
    have hnonneg : 0 ≤ toUInt32 dt := hlow
    have hmem : uint32.Mem (toUInt32 dt / (numUnits * kind.seconds) *
        (numUnits * kind.seconds)) :=
      ⟨floor_nonneg hlen hnonneg, lt_of_le_of_lt hfloor hhigh⟩
    exact toStartOfSeconds_eq hkind hpos (by omega) hmem (Or.inl hnonneg)
  · simp only [if_neg hscale] at *
    obtain ⟨hscaled, hmem, hlow⟩ := scaled_floor_mem hlen hmult hdt (hround.imp_right And.right)
    rw [toStartOfSeconds_eq hkind hpos (by omega) hmem, toInt64, wrap_of_mem hscaled, mul_assoc]
    exact hround.elim Or.inl fun h => hlow.imp_right fun hlo => ⟨h.1, hlo⟩

end

end Proton.Streaming
