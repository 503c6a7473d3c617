import Proton.Lib.WindowGrid
import Proton.Streaming.TimeTransform

/-!
# Tumble and Hop Windows

The parameters of the window functions and the last window that a watermark finalises
(`getLastFinalizedWindow`), from `WindowCommon.h` and `HopWindowHelper.cpp`.

The source steps the end of the window that starts last down by the slide until the
watermark covers it. The steps are taken on machine words and the loop has no bound of its
own, so the model takes fuel; near the smallest representable time the loop can wrap around
and the source then reports an invalid window.

## Main results

* `getLastFinalizedWindow_isEnd`: a valid result is a window of the grid and its end is
  covered by the watermark, whatever wrapped on the way.
-/

namespace Proton.Streaming

/-! ### Sentinel watermarks -/

/-- No watermark (`INVALID_WATERMARK`). -/
def invalidWatermark : ℤ := -9223372036854775808

/-- The smallest watermark (`MIN_WATERMARK`). -/
def minWatermark : ℤ := invalidWatermark + 1

/-- The watermark of an emission by timeout (`TIMEOUT_WATERMARK`). -/
def timeoutWatermark : ℤ := 9223372036854775807

/-! ### Window parameters -/

/-- What every window function knows about its event time column. -/
structure WindowParams where
  /-- Decimal digits after the second; the data types allow nine. -/
  timeScale : ℕ
  /-- The time zone of the column or of the window function. -/
  timeZone : DateLUT

/-- The parameters of `tumble`; `extractInterval` refuses an interval that is not positive. -/
structure TumbleWindowParams extends WindowParams where
  /-- The number of interval units in a window. -/
  windowInterval : ℤ
  /-- The interval unit. -/
  intervalKind : IntervalKind
  /-- Windows are not empty. -/
  window_pos : 0 < windowInterval

/-- The parameters of `hop`; the constructor refuses a slide longer than the window. -/
structure HopWindowParams extends WindowParams where
  /-- The number of interval units in a window. -/
  windowInterval : ℤ
  /-- The number of interval units between two windows. -/
  slideInterval : ℤ
  /-- The interval unit of both. -/
  intervalKind : IntervalKind
  /-- Windows advance. -/
  slide_pos : 0 < slideInterval
  /-- Windows leave no gaps. -/
  slide_le : slideInterval ≤ windowInterval

variable (params : HopWindowParams)

/-- `gcd_interval`, the number of interval units in a bucket. -/
def HopWindowParams.gcdInterval : ℤ :=
  Int.gcd params.slideInterval params.windowInterval

variable (kind : IntervalKind)

/-- Every kind has a positive number of seconds. -/
theorem IntervalKind.seconds_pos : 0 < kind.seconds := by
  cases kind <;> decide

/-- Ticks grow with the number of units. -/
theorem IntervalKind.ticks_mono {a b : ℤ} (h : a ≤ b) (timeScale : ℕ) :
    kind.ticks a timeScale ≤ kind.ticks b timeScale := by
  have hmult : (0 : ℤ) ≤ 10 ^ timeScale := le_of_lt (Int.pow_pos (by decide))
  have hunit := le_of_lt kind.seconds_pos
  exact Int.mul_le_mul_of_nonneg_right (Int.mul_le_mul_of_nonneg_right h hunit) hmult

/-- A positive number of units has a positive number of ticks. -/
theorem IntervalKind.ticks_pos {n : ℤ} (h : 0 < n) (timeScale : ℕ) : 0 < kind.ticks n timeScale :=
  Int.mul_pos (Int.mul_pos h kind.seconds_pos) (Int.pow_pos (by decide))

/-- Ticks of a negated number of units. -/
theorem IntervalKind.ticks_neg (n : ℤ) (timeScale : ℕ) :
    kind.ticks (-n) timeScale = -kind.ticks n timeScale := by
  simp only [ticks, neg_mul]

/-- The grid of the windows of `tumble`, in ticks. -/
def TumbleWindowParams.grid (params : TumbleWindowParams) : Grid where
  slide := params.intervalKind.ticks params.windowInterval params.timeScale
  len := params.intervalKind.ticks params.windowInterval params.timeScale
  slide_pos := params.intervalKind.ticks_pos params.window_pos _
  slide_le := le_refl _

/-- The grid of the windows of `hop`, in ticks. -/
def HopWindowParams.grid : Grid where
  slide := params.intervalKind.ticks params.slideInterval params.timeScale
  len := params.intervalKind.ticks params.windowInterval params.timeScale
  slide_pos := params.intervalKind.ticks_pos params.slide_pos _
  slide_le := params.intervalKind.ticks_mono params.slide_le _

/-! ### Scales of intervals -/

/-- An interval of the query; zero units stand for an absent interval. -/
structure WindowInterval where
  /-- The number of units. -/
  interval : ℤ := 0
  /-- The unit. -/
  unit : IntervalKind := .second
  deriving DecidableEq, Repr

/-- The decimal digits of the unit after the second. -/
def IntervalKind.decimals : ℕ := kind.subsecondScale.getD 0

/-- The loop of `getAutoScaleByInterval`: take one digit off the scale for each trailing
zero of the interval. -/
def reduceScale (numUnits : ℤ) : ℕ → ℕ → ℕ
  | 0, _ => 0
  | scale + 1, toReduce =>
    if numUnits % 10 ^ toReduce = 0 then reduceScale numUnits scale (toReduce + 1)
    else scale + 1

/-- `getAutoScaleByInterval`: the smallest scale of a column that can hold the interval. -/
def getAutoScaleByInterval (numUnits : ℤ) (kind : IntervalKind) : ℕ :=
  match kind.subsecondScale with
  | some scale => reduceScale numUnits scale 1
  | none => 0

/-- The scale of an interval is at most `s` when the interval is a multiple of the units in a
tick of `s` digits. -/
theorem reduceScale_le_iff (numUnits : ℤ) (scale toReduce s : ℕ) (hpos : 1 ≤ toReduce)
    (hdvd : (10 : ℤ) ^ (toReduce - 1) ∣ numUnits) :
    reduceScale numUnits scale toReduce ≤ s ↔
      scale ≤ s ∨ (10 : ℤ) ^ (scale + toReduce - 1 - s) ∣ numUnits := by
  induction scale generalizing toReduce with
  | zero => simp [reduceScale]
  | succ scale ih =>
    rw [reduceScale]
    split
    next hmod =>
      have hnext := Int.dvd_of_emod_eq_zero hmod
      rw [ih (toReduce + 1) (by omega) hnext]
      have hexp : scale + (toReduce + 1) - 1 - s = scale + 1 + toReduce - 1 - s := by omega
      rw [hexp]
      constructor
      · rintro (hle | h)
        · right
          exact dvd_trans (pow_dvd_pow 10 (by omega)) hnext
        · exact .inr h
      · rintro (hle | h)
        · exact .inl (by omega)
        · exact .inr h
    next hmod =>
      constructor
      · exact .inl
      · rintro (hle | h)
        · exact hle
        · by_contra hlt
          refine hmod (Int.emod_eq_zero_of_dvd (dvd_trans (pow_dvd_pow 10 ?_) h))
          omega

/-- **The scale of an interval** is at most `s` if and only if the interval is a whole number of
ticks of `s` digits. -/
theorem getAutoScaleByInterval_le_iff (numUnits : ℤ) (kind : IntervalKind) (s : ℕ) :
    getAutoScaleByInterval numUnits kind ≤ s ↔ (10 : ℤ) ^ (kind.decimals - s) ∣ numUnits := by
  have hreduce : getAutoScaleByInterval numUnits kind = reduceScale numUnits kind.decimals 1 := by
    rw [getAutoScaleByInterval, IntervalKind.decimals]
    cases kind.subsecondScale <;> rfl
  rw [hreduce, reduceScale_le_iff _ _ _ _ (le_refl 1) (by simp)]
  have hexp : kind.decimals + 1 - 1 - s = kind.decimals - s := by omega
  constructor
  · rintro (hle | h)
    · rw [Nat.sub_eq_zero_of_le hle]
      exact one_dvd _
    · exact h
  · exact .inr

/-! ### The last finalised window -/

/-- A window by its first tick and the first tick after it. -/
structure Window where
  /-- The first tick. -/
  start : ℤ
  /-- The first tick after the window. -/
  stop : ℤ
  deriving DecidableEq, Repr

/-- A window is valid when it ends after it starts. -/
def Window.isValid (window : Window) : Bool := window.start < window.stop

/-- A window with the time buckets its data are in. -/
structure WindowWithBuckets where
  /-- The window. -/
  window : Window
  /-- The buckets, in order. -/
  buckets : List ℤ
  deriving DecidableEq, Repr

/-- The loop of `getLastFinalizedWindow`: step the end of a window down by the slide until
the watermark covers it. -/
def lastFinalizedWindowEnd (params : HopWindowParams) (watermark : ℤ) : ℕ → ℤ → Option ℤ
  | 0, _ => none
  | fuel + 1, windowEnd =>
    if watermark < windowEnd then
      lastFinalizedWindowEnd params watermark fuel
        (addTime params.timeZone windowEnd params.intervalKind (-params.slideInterval)
          params.timeScale)
    else some windowEnd

/-- `HopWindowHelper::getLastFinalizedWindow`, with fuel for its loop. -/
def getLastFinalizedWindow (fuel : ℕ) (watermark : ℤ) (params : HopWindowParams) : Option Window :=
  let currentWindowStart := toStartTime params.timeZone watermark params.intervalKind
    params.slideInterval params.timeScale
  if watermark < currentWindowStart then some ⟨invalidWatermark, invalidWatermark⟩
  else
    let firstEnd := addTime params.timeZone currentWindowStart params.intervalKind
      params.windowInterval params.timeScale
    (lastFinalizedWindowEnd params watermark fuel firstEnd).map fun windowEnd =>
      ⟨addTime params.timeZone windowEnd params.intervalKind (-params.windowInterval)
        params.timeScale, windowEnd⟩

/-- The window length is a number of the type the window ends are computed in. -/
def HopWindowParams.Representable : Prop :=
  params.grid.len < if params.timeScale = 0 then 2 ^ 32 else 2 ^ 63
deriving Decidable

variable {params : HopWindowParams} {watermark : ℤ} {fuel : ℕ}

/-- The loop steps a machine word down to the watermark. -/
theorem lastFinalizedWindowEnd_eq (hkind : params.intervalKind.EpochAligned) (windowEnd : ℤ) :
    lastFinalizedWindowEnd params watermark fuel windowEnd =
      (timeWord params.timeScale).descend params.grid.slide watermark fuel windowEnd := by
  induction fuel generalizing windowEnd with
  | zero => rfl
  | succ fuel ih =>
    rw [lastFinalizedWindowEnd, ih, addTime_eq hkind, IntervalKind.ticks_neg]
    rfl

/-- A representable window is shorter than the range of its type. -/
theorem HopWindowParams.Representable.len_lt (h : params.Representable) :
    params.grid.len < 2 ^ 63 ∧ params.grid.len < (timeWord params.timeScale).card := by
  simp only [HopWindowParams.Representable, timeWord] at *
  split_ifs at * <;> simp only [Word.uint32, Word.int64] <;> omega

variable (hkind : params.intervalKind.EpochAligned)
  (hrep : params.Representable)
  (hwatermark : Word.int64.Mem watermark)
include hkind hrep hwatermark

/-- **A valid last finalised window is a window of the grid**, and the watermark covers it. -/
theorem getLastFinalizedWindow_isEnd
    (hround : RoundsDown params.intervalKind params.slideInterval params.timeScale watermark)
    {window : Window} (hwindow : getLastFinalizedWindow fuel watermark params = some window)
    (hvalid : window.isValid = true) : params.grid.IsEnd window.stop ∧ window.stop ≤ watermark := by
  -- the source rounds the watermark to the slide
  obtain ⟨k, hstart⟩ : ∃ k, toStartTime params.timeZone watermark params.intervalKind
      params.slideInterval params.timeScale = params.grid.start k :=
    ⟨_, toStartTime_eq hkind params.slide_pos
      (lt_of_le_of_lt params.grid.slide_le hrep.len_lt.1) hwatermark hround⟩
  have hmem : (timeWord params.timeScale).Mem (params.grid.start k) := by
    rw [← hstart]
    exact toStartTime_mem hkind
  simp only [getLastFinalizedWindow, hstart] at hwindow
  split at hwindow
  next => simp [← Option.some.inj hwindow, Window.isValid] at hvalid
  next =>
    rw [lastFinalizedWindowEnd_eq hkind, addTime_eq hkind, Option.map_eq_some_iff] at hwindow
    obtain ⟨windowEnd, hdescend, rfl⟩ := hwindow
    simp only [Window.isValid, addTime_eq hkind, IntervalKind.ticks_neg,
      decide_eq_true_eq] at hvalid ⊢
    obtain ⟨_, hend, _⟩ := Word.descend_spec params.grid.slide_pos (Word.wrap_mem _) hdescend
    obtain ⟨j, hj⟩ := Word.descend_interval params.grid.slide_pos params.grid.slide_le
      hrep.len_lt.2 hmem hdescend hvalid
    refine ⟨⟨k - j, ?_⟩, hend⟩
    rw [hj, Grid.stop, Grid.start, Int.sub_mul]
    omega

end Proton.Streaming
