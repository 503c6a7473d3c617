import Mathlib.Data.List.Pairwise
import Proton.Streaming.LastFinalizedWindow

/-!
# Hop Windows from Shared Buckets

Hop windows overlap, so the aggregation keeps one state for each interval of the greatest
common divisor of slide and window, a bucket, and puts windows together from buckets.
A bucket is named by the start or by the end of its interval. `getWindowsWithBuckets` lists
the windows of some buckets, from the last bucket backwards; `getLastExpiredTimeBucket` says
up to which bucket a watermark makes the states useless. Both are from
`HopWindowHelper.cpp`.

Both loops step machine words and have no bound of their own, so the model takes fuel.

## Main results

* `getWindowsWithBuckets_exact`: the list is ascending and has exactly the windows of the
  grid that hold a bucket, each with the buckets it holds, also those that start before the
  epoch.
* `getLastExpiredTimeBucket_lt`: no bucket of a window that ends after the watermark has
  expired.
* `windows_from_buckets`: both, for every column with a positive scale, as long as the
  window ends fit the type they are computed in.
-/

open List Word Int

namespace Proton.Streaming

open HopWindowParams

/-! ### The source's functions -/

/-- `HopWindowHelper::getLastExpiredTimeBucket`, with fuel for the last finalised window. -/
def getLastExpiredTimeBucket (fuel : ℕ) (watermark : ℤ) (params : HopWindowParams)
    (isStartTimeBucket : Bool) : Option ℤ :=
  (getLastFinalizedWindow fuel watermark params).map fun window =>
    if !window.isValid then toInt64 (watermark - 1)
    else if isStartTimeBucket then
      addTime params.timeZone window.start params.intervalKind
        (params.slideInterval - params.gcdInterval) params.timeScale
    else
      addTime params.timeZone window.start params.intervalKind params.slideInterval
        params.timeScale

variable (params : HopWindowParams)

/-- `calc_window_min_max_buckets`: the smallest and the largest bucket of a window. -/
def calcWindowMinMaxBuckets (isStartTimeBucket : Bool)
    (window : Window) : ℤ × ℤ :=
  if isStartTimeBucket then
    (window.start, addTime params.timeZone window.stop params.intervalKind
      (-params.gcdInterval) params.timeScale)
  else
    (addTime params.timeZone window.start params.intervalKind params.gcdInterval
      params.timeScale, window.stop)

/-- The window one slide earlier. -/
def previousWindow (window : Window) : Window :=
  ⟨addTime params.timeZone window.start params.intervalKind (-params.slideInterval)
      params.timeScale,
    addTime params.timeZone window.stop params.intervalKind (-params.slideInterval)
      params.timeScale⟩

/-- The loop of `getWindowsWithBuckets`, with the windows found so far. -/
def collectWindows (params : HopWindowParams) (isStartTimeBucket : Bool) (front : ℤ)
    (buckets : List ℤ) : ℕ → Window → List WindowWithBuckets → Option (List WindowWithBuckets)
  | 0, _, _ => none
  | fuel + 1, window, windows =>
    let bounds := calcWindowMinMaxBuckets params isStartTimeBucket window
    if front ≤ bounds.2 then
      let inside := buckets.filter fun bucket => bounds.1 ≤ bucket ∧ bucket ≤ bounds.2
      let windows := if inside.isEmpty then windows else ⟨window, inside⟩ :: windows
      let window := previousWindow params window
      if window.isValid then
        collectWindows params isStartTimeBucket front buckets fuel window windows
      else some windows
    else some windows

/-- The window the enumeration starts from: the last one to start by the last bucket. -/
def firstWindow (isStartTimeBucket : Bool) (back : ℤ) : Window :=
  let start := toStartTime params.timeZone
    (if isStartTimeBucket then back else toInt64 (back - 1)) params.intervalKind
    params.slideInterval params.timeScale
  ⟨start, addTime params.timeZone start params.intervalKind params.windowInterval
    params.timeScale⟩

/-- `HopWindowHelper::getWindowsWithBuckets` on the buckets of the getter. -/
def getWindowsWithBuckets (fuel : ℕ) (params : HopWindowParams) (isStartTimeBucket : Bool)
    (buckets : List ℤ) : Option (List WindowWithBuckets) :=
  match buckets.head?, buckets.getLast? with
  | some front, some back =>
    let window := firstWindow params isStartTimeBucket back
    if window.isValid then
      collectWindows params isStartTimeBucket front buckets fuel window []
    else some []
  | _, _ => some []

/-! ### Buckets of the grid -/

namespace HopWindowParams

variable (params : HopWindowParams)

/-- The length of a bucket in ticks. -/
def bucketLen : ℤ := params.intervalKind.ticks params.gcdInterval params.timeScale

variable (isStartTimeBucket : Bool)

/-- The first tick of the bucket's interval. -/
def bucketStart (bucket : ℤ) : ℤ :=
  if isStartTimeBucket then bucket else bucket - params.bucketLen

/-- The `k`-th window holds the bucket: the bucket's interval lies in the window. -/
def Holds (k bucket : ℤ) : Prop :=
  params.grid.start k ≤ params.bucketStart isStartTimeBucket bucket ∧
    params.bucketStart isStartTimeBucket bucket + params.bucketLen ≤ params.grid.stop k
deriving Decidable

/-- The `k`-th window with the buckets it holds. -/
def windowAt (buckets : List ℤ) (k : ℤ) : WindowWithBuckets :=
  ⟨⟨params.grid.start k, params.grid.stop k⟩,
    buckets.filter fun bucket => params.Holds isStartTimeBucket k bucket⟩

/-- The bounds of the `k`-th window are values of the type they are computed in. -/
def Fits (k : ℤ) : Prop :=
  (timeWord params.timeScale).lo ≤ params.grid.start k ∧
    params.grid.stop k < (timeWord params.timeScale).lo + (timeWord params.timeScale).card

/-- A bucket is not empty. -/
theorem bucketLen_pos : 0 < params.bucketLen := by
  refine params.intervalKind.ticks_pos ?_ _
  have hgcd := gcd_pos_of_ne_zero_left params.windowInterval (ne_of_gt params.slide_pos)
  rw [gcdInterval]
  omega

/-- A bucket is no longer than a slide. -/
theorem bucketLen_le : params.bucketLen ≤ params.grid.slide := by
  refine params.intervalKind.ticks_mono ?_ _
  exact le_of_dvd params.slide_pos (Int.gcd_dvd_left _ _)

/-- The `k`-th window of the grid. -/
def gridWindow (k : ℤ) : Window := ⟨params.grid.start k, params.grid.stop k⟩

/-- Shifting by the interval kind is the exact sum, wrapped once. -/
def ShiftsExactly : Prop :=
  ∀ dt numUnits, addTime params.timeZone dt params.intervalKind numUnits params.timeScale =
    (timeWord params.timeScale).wrap (dt + params.intervalKind.ticks numUnits params.timeScale)

/-- A window of the grid is valid. -/
theorem isValid_gridWindow (k : ℤ) : (params.gridWindow k).isValid = true := by
  have hpos := lt_of_lt_of_le params.grid.slide_pos params.grid.slide_le
  rw [Window.isValid, decide_eq_true_eq, gridWindow, Grid.stop_eq]
  dsimp only
  omega

end HopWindowParams

/-! ### The steps of the enumeration -/

section Enumeration

variable {params : HopWindowParams} {isStartTimeBucket : Bool} {buckets : List ℤ} {j k : ℤ}

/-- The times of a window that fits are values of the type. -/
theorem HopWindowParams.Fits.mem (h : params.Fits k) {x : ℤ} (hlow : params.grid.start k ≤ x)
    (hhigh : x ≤ params.grid.stop k) : (timeWord params.timeScale).Mem x :=
  ⟨h.1.trans hlow, lt_of_le_of_lt hhigh h.2⟩

/-- A window between two that fit does. -/
theorem HopWindowParams.Fits.between {i : ℤ} (hj : params.Fits j) (hk : params.Fits k)
    (hji : j ≤ i) (hik : i ≤ k) : params.Fits i := by
  have hlow := params.grid.start_le hji
  have hhigh := params.grid.start_le hik
  refine ⟨hj.1.trans hlow, lt_of_le_of_lt ?_ hk.2⟩
  rw [Grid.stop_eq, Grid.stop_eq]
  omega

section Steps

variable (hshift : params.ShiftsExactly) (hfits : params.Fits k)

include hshift hfits

/-- The smallest and the largest bucket of a window that fits. -/
theorem calcWindowMinMaxBuckets_eq :
    calcWindowMinMaxBuckets params isStartTimeBucket (params.gridWindow k) =
      if isStartTimeBucket then (params.grid.start k, params.grid.stop k - params.bucketLen)
      else (params.grid.start k + params.bucketLen, params.grid.stop k) := by
  have hpos := params.bucketLen_pos
  have hle := params.bucketLen_le.trans params.grid.slide_le
  have hstop := params.grid.stop_eq k
  have hmax := hfits.mem (x := params.grid.stop k - params.bucketLen) (by omega) (by omega)
  have hmin := hfits.mem (x := params.grid.start k + params.bucketLen) (by omega) (by omega)
  rw [calcWindowMinMaxBuckets, hshift, hshift, IntervalKind.ticks_neg, ← sub_eq_add_neg,
    ← bucketLen, gridWindow, wrap_of_mem hmax,
    wrap_of_mem hmin]

/-- The test of the loop for a bucket is that the window holds it. -/
theorem bounds_iff_holds (bucket : ℤ) :
    ((calcWindowMinMaxBuckets params isStartTimeBucket (params.gridWindow k)).1 ≤ bucket ∧
      bucket ≤ (calcWindowMinMaxBuckets params isStartTimeBucket (params.gridWindow k)).2) ↔
      params.Holds isStartTimeBucket k bucket := by
  rw [calcWindowMinMaxBuckets_eq hshift hfits]
  cases isStartTimeBucket <;>
    simp only [HopWindowParams.Holds, bucketStart, if_true, if_false, Bool.false_eq_true] <;>
    omega

/-- A bucket that a window holds does not exceed the largest bucket of a later window. -/
theorem HopWindowParams.Holds.le_max {bucket : ℤ} (hj : j ≤ k)
    (h : params.Holds isStartTimeBucket j bucket) :
    bucket ≤ (calcWindowMinMaxBuckets params isStartTimeBucket (params.gridWindow k)).2 := by
  have hstart := params.grid.start_le hj
  rw [calcWindowMinMaxBuckets_eq hshift hfits]
  cases isStartTimeBucket <;>
    simp only [HopWindowParams.Holds, bucketStart, if_true, if_false,
      Bool.false_eq_true, Grid.stop_eq] at h ⊢ <;>
    omega

/-- **The step to the previous window**: where that one does not fit, the start wraps to a
time after the end. -/
theorem previousWindow_cases :
    (params.Fits (k - 1) ∧
        previousWindow params (params.gridWindow k) = params.gridWindow (k - 1)) ∨
      (¬params.Fits (k - 1) ∧
        (previousWindow params (params.gridWindow k)).isValid = false) := by
  have hpos := params.grid.slide_pos
  have hle := params.grid.slide_le
  have hstop := hfits.mem (x := params.grid.stop (k - 1))
    (by rw [Grid.stop_sub_one, Grid.stop_eq]; omega) (by rw [Grid.stop_sub_one]; omega)
  have hprevious : previousWindow params (params.gridWindow k) =
      ⟨(timeWord params.timeScale).wrap (params.grid.start (k - 1)),
        params.grid.stop (k - 1)⟩ := by
    rw [previousWindow, hshift, hshift, IntervalKind.ticks_neg, ← sub_eq_add_neg,
      ← sub_eq_add_neg, ← wrap_of_mem hstop, Grid.start_sub_one, Grid.stop_sub_one]
    rfl
  rw [hprevious]
  by_cases hlow : (timeWord params.timeScale).lo ≤ params.grid.start (k - 1)
  · refine .inl ⟨⟨hlow, hstop.2⟩, ?_⟩
    rw [wrap_of_mem ⟨hlow, lt_trans (by rw [Grid.stop_eq]; omega) hstop.2⟩]
    rfl
  · refine .inr ⟨fun h => hlow h.1, ?_⟩
    obtain ⟨hstart, hend⟩ := hfits
    rw [Grid.stop_eq] at hend
    rw [Grid.start_sub_one] at hlow ⊢
    rw [Grid.stop_sub_one, Grid.stop_eq, wrap_of_lt (by omega) (by omega), Window.isValid,
      decide_eq_false_iff_not]
    dsimp only
    omega

end Steps

/-- The windows found so far: all those after the `k`-th that hold a bucket, in order. -/
structure Collected (params : HopWindowParams) (isStartTimeBucket : Bool) (buckets : List ℤ)
    (k : ℤ) (windows : List WindowWithBuckets) : Prop where
  /-- The windows are in ascending order, each once. -/
  ascending : windows.Pairwise fun a b => a.window.start < b.window.start
  /-- The windows are those after the `k`-th that hold a bucket. -/
  mem_iff : ∀ window, window ∈ windows ↔
    ∃ j, k < j ∧ window = params.windowAt isStartTimeBucket buckets j ∧ window.buckets ≠ []

/-- **An exact list of windows**: ascending, and each window of the grid that holds a
bucket, with the buckets it holds. -/
structure ExactWindows (params : HopWindowParams) (isStartTimeBucket : Bool)
    (buckets : List ℤ) (windows : List WindowWithBuckets) : Prop where
  /-- The windows are in ascending order, each once. -/
  ascending : windows.Pairwise fun a b => a.window.start < b.window.start
  /-- The windows are those of the grid that hold a bucket. -/
  mem_iff : ∀ window, window ∈ windows ↔
    ∃ j, window = params.windowAt isStartTimeBucket buckets j ∧ window.buckets ≠ []

/-- **A list of the windows that fit**: ascending, and each window of the grid that fits and
holds a bucket, with the buckets it holds. -/
structure FittingWindows (params : HopWindowParams) (isStartTimeBucket : Bool)
    (buckets : List ℤ) (windows : List WindowWithBuckets) : Prop where
  /-- The windows are in ascending order, each once. -/
  ascending : windows.Pairwise fun a b => a.window.start < b.window.start
  /-- The windows are those of the grid that fit and hold a bucket. -/
  mem_iff : ∀ window, window ∈ windows ↔ ∃ j, params.Fits j ∧
    window = params.windowAt isStartTimeBucket buckets j ∧ window.buckets ≠ []

/-- A window with buckets holds one. -/
theorem windowAt_ne_nil : (params.windowAt isStartTimeBucket buckets k).buckets ≠ [] ↔
    ∃ bucket ∈ buckets, params.Holds isStartTimeBucket k bucket := by
  simp [windowAt, filter_eq_nil_iff]

variable {windows : List WindowWithBuckets}

/-- The collected windows are those that fit, when the windows up to the `k`-th that fit hold
no bucket. -/
theorem Collected.fitting (h : Collected params isStartTimeBucket buckets k windows)
    (hafter : ∀ j, k < j → ∀ bucket ∈ buckets, params.Holds isStartTimeBucket j bucket →
      params.Fits j) (hnone : ∀ j ≤ k, params.Fits j → ∀ bucket ∈ buckets,
      ¬params.Holds isStartTimeBucket j bucket) :
    FittingWindows params isStartTimeBucket buckets windows := by
  refine ⟨h.ascending, fun window => (h.mem_iff window).trans (exists_congr fun j => ?_)⟩
  constructor
  · rintro ⟨hj, rfl, hne⟩
    obtain ⟨bucket, hbucket, hholds⟩ := windowAt_ne_nil.mp hne
    exact ⟨hafter j hj bucket hbucket hholds, rfl, hne⟩
  · rintro ⟨hfits, rfl, hne⟩
    obtain ⟨bucket, hbucket, hholds⟩ := windowAt_ne_nil.mp hne
    exact ⟨not_le.mp fun hle => hnone j hle hfits bucket hbucket hholds, rfl, hne⟩

/-- When every window with a bucket fits, the list is exact. -/
theorem FittingWindows.exact (h : FittingWindows params isStartTimeBucket buckets windows)
    (hall : ∀ j, ∀ bucket ∈ buckets, params.Holds isStartTimeBucket j bucket → params.Fits j) :
    ExactWindows params isStartTimeBucket buckets windows := by
  refine ⟨h.ascending, fun window => (h.mem_iff window).trans (exists_congr fun j => ?_)⟩
  refine ⟨And.right, ?_⟩
  rintro ⟨rfl, hne⟩
  obtain ⟨bucket, hbucket, hholds⟩ := windowAt_ne_nil.mp hne
  exact ⟨hall j bucket hbucket hholds, rfl, hne⟩

/-- The body of the loop collects the `k`-th window. -/
theorem Collected.step (h : Collected params isStartTimeBucket buckets k windows) :
    Collected params isStartTimeBucket buckets (k - 1)
      (if (params.windowAt isStartTimeBucket buckets k).buckets.isEmpty then windows
        else params.windowAt isStartTimeBucket buckets k :: windows) := by
  have hsplit : ∀ j : ℤ, k - 1 < j ↔ j = k ∨ k < j := by omega
  split_ifs with hempty
  · refine ⟨h.ascending, fun window => (h.mem_iff window).trans ?_⟩
    constructor
    · rintro ⟨j, hj, hwindow⟩
      exact ⟨j, by omega, hwindow⟩
    · rintro ⟨j, hj, rfl, hne⟩
      rcases (hsplit j).mp hj with rfl | hlt
      · exact absurd (isEmpty_iff.mp hempty) hne
      · exact ⟨j, hlt, rfl, hne⟩
  · constructor
    · refine pairwise_cons.mpr ⟨fun window hmem => ?_, h.ascending⟩
      obtain ⟨j, hj, rfl, _⟩ := (h.mem_iff window).mp hmem
      exact params.grid.start_lt hj
    · intro window
      rw [mem_cons, h.mem_iff]
      constructor
      · rintro (rfl | ⟨j, hj, hwindow⟩)
        · exact ⟨k, by omega, rfl, fun hnil => hempty (isEmpty_iff.mpr hnil)⟩
        · exact ⟨j, by omega, hwindow⟩
      · rintro ⟨j, hj, rfl, hne⟩
        rcases (hsplit j).mp hj with rfl | hlt
        · exact .inl rfl
        · exact .inr ⟨j, hlt, rfl, hne⟩

variable {front back bucket : ℤ}

/-- The loop and its invariant: from the `k`-th window on, the windows after it collected,
the loop ends with the windows that fit. -/
theorem collectWindows_fitting (hshift : params.ShiftsExactly)
    (hbuckets : ∀ bucket ∈ buckets, front ≤ bucket) :
    ∀ (fuel : ℕ) (k : ℤ) (windows : List WindowWithBuckets), params.Fits k →
      Collected params isStartTimeBucket buckets k windows →
      (∀ j, k < j → ∀ bucket ∈ buckets, params.Holds isStartTimeBucket j bucket →
        params.Fits j) →
      params.grid.start k - (timeWord params.timeScale).lo < fuel →
      ∃ result, collectWindows params isStartTimeBucket front buckets fuel
          (params.gridWindow k) windows = some result ∧
        FittingWindows params isStartTimeBucket buckets result := by
  intro fuel
  induction fuel with
  | zero =>
    intro k windows hfits _ _ hfuel
    have hlow := hfits.1
    omega
  | succ fuel ih =>
    intro k windows hfits hcollected hafter hfuel
    rw [collectWindows]
    by_cases hmax : front ≤
        (calcWindowMinMaxBuckets params isStartTimeBucket (params.gridWindow k)).2
    · have hinside : (buckets.filter fun bucket =>
          (calcWindowMinMaxBuckets params isStartTimeBucket (params.gridWindow k)).1 ≤ bucket ∧
          bucket ≤ (calcWindowMinMaxBuckets params isStartTimeBucket (params.gridWindow k)).2) =
          (params.windowAt isStartTimeBucket buckets k).buckets :=
        filter_congr fun bucket _ =>
          decide_eq_decide.mpr (bounds_iff_holds hshift hfits bucket)
      have hstep := hcollected.step
      have hafter' : ∀ j, k - 1 < j → ∀ bucket ∈ buckets,
          params.Holds isStartTimeBucket j bucket → params.Fits j := by
        intro j hj
        rcases eq_or_lt_of_le (show k ≤ j by omega) with rfl | hlt
        · exact fun _ _ _ => hfits
        · exact hafter j hlt
      simp only [if_pos hmax, hinside]
      rcases previousWindow_cases hshift hfits with ⟨hfits', hprevious⟩ | ⟨hlow, hinvalid⟩
      · have hpos := params.grid.slide_pos
        rw [hprevious, if_pos (params.isValid_gridWindow _)]
        refine ih (k - 1) _ hfits' hstep hafter' ?_
        rw [Grid.start_sub_one]
        omega
      · rw [hinvalid]
        exact ⟨_, rfl, hstep.fitting hafter' fun j hj hfits' =>
          absurd (hfits'.between hfits hj (by omega)) hlow⟩
    · simp only [if_neg hmax]
      refine ⟨windows, rfl, hcollected.fitting hafter fun j hj _ bucket hbucket hholds => ?_⟩
      exact hmax ((hbuckets bucket hbucket).trans (hholds.le_max hshift hfits hj))

/-- The tick whose window the enumeration starts from. -/
def lastTick (isStartTimeBucket : Bool) (back : ℤ) : ℤ :=
  if isStartTimeBucket then back else back - 1

/-- The number of the last window to start by a time at or after the epoch. The time just
before the epoch counts as the epoch. -/
def HopWindowParams.windowOf (params : HopWindowParams) (t : ℤ) : ℤ := max t 0 / params.grid.slide

/-- The window of a time contains it. -/
theorem HopWindowParams.windowOf_bounds (params : HopWindowParams) (t : ℤ) :
    0 ≤ params.grid.start (params.windowOf t) ∧
      params.grid.start (params.windowOf t) ≤ max t 0 ∧
      max t 0 < params.grid.start (params.windowOf t) + params.grid.slide := by
  have hbounds := floor_bounds (t := max t 0) params.grid.slide_pos
  exact ⟨floor_nonneg params.grid.slide_pos (le_max_right _ _), hbounds.1, hbounds.2⟩

/-- The enumeration of buckets up to `back` starts from the `k`-th window, the last one to
start by the bucket. -/
structure StartsFrom (params : HopWindowParams) (isStartTimeBucket : Bool) (back k : ℤ) : Prop where
  /-- The first window. -/
  first : firstWindow params isStartTimeBucket back = params.gridWindow k
  /-- Its bounds are values of the type. -/
  fits : params.Fits k
  /-- The next window starts after the bucket. -/
  last : lastTick isStartTimeBucket back < params.grid.start k + params.grid.slide

/-- The first window, by the rounding of the last tick. -/
theorem firstWindow_eq (hshift : params.ShiftsExactly) (hfits : params.Fits k)
    (hmem : int64.Mem (lastTick isStartTimeBucket back))
    (hstart : toStartTime params.timeZone (lastTick isStartTimeBucket back) params.intervalKind
      params.slideInterval params.timeScale = params.grid.start k) :
    firstWindow params isStartTimeBucket back = params.gridWindow k := by
  have htick : (if isStartTimeBucket then back else toInt64 (back - 1)) =
      lastTick isStartTimeBucket back := by
    rw [lastTick] at hmem ⊢
    split_ifs at hmem ⊢
    · rfl
    · exact wrap_of_mem hmem
  have hlen : 0 ≤ params.grid.len := (lt_of_lt_of_le params.grid.slide_pos params.grid.slide_le).le
  rw [firstWindow, htick, hstart, hshift]
  exact congrArg (Window.mk _) (wrap_of_mem (hfits.mem (le_add_of_nonneg_right hlen) le_rfl))

/-- No window after that one holds a bucket. -/
theorem HopWindowParams.Holds.le_of_lastTick (h : params.Holds isStartTimeBucket j bucket)
    (hle : bucket ≤ back)
    (hlast : lastTick isStartTimeBucket back < params.grid.start k + params.grid.slide) :
    j ≤ k := by
  by_contra hlt
  have hlater := params.grid.start_add_slide_le (params.grid.start_lt (not_le.mp hlt))
  have hpos := params.bucketLen_pos
  obtain ⟨hstart, -⟩ := h
  cases isStartTimeBucket <;>
    simp only [bucketStart, lastTick, if_true, if_false, Bool.false_eq_true] at hstart hlast <;>
    omega

/-- The last element of an ascending list is its largest. -/
theorem le_getLast?_of_mem (hsorted : buckets.Pairwise (· < ·))
    (hlast : buckets.getLast? = some back) (hmem : bucket ∈ buckets) : bucket ≤ back := by
  obtain ⟨init, rfl⟩ := getLast?_eq_some_iff.mp hlast
  have hle := (hsorted.imp le_of_lt).rel_getLast hmem
  rwa [getLast_concat] at hle

/-- **The windows of some buckets**, when the enumeration starts from the last window to
start by the last bucket: it ends with those that fit. -/
theorem getWindowsWithBuckets_fitting (hshift : params.ShiftsExactly)
    (hsorted : buckets.Pairwise (· < ·))
    (hfirst : ∀ back ∈ buckets.getLast?, ∃ k, StartsFrom params isStartTimeBucket back k) :
    ∃ enough, ∀ fuel, enough ≤ fuel →
      ∃ windows, getWindowsWithBuckets fuel params isStartTimeBucket buckets = some windows ∧
        FittingWindows params isStartTimeBucket buckets windows := by
  rcases hhead : buckets.head? with _ | front
  · obtain rfl := head?_eq_none_iff.mp hhead
    refine ⟨0, fun _ _ => ⟨[], rfl, List.Pairwise.nil, fun window => ?_⟩⟩
    simp only [not_mem_nil, false_iff, not_exists, not_and]
    rintro j _ rfl hne
    exact hne rfl
  obtain ⟨back, hlast⟩ : ∃ back, buckets.getLast? = some back :=
    ⟨_, getLast?_eq_some_getLast (ne_nil_of_mem (mem_of_mem_head? hhead))⟩
  obtain ⟨k, hk⟩ := hfirst back hlast
  have hnone : ∀ j, k < j → ∀ bucket ∈ buckets, ¬params.Holds isStartTimeBucket j bucket :=
    fun j hj bucket hbucket hholds =>
      absurd (hholds.le_of_lastTick (le_getLast?_of_mem hsorted hlast hbucket) hk.last)
        (not_le.mpr hj)
  have hcollected : Collected params isStartTimeBucket buckets k [] := by
    refine ⟨List.Pairwise.nil, fun window => iff_of_false not_mem_nil ?_⟩
    rintro ⟨j, hj, rfl, hne⟩
    obtain ⟨bucket, hbucket, hholds⟩ := windowAt_ne_nil.mp hne
    exact hnone j hj bucket hbucket hholds
  refine ⟨(params.grid.start k - (timeWord params.timeScale).lo).toNat + 1, fun fuel hfuel => ?_⟩
  simp only [getWindowsWithBuckets, hhead, hlast, hk.first, params.isValid_gridWindow, if_true]
  have hfront : ∀ bucket ∈ buckets, front ≤ bucket := by
    obtain ⟨rest, rfl⟩ := head?_eq_some_iff.mp hhead
    exact fun bucket hbucket => (hsorted.imp le_of_lt).rel_head hbucket
  exact collectWindows_fitting hshift hfront fuel k [] hk.fits hcollected
    (fun j hj bucket hbucket hholds => absurd hholds (hnone j hj bucket hbucket)) (by omega)

section

variable (hkind : params.intervalKind.EpochAligned)
include hkind

/-- Rounding to the slide gives the start of that window. -/
theorem toStartTime_slide
    (hscale : params.timeScale ≠ 0) (hlen : params.grid.len < 2 ^ 63) {t : ℤ}
    (hlow : -1 ≤ t) (hhigh : t < 2 ^ 63) :
    toStartTime params.timeZone t params.intervalKind params.slideInterval params.timeScale =
      params.grid.start (params.windowOf t) := by
  have hmult : (1 : ℤ) < 10 ^ params.timeScale := one_lt_pow₀ (by decide) hscale
  -- A single tick before the epoch is in second zero.
  have hsecond : t.tdiv (10 ^ params.timeScale) = max t 0 / 10 ^ params.timeScale := by
    by_cases ht : 0 ≤ t
    · rw [max_eq_left ht, tdiv_eq_ediv_of_nonneg ht]
    · obtain rfl : t = -1 := by omega
      rw [Int.neg_tdiv, Int.tdiv_eq_ediv_of_nonneg (by decide),
        ediv_eq_zero_of_lt (by decide) hmult]
      simp
  have hnonneg : 0 ≤ t.tdiv (10 ^ params.timeScale) := by
    rw [hsecond]
    exact ediv_nonneg (le_max_right _ _) (by omega)
  have hslide := params.grid.slide_le
  rw [toStartTime_eq hkind params.slide_pos (by exact lt_of_le_of_lt hslide hlen)
    ⟨by simp only [int64]; omega, by simp only [int64]; omega⟩
    (.inl (by rwa [secondOf, if_neg hscale])), secondOf, if_neg hscale, hsecond,
    ediv_ediv_of_nonneg (by omega), Grid.start, windowOf]
  simp only [grid, IntervalKind.ticks]
  rw [mul_comm (10 ^ params.timeScale)]

/-- Without date tables, the enumeration starts from the window of the last tick. -/
theorem startsFrom_windowOf
    (hscale : params.timeScale ≠ 0) (hnonneg : 0 ≤ back)
    (hstop : params.grid.stop (params.windowOf (lastTick isStartTimeBucket back)) <
      2 ^ 63) :
    StartsFrom params isStartTimeBucket back
      (params.windowOf (lastTick isStartTimeBucket back)) := by
  obtain ⟨hlow, hfloor, hnext⟩ := params.windowOf_bounds (lastTick isStartTimeBucket back)
  have hslide := params.grid.slide_le
  have hfits : params.Fits (params.windowOf (lastTick isStartTimeBucket back)) := by
    simp only [HopWindowParams.Fits, timeWord, if_neg hscale, int64]
    omega
  rw [Grid.stop_eq] at hstop
  have hrange : -1 ≤ lastTick isStartTimeBucket back := by
    rw [lastTick]
    split_ifs <;> omega
  refine ⟨?_, hfits, by omega⟩
  refine firstWindow_eq (fun _ _ => addTime_eq hkind) hfits ?_
    (toStartTime_slide hkind hscale (by omega) hrange (by omega))
  simp only [Word.Mem, int64]
  omega

/-- When the end of the last window to start by the last bucket fits, the list is exact. -/
theorem getWindowsWithBuckets_exact
    (hscale : params.timeScale ≠ 0) (hsorted : buckets.Pairwise (· < ·))
    (hnonneg : ∀ bucket ∈ buckets, 0 ≤ bucket) (hfits : ∀ back ∈ buckets.getLast?,
      params.grid.stop (params.windowOf (lastTick isStartTimeBucket back)) <
        2 ^ 63) :
    ∃ enough, ∀ fuel, enough ≤ fuel →
      ∃ windows, getWindowsWithBuckets fuel params isStartTimeBucket buckets = some windows ∧
        ExactWindows params isStartTimeBucket buckets windows := by
  have hstarts : ∀ back ∈ buckets.getLast?, StartsFrom params isStartTimeBucket back
      (params.windowOf (lastTick isStartTimeBucket back)) := fun back hlast =>
    startsFrom_windowOf hkind hscale (hnonneg back (mem_of_getLast? hlast))
      (hfits back hlast)
  obtain ⟨enough, h⟩ := getWindowsWithBuckets_fitting (fun _ _ => addTime_eq hkind) hsorted
    fun back hlast => ⟨_, hstarts back hlast⟩
  refine ⟨enough, fun fuel hfuel => ?_⟩
  obtain ⟨windows, hwindows, hfitting⟩ := h fuel hfuel
  refine ⟨windows, hwindows, hfitting.exact fun j bucket hbucket hholds => ?_⟩
  -- A window that holds a bucket ends after the epoch, so that its start fits too.
  obtain ⟨back, hlast⟩ : ∃ back, buckets.getLast? = some back :=
    ⟨_, getLast?_eq_some_getLast (ne_nil_of_mem hbucket)⟩
  have hle := hholds.le_of_lastTick (le_getLast?_of_mem hsorted hlast hbucket)
    (hstarts _ hlast).last
  have hstart := params.grid.start_le hle
  have hend := hfits _ hlast
  obtain ⟨hlow, -, -⟩ := params.windowOf_bounds (lastTick isStartTimeBucket back)
  have hbucketNonneg := hnonneg bucket hbucket
  have hpos := params.bucketLen_pos
  simp only [HopWindowParams.Holds, bucketStart, Grid.stop_eq] at hholds hend
  simp only [HopWindowParams.Fits, timeWord, if_neg hscale, int64, Grid.stop_eq]
  cases isStartTimeBucket <;>
    simp only [if_true, if_false, Bool.false_eq_true] at hholds <;> omega

end

end Enumeration

/-! ### Expired buckets -/

section Expiry

variable {params : HopWindowParams} {isStartTimeBucket : Bool} {watermark : ℤ}

/-- **The last finalised window** of a watermark that covers a window end: a window of the
grid that the watermark covers, at or after that one. -/
theorem getLastFinalizedWindow_grid (hkind : params.intervalKind.EpochAligned)
    (hscale : params.timeScale ≠ 0) {first : ℤ} (hfirst : 0 ≤ params.grid.stop first)
    (hcovered : params.grid.stop first ≤ watermark)
    (hfits : params.grid.stop (params.windowOf watermark) < 2 ^ 63) :
    ∃ enough j, params.grid.start first ≤ params.grid.start j ∧
      params.grid.stop j ≤ watermark ∧
      ∀ fuel, enough ≤ fuel →
        getLastFinalizedWindow fuel watermark params = some (params.gridWindow j) := by
  have hnonneg : 0 ≤ watermark := hfirst.trans hcovered
  obtain ⟨hlow, -, hnext⟩ := params.windowOf_bounds watermark
  have hslide := params.grid.slide_le
  rw [max_eq_left hnonneg] at hnext
  rw [Grid.stop_eq] at hfits
  have hword : timeWord params.timeScale = int64 := if_neg hscale
  have hwatermark : watermark < 2 ^ 63 := by omega
  have hlen : params.grid.len < 2 ^ 63 := by omega
  have hcurrent : currentStart params watermark =
      params.grid.start (params.windowOf watermark) := by
    rw [currentStart, hword, wrap_of_mem ⟨by simp only [int64]; omega, by
      simp only [int64]; omega⟩, Grid.start, windowOf, max_eq_left hnonneg]
  obtain ⟨enough, window, hwindow, hlast, -⟩ :=
    (reportsLast_iff_of_scale hkind hlen hnonneg hwatermark hscale).2
      (.inl (by rw [hcurrent]; exact hfits))
  have hcolumn : params.InColumn first := by
    rw [Grid.stop_eq] at hfirst
    simp only [HopWindowParams.InColumn, hword, int64]
    omega
  obtain ⟨j, rfl, -, hcover, hgreatest⟩ := hlast ⟨first, hcolumn, hcovered⟩
  have hle := hgreatest first hcolumn hcovered
  rw [Grid.stop_eq, Grid.stop_eq] at hle
  refine ⟨enough, j, by omega, hcover, fun fuel hfuel => ?_⟩
  obtain ⟨more, rfl⟩ := Nat.exists_eq_add_of_le hfuel
  rw [getLastFinalizedWindow_eq hkind hlen hnonneg hwatermark] at hwindow ⊢
  obtain ⟨windowEnd, hdescend, heq⟩ := Option.map_eq_some_iff.1 hwindow
  rw [descend_mono hdescend more, Option.map_some, heq, gridWindow]

/-- **Expired buckets**: no bucket of a window that ends after the watermark has expired. -/
theorem getLastExpiredTimeBucket_lt (hkind : params.intervalKind.EpochAligned)
    (hscale : params.timeScale ≠ 0) {firstEnd : ℤ} (hend : params.grid.IsEnd firstEnd)
    (hfirst : 0 ≤ firstEnd) (hcovered : firstEnd ≤ watermark)
    (hfits : params.grid.stop (params.windowOf watermark) < 2 ^ 63) :
    ∃ enough, ∀ fuel, enough ≤ fuel →
      ∃ expired, getLastExpiredTimeBucket fuel watermark params isStartTimeBucket =
          some expired ∧
        ∀ k bucket, params.Holds isStartTimeBucket k bucket → watermark < params.grid.stop k →
          expired < bucket := by
  obtain ⟨first, rfl⟩ := hend
  obtain ⟨enough, j, hj, hcover, hwindow⟩ :=
    getLastFinalizedWindow_grid hkind hscale hfirst hcovered hfits
  refine ⟨enough, fun fuel hfuel => ?_⟩
  have hpos := params.grid.slide_pos
  have hle := params.grid.slide_le
  have hlen := params.bucketLen_pos
  have hbucket := params.bucketLen_le
  have hjstop := params.grid.stop_eq j
  obtain ⟨hlow, -, hcurrent⟩ := params.windowOf_bounds watermark
  rw [Grid.stop_eq] at hfirst hfits
  have hslide : params.intervalKind.ticks params.slideInterval params.timeScale =
      params.grid.slide := rfl
  have hdiff : params.intervalKind.ticks (params.slideInterval - params.gcdInterval)
      params.timeScale = params.grid.slide - params.bucketLen := by
    rw [← hslide, bucketLen, IntervalKind.ticks, IntervalKind.ticks,
      IntervalKind.ticks, sub_mul, sub_mul]
  refine ⟨if isStartTimeBucket then params.grid.start j + (params.grid.slide - params.bucketLen)
    else params.grid.start j + params.grid.slide, ?_, ?_⟩
  · simp only [getLastExpiredTimeBucket, hwindow fuel hfuel, Option.map_some,
      params.isValid_gridWindow, Bool.not_true, Bool.false_eq_true, if_false, addTime_eq hkind,
      timeWord, if_neg hscale, hdiff, hslide]
    have hfit : ∀ x, params.grid.start j ≤ x → x ≤ params.grid.start j + params.grid.slide →
        int64.wrap x = x := fun x _ _ => toInt64_of_bounds (by omega) (by omega)
    dsimp only [gridWindow]
    rw [hfit _ (by omega) (by omega), hfit _ (by omega) (by omega)]
  · rintro k bucket ⟨hstart, -⟩ hlater
    -- The window starts one slide after the last finalised one at least.
    have hnext : params.grid.start j + params.grid.slide ≤ params.grid.start k := by
      refine params.grid.start_add_slide_le ?_
      rw [Grid.stop_eq] at hlater
      omega
    cases isStartTimeBucket <;>
      simp only [bucketStart, if_true, if_false, Bool.false_eq_true] at hstart ⊢ <;>
      omega

/-- **Hop windows from shared buckets**, in both bucket conventions: the windows listed for
some buckets are exactly those of the grid that hold one, and no bucket of a window that
ends after a watermark has expired by it. The buckets need not be aligned. -/
theorem windows_from_buckets (hkind : params.intervalKind.EpochAligned)
    (hscale : params.timeScale ≠ 0) :
    (∀ buckets : List ℤ, buckets.Pairwise (· < ·) → (∀ bucket ∈ buckets, 0 ≤ bucket) →
      (∀ back ∈ buckets.getLast?,
        params.grid.stop (params.windowOf (lastTick isStartTimeBucket back)) <
          9223372036854775808) →
      ∃ enough, ∀ fuel, enough ≤ fuel →
        ∃ windows, getWindowsWithBuckets fuel params isStartTimeBucket buckets =
            some windows ∧ ExactWindows params isStartTimeBucket buckets windows) ∧
    (∀ watermark firstEnd : ℤ, params.grid.IsEnd firstEnd → 0 ≤ firstEnd →
      firstEnd ≤ watermark →
      params.grid.stop (params.windowOf watermark) < 9223372036854775808 →
      ∃ enough, ∀ fuel, enough ≤ fuel →
        ∃ expired, getLastExpiredTimeBucket fuel watermark params isStartTimeBucket =
            some expired ∧
          ∀ k bucket, params.Holds isStartTimeBucket k bucket →
            watermark < params.grid.stop k → expired < bucket) :=
  ⟨fun _ hsorted hnonneg hfits =>
      getWindowsWithBuckets_exact hkind hscale hsorted hnonneg hfits,
    fun _ _ hend hfirst hcovered hfits =>
      getLastExpiredTimeBucket_lt hkind hscale hend hfirst hcovered hfits⟩

/-- Windows of three seconds every two seconds, on a column with milliseconds. -/
def threeByTwo : HopWindowParams :=
  { hopThreeByTwo with timeScale := 3, timeZone := ⟨fun _ _ _ => 0, fun _ _ _ => 0⟩ }

/-- Buckets zero and one of windows of three seconds every two seconds. -/
theorem windows_from_buckets_threeByTwo :
    (∃ enough, ∀ fuel, enough ≤ fuel →
      ∃ windows, getWindowsWithBuckets fuel threeByTwo true [0, 1000] = some windows ∧
        ExactWindows threeByTwo true [0, 1000] windows) ∧
    ∃ enough, ∀ fuel, enough ≤ fuel →
      ∃ expired, getLastExpiredTimeBucket fuel 6000 threeByTwo true = some expired ∧
        ∀ k bucket, threeByTwo.Holds true k bucket → 6000 < threeByTwo.grid.stop k →
          expired < bucket :=
  have h := @windows_from_buckets threeByTwo true (.inl rfl) (by decide)
  ⟨h.1 [0, 1000] (by decide) (by decide) (by rintro back ⟨⟩; decide),
    h.2 6000 3000 ⟨0, by decide⟩ (by decide) (by decide) (by decide)⟩

/-- Where the window end does not fit `Int64`, no window is listed and buckets of a window
that is not finalised count as expired. -/
theorem windows_lost_at_overflow :
    getWindowsWithBuckets 10 threeByTwo true [9223372036854774000] = some [] ∧
    threeByTwo.Holds true 4611686018427387 9223372036854774000 ∧
    getLastExpiredTimeBucket 10 9223372036854775000 threeByTwo true =
      some 9223372036854774999 ∧
    9223372036854775000 < threeByTwo.grid.stop 4611686018427387 := by
  decide

end Expiry

end Proton.Streaming
