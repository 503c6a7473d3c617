import Proton.Streaming.WatermarkStamper

/-!
# Watermark Alignment of Parallel Window Aggregations

Several `AggregatingTransform`s share one `ManyAggregatedData`. Each of them takes the
watermarks of its own input; a call of `finalizeAlignment` aligns them to their minimum,
parks that minimum, and later finalises the windows up to it. The calls of different
transforms interleave: a call gives up when another thread holds the finalising lock and is
continued by a later `work()`.

The model is a state machine with one action for every section of `finalizeAlignment`
between two points where another thread can come in: the alignment under the watermark
lock, the check without a lock, the attempt to take the finalising lock, the preparation and
the finalisation under it. Aggregated data are reduced to the windows they span.

Two branches leave the minimum behind. When a transform has received nothing, the minimum is
the invalid watermark, and an emit mode that emits open windows finalises with the smallest
watermark in its place. And a watermark that is delivered a second time is parked as it is.

## Main results

* `Aligned.step`: every section keeps parked and finalised watermarks at or below all inputs.
* `finalization_aligned`: in every run whose repeated watermarks are not ahead of the other
  inputs, a finalisation with a watermark above the smallest finds all inputs at it.
* `finalization_ahead`: in the excepted emit modes, and after a repeated watermark that is
  ahead, a finalisation runs before an input has reached it.
-/

namespace Proton.Streaming

/-! ### Parameters -/

/-- What the query groups by (`IAggregatorParams::GroupBy`). -/
inductive GroupBy where
  | windowStart | windowEnd | userDefined | other
  deriving DecidableEq, Repr

/-- The parameters of the aggregation that alignment reads. -/
structure AggregatingParams where
  /-- What the query groups by. -/
  groupBy : GroupBy
  /-- The emit mode. -/
  emitMode : EmitMode
  /-- Emit results again that did not change. -/
  repeatEmit : Bool := false

/-- `onlyEmitFinalizedWindows`. -/
def AggregatingParams.onlyEmitFinalizedWindows (params : AggregatingParams) : Bool :=
  params.emitMode = .afterWindowClose

/-! ### State -/

/-- Where a transform stands in `finalizeAlignment`. -/
inductive Phase where
  /-- Outside of the call. -/
  | idle
  /-- The watermark of the chunk is aligned. -/
  | aligned
  /-- There is something to finalise. -/
  | checked
  /-- The finalising lock is taken. -/
  | locked
  /-- The windows to finalise are prepared. -/
  | prepared
  deriving DecidableEq, Repr

/-- One transform, with its entry of `ManyAggregatedData::watermarks`. -/
structure Transform where
  /-- The current watermark. -/
  watermark : ℤ := invalidWatermark
  /-- The watermark parked for finalisation. -/
  tryFinalizingWatermark : Option ℤ := .none
  /-- The pending result, by the watermark its last chunk carries. -/
  aggregatedResult : Option (Option ℤ) := .none
  /-- The windows the transform has data of. -/
  localWindows : List WindowWithBuckets := []
  /-- The windows prepared for finalisation. -/
  preparedWindows : List WindowWithBuckets := []
  /-- Rows since the last finalisation. -/
  rows : ℕ := 0
  /-- Where the transform stands. -/
  phase : Phase := .idle
  /-- Every watermark delivered so far. -/
  received : List ℤ := []

/-- `ManyAggregatedData`: the transforms and what they share. -/
structure ManyAggregatedData (n : ℕ) where
  /-- The transforms. -/
  transforms : Fin n → Transform := fun _ => {}
  /-- The watermark finalised so far. -/
  finalizedWatermark : ℤ := invalidWatermark
  /-- The end of the last finalised window. -/
  finalizedWindowEnd : ℤ := invalidWatermark
  /-- The holder of the finalising lock. -/
  finalizingMutex : Option (Fin n) := .none

namespace ManyAggregatedData

variable {n : ℕ}

/-- Replace one transform. -/
def set (s : ManyAggregatedData n) (i : Fin n) (t : Transform) : ManyAggregatedData n :=
  { s with transforms := Function.update s.transforms i t }

/-- The minimum of all watermarks. -/
def minWatermarks (s : ManyAggregatedData n) : ℤ :=
  (List.ofFn fun j => (s.transforms j).watermark).min?.getD invalidWatermark

/-- `hasNewData`. -/
def hasNewData (s : ManyAggregatedData n) : Bool :=
  (List.finRange n).any fun j => 0 < (s.transforms j).rows

/-! ### Alignment -/

variable (params : AggregatingParams)

variable (s : ManyAggregatedData n)

/-- The first part of `finalizeAlignment`, for a chunk with a watermark: a transform that
finalised by timeout first falls back to the finalised watermark; a larger watermark is
aligned with the others under the watermark lock, a smaller one is only reported, and an
equal one is parked. -/
def align (i : Fin n) (newWatermark : ℤ) : ManyAggregatedData n :=
  let t := s.transforms i
  let watermark :=
    if t.watermark = timeoutWatermark then s.finalizedWatermark else t.watermark
  let t := { t with
    watermark
    received := t.received ++ [newWatermark]
    phase := .aligned }
  if watermark < newWatermark then
    let t := { t with watermark := newWatermark }
    if params.groupBy = .other then
      s.set i { t with tryFinalizingWatermark := some newWatermark }
    else
      s.set i { t with tryFinalizingWatermark := some (s.set i t).minWatermarks }
  else if newWatermark < watermark then s.set i t
  else s.set i { t with tryFinalizingWatermark := some newWatermark }

/-! ### Checks -/

/-- A window is skipped: it is finalised already, or it is still open and the emit mode emits
finalised windows only. -/
def skips (minWatermark : ℤ) (w : WindowWithBuckets) : Bool :=
  w.window.stop ≤ s.finalizedWindowEnd ∨
    params.onlyEmitFinalizedWindows ∧ minWatermark < w.window.stop

/-- `needFinalization`. -/
def needFinalization (i : Fin n) (minWatermark : ℤ) : Bool :=
  if params.onlyEmitFinalizedWindows ∧ minWatermark ≤ s.finalizedWatermark then false
  else (s.transforms i).localWindows.any fun w => ¬ s.skips params minWatermark w

/-- The part of `finalizeAlignment` before the lock. -/
def check (i : Fin n) : ManyAggregatedData n :=
  let t := s.transforms i
  match t.tryFinalizingWatermark with
  | .none => s.set i { t with phase := .idle }
  | some watermark =>
    match t.aggregatedResult with
    | some carried =>
      s.set i { t with
        aggregatedResult := some (some (carried.getD watermark))
        tryFinalizingWatermark := .none
        phase := .idle }
    | .none =>
      if s.needFinalization params i watermark then s.set i { t with phase := .checked }
      else s.set i { t with tryFinalizingWatermark := .none, phase := .idle }

/-- The attempt to take the finalising lock: without it the call returns and the watermark
stays parked. -/
def tryLock (i : Fin n) : ManyAggregatedData n :=
  match s.finalizingMutex with
  | .none => { s.set i { s.transforms i with phase := .locked } with finalizingMutex := some i }
  | some _ => s.set i { s.transforms i with phase := .idle }

/-! ### Preparation -/

/-- `std::ranges::set_union` of two sorted lists. -/
def setUnion : List ℤ → List ℤ → List ℤ
  | [], ys => ys
  | xs, [] => xs
  | x :: xs, y :: ys =>
    if x < y then x :: setUnion xs (y :: ys)
    else if y < x then y :: setUnion (x :: xs) ys
    else x :: setUnion xs ys
termination_by xs ys => xs.length + ys.length

/-- Merge a window of another transform into the prepared windows, which are in the order
of their ends. -/
def mergeWindow (w : WindowWithBuckets) : List WindowWithBuckets → List WindowWithBuckets
  | [] => [w]
  | p :: ps =>
    if p.window.stop = w.window.stop then
      { p with buckets := setUnion p.buckets w.buckets } :: ps
    else if w.window.stop < p.window.stop then w :: p :: ps
    else p :: mergeWindow w ps

/-- The windows of all transforms that are to be finalised. The windows of the first
transform are taken as they are, those of the others are merged. -/
def windowsToFinalize (minWatermark : ℤ) : List WindowWithBuckets :=
  (List.finRange n).foldl (fun prepared (j : Fin n) =>
    let windows :=
      (s.transforms j).localWindows.filter fun w => ¬ s.skips params minWatermark w
    if j.val = 0 then prepared ++ windows
    else windows.foldl (fun prepared w => mergeWindow w prepared) prepared) []

/-- `prepareFinalization`: the windows to finalise, or `none` when there is nothing to do. -/
def prepareFinalization (minWatermark : ℤ) : Option (List WindowWithBuckets) :=
  if params.onlyEmitFinalizedWindows ∧ minWatermark ≤ s.finalizedWatermark then .none
  else if (params.emitMode = .periodic ∨ params.emitMode = .onUpdateWithBatchInterval) ∧
      ¬ (params.repeatEmit ∨ s.hasNewData) then .none
  else
    let prepared := s.windowsToFinalize params minWatermark
    if prepared = [] then .none else some prepared

/-- The part of `finalizeAlignment` after the lock is taken: prepare, and replace an invalid
watermark by the smallest one. -/
def prepare (i : Fin n) (watermark : ℤ) : ManyAggregatedData n :=
  let t := s.transforms i
  match s.prepareFinalization params watermark with
  | .none =>
    { s.set i { t with tryFinalizingWatermark := .none, phase := .idle } with
      finalizingMutex := .none }
  | some windows =>
    let watermark := if watermark = invalidWatermark then minWatermark else watermark
    s.set i { t with
      tryFinalizingWatermark := some watermark
      preparedWindows := windows
      phase := .prepared }

/-! ### Finalisation -/

/-- The end of the last prepared window that the watermark covers, or the one before. -/
def lastFinalizedEnd (windows : List WindowWithBuckets) (watermark : ℤ) : ℤ :=
  match windows.reverse.find? fun w => w.window.stop ≤ watermark with
  | some w => w.window.stop
  | .none => s.finalizedWindowEnd

/-- The last part of `finalizeAlignment`: finalise with the parked watermark and release the
lock, or only release it when the query was cancelled. -/
def finalize (i : Fin n) (watermark : ℤ) (cancelled : Bool) : ManyAggregatedData n :=
  let t := s.transforms i
  if cancelled then { s.set i { t with phase := .idle } with finalizingMutex := .none }
  else
    let windowEnd := s.lastFinalizedEnd t.preparedWindows watermark
    let finalizedWatermark := if watermark = timeoutWatermark then windowEnd else watermark
    { transforms := Function.update (fun j => { s.transforms j with rows := 0 }) i { t with
        tryFinalizingWatermark := .none
        aggregatedResult := some (some finalizedWatermark)
        preparedWindows := []
        rows := 0
        phase := .idle }
      finalizedWatermark
      finalizedWindowEnd := windowEnd
      finalizingMutex := .none }

/-! ### Actions -/

/-- The sections of the transforms' threads that run without interruption. -/
inductive Action (n : ℕ) where
  /-- Anything a transform does outside of `finalizeAlignment`: aggregating rows, which
  changes the windows it has data of, and setting or pushing a result. -/
  | work (i : Fin n) (windows : List WindowWithBuckets) (result : Option (Option ℤ)) (rows : ℕ)
  /-- Entering `finalizeAlignment`, with the watermark of the chunk or without one. -/
  | align (i : Fin n) (newWatermark : Option ℤ)
  /-- The check without a lock. -/
  | check (i : Fin n)
  /-- The attempt to take the finalising lock. -/
  | tryLock (i : Fin n)
  /-- The preparation under the lock. -/
  | prepare (i : Fin n)
  /-- The finalisation under the lock. -/
  | finalize (i : Fin n) (cancelled : Bool)

/-- One action; `none` when the transform is not at the section, or waits for a lock. -/
def step : Action n → Option (ManyAggregatedData n)
  | .work i windows result rows =>
    let t := s.transforms i
    if t.phase = .idle then
      some (s.set i { t with
        localWindows := windows, aggregatedResult := result, rows := t.rows + rows })
    else .none
  | .align i newWatermark =>
    let t := s.transforms i
    if t.phase = .idle then
      match newWatermark with
      | .none => some (s.set i { t with phase := .aligned })
      | some newWatermark =>
        if t.watermark = timeoutWatermark ∧ s.finalizingMutex.isSome then .none
        else some (s.align params i newWatermark)
    else .none
  | .check i => if (s.transforms i).phase = .aligned then some (s.check params i) else .none
  | .tryLock i => if (s.transforms i).phase = .checked then some (s.tryLock i) else .none
  | .prepare i =>
    match (s.transforms i).phase, (s.transforms i).tryFinalizingWatermark with
    | .locked, some watermark => some (s.prepare params i watermark)
    | _, _ => .none
  | .finalize i cancelled =>
    match (s.transforms i).phase, (s.transforms i).tryFinalizingWatermark with
    | .prepared, some watermark => some (s.finalize i watermark cancelled)
    | _, _ => .none

/-- The watermarks the inputs deliver: proper ones, not the timeout watermark, never
decreasing; and one that is delivered again is not ahead of the other inputs. -/
def Delivers : Action n → Prop
  | .align i (some newWatermark) =>
    invalidWatermark < newWatermark ∧ newWatermark < timeoutWatermark ∧
      (∀ w ∈ (s.transforms i).received, w ≤ newWatermark) ∧
      (newWatermark = (s.transforms i).watermark →
        ∀ j, newWatermark ≤ (s.transforms j).watermark)
  | _ => True

/-- A step of a run. -/
def AlignedStep (s s' : ManyAggregatedData n) : Prop :=
  ∃ action, s.Delivers action ∧ s.step params action = some s'

/-! ### The invariant -/

/-- A watermark the finalisation may use: no input is behind it, or it is at most the
smallest watermark and open windows are emitted. -/
def Behind (watermark : ℤ) : Prop :=
  (∀ j, watermark ≤ (s.transforms j).watermark) ∨
    params.onlyEmitFinalizedWindows = false ∧ watermark ≤ minWatermark

/-- What every action preserves of a transform, for a notion of watermarks that may be
finalised. -/
structure TransformOk (behind : ℤ → Prop) (t : Transform) : Prop where
  /-- The watermark comes from the input. -/
  received : t.watermark = invalidWatermark ∨ t.watermark ∈ t.received
  /-- Every delivered watermark is a proper one. -/
  proper : ∀ w ∈ t.received, invalidWatermark < w ∧ w < timeoutWatermark
  /-- The parked watermark may be finalised, except that it can be invalid. -/
  parked : ∀ w, t.tryFinalizingWatermark = some w → behind w ∧ invalidWatermark ≤ w
  /-- A prepared watermark is valid. -/
  prepared : ∀ w, t.phase = .prepared → t.tryFinalizingWatermark = some w → invalidWatermark < w

/-- What every action preserves. -/
structure Aligned : Prop where
  /-- Every transform is in order. -/
  transforms : ∀ i, TransformOk (s.Behind params) (s.transforms i)
  /-- The finalised watermark is not ahead of an input. -/
  finalized : s.Behind params s.finalizedWatermark
  /-- The finalised watermark is a machine integer. -/
  low : invalidWatermark ≤ s.finalizedWatermark

variable {params : AggregatingParams} {s s' : ManyAggregatedData n} {i : Fin n} {t : Transform}

/-- A watermark received from the input lies between the two sentinels or is invalid. -/
theorem TransformOk.bounds {behind : ℤ → Prop} (h : TransformOk behind t) :
    invalidWatermark ≤ t.watermark ∧ t.watermark < timeoutWatermark := by
  rcases h.received with hinvalid | hreceived
  · rw [hinvalid]
    decide
  · obtain ⟨hlow, hhigh⟩ := h.proper _ hreceived
    exact ⟨le_of_lt hlow, hhigh⟩

/-- The minimum of the watermarks is at or below each of them. -/
theorem minWatermarks_le (s : ManyAggregatedData n) (j : Fin n) :
    s.minWatermarks ≤ (s.transforms j).watermark := by
  have hmem : (s.transforms j).watermark ∈ List.ofFn fun j => (s.transforms j).watermark :=
    List.mem_ofFn.mpr ⟨j, rfl⟩
  obtain ⟨m, hm⟩ := Option.isSome_iff_exists.mp (List.isSome_min?_of_mem hmem)
  rw [minWatermarks, hm]
  exact (List.min?_eq_some_iff.mp hm).2 _ hmem

/-- The minimum of machine integers is a machine integer. -/
theorem le_minWatermarks (hlow : ∀ j, invalidWatermark ≤ (s.transforms j).watermark) :
    invalidWatermark ≤ s.minWatermarks := by
  rw [minWatermarks]
  cases hm : (List.ofFn fun j => (s.transforms j).watermark).min? with
  | none => exact le_refl _
  | some m =>
    obtain ⟨j, rfl⟩ := List.mem_ofFn.mp (List.min?_eq_some_iff.mp hm).1
    exact hlow j

variable {w : ℤ}

/-- Watermarks only grow, so what may be finalised stays so. -/
theorem Behind.mono (h : s.Behind params w)
    (hmono : ∀ j, (s.transforms j).watermark ≤ (s'.transforms j).watermark) :
    s'.Behind params w := by
  rcases h with hall | hopen
  · exact Or.inl fun j => le_trans (hall j) (hmono j)
  · exact Or.inr hopen

/-- A transform in order stays so when more may be finalised. -/
theorem TransformOk.mono {behind behind' : ℤ → Prop} (h : TransformOk behind t)
    (himp : ∀ w, behind w → behind' w) : TransformOk behind' t where
  received := h.received
  proper := h.proper
  parked := fun w hw => ⟨himp w (h.parked w hw).1, (h.parked w hw).2⟩
  prepared := h.prepared

/-- Replacing one transform by one whose watermark is not smaller. -/
theorem set_mono (hmono : (s.transforms i).watermark ≤ t.watermark) (j : Fin n) :
    (s.transforms j).watermark ≤ ((s.set i t).transforms j).watermark := by
  by_cases hj : j = i
  · subst hj
    simpa [set] using hmono
  · simp [set, hj]

/-- **Replacing one transform** keeps everything in order when the new one is. -/
theorem Aligned.set (h : s.Aligned params) (hmono : (s.transforms i).watermark ≤ t.watermark)
    (hok : TransformOk ((s.set i t).Behind params) t) : (s.set i t).Aligned params where
  transforms := by
    intro j
    by_cases hj : j = i
    · subst hj
      simpa [ManyAggregatedData.set] using hok
    · have hother := (h.transforms j).mono fun w hw => hw.mono (set_mono hmono)
      simpa [ManyAggregatedData.set, hj] using hother
  finalized := h.finalized.mono (set_mono hmono)
  low := h.low

/-- Replacing one transform by one that differs in neither its watermark nor its history. -/
theorem Aligned.set_of_eq (h : s.Aligned params)
    (hwatermark : t.watermark = (s.transforms i).watermark)
    (hreceived : t.received = (s.transforms i).received)
    (hparked : t.tryFinalizingWatermark = .none ∨
      t.tryFinalizingWatermark = (s.transforms i).tryFinalizingWatermark)
    (hphase : t.phase ≠ .prepared) : (s.set i t).Aligned params := by
  have hgrow : ∀ j, (s.transforms j).watermark ≤ ((s.set i t).transforms j).watermark :=
    set_mono (le_of_eq hwatermark.symm)
  refine h.set (le_of_eq hwatermark.symm) ?_
  have hold := (h.transforms i).mono fun w hw => hw.mono hgrow
  refine ⟨?_, ?_, ?_, fun w hprepared => absurd hprepared hphase⟩
  · rw [hwatermark, hreceived]
    exact hold.received
  · rw [hreceived]
    exact hold.proper
  · intro w hw
    rcases hparked with hnone | hsame
    · rw [hnone] at hw
      cases hw
    · exact hold.parked w (hsame ▸ hw)

/-- The lock is no part of what is preserved. -/
theorem Aligned.of_mutex (i : Fin n) (t : Transform) (h : (s.set i t).Aligned params)
    (mutex : Option (Fin n)) : Aligned params { s.set i t with finalizingMutex := mutex } :=
  ⟨h.transforms, h.finalized, h.low⟩

/-! ### Every action preserves it -/

/-- The watermarks depend only on the watermark of the replaced transform. -/
theorem set_watermark (s : ManyAggregatedData n) (i : Fin n) {t t' : Transform}
    (h : t.watermark = t'.watermark) (j : Fin n) :
    ((s.set i t).transforms j).watermark = ((s.set i t').transforms j).watermark := by
  by_cases hj : j = i
  · subst hj
    simpa [ManyAggregatedData.set] using h
  · simp [ManyAggregatedData.set, hj]

/-- A finalisation stores the parked watermark. -/
theorem finalize_finalizedWatermark (hw : w < timeoutWatermark) :
    (s.finalize i w false).finalizedWatermark = w := by
  simp only [finalize, Bool.false_eq_true, if_false]
  rw [if_neg (ne_of_lt hw)]

/-- A finalisation leaves every watermark and every history as it was. -/
theorem finalize_transforms (j : Fin n) :
    ((s.finalize i w false).transforms j).watermark = (s.transforms j).watermark ∧
      ((s.finalize i w false).transforms j).received = (s.transforms j).received ∧
      (((s.finalize i w false).transforms j).tryFinalizingWatermark = .none ∨
        ((s.finalize i w false).transforms j).tryFinalizingWatermark =
            (s.transforms j).tryFinalizingWatermark ∧
          ((s.finalize i w false).transforms j).phase = (s.transforms j).phase) := by
  by_cases hj : j = i
  · subst hj
    simp [finalize]
  · simp [finalize, hj]

section

variable (h : s.Aligned params)
include h

/-- Delivering a watermark: the transform moves to it or stays, and what it parks may be
finalised. -/
theorem Aligned.deliver (hlow : invalidWatermark < w)
    (hhigh : w < timeoutWatermark) (hmono : (s.transforms i).watermark ≤ t.watermark)
    (hreceived : t.received = (s.transforms i).received ++ [w])
    (hwatermark : t.watermark = w ∨ t.watermark = (s.transforms i).watermark)
    (hphase : t.phase = .aligned) (hparked : ∀ v, t.tryFinalizingWatermark = some v →
      (s.set i t).Behind params v ∧ invalidWatermark ≤ v) : (s.set i t).Aligned params := by
  refine h.set hmono ⟨?_, ?_, hparked, fun _ hprepared => ?_⟩
  · rw [hreceived, List.mem_append, List.mem_singleton]
    rcases hwatermark with hnew | hsame
    · exact Or.inr (Or.inr hnew)
    · rw [hsame]
      exact (h.transforms i).received.imp_right Or.inl
  · intro v hv
    rw [hreceived, List.mem_append, List.mem_singleton] at hv
    rcases hv with hv | rfl
    · exact (h.transforms i).proper v hv
    · exact ⟨hlow, hhigh⟩
  · rw [hphase] at hprepared
    cases hprepared

/-- The minimum taken after a transform moved to `w` is at or below every watermark. -/
theorem minWatermarks_set {t' : Transform}
    (hlow : invalidWatermark ≤ t.watermark) (hsame : t'.watermark = t.watermark) :
    (s.set i t').Behind params (s.set i t).minWatermarks ∧
      invalidWatermark ≤ (s.set i t).minWatermarks := by
  constructor
  · refine Or.inl fun j => ?_
    rw [set_watermark s i hsame j]
    exact minWatermarks_le _ j
  · refine le_minWatermarks fun j => ?_
    by_cases hj : j = i
    · subst hj
      simpa [ManyAggregatedData.set] using hlow
    · simpa [ManyAggregatedData.set, hj] using (h.transforms j).bounds.1

/-- The check keeps everything in order. -/
theorem Aligned.check : (s.check params i).Aligned params := by
  simp only [ManyAggregatedData.check]
  split
  next => exact h.set_of_eq rfl rfl (Or.inr rfl) (by simp)
  next =>
    split
    · exact h.set_of_eq rfl rfl (Or.inl rfl) (by simp)
    · split
      · exact h.set_of_eq rfl rfl (Or.inr rfl) (by simp)
      · exact h.set_of_eq rfl rfl (Or.inl rfl) (by simp)

/-- The attempt to lock keeps everything in order. -/
theorem Aligned.tryLock : (s.tryLock i).Aligned params := by
  simp only [ManyAggregatedData.tryLock]
  split
  · refine Aligned.of_mutex i _ ?_ _
    exact h.set_of_eq rfl rfl (Or.inr rfl) (by simp)
  · exact h.set_of_eq rfl rfl (Or.inr rfl) (by simp)

/-- The preparation keeps everything in order. -/
theorem Aligned.prepare
    (hw : (s.transforms i).tryFinalizingWatermark = some w) :
    (s.prepare params i w).Aligned params := by
  obtain ⟨hbehind, hlow⟩ := (h.transforms i).parked w hw
  simp only [ManyAggregatedData.prepare]
  split
  next =>
    refine Aligned.of_mutex i _ ?_ _
    exact h.set_of_eq rfl rfl (Or.inl rfl) (by simp)
  next windows hprepared =>
    refine h.set (le_refl _) ⟨(h.transforms i).received, (h.transforms i).proper, ?_, ?_⟩
    · intro v hv
      obtain rfl := Option.some.inj hv
      split_ifs with hinvalid
      · -- The invalid watermark is prepared only if open windows are emitted.
        have hopen : params.onlyEmitFinalizedWindows = false := by
          by_contra honly
          have hle := h.low
          rw [prepareFinalization, if_pos ⟨by simpa using honly, by omega⟩] at hprepared
          cases hprepared
        exact ⟨Or.inr ⟨hopen, le_refl _⟩, by decide⟩
      · exact ⟨hbehind.mono (set_mono (le_refl _)), hlow⟩
    · intro v _ hv
      obtain rfl := Option.some.inj hv
      split_ifs with hinvalid
      · decide
      · omega

/-- What may be finalised is not the timeout watermark. -/
theorem Behind.lt_timeout (i : Fin n) (hw : s.Behind params w) :
    w < timeoutWatermark := by
  rcases hw with hall | ⟨_, hmin⟩
  · exact lt_of_le_of_lt (hall i) (h.transforms i).bounds.2
  · exact lt_of_le_of_lt hmin (by decide)

/-- The finalisation keeps everything in order. -/
theorem Aligned.finalize {cancelled : Bool}
    (hw : (s.transforms i).tryFinalizingWatermark = some w) :
    (s.finalize i w cancelled).Aligned params := by
  obtain ⟨hbehind, hlow⟩ := (h.transforms i).parked w hw
  cases cancelled with
  | true =>
    refine Aligned.of_mutex i _ ?_ _
    exact h.set_of_eq rfl rfl (Or.inr rfl) (by simp)
  | false =>
    have hgrow : ∀ j, (s.transforms j).watermark ≤
        ((s.finalize i w false).transforms j).watermark :=
      fun j => le_of_eq (finalize_transforms j).1.symm
    have hstored : (s.finalize i w false).finalizedWatermark = w :=
      finalize_finalizedWatermark (hbehind.lt_timeout h i)
    refine ⟨fun j => ?_, ?_, ?_⟩
    · obtain ⟨hwatermark, hreceived, hparked⟩ := finalize_transforms (s := s) (i := i) (w := w) j
      have hold := (h.transforms j).mono fun v hv => hv.mono hgrow
      refine ⟨?_, ?_, fun v hv => ?_, fun v hphase hv => ?_⟩
      · rw [hwatermark, hreceived]
        exact hold.received
      · rw [hreceived]
        exact hold.proper
      · rcases hparked with hnone | ⟨hsame, _⟩
        · rw [hnone] at hv
          cases hv
        · exact hold.parked v (hsame ▸ hv)
      · rcases hparked with hnone | ⟨hsame, hphase'⟩
        · rw [hnone] at hv
          cases hv
        · exact hold.prepared v (hphase' ▸ hphase) (hsame ▸ hv)
    · rw [hstored]
      exact hbehind.mono hgrow
    · rw [hstored]
      exact hlow

end

/-- Alignment keeps everything in order. -/
theorem Aligned.align (hgroup : params.groupBy ≠ .other) (h : s.Aligned params)
    (hdelivers : s.Delivers (.align i (some w))) : (s.align params i w).Aligned params := by
  obtain ⟨hlow, hhigh, _, hrepeat⟩ := hdelivers
  obtain ⟨_, hbelow⟩ := (h.transforms i).bounds
  simp only [ManyAggregatedData.align, if_neg (ne_of_lt hbelow)]
  split_ifs with hlarger hsmaller
  · -- A larger watermark: the parked one is the minimum of all, the new one included.
    refine h.deliver hlow hhigh (le_of_lt hlarger) rfl (Or.inl rfl) rfl ?_
    intro v hv
    obtain rfl := Option.some.inj hv
    exact minWatermarks_set h (le_of_lt hlow) rfl
  · -- A smaller one is only reported: what was parked stays parked.
    refine h.deliver hlow hhigh (le_refl _) rfl (Or.inr rfl) rfl ?_
    intro v hv
    obtain ⟨hbehind, hvlow⟩ := (h.transforms i).parked v hv
    exact ⟨hbehind.mono (set_mono (le_refl _)), hvlow⟩
  · -- An equal one is parked as it is, which the other inputs allow.
    have hsame : w = (s.transforms i).watermark := by omega
    refine h.deliver hlow hhigh (le_refl _) rfl (Or.inr rfl) rfl ?_
    intro v hv
    obtain rfl := Option.some.inj hv
    have hbehind : s.Behind params w := Or.inl (hrepeat hsame)
    exact ⟨hbehind.mono (set_mono (le_refl _)), le_of_lt hlow⟩

/-- **Every action keeps everything in order.** -/
theorem Aligned.step (hgroup : params.groupBy ≠ .other) (h : s.Aligned params)
    (hstep : AlignedStep params s s') : s'.Aligned params := by
  obtain ⟨action, hdelivers, hstep⟩ := hstep
  cases action with
  | work i windows result rows =>
    simp only [ManyAggregatedData.step] at hstep
    split at hstep
    next hidle =>
      obtain rfl := Option.some.inj hstep
      exact h.set_of_eq rfl rfl (Or.inr rfl) (by simp [hidle])
    next => cases hstep
  | align i newWatermark =>
    simp only [ManyAggregatedData.step] at hstep
    split at hstep
    next =>
      cases newWatermark with
      | none =>
        obtain rfl := Option.some.inj hstep
        exact h.set_of_eq rfl rfl (Or.inr rfl) (by simp)
      | some w =>
        simp only at hstep
        split at hstep
        next => cases hstep
        next =>
          obtain rfl := Option.some.inj hstep
          exact h.align hgroup hdelivers
    next => cases hstep
  | check i =>
    simp only [ManyAggregatedData.step] at hstep
    split at hstep
    next =>
      obtain rfl := Option.some.inj hstep
      exact h.check
    next => cases hstep
  | tryLock i =>
    simp only [ManyAggregatedData.step] at hstep
    split at hstep
    next =>
      obtain rfl := Option.some.inj hstep
      exact h.tryLock
    next => cases hstep
  | prepare i =>
    simp only [ManyAggregatedData.step] at hstep
    split at hstep
    next hw =>
      obtain rfl := Option.some.inj hstep
      exact h.prepare hw
    next => cases hstep
  | finalize i cancelled =>
    simp only [ManyAggregatedData.step] at hstep
    split at hstep
    next hw =>
      obtain rfl := Option.some.inj hstep
      exact h.finalize hw
    next => cases hstep

/-- In every state of a run everything is in order. -/
theorem aligned_of_run (hgroup : params.groupBy ≠ .other)
    (hrun : Relation.ReflTransGen (AlignedStep params) ({} : ManyAggregatedData n) s) :
    s.Aligned params := by
  induction hrun with
  | refl =>
    refine ⟨fun i => ?_, Or.inl fun j => le_refl _, le_refl _⟩
    exact ⟨Or.inl rfl, by simp, by simp, by simp⟩
  | tail _ hstep ih => exact ih.step hgroup hstep

/-! ### Finalisations -/

/-- Every transform has received a watermark that reaches `watermark`. -/
def AllReceived (s : ManyAggregatedData n) (watermark : ℤ) : Prop :=
  ∀ j, ∃ w ∈ (s.transforms j).received, watermark ≤ w

/-- What may be finalised was received by every transform, or is the smallest watermark. -/
theorem Behind.allReceived (h : s.Aligned params) (hw : s.Behind params w)
    (hvalid : invalidWatermark < w) :
    s.AllReceived w ∨ w = minWatermark ∧ params.onlyEmitFinalizedWindows = false := by
  rcases hw with hall | ⟨hopen, hmin⟩
  · left
    intro j
    rcases (h.transforms j).received with hinvalid | hreceived
    · have hle := hall j
      omega
    · exact ⟨_, hreceived, hall j⟩
  · right
    simp only [minWatermark] at *
    exact ⟨by omega, hopen⟩

/-- **Finalisation waits for all inputs.** In every state of a run whose watermarks never
decrease, are not the timeout watermark, and when repeated are not ahead of the other
inputs: a finalisation with a watermark `W` finds that every transform has received a
watermark at or above `W`, unless `W` is the smallest watermark and the emit mode emits open
windows; and the finalised watermark is subject to the same bound. -/
theorem finalization_aligned (hgroup : params.groupBy ≠ .other)
    (hrun : Relation.ReflTransGen (AlignedStep params) ({} : ManyAggregatedData n) s) :
    (∀ i s', s.step params (.finalize i false) = some s' →
      ∃ W, (s.transforms i).tryFinalizingWatermark = some W ∧ s'.finalizedWatermark = W ∧
        (s.AllReceived W ∨ W = minWatermark ∧ params.onlyEmitFinalizedWindows = false)) ∧
      (s.finalizedWatermark = invalidWatermark ∨ s.AllReceived s.finalizedWatermark ∨
        s.finalizedWatermark = minWatermark ∧ params.onlyEmitFinalizedWindows = false) := by
  have haligned := aligned_of_run hgroup hrun
  constructor
  · intro i s' hstep
    simp only [ManyAggregatedData.step] at hstep
    split at hstep
    next W hphase hW =>
      obtain rfl := Option.some.inj hstep
      obtain ⟨hbehind, _⟩ := (haligned.transforms i).parked W hW
      have hvalid := (haligned.transforms i).prepared W hphase hW
      exact ⟨W, hW, finalize_finalizedWatermark (hbehind.lt_timeout haligned i),
        hbehind.allReceived haligned hvalid⟩
    next => cases hstep
  · by_cases hvalid : invalidWatermark < s.finalizedWatermark
    · exact Or.inr (haligned.finalized.allReceived haligned hvalid)
    · have hlow := haligned.low
      omega

/-- The window of the first five seconds, with one bucket. -/
def firstWindow : WindowWithBuckets := ⟨⟨0, 5⟩, [0]⟩

/-- Windows emitted when they close. -/
def closeParams : AggregatingParams := { groupBy := .windowStart, emitMode := .afterWindowClose }

/-- The general statement on two transforms at watermark five. -/
theorem finalization_aligned_at_five :
    ∃ s : ManyAggregatedData 2,
      Relation.ReflTransGen (AlignedStep closeParams) {} s ∧
      (∃ s', s.step closeParams (.finalize 0 false) = some s' ∧ s'.finalizedWatermark = 5) ∧
      ∃ W, (s.transforms 0).tryFinalizingWatermark = some W ∧
        (s.AllReceived W ∨ W = minWatermark ∧ closeParams.onlyEmitFinalizedWindows = false) := by
  have hrun : ∃ s : ManyAggregatedData 2,
      Relation.ReflTransGen (AlignedStep closeParams) {} s ∧
      ∃ s', s.step closeParams (.finalize 0 false) = some s' ∧ s'.finalizedWatermark = 5 := by
    refine ⟨_, .head ⟨.work 0 [firstWindow] .none 1, trivial, rfl⟩ <|
      .head ⟨.align 0 (some 5), ⟨by decide, by decide, ?_, ?_⟩, rfl⟩ <|
      .head ⟨.check 0, trivial, rfl⟩ <|
      .head ⟨.align 1 (some 5), ⟨by decide, by decide, ?_, ?_⟩, rfl⟩ <|
      .head ⟨.align 0 (some 5), ⟨by decide, by decide, ?_, ?_⟩, rfl⟩ <|
      .head ⟨.check 0, trivial, rfl⟩ <| .head ⟨.tryLock 0, trivial, rfl⟩ <|
      .single ⟨.prepare 0, trivial, rfl⟩, _, rfl, ?_⟩ <;> decide
  obtain ⟨s, hreach, s', hstep, hfinal⟩ := hrun
  obtain ⟨W, hW, _, hreceived⟩ := (finalization_aligned (by decide) hreach).1 0 s' hstep
  exact ⟨s, hreach, ⟨s', hstep, hfinal⟩, W, hW, hreceived⟩

/-- Several actions in a row, with no condition on what is delivered. -/
def run (params : AggregatingParams) (s : ManyAggregatedData n) :
    List (Action n) → Option (ManyAggregatedData n)
  | [] => some s
  | action :: actions => (s.step params action).bind fun s' => run params s' actions

/-- **Finalisation ahead of an input.** An emit mode that emits open windows finalises with
the smallest watermark although the second transform has received none; and a watermark that
the first transform receives twice is finalised although the second has received a smaller
one only. -/
theorem finalization_ahead :
    (∃ s s' : ManyAggregatedData 2,
      run { closeParams with emitMode := .onUpdate } {}
        [.work 0 [firstWindow] .none 1, .align 0 (some 3), .check 0, .tryLock 0, .prepare 0] =
          some s ∧
      s.step { closeParams with emitMode := .onUpdate } (.finalize 0 false) = some s' ∧
      s'.finalizedWatermark = minWatermark ∧ (s.transforms 1).received = []) ∧
    (∃ s s' : ManyAggregatedData 2,
      run closeParams {}
        [.work 0 [firstWindow] .none 1, .align 1 (some 4), .check 1, .align 0 (some 10), .check 0,
          .align 0 (some 10), .check 0, .tryLock 0, .prepare 0] = some s ∧
      s.step closeParams (.finalize 0 false) = some s' ∧
      s'.finalizedWatermark = 10 ∧ (s.transforms 1).received = [4]) := by
  constructor
  · exact ⟨_, _, rfl, rfl, by decide, rfl⟩
  · exact ⟨_, _, rfl, rfl, by decide, rfl⟩

end ManyAggregatedData

end Proton.Streaming
