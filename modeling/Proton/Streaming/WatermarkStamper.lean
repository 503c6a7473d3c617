import Proton.Lib.ExceptRel
import Proton.Streaming.HopWindow

/-!
# The Watermark Stamper

`WatermarkStamper` filters the late rows of each chunk and projects a watermark from the
largest event time it has seen. This module models one call of `process` with all it does:
the filter, the new watermark, the periodic and timeout emissions and the log of late rows.

A row is late when its event time is below the watermark projected so far. For `tumble` the
watermark is the start of a window and so the end of the one before it; for `hop` it is the
end of the last finalised window, and with overlapping windows such an end lies inside
later windows. A row dropped as late may therefore belong to windows that are still open.

The clock is read several times in one call; the readings are an argument (`Readings`).

## Main results

* `calculateWatermark_onGrid`: a projected watermark is the smallest watermark or the end of
  a window.
* `dropped_row_covered`: in every run without timeout emission, a dropped row lies in a
  window that ends at or before the watermark, and every window with it does when the
  windows tile the line.
* `dropped_row_in_open_window`: with overlapping windows a dropped row can lie in a window
  that ends after the watermark.
-/

open Option ExceptRel

namespace Proton.Streaming

/-! ### Parameters -/

/-- The emit modes (`EmitMode`). -/
inductive EmitMode where
  | none | tail | afterSessionClose | periodic | afterWindowClose | perEvent | onUpdate
  | onUpdateWithBatchInterval
  deriving DecidableEq, Repr

/-- The window function of the query. The stamper reads only the column's scale and time
zone of a session window. -/
inductive StreamWindow where
  | tumble (params : TumbleWindowParams)
  | hop (params : HopWindowParams)
  | session (params : WindowParams)

/-- The parameters every window function has. -/
def StreamWindow.base : StreamWindow → WindowParams
  | .tumble params => params.toWindowParams
  | .hop params => params.toWindowParams
  | .session params => params

/-- The parameters of the `EMIT` clause that the stamper reads. -/
structure EmitParams where
  /-- The window function, if the query has one. -/
  windowParams : Option StreamWindow
  /-- The emit mode. -/
  mode : EmitMode
  /-- The interval of periodic emission. -/
  periodicInterval : WindowInterval := {}
  /-- The idle time after which everything is emitted. -/
  timeoutInterval : WindowInterval := {}
  /-- The delay subtracted from every event time before it is projected. -/
  delayInterval : WindowInterval := {}

/-! ### Chunks -/

/-- A row: its event time and the rest of it. -/
structure Row (ρ : Type) where
  /-- The event time in ticks. -/
  eventTs : Int64
  /-- The other columns. -/
  data : ρ
  deriving DecidableEq

/-- A chunk: rows and, when the flag is set, a watermark. -/
structure Chunk (ρ : Type) where
  /-- The rows. -/
  rows : List (Row ρ)
  /-- The watermark the chunk carries. -/
  watermark : Option ℤ := .none
  deriving DecidableEq

/-- The readings of the monotonic clocks in one call. -/
structure Readings where
  /-- Nanoseconds, read where an update is stamped. -/
  stampNs : ℤ
  /-- Nanoseconds, read in `processPeriodic`. -/
  periodicNs : ℤ
  /-- Nanoseconds, read in `processTimeout`. -/
  timeoutNs : ℤ
  /-- Seconds, read in `logLateEvents`. -/
  logSeconds : ℤ

/-! ### The stamper -/

/-- The state of a stamper. -/
structure WatermarkStamper where
  /-- An event time column was found (`time_col_pos >= 0`). -/
  useEventTime : Bool := false
  /-- When to emit periodically next; zero when the query has no such interval. -/
  nextPeriodicEmitTs : ℤ := 0
  /-- The interval of periodic emission in nanoseconds. -/
  periodicInterval : ℤ := 0
  /-- When to emit by timeout next; zero when the query has no such interval. -/
  nextTimeoutEmitTs : ℤ := 0
  /-- The timeout in nanoseconds. -/
  timeoutInterval : ℤ := 0
  /-- The largest event time seen so far. -/
  maxEventTs : ℤ := invalidWatermark
  /-- The largest watermark projected so far. -/
  watermarkTs : ℤ := invalidWatermark + 1
  /-- How many rows were late. -/
  lateEvents : ℕ := 0
  /-- How many late rows the last log message counted. -/
  lastLoggedLateEvents : ℕ := 0
  /-- When the last log message was written. -/
  lastLoggedLateEventsTs : ℤ := 0
  deriving DecidableEq, Repr

/-- What `preProcess` can throw. -/
inductive PreProcessError where
  | eventTimeColumnNotFound
  | intervalUnitTooLarge
  deriving DecidableEq, Repr

/-- The nanoseconds of a unit, for the units up to a day; `none` for the longer units, which
the timers refuse. -/
def IntervalKind.nanoseconds : IntervalKind → Option ℤ
  | .nanosecond => some 1
  | .microsecond => some 1000
  | .millisecond => some 1000000
  | .second => some 1000000000
  | .minute => some 60000000000
  | .hour => some 3600000000000
  | .day => some 86400000000000
  | _ => .none

/-- The timer interval of `initPeriodicTimer` and `initTimeoutTimer`. -/
def timerInterval (interval : WindowInterval) : Except PreProcessError ℤ :=
  match interval.unit.nanoseconds with
  | some unit => .ok (toInt64 (interval.interval * unit))
  | .none => .error .intervalUnitTooLarge

namespace WatermarkStamper

variable (s : WatermarkStamper)

/-- `initPeriodicTimer`. -/
def initPeriodicTimer (interval : WindowInterval) (now : ℤ) :
    Except PreProcessError WatermarkStamper := do
  let periodicInterval ← timerInterval interval
  return { s with periodicInterval, nextPeriodicEmitTs := now + periodicInterval }

/-- `initTimeoutTimer`. -/
def initTimeoutTimer (interval : WindowInterval) (now : ℤ) :
    Except PreProcessError WatermarkStamper := do
  let timeoutInterval ← timerInterval interval
  return { s with timeoutInterval, nextTimeoutEmitTs := now + timeoutInterval }

variable (params : EmitParams)

variable (headerHasColumn : Bool)

/-- Look up the event time column in the header, for a query with a window function. -/
def findTimeColumn :
    Except PreProcessError WatermarkStamper :=
  if params.windowParams.isSome then
    if headerHasColumn then .ok { s with useEventTime := true }
    else .error .eventTimeColumnNotFound
  else .ok s

/-- Start the periodic timer, for a query with such an interval. -/
def startPeriodicTimer (now : ℤ) : Except PreProcessError WatermarkStamper :=
  if params.periodicInterval.interval ≠ 0 then s.initPeriodicTimer params.periodicInterval now
  else .ok s

/-- The part of `preProcess` that depends on the emit mode. -/
def preProcessMode
    (now : ℤ) : Except PreProcessError WatermarkStamper :=
  match params.mode with
  | .none | .tail | .afterSessionClose => .ok s
  | _ => do
    let s ← s.startPeriodicTimer params now
    s.findTimeColumn params headerHasColumn

/-- `preProcess`, on a fresh stamper: start the timers and look up the event time column. -/
def preProcess (now : ℤ) :
    Except PreProcessError WatermarkStamper := do
  let s ← preProcessMode {} params headerHasColumn now
  if params.mode ≠ .afterSessionClose ∧ params.timeoutInterval.interval ≠ 0 then
    s.initTimeoutTimer params.timeoutInterval now
  else .ok s

end WatermarkStamper

/-! ### Projecting a watermark -/

/-- `calculateWatermarkPerRow`: an event time less the delay. -/
def calculateWatermarkPerRow (params : EmitParams) (window : StreamWindow) (eventTs : ℤ) : ℤ :=
  if params.delayInterval.interval ≠ 0 then
    addTime window.base.timeZone eventTs params.delayInterval.unit
      (-1 * params.delayInterval.interval) window.base.timeScale
  else eventTs

/-- `calculateWatermark`: the watermark projected from the largest event time. -/
def calculateWatermark (fuel : ℕ) (params : EmitParams) (window : StreamWindow)
    (eventTs : ℤ) : Option ℤ :=
  let eventTs := calculateWatermarkPerRow params window eventTs
  match window with
  | .tumble w => some (toStartTime w.timeZone eventTs w.intervalKind w.windowInterval w.timeScale)
  | .hop w =>
    (getLastFinalizedWindow fuel eventTs w).map fun last =>
      if last.isValid then last.stop else minWatermark
  | .session _ => some eventTs

/-! ### Filtering a chunk -/

/-- What the loop over the rows of a chunk leaves. -/
structure FilteredRows (ρ : Type) where
  /-- The largest event time seen. -/
  maxEventTs : ℤ
  /-- The watermark rows are compared with. -/
  watermark : ℤ
  /-- The rows that stay. -/
  kept : List (Row ρ)
  /-- How many rows were late. -/
  lateEvents : ℕ

variable {ρ : Type}

/-- The loop of `processWatermarkImpl`. With `perRow` the watermark follows every new largest
event time, otherwise it stays the one projected from earlier chunks. -/
def filterRows (params : EmitParams) (window : StreamWindow) (perRow : Bool) :
    ℤ → ℤ → List (Row ρ) → FilteredRows ρ
  | maxEventTs, watermark, [] => ⟨maxEventTs, watermark, [], 0⟩
  | maxEventTs, watermark, row :: rows =>
    let eventTs := row.eventTs.toInt
    let maxEventTs' := if maxEventTs < eventTs then eventTs else maxEventTs
    let watermark' :=
      if maxEventTs < eventTs ∧ perRow then calculateWatermarkPerRow params window eventTs
      else watermark
    let rest := filterRows params window perRow maxEventTs' watermark' rows
    if eventTs < watermark' then { rest with lateEvents := rest.lateEvents + 1 }
    else { rest with kept := row :: rest.kept }

namespace WatermarkStamper

/-- `processWatermarkImpl`: filter the late rows, then project the new watermark. -/
def processWatermarkImpl (fuel : ℕ) (params : EmitParams) (window : StreamWindow)
    (perRow : Bool) (s : WatermarkStamper) (chunk : Chunk ρ) :
    Option (WatermarkStamper × Chunk ρ) := do
  let filtered := filterRows params window perRow s.maxEventTs s.watermarkTs chunk.rows
  let eventTsWatermark ←
    if perRow then some filtered.watermark
    else calculateWatermark fuel params window filtered.maxEventTs
  let s := { s with
    maxEventTs := filtered.maxEventTs
    lateEvents := s.lateEvents + filtered.lateEvents }
  let chunk := { chunk with rows := filtered.kept }
  if s.watermarkTs < eventTsWatermark then
    return ({ s with watermarkTs := eventTsWatermark },
      { chunk with watermark := some eventTsWatermark })
  else return (s, chunk)

/-- `stampIfOnUpdate`. -/
def stampIfOnUpdate (params : EmitParams) (now : ℤ) (s : WatermarkStamper) (chunk : Chunk ρ) :
    Chunk ρ :=
  if params.mode = .onUpdate ∧ chunk.watermark = .none then
    { chunk with watermark := some (if s.useEventTime then s.watermarkTs else now) }
  else chunk

/-- `processWatermark`. -/
def processWatermark (fuel : ℕ) (params : EmitParams) (now : ℤ) (s : WatermarkStamper)
    (chunk : Chunk ρ) : Option (WatermarkStamper × Chunk ρ) := do
  if chunk.rows = [] then return (s, chunk)
  let (s, chunk) ←
    match s.useEventTime, params.windowParams with
    | true, some (.session w) => s.processWatermarkImpl fuel params (.session w) true chunk
    | true, some window => s.processWatermarkImpl fuel params window false chunk
    | _, _ => some (s, chunk)
  return (s, stampIfOnUpdate params now s chunk)

/-- `processPeriodic`. -/
def processPeriodic (now : ℤ) (s : WatermarkStamper) (chunk : Chunk ρ) :
    WatermarkStamper × Chunk ρ :=
  if s.nextPeriodicEmitTs = 0 then (s, chunk)
  else if now < s.nextPeriodicEmitTs then (s, { chunk with watermark := .none })
  else
    ({ s with nextPeriodicEmitTs := now + s.periodicInterval },
      { chunk with watermark := some (if s.useEventTime then s.watermarkTs else now) })

/-- The timeout fires in this call. -/
def TimeoutEmits (now : ℤ) (s : WatermarkStamper) (chunk : Chunk ρ) : Prop :=
  s.nextTimeoutEmitTs ≠ 0 ∧ chunk.rows = [] ∧ s.nextTimeoutEmitTs ≤ now

/-- `processTimeout`. -/
def processTimeout (now : ℤ) (s : WatermarkStamper) (chunk : Chunk ρ) :
    WatermarkStamper × Chunk ρ :=
  if s.nextTimeoutEmitTs = 0 then (s, chunk)
  else if chunk.rows ≠ [] then ({ s with nextTimeoutEmitTs := now + s.timeoutInterval }, chunk)
  else if now < s.nextTimeoutEmitTs then (s, chunk)
  else
    ({ s with
        watermarkTs := toInt64 (s.maxEventTs + 1)
        nextTimeoutEmitTs := now + s.timeoutInterval },
      { chunk with watermark := some timeoutWatermark })

/-- `logLateEvents`: late rows are logged at most once in five seconds. -/
def logLateEvents (now : ℤ) (s : WatermarkStamper) : WatermarkStamper :=
  if s.lastLoggedLateEvents < s.lateEvents ∧ 5 ≤ now - s.lastLoggedLateEventsTs then
    { s with lastLoggedLateEventsTs := now, lastLoggedLateEvents := s.lateEvents }
  else s

/-- `process`; `none` when the loop of `getLastFinalizedWindow` is out of fuel. -/
def process (fuel : ℕ) (params : EmitParams) (now : Readings) (s : WatermarkStamper)
    (chunk : Chunk ρ) : Option (WatermarkStamper × Chunk ρ) := do
  let (s, chunk) ← s.processWatermark fuel params now.stampNs chunk
  let (s, chunk) := s.processPeriodic now.periodicNs chunk
  let (s, chunk) := s.processTimeout now.timeoutNs chunk
  return (s.logLateEvents now.logSeconds, chunk)

end WatermarkStamper

/-! ### Watermarks lie on the grid -/

/-- The grid of the windows; a session window has none. -/
def StreamWindow.grid? : StreamWindow → Option Grid
  | .tumble params => some params.grid
  | .hop params => some params.grid
  | .session _ => .none

/-- Windows of whole seconds or minutes whose length the time arithmetic can represent. -/
def StreamWindow.Supported : StreamWindow → Prop
  | .tumble params => params.intervalKind.EpochAligned ∧ params.grid.len < 2 ^ 63
  | .hop params => params.intervalKind.EpochAligned ∧ params.Representable
  | .session _ => False

/-- The time a watermark is projected from can be rounded to the windows' starts. -/
def StreamWindow.Rounds : StreamWindow → ℤ → Prop
  | .tumble w, eventTs => RoundsDown w.intervalKind w.windowInterval w.timeScale eventTs
  | .hop w, eventTs => RoundsDown w.intervalKind w.slideInterval w.timeScale eventTs
  | .session _, _ => True

/-- A watermark on the grid: the smallest one, or the end of a window. -/
def OnGrid (grid : Grid) (watermark : ℤ) : Prop :=
  watermark = minWatermark ∨ grid.IsEnd watermark

variable {params : EmitParams} {window : StreamWindow} {grid : Grid} {fuel : ℕ}

/-- A shifted time is an `Int64`. -/
theorem addTime_mem (lut : DateLUT) (dt : ℤ) (kind : IntervalKind) (numUnits : ℤ)
    (timeScale : ℕ) : Word.int64.Mem (addTime lut dt kind numUnits timeScale) := by
  have hwiden : ∀ x, Word.int64.Mem (toUInt32 x) := by
    intro x
    obtain ⟨hlow, hhigh⟩ : Word.uint32.Mem (toUInt32 x) := Word.wrap_mem x
    simp only [Word.Mem, Word.int64, Word.uint32] at *
    omega
  simp only [addTime, addTime32, addTime64]
  split_ifs with hscale
  · exact hwiden _
  · split <;> exact hwiden _
  · exact Word.wrap_mem _
  · split
    · split_ifs <;> exact Word.wrap_mem _
    · exact Word.wrap_mem _

/-- **A projected watermark is on the grid.** -/
theorem calculateWatermark_onGrid {eventTs watermark : ℤ} (hsupported : window.Supported)
    (hgrid : window.grid? = some grid) (hmem : Word.int64.Mem eventTs)
    (hround : window.Rounds (calculateWatermarkPerRow params window eventTs))
    (h : calculateWatermark fuel params window eventTs = some watermark) :
    OnGrid grid watermark := by
  have hdelayed : Word.int64.Mem (calculateWatermarkPerRow params window eventTs) := by
    rw [calculateWatermarkPerRow]
    split
    · exact addTime_mem ..
    · exact hmem
  cases window with
  | tumble w =>
    obtain ⟨hkind, hfit⟩ := hsupported
    obtain rfl := some.inj hgrid
    obtain rfl := some.inj h
    right
    rw [toStartTime_eq hkind w.window_pos hfit hdelayed hround]
    exact Grid.isEnd_start rfl _
  | hop w =>
    obtain ⟨hkind, hrep⟩ := hsupported
    obtain rfl := some.inj hgrid
    obtain ⟨last, hlast, rfl⟩ := map_eq_some_iff.mp h
    cases hvalid : last.isValid with
    | false => exact Or.inl rfl
    | true =>
      exact Or.inr (getLastFinalizedWindow_isEnd hkind hrep hdelayed hround hlast hvalid).1
  | session w => exact hsupported.elim

/-! ### One call -/

/-- The largest event time after a chunk. -/
def latestEventTs (maxEventTs : ℤ) (rows : List (Row ρ)) : ℤ :=
  rows.foldl (fun latest row => max latest row.eventTs.toInt) maxEventTs

/-- The loop collects the largest event time. -/
theorem filterRows_maxEventTs (perRow : Bool) (rows : List (Row ρ)) (maxEventTs watermark : ℤ) :
    (filterRows params window perRow maxEventTs watermark rows).maxEventTs =
      latestEventTs maxEventTs rows := by
  induction rows generalizing maxEventTs watermark with
  | nil => rfl
  | cons row rows ih =>
    simp only [filterRows, ← max_def_lt, apply_ite FilteredRows.maxEventTs, ite_self]
    exact ih _ _

/-- Without a watermark per row, exactly the rows below the watermark are dropped. -/
theorem filterRows_kept (rows : List (Row ρ)) (maxEventTs watermark : ℤ) :
    (filterRows params window false maxEventTs watermark rows).kept =
      rows.filter fun row => ¬ row.eventTs.toInt < watermark := by
  induction rows generalizing maxEventTs with
  | nil => rfl
  | cons row rows ih =>
    simp only [filterRows, Bool.false_eq_true, and_false, List.filter_cons]
    by_cases hlate : row.eventTs.toInt < watermark
    · simp only [hlate, if_false]
      exact ih _
    · simp only [hlate, if_false, not_false_eq_true, decide_true, if_true, ih]

/-- The largest event time is the one before the chunk or that of a row. -/
theorem latestEventTs_of_forall {p : ℤ → Prop} {rows : List (Row ρ)} {maxEventTs : ℤ}
    (h : p maxEventTs) (hrows : ∀ row ∈ rows, p row.eventTs.toInt) :
    p (latestEventTs maxEventTs rows) := by
  induction rows generalizing maxEventTs with
  | nil => exact h
  | cons row rows ih =>
    refine ih ?_ fun other hother => hrows other (List.mem_cons_of_mem _ hother)
    show p (max maxEventTs row.eventTs.toInt)
    exact max_rec' p h (hrows row List.mem_cons_self)

namespace WatermarkStamper

variable {s s' : WatermarkStamper} {chunk chunk' : Chunk ρ} {now : Readings}

/-- What a call without timeout emission does: it drops rows below the watermark only, and
moves the watermark, if at all, to the one projected from the largest event time. -/
structure Stamped (fuel : ℕ) (params : EmitParams) (window : StreamWindow)
    (s : WatermarkStamper) (chunk : Chunk ρ) (s' : WatermarkStamper) (chunk' : Chunk ρ) :
    Prop where
  /-- A dropped row is below the watermark. -/
  dropped : ∀ row ∈ chunk.rows, row ∉ chunk'.rows → row.eventTs.toInt < s.watermarkTs
  /-- The largest event time follows the rows, or the stamper ignores event times. -/
  max_eq : s'.maxEventTs = s.maxEventTs ∨
    s'.maxEventTs = latestEventTs s.maxEventTs chunk.rows
  /-- The watermark stays or is projected anew from a chunk with rows. -/
  watermark_eq : s'.watermarkTs = s.watermarkTs ∨ chunk.rows ≠ [] ∧
    calculateWatermark fuel params window (latestEventTs s.maxEventTs chunk.rows) =
      some s'.watermarkTs

/-- A call that changes nothing. -/
theorem Stamped.refl : Stamped fuel params window s chunk s chunk where
  dropped := fun _ hrow hdrop => absurd hrow hdrop
  max_eq := Or.inl rfl
  watermark_eq := Or.inl rfl

/-- What a call does depends on the rows, the watermark and the largest event time only. -/
theorem Stamped.congr {s₁ s₂ : WatermarkStamper} {chunk₁ chunk₂ : Chunk ρ}
    (h : Stamped fuel params window s chunk s₁ chunk₁) (hrows : chunk₂.rows = chunk₁.rows)
    (hwatermark : s₂.watermarkTs = s₁.watermarkTs) (hmax : s₂.maxEventTs = s₁.maxEventTs) :
    Stamped fuel params window s chunk s₂ chunk₂ where
  dropped := fun row hrow hdrop => h.dropped row hrow (by rwa [← hrows])
  max_eq := by
    rw [hmax]
    exact h.max_eq
  watermark_eq := by
    rw [hwatermark]
    exact h.watermark_eq

/-- `processWatermarkImpl` without a watermark per row. -/
theorem processWatermarkImpl_stamped (hrows : chunk.rows ≠ [])
    (h : s.processWatermarkImpl fuel params window false chunk = some (s', chunk')) :
    Stamped fuel params window s chunk s' chunk' := by
  simp only [processWatermarkImpl, Bool.false_eq_true, if_false, filterRows_maxEventTs,
    bind_eq_bind, bind_eq_some_iff] at h
  obtain ⟨watermark, hwatermark, h⟩ := h
  have hdropped : ∀ row ∈ chunk.rows,
      row ∉ (filterRows params window false s.maxEventTs s.watermarkTs chunk.rows).kept →
        row.eventTs.toInt < s.watermarkTs := by
    intro row hrow hdrop
    rw [filterRows_kept, List.mem_filter] at hdrop
    by_contra hlate
    exact hdrop ⟨hrow, decide_eq_true hlate⟩
  split at h
  next =>
    obtain ⟨rfl, rfl⟩ := Prod.mk.inj (some.inj h)
    exact ⟨hdropped, Or.inr rfl, Or.inr ⟨hrows, hwatermark⟩⟩
  next =>
    obtain ⟨rfl, rfl⟩ := Prod.mk.inj (some.inj h)
    exact ⟨hdropped, Or.inr rfl, Or.inl rfl⟩

/-- Stamping an update keeps the rows. -/
theorem stampIfOnUpdate_rows (t : ℤ) (chunk : Chunk ρ) :
    (stampIfOnUpdate params t s chunk).rows = chunk.rows := by
  rw [stampIfOnUpdate]
  split <;> rfl

variable {t : ℤ}

/-- Periodic emission touches neither the rows nor what the filter depends on. -/
theorem processPeriodic_frame (s : WatermarkStamper) (chunk : Chunk ρ) (t : ℤ) :
    (s.processPeriodic t chunk).2.rows = chunk.rows ∧
      (s.processPeriodic t chunk).1.watermarkTs = s.watermarkTs ∧
      (s.processPeriodic t chunk).1.maxEventTs = s.maxEventTs ∧
      (s.processPeriodic t chunk).1.nextTimeoutEmitTs = s.nextTimeoutEmitTs ∧
      (s.processPeriodic t chunk).1.useEventTime = s.useEventTime := by
  rw [processPeriodic]
  split_ifs <;> exact ⟨rfl, rfl, rfl, rfl, rfl⟩

/-- The timeout keeps the rows and the largest event time. It keeps watermark and chunk too, or it
fires: it sets the watermark to just after the largest event time and stamps the chunk with its own
watermark. -/
theorem processTimeout_cases (s : WatermarkStamper) (chunk : Chunk ρ) (t : ℤ) :
    (s.processTimeout t chunk).2.rows = chunk.rows ∧
      (s.processTimeout t chunk).1.useEventTime = s.useEventTime ∧
      (s.processTimeout t chunk).1.maxEventTs = s.maxEventTs ∧
      ((s.processTimeout t chunk).1.watermarkTs = s.watermarkTs ∧
          (s.processTimeout t chunk).2.watermark = chunk.watermark ∨
        s.TimeoutEmits t chunk ∧
          (s.processTimeout t chunk).1.watermarkTs = toInt64 (s.maxEventTs + 1) ∧
          (s.processTimeout t chunk).2.watermark = some timeoutWatermark) := by
  rw [processTimeout]
  split_ifs with hoff hrows hearly
  · exact ⟨rfl, rfl, rfl, .inl ⟨rfl, rfl⟩⟩
  · exact ⟨rfl, rfl, rfl, .inl ⟨rfl, rfl⟩⟩
  · exact ⟨rfl, rfl, rfl, .inl ⟨rfl, rfl⟩⟩
  · exact ⟨rfl, rfl, rfl, .inr ⟨⟨hoff, not_not.mp hrows, by omega⟩, rfl, rfl⟩⟩

/-- Logging keeps what the filter depends on. -/
theorem logLateEvents_frame (s : WatermarkStamper) (t : ℤ) :
    (s.logLateEvents t).watermarkTs = s.watermarkTs ∧
      (s.logLateEvents t).maxEventTs = s.maxEventTs ∧
      (s.logLateEvents t).useEventTime = s.useEventTime := by
  rw [logLateEvents]
  split <;> exact ⟨rfl, rfl, rfl⟩

/-- This call of `process` emits by timeout. -/
def EmitsTimeout (fuel : ℕ) (params : EmitParams) (now : Readings) (s : WatermarkStamper)
    (chunk : Chunk ρ) : Prop :=
  ∃ s₁ chunk₁, s.processWatermark fuel params now.stampNs chunk = some (s₁, chunk₁) ∧
    s₁.TimeoutEmits now.timeoutNs chunk₁

/-- The four parts of `process`, one after the other. -/
theorem process_parts (h : s.process fuel params now chunk = some (s', chunk')) :
    ∃ s₁ chunk₁ periodic timeout,
      s.processWatermark fuel params now.stampNs chunk = some (s₁, chunk₁) ∧
      s₁.processPeriodic now.periodicNs chunk₁ = periodic ∧
      periodic.1.processTimeout now.timeoutNs periodic.2 = timeout ∧
      timeout.1.logLateEvents now.logSeconds = s' ∧ timeout.2 = chunk' := by
  obtain ⟨⟨s₁, chunk₁⟩, hstamp, hout⟩ := bind_eq_some_iff.mp h
  have hpair := some.inj hout
  exact ⟨s₁, chunk₁, _, _, hstamp, rfl, rfl, congrArg Prod.fst hpair, congrArg Prod.snd hpair⟩

section

variable (hwindow : params.windowParams = some window)
include hwindow

/-- What `processWatermark` does: nothing but the stamp of an update, or it projects from the
rows. -/
theorem processWatermark_cases
    (h : s.processWatermark fuel params t chunk = some (s', chunk')) :
    (s' = s ∧ (chunk' = chunk ∨ chunk' = stampIfOnUpdate params t s chunk)) ∨
      ∃ perRow chunk₁, chunk.rows ≠ [] ∧ (perRow = true → ∃ w, window = .session w) ∧
        s.processWatermarkImpl fuel params window perRow chunk = some (s', chunk₁) ∧
        chunk' = stampIfOnUpdate params t s' chunk₁ := by
  simp only [processWatermark, hwindow] at h
  split_ifs at h with hrows
  · obtain ⟨rfl, rfl⟩ := Prod.mk.inj (some.inj h)
    exact .inl ⟨rfl, .inl rfl⟩
  cases huse : s.useEventTime with
  | false =>
    rw [huse] at h
    obtain ⟨rfl, rfl⟩ := Prod.mk.inj (some.inj h)
    exact .inl ⟨rfl, .inr rfl⟩
  | true =>
    rw [huse] at h
    obtain ⟨perRow, hperRow, hbind⟩ : ∃ perRow, (perRow = true → ∃ w, window = .session w) ∧
        ((s.processWatermarkImpl fuel params window perRow chunk).bind fun stamped =>
          some (stamped.1, stampIfOnUpdate params t stamped.1 stamped.2)) =
            some (s', chunk') := by
      cases window with
      | tumble w => exact ⟨false, by simp, h⟩
      | hop w => exact ⟨false, by simp, h⟩
      | session w => exact ⟨true, fun _ => ⟨w, rfl⟩, h⟩
    obtain ⟨⟨s₁, chunk₁⟩, hstamp, hout⟩ := bind_eq_some_iff.mp hbind
    obtain ⟨rfl, rfl⟩ := Prod.mk.inj (some.inj hout)
    exact .inr ⟨perRow, chunk₁, hrows, hperRow, hstamp, rfl⟩

/-- `processWatermark`, for a tumble or hop window. -/
theorem processWatermark_stamped
    (hgrid : window.grid? = some grid)
    (h : s.processWatermark fuel params t chunk = some (s', chunk')) :
    Stamped fuel params window s chunk s' chunk' := by
  rcases processWatermark_cases hwindow h with
    ⟨rfl, rfl | rfl⟩ | ⟨perRow, chunk₁, hrows, hperRow, hstamp, rfl⟩
  · exact Stamped.refl
  · exact Stamped.refl.congr (stampIfOnUpdate_rows t chunk) rfl rfl
  · obtain rfl : perRow = false := by
      by_contra htrue
      obtain ⟨w, rfl⟩ := hperRow (Bool.eq_true_of_not_eq_false htrue)
      simp [StreamWindow.grid?] at hgrid
    exact (processWatermarkImpl_stamped hrows hstamp).congr (stampIfOnUpdate_rows t chunk₁) rfl rfl

/-- `process`: whatever the timers do, the rows it drops are those `processWatermark` drops;
without timeout emission the watermark is the one `processWatermark` leaves. -/
theorem process_stamped
    (hgrid : window.grid? = some grid) (h : s.process fuel params now chunk = some (s', chunk')) :
    (∀ row ∈ chunk.rows, row ∉ chunk'.rows → row.eventTs.toInt < s.watermarkTs) ∧
      (¬ EmitsTimeout fuel params now s chunk → Stamped fuel params window s chunk s' chunk') := by
  obtain ⟨s₁, chunk₁, periodic, timeout, hstamp, hperiodic, htimeout, rfl, rfl⟩ := process_parts h
  have hstamped := processWatermark_stamped hwindow hgrid hstamp
  obtain ⟨hrows, hwatermark, hmax, htimer, -⟩ := processPeriodic_frame s₁ chunk₁ now.periodicNs
  rw [hperiodic] at hrows hwatermark hmax htimer
  obtain ⟨hrows', -, hmax', hcases⟩ := processTimeout_cases periodic.1 periodic.2 now.timeoutNs
  rw [htimeout] at hrows' hmax' hcases
  obtain ⟨hwatermark'', hmax'', -⟩ := logLateEvents_frame timeout.1 now.logSeconds
  constructor
  · intro row hrow hdrop
    refine hstamped.dropped row hrow ?_
    rwa [← hrows, ← hrows']
  · intro hno
    have hquiet : ¬ periodic.1.TimeoutEmits now.timeoutNs periodic.2 := by
      rintro ⟨hon, hempty, hlate⟩
      rw [htimer] at hon hlate
      rw [hrows] at hempty
      exact hno ⟨s₁, chunk₁, hstamp, hon, hempty, hlate⟩
    refine hstamped.congr (hrows'.trans hrows) ?_ ?_
    · rw [hwatermark'', (hcases.resolve_right fun h => hquiet h.1).1, hwatermark]
    · rw [hmax'', hmax', hmax]

end

/-! ### Runs -/

/-- A call in a run: no timeout fires, and the time the watermark is projected from can be
rounded to the windows. -/
def Step (ρ : Type) (params : EmitParams) (window : StreamWindow) (s s' : WatermarkStamper) :
    Prop :=
  ∃ (fuel : ℕ) (now : Readings) (chunk chunk' : Chunk ρ),
    ¬ EmitsTimeout fuel params now s chunk ∧
    (chunk.rows ≠ [] → window.Rounds
      (calculateWatermarkPerRow params window (latestEventTs s.maxEventTs chunk.rows))) ∧
    s.process fuel params now chunk = some (s', chunk')

/-- The states of a stamper that has processed any number of chunks. -/
def Reachable (ρ : Type) (params : EmitParams) (window : StreamWindow)
    (s : WatermarkStamper) : Prop :=
  ∃ headerHasColumn now s₀, preProcess params headerHasColumn now = .ok s₀ ∧
    Relation.ReflTransGen (Step ρ params window) s₀ s

/-- A stamper that has seen no event and projected no watermark. -/
def Fresh (s : WatermarkStamper) : Prop :=
  s.maxEventTs = invalidWatermark ∧ s.watermarkTs = minWatermark

variable {headerHasColumn : Bool}

/-- Looking up the column keeps a stamper fresh. -/
theorem Fresh.findTimeColumn (hfresh : s.Fresh)
    (h : s.findTimeColumn params headerHasColumn = .ok s') : s'.Fresh := by
  simp only [WatermarkStamper.findTimeColumn] at h
  split_ifs at h <;> obtain rfl := Except.ok.inj h <;> exact hfresh

/-- The part that depends on the mode keeps a stamper fresh. -/
theorem Fresh.preProcessMode (hfresh : s.Fresh)
    (h : s.preProcessMode params headerHasColumn t = .ok s') : s'.Fresh := by
  simp only [WatermarkStamper.preProcessMode] at h
  split at h
  case h_4 =>
    obtain ⟨s₁, htimer, hcolumn⟩ := bind_eq_ok.mp h
    refine Fresh.findTimeColumn ?_ hcolumn
    simp only [startPeriodicTimer] at htimer
    split_ifs at htimer
    · obtain ⟨_, -, hset⟩ := bind_eq_ok.mp htimer
      obtain rfl := Except.ok.inj hset
      exact hfresh
    · obtain rfl := Except.ok.inj htimer
      exact hfresh
  all_goals
    obtain rfl := Except.ok.inj h
    exact hfresh

/-- A prepared stamper is fresh. -/
theorem preProcess_fresh (h : preProcess params headerHasColumn t = .ok s) : s.Fresh := by
  obtain ⟨s₁, hmode, htimeout⟩ := bind_eq_ok.mp h
  have hfresh : s₁.Fresh := Fresh.preProcessMode ⟨rfl, rfl⟩ hmode
  split_ifs at htimeout
  · obtain ⟨_, -, hset⟩ := bind_eq_ok.mp htimeout
    obtain rfl := Except.ok.inj hset
    exact hfresh
  · obtain rfl := Except.ok.inj htimeout
    exact hfresh

/-- What every call preserves: the watermark is on the grid. -/
def Aligned (grid : Grid) (s : WatermarkStamper) : Prop :=
  OnGrid grid s.watermarkTs ∧ Word.int64.Mem s.maxEventTs

section

variable (hwindow : params.windowParams = some window)
  (hsupported : window.Supported)
  (hgrid : window.grid? = some grid)
include hwindow hsupported hgrid

/-- One call keeps the watermark on the grid. -/
theorem Aligned.step (hs : s.Aligned grid)
    (hstep : Step ρ params window s s') : s'.Aligned grid := by
  obtain ⟨fuel, now, chunk, chunk', hquiet, hround, hprocess⟩ := hstep
  obtain ⟨hwatermark, hmem⟩ := hs
  have hlatest : Word.int64.Mem (latestEventTs s.maxEventTs chunk.rows) :=
    latestEventTs_of_forall hmem fun row _ =>
      ⟨Int64.le_toInt row.eventTs, Int64.toInt_lt row.eventTs⟩
  have hstamped := (process_stamped hwindow hgrid hprocess).2 hquiet
  constructor
  · rcases hstamped.watermark_eq with hsame | ⟨hrows, hnew⟩
    · rwa [hsame]
    · exact calculateWatermark_onGrid hsupported hgrid hlatest (hround hrows) hnew
  · rcases hstamped.max_eq with hsame | hnew
    · rwa [hsame]
    · rwa [hnew]

/-- In every reachable state the watermark is on the grid. -/
theorem Reachable.aligned (hs : Reachable ρ params window s) : s.Aligned grid := by
  obtain ⟨headerHasColumn, t, s₀, hinit, hrun⟩ := hs
  induction hrun with
  | refl =>
    obtain ⟨hmax, hwatermark⟩ := preProcess_fresh hinit
    refine ⟨Or.inl hwatermark, ?_⟩
    rw [hmax]
    decide
  | tail _ hstep ih => exact ih.step hwindow hsupported hgrid hstep

end

/-- **A dropped row is covered.** In every state reached without timeout emission, a row
that the next call drops lies in a window that ends at or before the watermark; when the
windows tile the line, every window that contains the row does. -/
theorem dropped_row_covered (hwindow : params.windowParams = some window)
    (hsupported : window.Supported) (hgrid : window.grid? = some grid)
    (hs : Reachable ρ params window s)
    (hprocess : s.process fuel params now chunk = some (s', chunk')) {row : Row ρ}
    (hrow : row ∈ chunk.rows) (hts : row.eventTs.toInt ≠ invalidWatermark)
    (hdropped : row ∉ chunk'.rows) :
    (∃ k, grid.Contains k row.eventTs.toInt ∧ grid.stop k ≤ s.watermarkTs) ∧
      (grid.slide = grid.len →
        ∀ k, grid.Contains k row.eventTs.toInt → grid.stop k ≤ s.watermarkTs) := by
  have hlate := (process_stamped hwindow hgrid hprocess).1 row hrow hdropped
  obtain ⟨hwatermark | hend, _⟩ := hs.aligned hwindow hsupported hgrid
  · -- No event time but the excluded sentinel is below the smallest watermark.
    have hlow := Int64.le_toInt row.eventTs
    simp only [hwatermark, minWatermark, invalidWatermark] at hlate hts
    omega
  · exact ⟨Grid.exists_window_of_lt_end hend hlate,
      fun htile k hk => Grid.window_end_le htile hend hlate hk⟩

/-- Tables for queries that look nothing up in them. -/
def emptyTables : DateLUT := ⟨fun _ t _ => t, fun _ t _ => t⟩

/-- `hop` over a column of whole seconds. -/
def hopSeconds (slide window : ℤ) (hpos : 0 < slide) (hle : slide ≤ window) : HopWindowParams where
  timeScale := 0
  timeZone := emptyTables
  windowInterval := window
  slideInterval := slide
  intervalKind := .second
  slide_pos := hpos
  slide_le := hle

/-- Windows of five seconds that start every second, emitted when they close. -/
def fiveByOne : HopWindowParams := hopSeconds 1 5 (by decide) (by decide)

/-- The query over those windows. -/
def fiveByOneEmit : EmitParams :=
  { windowParams := some (.hop fiveByOne), mode := .afterWindowClose }

/-- A clock that stands still. -/
def still : Readings := ⟨0, 0, 0, 0⟩

/-- The stamper of that query after one row at second ten: the window `[5, 10)` is closed. -/
def atTen : WatermarkStamper := { useEventTime := true, maxEventTs := 10, watermarkTs := 10 }

/-- One row at second ten leads there. -/
theorem reachable_atTen : Reachable Unit fiveByOneEmit (.hop fiveByOne) atTen := by
  refine ⟨true, 0, { useEventTime := true }, rfl, Relation.ReflTransGen.single ?_⟩
  refine ⟨10, still, ⟨[⟨10, ()⟩], .none⟩, ⟨[⟨10, ()⟩], some 10⟩, ?_, ?_, by decide⟩
  · rintro ⟨s₁, chunk₁, hstamp, htimer, _⟩
    have hout : processWatermark 10 fiveByOneEmit 0 { useEventTime := true }
        ⟨[⟨10, ()⟩], .none⟩ = some (atTen, ⟨[⟨10, ()⟩], some 10⟩) := by decide
    obtain ⟨rfl, _⟩ := Prod.mk.inj (some.inj (hout.symm.trans hstamp))
    exact htimer rfl
  · intro _
    show RoundsDown _ _ _ _
    decide

/-- The late row at second nine is dropped. -/
theorem process_atTen_nine : atTen.process 10 fiveByOneEmit still ⟨[⟨9, ()⟩], .none⟩ =
    some ({ atTen with lateEvents := 1 }, ⟨[], .none⟩) := by decide

/-- The general statement at a late row: the window `[5, 10)` contains second nine and ends
at the watermark. -/
theorem dropped_row_covered_at_nine :
    ∃ k, fiveByOne.grid.Contains k 9 ∧ fiveByOne.grid.stop k ≤ atTen.watermarkTs := by
  have hsupported : StreamWindow.Supported (.hop fiveByOne) := ⟨by decide, by decide⟩
  have hrow : (⟨9, ()⟩ : Row Unit) ∈ [(⟨9, ()⟩ : Row Unit)] := by decide
  exact (dropped_row_covered rfl hsupported rfl reachable_atTen process_atTen_nine hrow
    (by decide) (by decide)).1

/-- Windows a little longer than the range of `UInt32`, every five seconds. -/
def overlong : HopWindowParams := hopSeconds 5 4294967297 (by decide) (by decide)

/-- The query over those windows. -/
def overlongEmit : EmitParams := { windowParams := some (.hop overlong), mode := .afterWindowClose }

/-- **A dropped row can lie in an open window.** With overlapping windows, the row at second
nine is dropped at watermark ten although the window `[9, 14)` contains it. With windows
longer than the range of the column, the row at second five is dropped at watermark six
although no window with it ends before second seven. -/
theorem dropped_row_in_open_window :
    (∃ s s' : WatermarkStamper, Reachable Unit fiveByOneEmit (.hop fiveByOne) s ∧
      s.process 10 fiveByOneEmit still ⟨[⟨9, ()⟩], .none⟩ = some (s', ⟨[], .none⟩) ∧
      fiveByOne.grid.Contains 9 9 ∧ s.watermarkTs < fiveByOne.grid.stop 9) ∧
    (∃ s s' : WatermarkStamper, Reachable Unit overlongEmit (.hop overlong) s ∧
      s.process 10 overlongEmit still ⟨[⟨5, ()⟩], .none⟩ = some (s', ⟨[], .none⟩) ∧
      ∀ k, overlong.grid.Contains k 5 → s.watermarkTs < overlong.grid.stop k) := by
  refine ⟨⟨atTen, _, reachable_atTen, process_atTen_nine, ?_, ?_⟩, ?_⟩
  · simp only [Grid.Contains]
    decide
  · decide
  · refine ⟨{ useEventTime := true, maxEventTs := 7, watermarkTs := 6 }, _,
      ⟨true, 0, { useEventTime := true }, rfl, Relation.ReflTransGen.single
        ⟨10, still, ⟨[⟨7, ()⟩], .none⟩, ⟨[⟨7, ()⟩], some 6⟩, ?_, ?_, by decide⟩⟩,
      rfl, ?_⟩
    · rintro ⟨s₁, chunk₁, hstamp, htimer, _⟩
      have hout : processWatermark 10 overlongEmit 0 { useEventTime := true }
          ⟨[⟨7, ()⟩], .none⟩ = some ({ useEventTime := true, maxEventTs := 7, watermarkTs := 6 },
            ⟨[⟨7, ()⟩], some 6⟩) := by decide
      obtain ⟨rfl, _⟩ := Prod.mk.inj (some.inj (hout.symm.trans hstamp))
      exact htimer rfl
    · intro _
      show RoundsDown _ _ _ _
      decide
    · rintro k ⟨_, hstop⟩
      have hslide : overlong.grid.slide = 5 := rfl
      have hlen : overlong.grid.len = 4294967297 := rfl
      simp only [Grid.stop, hslide] at *
      omega

end WatermarkStamper

end Proton.Streaming
