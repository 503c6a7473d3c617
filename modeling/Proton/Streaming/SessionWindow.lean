import Proton.Streaming.HopWindow

/-!
# Session Windows

A session opens with a row that meets the start condition and takes every row until one
meets the end condition, comes a timeout after the rows before, or comes when the session
has reached its largest size. `SessionWindowHelper.cpp` keeps the sessions in a queue; only
the session at its back is ever open. The row that closes a session may belong to it, and
may open the next one, so a row has no, one or two sessions.

A session that closed before it took a row is used again by the next row that opens one, with
the end it was closed with.

Three fields of a session are not in the source and no branch reads them: the row that opened
it, the rows it took and the row that closed it.

## Main results

* `SessionWindowParams.shift_eq`: for the interval kinds that are not shifted in the calendar,
  timeout and size are a number of ticks of the column.
* `SessionWindowParams.advances_of_ticks`: when that number is positive and the sum fits the
  column, a timeout lies after its row and no later than the largest size.
-/

namespace Proton.Streaming

/-! ### Parameters -/

/-- The parameters of `session`; the constructor refuses intervals that are not positive and a
timeout longer than the largest size. -/
structure SessionWindowParams extends WindowParams where
  /-- The number of interval units of the timeout. -/
  sessionTimeout : ℤ
  /-- The number of interval units of the largest size. -/
  maxSessionSize : ℤ
  /-- The interval unit of both. -/
  intervalKind : IntervalKind
  /-- The row that opens a session belongs to it. -/
  startWithInclusion : Bool := true
  /-- The row that meets the end condition belongs to the session it closes. -/
  endWithInclusion : Bool := false
  /-- The event time column is a `DateTime64`. -/
  timeColIsDatetime64 : Bool
  /-- Timeouts are not empty. -/
  timeout_pos : 0 < sessionTimeout
  /-- A session can be as long as its timeout. -/
  timeout_le : sessionTimeout ≤ maxSessionSize

namespace SessionWindowParams

variable (params : SessionWindowParams)

/-- The type of the event times. -/
def word : Word := if params.timeColIsDatetime64 then Word.int64 else Word.uint32

/-- `AddTime::execute` for the type of the column. -/
def shift (eventTs numUnits : ℤ) : ℤ :=
  if params.timeColIsDatetime64 then
    addTime64 params.timeZone eventTs params.intervalKind numUnits params.timeScale
  else addTime32 params.timeZone eventTs params.intervalKind numUnits

/-- The time a timeout after an event time. -/
def timeoutAfter (eventTs : ℤ) : ℤ := params.shift eventTs params.sessionTimeout

/-- The time the largest size after an event time. -/
def sizeAfter (eventTs : ℤ) : ℤ := params.shift eventTs params.maxSessionSize

/-! ### Times that advance -/

/-- **Event times that advance**: positive, with a next tick and a timeout that the column can
represent, and a largest size no shorter than the timeout. -/
structure Advances (times : ℤ → Prop) : Prop where
  /-- Zero stands for no row. -/
  pos : ∀ t, times t → 0 < t
  /-- The next tick is a value of the column. -/
  next : ∀ t, times t → params.word.wrap (t + 1) = t + 1
  /-- The timeout lies after the time. -/
  timeout : ∀ t, times t → t < params.timeoutAfter t
  /-- The largest size is no shorter. -/
  size : ∀ t, times t → params.timeoutAfter t ≤ params.sizeAfter t

/-- The ticks of the column in a number of interval units. -/
def ticks (numUnits : ℤ) : ℤ :=
  if params.timeColIsDatetime64 then
    match params.intervalKind.subsecondScale with
    | some intervalScale =>
      if intervalScale ≤ params.timeScale then
        numUnits * 10 ^ (params.timeScale - intervalScale)
      else numUnits.tdiv (10 ^ (intervalScale - params.timeScale))
    | none => numUnits * params.intervalKind.seconds * 10 ^ params.timeScale
  else
    match params.intervalKind.subsecondScale with
    | some intervalScale => numUnits.tdiv (10 ^ intervalScale)
    | none => params.intervalKind.seconds * numUnits

/-- A positive time whose largest size fits the column. -/
def Fits (t : ℤ) : Prop :=
  0 < t ∧ t + params.ticks params.maxSessionSize < params.word.lo + params.word.card
deriving Decidable

variable {params}

/-- Shifting by an interval that is not of the calendar adds its ticks. -/
theorem shift_eq (hdate : params.intervalKind.isDate = false) (eventTs numUnits : ℤ) :
    params.shift eventTs numUnits = params.word.wrap (eventTs + params.ticks numUnits) := by
  simp only [shift, ticks, word, addTime64, addTime32, hdate, Bool.false_eq_true, if_false]
  cases params.intervalKind.subsecondScale with
  | none => split_ifs <;> rfl
  | some intervalScale =>
    dsimp only
    split_ifs <;> rfl

/-- Truncated division of numbers that are not negative follows their order. -/
theorem tdiv_le_tdiv {a b c : ℤ} (ha : 0 ≤ a) (hab : a ≤ b) (hc : 0 < c) : a.tdiv c ≤ b.tdiv c := by
  rw [Int.tdiv_eq_ediv_of_nonneg ha, Int.tdiv_eq_ediv_of_nonneg (ha.trans hab)]
  exact Int.ediv_le_ediv hc hab

/-- The largest size has at least the ticks of the timeout. -/
theorem ticks_timeout_le :
    params.ticks params.sessionTimeout ≤ params.ticks params.maxSessionSize := by
  have hpos := le_of_lt params.timeout_pos
  have hle := params.timeout_le
  have hten : ∀ n : ℕ, (0 : ℤ) < 10 ^ n := fun n => Int.pow_pos (by decide)
  have hunit := le_of_lt params.intervalKind.seconds_pos
  simp only [ticks]
  cases params.intervalKind.subsecondScale with
  | none =>
    split_ifs
    · exact Int.mul_le_mul_of_nonneg_right (Int.mul_le_mul_of_nonneg_right hle hunit)
        (le_of_lt (hten _))
    · exact Int.mul_le_mul_of_nonneg_left hle hunit
  | some intervalScale =>
    dsimp only
    split_ifs
    · exact Int.mul_le_mul_of_nonneg_right hle (le_of_lt (hten _))
    · exact tdiv_le_tdiv hpos hle (hten _)
    · exact tdiv_le_tdiv hpos hle (hten _)

/-- Times that fit advance when the timeout has a tick at least. -/
theorem advances_of_ticks (hdate : params.intervalKind.isDate = false)
    (htick : 0 < params.ticks params.sessionTimeout) : params.Advances params.Fits := by
  have hsize : params.ticks params.sessionTimeout ≤ params.ticks params.maxSessionSize :=
    ticks_timeout_le
  have hlo : params.word.lo ≤ 0 := by
    rw [word]
    split_ifs <;> decide
  have hwrap : ∀ t d, 0 < t → 0 ≤ d → d ≤ params.ticks params.maxSessionSize →
      t + params.ticks params.maxSessionSize < params.word.lo + params.word.card →
      params.word.wrap (t + d) = t + d := by
    intro t d ht hd hle htop
    exact Word.wrap_of_mem ⟨by omega, by omega⟩
  refine ⟨fun t ht => ht.1, fun t ht => hwrap t 1 ht.1 (by decide) (by omega) ht.2, ?_, ?_⟩
  · intro t ht
    rw [timeoutAfter, shift_eq hdate, hwrap t _ ht.1 (le_of_lt htick) hsize ht.2]
    omega
  · intro t ht
    rw [timeoutAfter, sizeAfter, shift_eq hdate, shift_eq hdate,
      hwrap t _ ht.1 (le_of_lt htick) hsize ht.2, hwrap t _ ht.1 (by omega) (le_refl _) ht.2]
    omega

end SessionWindowParams

/-! ### Sessions -/

/-- `SessionInfo`. -/
structure SessionInfo where
  /-- The identifier, also the bucket of the session's data. -/
  id : ℤ := 0
  /-- The first row, or zero while there is none. -/
  winStart : ℤ := 0
  /-- The first time after the session. -/
  winEnd : ℤ := 0
  /-- A row at or after this time closes the session. -/
  timeoutTs : ℤ := 0
  /-- So does a row at or after this time. -/
  maxSessionTs : ℤ := 0
  /-- The session takes rows. -/
  active : Bool := false
  /-- The row that opened the session. -/
  opened : ℤ := 0
  /-- The rows of the session, latest first. -/
  rows : List ℤ := []
  /-- The row that closed the session. -/
  closedBy : ℤ := 0
  deriving DecidableEq, Repr

/-- The identifier as a value of the column. -/
def SessionInfo.columnId (params : SessionWindowParams) (info : SessionInfo) : ℤ :=
  params.word.wrap info.id

/-- A row: its event time and what the conditions say about it. -/
structure SessionRow where
  /-- The event time. -/
  eventTs : ℤ
  /-- The row meets the start condition. -/
  sessionStart : Bool := false
  /-- The row meets the end condition. -/
  sessionEnd : Bool := false
  deriving DecidableEq, Repr

namespace SessionInfo

variable (params : SessionWindowParams)

/-- `keep_row`: the first row starts the window; a row past the end extends it and moves the
timeout. -/
def keepRow (eventTs : ℤ) (info : SessionInfo) : SessionInfo :=
  let info := if info.winStart = 0 then { info with winStart := eventTs } else info
  let info :=
    if info.winEnd ≤ eventTs then
      { info with
        winEnd := params.word.wrap (eventTs + 1)
        timeoutTs := params.timeoutAfter eventTs }
    else info
  { info with rows := eventTs :: info.rows }

/-- Make a session inactive. -/
def close (eventTs winEnd : ℤ) (info : SessionInfo) : SessionInfo :=
  { info with winEnd, active := false, closedBy := eventTs }

/-- `try_close_session_for_oversize`. -/
def tryCloseForOversize (eventTs : ℤ) (info : SessionInfo) : Option SessionInfo :=
  if info.maxSessionTs ≤ eventTs then some (info.close eventTs info.maxSessionTs) else none

/-- `try_close_session_for_timeout`. -/
def tryCloseForTimeout (eventTs : ℤ) (info : SessionInfo) : Option SessionInfo :=
  if info.timeoutTs ≤ eventTs then some (info.close eventTs info.timeoutTs) else none

/-- `try_close_session_for_predication`: without inclusion the row is not kept but still
extends the window. -/
def tryCloseForPredication (row : SessionRow) (info : SessionInfo) :
    Option (SessionInfo × List ℤ) :=
  if row.sessionEnd then
    if params.endWithInclusion then
      let info := info.keepRow params row.eventTs
      some (info.close row.eventTs info.winEnd, [info.columnId params])
    else some (info.close row.eventTs (max info.winEnd row.eventTs), [])
  else none

/-- The three ways to close a session, in the order in which they are tried, with the
sessions the row is added to. -/
def tryClose (row : SessionRow) (info : SessionInfo) : Option (SessionInfo × List ℤ) :=
  ((info.tryCloseForOversize row.eventTs).map fun closed => (closed, [])) <|>
    ((info.tryCloseForTimeout row.eventTs).map fun closed => (closed, [])) <|>
      info.tryCloseForPredication params row

end SessionInfo

/-! ### The queue -/

/-- The queue of sessions while rows are assigned: `info` is the session at the back. -/
structure SessionQueue where
  /-- The sessions before the back. -/
  older : List SessionInfo := []
  /-- The session at the back. -/
  info : Option SessionInfo := none
  deriving DecidableEq, Repr

namespace SessionQueue

/-- The sessions from front to back. -/
def sessions (q : SessionQueue) : List SessionInfo := q.older ++ q.info.toList

/-- The queue at the start of a chunk. -/
def ofSessions (sessions : List SessionInfo) : SessionQueue :=
  { older := sessions.dropLast, info := sessions.getLast? }

variable (params : SessionWindowParams)

/-- The session that opens next: the one at the back when it is empty, else a new one. -/
def nextSession (q : SessionQueue) : SessionInfo :=
  match q.info with
  | some info => if info.winStart = 0 then info else { id := info.id + 1 }
  | none => { id := 1 }

/-- The sessions before it. -/
def beforeNext (q : SessionQueue) : List SessionInfo :=
  match q.info with
  | some info => if info.winStart = 0 then q.older else q.older ++ [info]
  | none => q.older

/-- `open_session`, with the sessions the row is added to. -/
def openSession (eventTs : ℤ) (q : SessionQueue) : SessionQueue × List ℤ :=
  let info := { q.nextSession with
    active := true
    timeoutTs := params.timeoutAfter eventTs
    maxSessionTs := params.sizeAfter eventTs
    opened := eventTs }
  if params.startWithInclusion then
    ({ q with older := q.beforeNext, info := some (info.keepRow params eventTs) },
      [info.columnId params])
  else ({ q with older := q.beforeNext, info := some info }, [])

/-- Open a session when the row meets the start condition. -/
def openIfStart (row : SessionRow) (q : SessionQueue) : SessionQueue × List ℤ :=
  if row.sessionStart then q.openSession params row.eventTs else (q, [])

/-- One turn of the loop of `calculateSessionIdColumnImpl`, with the sessions the row is
added to. -/
def processRow (q : SessionQueue) (row : SessionRow) : SessionQueue × List ℤ :=
  match q.info with
  | some info =>
    if info.active then
      match info.tryClose params row with
      | some (closed, ids) =>
        let opened := openIfStart params row { q with info := some closed }
        (opened.1, ids ++ opened.2)
      | none =>
        ({ q with info := some (info.keepRow params row.eventTs) }, [info.columnId params])
    else q.openIfStart params row
  | none => q.openIfStart params row

/-- The loop of `calculateSessionIdColumnImpl`. -/
def processRows : SessionQueue → List SessionRow → SessionQueue × List (List ℤ)
  | q, [] => (q, [])
  | q, row :: rows =>
    let first := q.processRow params row
    let rest := processRows first.1 rows
    (rest.1, first.2 :: rest.2)

end SessionQueue

/-- `calculateSessionIdColumnImpl`: assign the rows of a chunk; for each row the sessions it
belongs to. -/
def calculateSessionIdColumn (params : SessionWindowParams) (sessions : List SessionInfo)
    (rows : List SessionRow) : SessionQueue × List (List ℤ) :=
  (SessionQueue.ofSessions sessions).processRows params rows

/-- The loop of `removeExpiredSessions`, with the identifier of the last removed session. -/
def removeExpiredSessions (finalizedWatermark : ℤ) :
    ℤ → List SessionInfo → ℤ × List SessionInfo
  | lastExpired, [] => (lastExpired, [])
  | lastExpired, session :: sessions =>
    if session.active ∧ finalizedWatermark < session.winEnd then
      (lastExpired, session :: sessions)
    else removeExpiredSessions finalizedWatermark session.id sessions

end Proton.Streaming
