import Mathlib.Data.List.Basic
import Proton.Lib.GuardedRun
import Proton.Streaming.SessionWindow

/-!
# Sessions Contain Their Rows

What the boundaries of a session say about its rows, over every run of the queue: chunks of
rows, the removal of expired sessions and the forced close of a timeout.

An open session ends one tick after its latest row and times out a timeout after it
(`SessionInfo.Open`). From this each of the three ways to close gives an end after all rows.
The size is tested before the timeout, though: a row that comes after both closes the session
at its largest size, past the timeout.

Two things are asked of the rows. The start of a session is its first row, not its earliest,
so no later row may come before it. And an empty session that is used again keeps the end it
was closed with, so its first row may not come before that end. Rows in the order of time do
neither.

## Main results

* `SessionQueue.Tracked.processRow`: one row keeps the invariant.
* `sessions_contain_rows`: in every run, a session that is closed contains its rows, ends by
  its largest size, and ends by its timeout unless a row at or after its largest size closed
  it.
-/

open List

namespace Proton.Streaming

variable {params : SessionWindowParams} {times : ℤ → Prop}

/-! ### Statements about one session -/

namespace SessionInfo

/-- The latest row of a session. -/
def Latest (s : SessionInfo) (latest : ℤ) : Prop :=
  latest ∈ s.rows ∧ ∀ t ∈ s.rows, t ≤ latest
deriving Decidable

/-- The session has taken no row. -/
structure Empty (s : SessionInfo) : Prop where
  /-- There are no rows. -/
  rows_eq : s.rows = []
  /-- The start is not set. -/
  winStart_eq : s.winStart = 0

/-- **An open session with rows**: it ends one tick after the latest. -/
structure Open (params : SessionWindowParams) (times : ℤ → Prop) (s : SessionInfo) (latest : ℤ) :
    Prop where
  /-- The latest row is the latest. -/
  isLatest : s.Latest latest
  /-- It is an event time of the run. -/
  latest_times : times latest
  /-- The start is set. -/
  winStart_ne : s.winStart ≠ 0
  /-- No row comes before the start. -/
  winStart_le : ∀ t ∈ s.rows, s.winStart ≤ t
  /-- The session ends after the latest row. -/
  winEnd_eq : s.winEnd = latest + 1
  /-- It times out a timeout after the latest row. -/
  timeoutTs_eq : s.timeoutTs = params.timeoutAfter latest
  /-- The latest row comes before the largest size is reached. -/
  latest_lt : latest < s.maxSessionTs

/-- **The boundaries of a session contain its rows**, and are those of timeout and size,
whichever is less; but a row at or after the largest size closes the session there. -/
structure Contains (params : SessionWindowParams) (s : SessionInfo) : Prop where
  /-- The rows lie between start and end. -/
  rows : ∀ t ∈ s.rows, s.winStart ≤ t ∧ t < s.winEnd
  /-- The session ends by its largest size. -/
  size : s.winEnd ≤ params.sizeAfter s.opened
  /-- It ends by its timeout, unless it was closed for its size. -/
  timeout : ∀ latest, s.Latest latest → s.winEnd ≤ params.timeoutAfter latest ∨
    params.sizeAfter s.opened ≤ s.closedBy ∧ s.winEnd = params.sizeAfter s.opened

/-- **What holds of every session** in the queue. -/
structure Tracked (params : SessionWindowParams) (times : ℤ → Prop) (s : SessionInfo) : Prop where
  /-- The largest size is counted from the row that opened the session. -/
  maxSessionTs_eq : s.active = true → s.maxSessionTs = params.sizeAfter s.opened
  /-- An active session is empty or open. -/
  open_of_active : s.active = true → s.Empty ∨ ∃ latest, s.Open params times latest
  /-- An inactive session is empty or contains its rows. -/
  contains_of_inactive : s.active = false →
    s.Empty ∨ s.winStart ≠ 0 ∧ s.Contains params

variable {s : SessionInfo} {latest eventTs : ℤ}

/-- There is one latest row. -/
theorem Latest.unique {latest' : ℤ} (h : s.Latest latest) (h' : s.Latest latest') :
    latest = latest' :=
  le_antisymm (h'.2 latest h.1) (h.2 latest' h'.1)

/-! ### Keeping a row -/

/-- Keeping a row touches neither the identifier nor what opening the session has set. -/
theorem keepRow_frame (params : SessionWindowParams) (s : SessionInfo) (eventTs : ℤ) :
    (s.keepRow params eventTs).id = s.id ∧ (s.keepRow params eventTs).active = s.active ∧
      (s.keepRow params eventTs).opened = s.opened ∧
      (s.keepRow params eventTs).maxSessionTs = s.maxSessionTs := by
  simp only [SessionInfo.keepRow]
  split_ifs <;> exact ⟨rfl, rfl, rfl, rfl⟩

/-- The first row of a session. -/
theorem Empty.keepRow (hadv : params.Advances times) (hempty : s.Empty) (ht : times eventTs)
    (hend : s.winEnd ≤ eventTs) (hsize : eventTs < s.maxSessionTs) :
    (s.keepRow params eventTs).Open params times eventTs := by
  have hkeep : s.keepRow params eventTs = { s with
      winStart := eventTs
      winEnd := eventTs + 1
      timeoutTs := params.timeoutAfter eventTs
      rows := [eventTs] } := by
    simp only [SessionInfo.keepRow, hempty.winStart_eq, hempty.rows_eq, if_true, if_pos hend,
      hadv.next eventTs ht]
  rw [hkeep]
  have hpos := hadv.pos eventTs ht
  refine ⟨⟨mem_cons_self, ?_⟩, ht, ?_, ?_, rfl, rfl, hsize⟩
  · simp
  · exact ne_of_gt hpos
  · simp

/-- A further row of a session. -/
theorem Open.keepRow (hadv : params.Advances times) (hopen : s.Open params times latest)
    (ht : times eventTs) (hstart : s.winStart ≤ eventTs) (hsize : eventTs < s.maxSessionTs) :
    (s.keepRow params eventTs).Open params times (max latest eventTs) := by
  by_cases hlate : s.winEnd ≤ eventTs
  · -- The row is later than all before and moves end and timeout.
    have hkeep : s.keepRow params eventTs = { s with
        winEnd := eventTs + 1
        timeoutTs := params.timeoutAfter eventTs
        rows := eventTs :: s.rows } := by
      simp only [SessionInfo.keepRow, if_neg hopen.winStart_ne, if_pos hlate, hadv.next eventTs ht]
    have hle : latest ≤ eventTs := by
      have := hopen.winEnd_eq
      omega
    rw [hkeep, max_eq_right hle]
    refine ⟨⟨mem_cons_self, ?_⟩, ht, hopen.winStart_ne, ?_, rfl, rfl, hsize⟩
    · intro t hmem
      rcases mem_cons.mp hmem with rfl | hmem
      · exact le_refl _
      · exact (hopen.isLatest.2 t hmem).trans hle
    · intro t hmem
      rcases mem_cons.mp hmem with rfl | hmem
      · exact hstart
      · exact hopen.winStart_le t hmem
  · have hkeep : s.keepRow params eventTs = { s with rows := eventTs :: s.rows } := by
      simp only [SessionInfo.keepRow, if_neg hopen.winStart_ne, if_neg hlate]
    have hle : eventTs ≤ latest := by
      have := hopen.winEnd_eq
      omega
    rw [hkeep, max_eq_left hle]
    refine ⟨⟨mem_cons_of_mem _ hopen.isLatest.1, ?_⟩, hopen.latest_times,
      hopen.winStart_ne, ?_, hopen.winEnd_eq, hopen.timeoutTs_eq, hopen.latest_lt⟩
    · intro t hmem
      rcases mem_cons.mp hmem with rfl | hmem
      · exact hle
      · exact hopen.isLatest.2 t hmem
    · intro t hmem
      rcases mem_cons.mp hmem with rfl | hmem
      · exact hstart
      · exact hopen.winStart_le t hmem

/-! ### Closing a session -/

/-- A session that closes at a time after its latest row and by its largest size, and by its
timeout or for its size. -/
theorem Open.contains_close (hopen : s.Open params times latest)
    (hmax : s.maxSessionTs = params.sizeAfter s.opened) {winEnd : ℤ} (hlatest : latest < winEnd)
    (hsize : winEnd ≤ s.maxSessionTs)
    (htimeout : winEnd ≤ params.timeoutAfter latest ∨
      s.maxSessionTs ≤ eventTs ∧ winEnd = s.maxSessionTs) :
    (s.close eventTs winEnd).Contains params where
  rows := fun t hmem =>
    ⟨hopen.winStart_le t hmem, lt_of_le_of_lt (hopen.isLatest.2 t hmem) hlatest⟩
  size := hmax ▸ hsize
  timeout := by
    intro latest' hlatest'
    obtain rfl : latest = latest' := hopen.isLatest.unique hlatest'
    rw [hmax] at htimeout
    exact htimeout

/-- The tests one after the other. -/
theorem tryClose_eq (row : SessionRow) :
    s.tryClose params row =
      if s.maxSessionTs ≤ row.eventTs then some (s.close row.eventTs s.maxSessionTs, [])
      else if s.timeoutTs ≤ row.eventTs then some (s.close row.eventTs s.timeoutTs, [])
      else s.tryCloseForPredication params row := by
  simp only [tryClose, tryCloseForOversize, tryCloseForTimeout]
  split_ifs <;> rfl

/-- The four outcomes of the tests that close a session. -/
theorem tryClose_cases {row : SessionRow} {closed : SessionInfo} {ids : List ℤ}
    (h : s.tryClose params row = some (closed, ids)) :
    s.maxSessionTs ≤ row.eventTs ∧ closed = s.close row.eventTs s.maxSessionTs ∨
      row.eventTs < s.maxSessionTs ∧ s.timeoutTs ≤ row.eventTs ∧
        closed = s.close row.eventTs s.timeoutTs ∨
      row.eventTs < s.maxSessionTs ∧ row.eventTs < s.timeoutTs ∧ row.sessionEnd = true ∧
        (params.endWithInclusion = true ∧
            closed = (s.keepRow params row.eventTs).close row.eventTs
              (s.keepRow params row.eventTs).winEnd ∨
          params.endWithInclusion = false ∧
            closed = s.close row.eventTs (max s.winEnd row.eventTs)) := by
  rw [tryClose_eq, tryCloseForPredication] at h
  split_ifs at h with hsize htimeout hend hincl
  · exact .inl ⟨hsize, (congrArg Prod.fst (Option.some.inj h)).symm⟩
  · exact .inr (.inl ⟨by omega, htimeout, (congrArg Prod.fst (Option.some.inj h)).symm⟩)
  · exact .inr (.inr ⟨by omega, by omega, hend,
      .inl ⟨hincl, (congrArg Prod.fst (Option.some.inj h)).symm⟩⟩)
  · exact .inr (.inr ⟨by omega, by omega, hend,
      .inr ⟨Bool.eq_false_iff.mpr hincl, (congrArg Prod.fst (Option.some.inj h)).symm⟩⟩)

/-- No test closes the session. -/
theorem tryClose_none {row : SessionRow} (h : s.tryClose params row = none) :
    row.eventTs < s.maxSessionTs ∧ row.sessionEnd = false := by
  rw [tryClose_eq, tryCloseForPredication] at h
  split_ifs at h with hsize htimeout hend
  exact ⟨by omega, Bool.eq_false_iff.mpr hend⟩

end SessionInfo

/-! ### One row -/

/-- The row is in order: it comes no earlier than the end an empty session at the back was
closed with, and no earlier than the first row of the active session it is added to. -/
def InOrder (params : SessionWindowParams) (q : SessionQueue) (row : SessionRow) : Prop :=
  ∀ info ∈ q.info,
    (info.winStart = 0 → info.active = true ∨ row.sessionStart = true →
      info.winEnd ≤ row.eventTs) ∧
    (info.winStart ≠ 0 → info.active = true →
      (row.sessionEnd = true → params.endWithInclusion = true) → info.winStart ≤ row.eventTs)
deriving Decidable

namespace SessionInfo

variable {s : SessionInfo} {row : SessionRow}

/-- An inactive session is tracked when it is empty or contains its rows. -/
theorem tracked_of_inactive (hinactive : s.active = false)
    (h : s.Empty ∨ s.winStart ≠ 0 ∧ s.Contains params) : s.Tracked params times where
  maxSessionTs_eq := fun hactive => absurd (hactive.symm.trans hinactive) (by decide)
  open_of_active := fun hactive => absurd (hactive.symm.trans hinactive) (by decide)
  contains_of_inactive := fun _ => h

/-- An open session closed by a row that belongs to it. -/
theorem Open.tracked_close_keepRow {latest : ℤ} (hadv : params.Advances times)
    (hopen : (s.keepRow params row.eventTs).Open params times latest)
    (hmax : s.maxSessionTs = params.sizeAfter s.opened) :
    ((s.keepRow params row.eventTs).close row.eventTs
      (s.keepRow params row.eventTs).winEnd).Tracked params times := by
  obtain ⟨-, -, hopened, hmax'⟩ := keepRow_frame params s row.eventTs
  have hend := hopen.winEnd_eq
  have htimeout := hadv.timeout latest hopen.latest_times
  have hsize := hopen.latest_lt
  refine tracked_of_inactive rfl (.inr ⟨hopen.winStart_ne, ?_⟩)
  exact hopen.contains_close (by rw [hmax', hopened, hmax]) (by omega) (by omega) (.inl (by omega))

variable {closed : SessionInfo}

/-- An active session is tracked when it is empty or open. -/
theorem tracked_of_active (hactive : s.active = true)
    (hmax : s.maxSessionTs = params.sizeAfter s.opened)
    (h : s.Empty ∨ ∃ latest, s.Open params times latest) : s.Tracked params times where
  maxSessionTs_eq := fun _ => hmax
  open_of_active := fun _ => h
  contains_of_inactive := fun hinactive => absurd (hactive.symm.trans hinactive) (by decide)

/-- A tracked session without a start is empty. -/
theorem Tracked.empty (htracked : s.Tracked params times) (hzero : s.winStart = 0) : s.Empty := by
  cases hactive : s.active with
  | true =>
    rcases htracked.open_of_active hactive with hempty | ⟨latest, hopen⟩
    · exact hempty
    · exact absurd hzero hopen.winStart_ne
  | false =>
    rcases htracked.contains_of_inactive hactive with hempty | ⟨hne, -⟩
    · exact hempty
    · exact absurd hzero hne

section

variable (hadv : params.Advances times)
include hadv

/-- **Closing an empty session** leaves one that is empty and ends by the row, or has the row
only. -/
theorem Empty.tryClose (hempty : s.Empty)
    (hmax : s.maxSessionTs = params.sizeAfter s.opened) (ht : times row.eventTs)
    (hend : s.winEnd ≤ row.eventTs) {ids : List ℤ}
    (h : s.tryClose params row = some (closed, ids)) :
    closed.Tracked params times ∧ (closed.winStart = 0 → closed.winEnd ≤ row.eventTs) := by
  have hstill : ∀ winEnd, (s.close row.eventTs winEnd).Tracked params times := fun winEnd =>
    tracked_of_inactive rfl (.inl ⟨hempty.rows_eq, hempty.winStart_eq⟩)
  rcases tryClose_cases h with ⟨hsize, rfl⟩ | ⟨-, htimeout, rfl⟩ |
    ⟨hsize, -, -, ⟨-, rfl⟩ | ⟨-, rfl⟩⟩
  · exact ⟨hstill _, fun _ => hsize⟩
  · exact ⟨hstill _, fun _ => htimeout⟩
  · have hopen := hempty.keepRow hadv ht hend hsize
    exact ⟨hopen.tracked_close_keepRow hadv hmax, fun hzero => absurd hzero hopen.winStart_ne⟩
  · exact ⟨hstill _, fun _ => max_le hend (le_refl _)⟩

/-- **Closing an open session** leaves one that contains its rows. -/
theorem Open.tryClose {latest : ℤ}
    (hopen : s.Open params times latest) (hmax : s.maxSessionTs = params.sizeAfter s.opened)
    (ht : times row.eventTs)
    (hstart : (row.sessionEnd = true → params.endWithInclusion = true) → s.winStart ≤ row.eventTs)
    {ids : List ℤ} (h : s.tryClose params row = some (closed, ids)) :
    closed.Tracked params times ∧ closed.winStart ≠ 0 := by
  have hend := hopen.winEnd_eq
  have hlatest := hopen.latest_lt
  have hafter := hadv.timeout latest hopen.latest_times
  have htimeoutTs := hopen.timeoutTs_eq
  rcases tryClose_cases h with ⟨hsize, rfl⟩ | ⟨hsize, htimeout, rfl⟩ |
    ⟨hsize, htimeout, -, ⟨hincl, rfl⟩ | ⟨-, rfl⟩⟩
  · refine ⟨tracked_of_inactive rfl (.inr ⟨hopen.winStart_ne, ?_⟩), hopen.winStart_ne⟩
    exact hopen.contains_close hmax hlatest (le_refl _) (.inr ⟨hsize, rfl⟩)
  · refine ⟨tracked_of_inactive rfl (.inr ⟨hopen.winStart_ne, ?_⟩), hopen.winStart_ne⟩
    exact hopen.contains_close hmax (by omega) (by omega) (.inl (le_of_eq htimeoutTs))
  · have hkept := hopen.keepRow hadv ht (hstart fun _ => hincl) hsize
    exact ⟨hkept.tracked_close_keepRow hadv hmax, hkept.winStart_ne⟩
  · refine ⟨tracked_of_inactive rfl (.inr ⟨hopen.winStart_ne, ?_⟩), hopen.winStart_ne⟩
    exact hopen.contains_close hmax (by omega) (by omega) (.inl (by omega))

/-- Closing an active session. -/
theorem Tracked.tryClose (htracked : s.Tracked params times)
    (hactive : s.active = true) (ht : times row.eventTs)
    (hempty : s.winStart = 0 → s.winEnd ≤ row.eventTs)
    (hstart : s.winStart ≠ 0 → (row.sessionEnd = true → params.endWithInclusion = true) →
      s.winStart ≤ row.eventTs) {ids : List ℤ} (h : s.tryClose params row = some (closed, ids)) :
    closed.Tracked params times ∧ (closed.winStart = 0 → closed.winEnd ≤ row.eventTs) := by
  have hmax := htracked.maxSessionTs_eq hactive
  rcases htracked.open_of_active hactive with hnone | ⟨latest, hopen⟩
  · exact hnone.tryClose hadv hmax ht (hempty hnone.winStart_eq) h
  · obtain ⟨hclosed, hne⟩ := hopen.tryClose hadv hmax ht (hstart hopen.winStart_ne) h
    exact ⟨hclosed, fun hzero => absurd hzero hne⟩

/-- Keeping a row in an active session. -/
theorem Tracked.keepRow (htracked : s.Tracked params times)
    (hactive : s.active = true) (ht : times row.eventTs)
    (hempty : s.winStart = 0 → s.winEnd ≤ row.eventTs)
    (hstart : s.winStart ≠ 0 → s.winStart ≤ row.eventTs) (hsize : row.eventTs < s.maxSessionTs) :
    (s.keepRow params row.eventTs).Tracked params times := by
  obtain ⟨-, hactive', hopened, hmax⟩ := keepRow_frame params s row.eventTs
  refine tracked_of_active (hactive'.trans hactive) ?_ (.inr ?_)
  · rw [hmax, hopened, htracked.maxSessionTs_eq hactive]
  · rcases htracked.open_of_active hactive with hnone | ⟨latest, hopen⟩
    · exact ⟨_, hnone.keepRow hadv ht (hempty hnone.winStart_eq) hsize⟩
    · exact ⟨_, hopen.keepRow hadv ht (hstart hopen.winStart_ne) hsize⟩

end

end SessionInfo

namespace SessionQueue

variable {q : SessionQueue} {row : SessionRow}

/-- Every session in the queue is tracked. -/
def Tracked (params : SessionWindowParams) (times : ℤ → Prop) (q : SessionQueue) : Prop :=
  ∀ s ∈ q.sessions, s.Tracked params times

/-- The queue is tracked when its parts are. -/
theorem tracked_mk {older : List SessionInfo} {info : SessionInfo}
    (holder : ∀ s ∈ older, s.Tracked params times) (hinfo : info.Tracked params times) :
    Tracked params times ⟨older, some info⟩ := by
  intro s hmem
  rcases mem_append.mp hmem with hmem | hmem
  · exact holder s hmem
  · obtain rfl : s = info := by simpa using hmem
    exact hinfo

section

variable (h : q.Tracked params times)
include h

/-- The sessions before the back are tracked. -/
theorem Tracked.older : ∀ s ∈ q.older, s.Tracked params times :=
  fun s hmem => h s (mem_append_left _ hmem)

/-- The session at the back is tracked. -/
theorem Tracked.info : ∀ info ∈ q.info, info.Tracked params times :=
  fun info hmem => h info (mem_append_right _ (Option.mem_toList.mpr hmem))

/-- The session that opens next is empty and ends by the row. -/
theorem Tracked.nextSession {eventTs : ℤ} (hpos : 0 < eventTs)
    (hend : ∀ info ∈ q.info, info.winStart = 0 → info.winEnd ≤ eventTs) :
    q.nextSession.Empty ∧ q.nextSession.winEnd ≤ eventTs := by
  rw [SessionQueue.nextSession]
  cases hinfo : q.info with
  | none => exact ⟨⟨rfl, rfl⟩, le_of_lt hpos⟩
  | some info =>
    dsimp only
    split_ifs with hzero
    · exact ⟨(h.info info hinfo).empty hzero, hend info hinfo hzero⟩
    · exact ⟨⟨rfl, rfl⟩, le_of_lt hpos⟩

/-- The sessions before it are tracked. -/
theorem Tracked.beforeNext : ∀ s ∈ q.beforeNext, s.Tracked params times := by
  rw [SessionQueue.beforeNext]
  cases hinfo : q.info with
  | none => exact h.older
  | some info =>
    dsimp only
    split_ifs
    · exact h.older
    · intro s hmem
      rcases mem_append.mp hmem with hmem | hmem
      · exact h.older s hmem
      · obtain rfl : s = info := by simpa using hmem
        exact h.info s hinfo

end

section

variable (hadv : params.Advances times) (h : q.Tracked params times)
include hadv h

/-- Opening a session. -/
theorem Tracked.openSession {eventTs : ℤ} (ht : times eventTs)
    (hend : ∀ info ∈ q.info, info.winStart = 0 → info.winEnd ≤ eventTs) :
    (q.openSession params eventTs).1.Tracked params times := by
  obtain ⟨hempty, hnext⟩ := h.nextSession (hadv.pos eventTs ht) hend
  have hlt := lt_of_lt_of_le (hadv.timeout eventTs ht) (hadv.size eventTs ht)
  have hopened : SessionInfo.Empty { q.nextSession with
      active := true
      timeoutTs := params.timeoutAfter eventTs
      maxSessionTs := params.sizeAfter eventTs
      opened := eventTs } := ⟨hempty.rows_eq, hempty.winStart_eq⟩
  rw [SessionQueue.openSession]
  split_ifs
  · have hkept := hopened.keepRow hadv ht hnext hlt
    obtain ⟨-, hactive, hopen, hmax⟩ := SessionInfo.keepRow_frame params { q.nextSession with
      active := true
      timeoutTs := params.timeoutAfter eventTs
      maxSessionTs := params.sizeAfter eventTs
      opened := eventTs } eventTs
    refine tracked_mk h.beforeNext (SessionInfo.tracked_of_active hactive ?_ (.inr ⟨_, hkept⟩))
    rw [hmax, hopen]
  · exact tracked_mk h.beforeNext (SessionInfo.tracked_of_active rfl rfl (.inl hopened))

/-- Opening a session when the row meets the start condition. -/
theorem Tracked.openIfStart (ht : times row.eventTs)
    (hend : row.sessionStart = true → ∀ info ∈ q.info, info.winStart = 0 →
      info.winEnd ≤ row.eventTs) : (q.openIfStart params row).1.Tracked params times := by
  rw [SessionQueue.openIfStart]
  split_ifs with hstart
  · exact h.openSession hadv ht (hend hstart)
  · exact h

/-- **One row** keeps every session tracked. -/
theorem Tracked.processRow (ht : times row.eventTs) (horder : InOrder params q row) :
    (q.processRow params row).1.Tracked params times := by
  rw [SessionQueue.processRow]
  cases hinfo : q.info with
  | none =>
    refine h.openIfStart hadv ht fun _ info hmem => ?_
    rw [hinfo] at hmem
    cases hmem
  | some info =>
    have htracked := h.info info hinfo
    obtain ⟨hempty, hstart⟩ := horder info hinfo
    cases hactive : info.active with
    | false =>
      simp only [hactive]
      refine h.openIfStart hadv ht fun hopen info' hmem hzero => ?_
      obtain rfl : info = info' := Option.some.inj (hinfo.symm.trans hmem)
      exact hempty hzero (.inr hopen)
    | true =>
      have hend := fun hzero => hempty hzero (.inl hactive)
      simp only [hactive]
      cases hclose : info.tryClose params row with
      | none =>
        obtain ⟨hsize, hnotEnd⟩ := SessionInfo.tryClose_none hclose
        refine tracked_mk h.older (htracked.keepRow hadv hactive ht hend ?_ hsize)
        exact fun hne => hstart hne hactive (by simp [hnotEnd])
      | some result =>
        obtain ⟨closed, ids⟩ := result
        obtain ⟨hclosed, hby⟩ := htracked.tryClose hadv hactive ht hend
          (fun hne => hstart hne hactive) hclose
        refine Tracked.openIfStart hadv (tracked_mk h.older hclosed) ht ?_
        intro _ info' hmem
        obtain rfl : closed = info' := Option.some.inj hmem
        exact hby

end

/-- The loop over the rows, without what it returns for each row. -/
theorem processRows_fst (q : SessionQueue) (rows : List SessionRow) :
    (q.processRows params rows).1 = rows.foldl (fun q row => (q.processRow params row).1) q := by
  induction rows generalizing q with
  | nil => rfl
  | cons row rows ih => exact ih _

/-- At the start of a chunk nothing is lost. -/
theorem sessions_ofSessions (sessions : List SessionInfo) :
    (ofSessions sessions).sessions = sessions := by
  rw [SessionQueue.sessions, ofSessions]
  cases hlast : sessions.getLast? with
  | none => simp [getLast?_eq_none_iff.mp hlast]
  | some info => exact dropLast_append_getLast? info hlast

end SessionQueue

/-! ### Whole runs -/

/-- What happens to the queue of sessions. -/
inductive SessionAction where
  /-- A chunk of rows is assigned. -/
  | assign (rows : List SessionRow)
  /-- A timeout closes the session at the back. -/
  | timeout
  /-- The sessions that a finalised watermark covers are removed. -/
  | expire (finalizedWatermark : ℤ)

/-- The session at the back made inactive, as a timeout does. -/
def closeBack (sessions : List SessionInfo) : List SessionInfo :=
  match sessions.getLast? with
  | some info => sessions.dropLast ++ [{ info with active := false }]
  | none => []

/-- What an action leaves of the queue. -/
def SessionAction.apply (params : SessionWindowParams) (sessions : List SessionInfo) :
    SessionAction → List SessionInfo
  | .assign rows => (calculateSessionIdColumn params sessions rows).1.sessions
  | .timeout => closeBack sessions
  | .expire finalizedWatermark => (removeExpiredSessions finalizedWatermark (-1) sessions).2

/-- The rows of a chunk have the given times and are in order, each when its turn comes. -/
def SessionAction.Careful (params : SessionWindowParams) (times : ℤ → Prop)
    (sessions : List SessionInfo) : SessionAction → Prop
  | .assign rows => GuardedRun.Along (fun q row => (SessionQueue.processRow params q row).1)
      (fun q row => times row.eventTs ∧ InOrder params q row) (.ofSessions sessions) rows
  | _ => True

variable {s : SessionInfo}

/-- An open session contains its rows as it stands. -/
theorem SessionInfo.Open.contains {latest : ℤ} (hadv : params.Advances times)
    (hopen : s.Open params times latest) (hmax : s.maxSessionTs = params.sizeAfter s.opened) :
    ({ s with active := false } : SessionInfo).Contains params where
  rows := fun t hmem => by
    have := hopen.isLatest.2 t hmem
    have := hopen.winEnd_eq
    exact ⟨hopen.winStart_le t hmem, by dsimp only; omega⟩
  size := by
    have := hopen.winEnd_eq
    have := hopen.latest_lt
    dsimp only
    omega
  timeout := fun latest' hlatest' => by
    obtain rfl : latest = latest' := hopen.isLatest.unique hlatest'
    have := hadv.timeout latest hopen.latest_times
    have := hopen.winEnd_eq
    exact .inl (by dsimp only; omega)

/-- Closing a session by force. -/
theorem SessionInfo.Tracked.closeByForce (hadv : params.Advances times)
    (htracked : s.Tracked params times) :
    ({ s with active := false } : SessionInfo).Tracked params times := by
  refine tracked_of_inactive rfl ?_
  cases hactive : s.active with
  | true =>
    rcases htracked.open_of_active hactive with hempty | ⟨latest, hopen⟩
    · exact .inl ⟨hempty.rows_eq, hempty.winStart_eq⟩
    · exact .inr ⟨hopen.winStart_ne, hopen.contains hadv (htracked.maxSessionTs_eq hactive)⟩
  | false =>
    rcases htracked.contains_of_inactive hactive with hempty | ⟨hne, hcontains⟩
    · exact .inl ⟨hempty.rows_eq, hempty.winStart_eq⟩
    · exact .inr ⟨hne, hcontains.rows, hcontains.size, hcontains.timeout⟩

/-- Removing expired sessions keeps some of those that were there. -/
theorem mem_of_mem_removeExpiredSessions {finalizedWatermark lastExpired : ℤ}
    {sessions : List SessionInfo}
    (h : s ∈ (removeExpiredSessions finalizedWatermark lastExpired sessions).2) : s ∈ sessions := by
  induction sessions generalizing lastExpired with
  | nil => exact h
  | cons first sessions ih =>
    rw [removeExpiredSessions] at h
    split_ifs at h
    · exact h
    · exact mem_cons_of_mem _ (ih h)

/-- **One action** keeps every session tracked. -/
theorem SessionAction.tracked_apply (hadv : params.Advances times)
    {sessions : List SessionInfo} (action : SessionAction)
    (h : ∀ s ∈ sessions, s.Tracked params times) (hcareful : action.Careful params times sessions) :
    ∀ s ∈ action.apply params sessions, s.Tracked params times := by
  cases action with
  | assign rows =>
    have hstart : (SessionQueue.ofSessions sessions).Tracked params times := by
      rwa [SessionQueue.Tracked, SessionQueue.sessions_ofSessions]
    rw [SessionAction.apply, calculateSessionIdColumn, SessionQueue.processRows_fst]
    exact GuardedRun.invariant (I := SessionQueue.Tracked params times)
      (fun q row hq hguard => hq.processRow hadv hguard.1 hguard.2) hstart
      hcareful.reflTransGen
  | timeout =>
    intro s hmem
    rw [SessionAction.apply, closeBack] at hmem
    cases hlast : sessions.getLast? with
    | none =>
      rw [hlast] at hmem
      cases hmem
    | some info =>
      rw [hlast] at hmem
      rcases mem_append.mp hmem with hmem | hmem
      · exact h s (dropLast_subset _ hmem)
      · obtain rfl : s = { info with active := false } := by simpa using hmem
        exact (h info (mem_of_getLast? hlast)).closeByForce hadv
  | expire finalizedWatermark => exact fun s hmem => h s (mem_of_mem_removeExpiredSessions hmem)

/-- **Sessions contain their rows.** In every run of the queue on event times that advance and
rows that are in order, a session that is inactive and has rows contains them, ends by its
largest size, and ends by the timeout after its latest row or was closed by a row at or after
its largest size, and ends there. -/
theorem sessions_contain_rows (hadv : params.Advances times) {sessions : List SessionInfo}
    (hrun : Relation.ReflTransGen
      (GuardedRun.Step (SessionAction.apply params) (SessionAction.Careful params times))
      [] sessions) : ∀ s ∈ sessions, s.active = false → s.rows ≠ [] → s.Contains params := by
  have htracked : ∀ s ∈ sessions, s.Tracked params times :=
    GuardedRun.invariant (I := fun sessions => ∀ s ∈ sessions, s.Tracked params times)
      (fun sessions action h hcareful => action.tracked_apply hadv h hcareful) (by simp) hrun
  intro s hmem hinactive hrows
  rcases (htracked s hmem).contains_of_inactive hinactive with hempty | ⟨-, hcontains⟩
  · exact absurd hempty.rows_eq hrows
  · exact hcontains

/-- Two seconds, on a column of whole seconds. -/
def twoSeconds : ℤ := 2

/-- Sessions with a timeout of two seconds and a largest size of ten. -/
def twoByTen : SessionWindowParams where
  timeScale := 0
  timeZone := ⟨fun _ t _ => t, fun _ t _ => t⟩
  sessionTimeout := twoSeconds
  maxSessionSize := 10
  intervalKind := .second
  timeColIsDatetime64 := false
  timeout_pos := by decide
  timeout_le := by decide

/-- The session of a row at two that a row at fifteen closes. -/
def closedAtFifteen : SessionInfo where
  id := 1
  winStart := 2
  winEnd := 12
  timeoutTs := 4
  maxSessionTs := 12
  opened := 2
  rows := [2]
  closedBy := 15

/-- A row at two and one at fifteen: the first session contains its row. -/
theorem sessions_contain_rows_at_two : closedAtFifteen.Contains twoByTen := by
  have hcareful : (SessionAction.assign [⟨2, true, false⟩, ⟨15, true, false⟩]).Careful
      twoByTen twoByTen.Fits [] :=
    ⟨⟨by decide, by decide⟩, ⟨by decide, by decide⟩, trivial⟩
  exact sessions_contain_rows
    (SessionWindowParams.advances_of_ticks (by decide) (by decide)) (.single ⟨_, hcareful, rfl⟩)
    closedAtFifteen (by decide) rfl (by decide)

/-- It ends at its largest size, past the timeout after its only row. -/
theorem oversize_before_timeout :
    closedAtFifteen ∈ (SessionAction.assign [⟨2, true, false⟩, ⟨15, true, false⟩]).apply
        twoByTen [] ∧
      closedAtFifteen.Latest 2 ∧ twoByTen.timeoutAfter 2 < closedAtFifteen.winEnd :=
  ⟨by decide, by decide, by decide⟩

end Proton.Streaming
