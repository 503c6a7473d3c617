import Proton.LocalLog.Loglet

/-!
# The Log

This module embeds `Cluster/LocalLog/Log/Log.{h,cpp}`: a log is a loglet with the sequence
number it starts at, the largest committed sequence number and the epoch index. It hands out
sequence numbers, rolls segments, trims the tail, restarts at another sequence number,
advances the committed sequence number and removes old segments.

The cache of the last entries and the flushing of the active segment are left out: neither
changes a sequence number, a file or an index. What a call does under `log_mutex` is a
function of its own (`Log.appendLocalLocked`), so that an interleaving of calls can take it
as one step.
-/

namespace Proton

/-- `FetchIsolation`. -/
inductive FetchIsolation where
  | committed
  | logEnd
  deriving DecidableEq, Repr

/-- `IOV_MAX`: the number of entries one write takes. -/
def iovMax : ℕ := 1024

/-- `Log`. -/
structure Log where
  loglet : Loglet
  paused : Bool
  logStartSn : ℤ
  epochSnIndex : PersistentMonoMap EpochSequence
  committedSn : ℤ
  committedEpoch : ℕ
  deriving DecidableEq

namespace Log

/-- `nextLogSequence`. -/
def nextLogSequence (log : Log) : ℤ :=
  log.loglet.nextLogSequence

variable (log : Log)

/-- `isInmemory`. -/
def isInmemory : Bool :=
  log.loglet.config.inmemory

/-- `nextSequenceMetadata`: up to where a fetch may read. -/
def nextSequenceMetadata : FetchIsolation → LogSequenceMetadata
  | .committed => ⟨log.committedSn + 1, log.loglet.activeSegment.map LogSegment.baseSn, none⟩
  | .logEnd => log.loglet.nextSnMeta

/-- `advanceCommittedSequence`: the new state and the committed sequence number before. -/
def advanceCommittedSequence (newEpoch : ℕ) (newCommittedSn : ℤ) : Log × ℤ :=
  if newEpoch < log.committedEpoch then (log, log.committedSn)
  else if log.nextLogSequence ≤ newCommittedSn then (log, log.committedSn)
  else if log.committedSn < newCommittedSn then
    ({ log with committedSn := newCommittedSn, committedEpoch := newEpoch }, log.committedSn)
  else (log, log.committedSn)

/-! ### Appending -/

variable (io : FileOutcomes)

/-- `maybeRoll`: the active segment after perhaps rolling to a new one. -/
def maybeRoll (appendSize : ℕ) (nextSn : ℤ) : Log × Except LogError LogSegment :=
  match log.loglet.activeSegment with
  | none => (log, .error .undefinedBehaviour)
  | some segment =>
    if segment.shouldRoll log.loglet.config.segmentSize appendSize then
      let rolled := log.loglet.roll io (some nextSn)
      ({ log with loglet := rolled.1 }, rolled.2)
    else
      (log, .ok segment)

/-- An in-memory log only takes over the sequence number of an entry. -/
def takeSequence (entry : Entry) : Log :=
  { log with loglet := log.loglet.updateNextLogSequence (entry.sn.toInt + 1) 0 0 }

/-- The part of `appendLocal` under `log_mutex`: the entry gets the next sequence number. -/
def appendLocalLocked (now : Int64) (entry : Entry) : Log × Except LogError ℤ :=
  let entry := { entry with sn := Int64.ofInt log.nextLogSequence, appendTimestamp := now }
  match log.maybeRoll io (entry.serialize.length % 2 ^ 32) entry.sn.toInt with
  | (log, .error _) => (log, .error .failedToRollLogSegment)
  | (log, .ok _) =>
    if log.isInmemory then (log.takeSequence entry, .ok entry.sn.toInt)
    else
      match log.loglet.append io entry with
      | (loglet, .error err) => ({ log with loglet := loglet }, .error err)
      | (loglet, .ok _) => ({ log with loglet := loglet }, .ok entry.sn.toInt)

/-- The checks of `appendLocal` before it takes the lock. -/
def appendLocalCheck (entry : Entry) : Option LogError :=
  if log.paused then some .streamPaused
  else if entry.data.length > log.loglet.config.maxEntrySize then some .tooLargeRecord
  else none

/-- `appendLocal`, uninterrupted. -/
def appendLocal (now : Int64) (entry : Entry) : Log × Except LogError ℤ :=
  match log.appendLocalCheck entry with
  | some err => (log, .error err)
  | none =>
    match log.appendLocalLocked io now entry with
    | (log, .error err) => (log, .error err)
    | (log, .ok sn) => ((log.advanceCommittedSequence 1 sn).1, .ok sn)

/-- The loop of `append` over the entries of a batch that indexes their epoch. -/
def indexEpochs (index : PersistentMonoMap EpochSequence) :
    List Entry → PersistentMonoMap EpochSequence × Option MonoMapError
  | [] => (index, none)
  | entry :: entries =>
    match index.maybeIndex ⟨entry.sn⟩ with
    | (index, .error err) => (index, some err)
    | (index, .ok _) => indexEpochs index entries

/-- The first entry of a batch with the largest event timestamp above 0. -/
def maxEventTs (batch : List Entry) : TimestampSequence :=
  batch.foldl (fun ts entry =>
    if ts.timestamp < entry.maxEventTimestamp then ⟨entry.maxEventTimestamp, entry.sn⟩
    else ts) ⟨0, 0⟩

/-- `append` of one span of entries. The size of the span is summed up in 32 bits. -/
def appendSpan (batch : List Entry) : Log × Except LogError ℕ :=
  match batch.head?, indexEpochs log.epochSnIndex batch with
  | none, _ => (log, .error .undefinedBehaviour)
  | some _, (index, some err) => ({ log with epochSnIndex := index }, .error (.index err))
  | some first, (index, none) =>
    let log := { log with epochSnIndex := index }
    let batchData := batch.map Entry.serialize
    let bytes := (batchData.map List.length).sum % 2 ^ 32
    match log.maybeRoll io bytes first.sn.toInt with
    | (log, .error _) => (log, .error .failedToRollLogSegment)
    | (log, .ok _) =>
      let written := log.loglet.appendBatch io batch batchData bytes (maxEventTs batch)
      ({ log with loglet := written.1 }, written.2)

/-- The loop of `append` over the spans of at most `IOV_MAX` entries, with a bound on their
number: the bytes written so far, and the error that ended it. -/
def appendLoop (io : ℕ → FileOutcomes) : ℕ → Log → ℕ → List Entry →
    Log × ℕ × Option LogError
  | 0, log, written, _ => (log, written, none)
  | fuel + 1, log, written, entries =>
    match log.appendSpan (io fuel) (entries.take iovMax) with
    | (log, .error err) => (log, written, some err)
    | (log, .ok n) =>
      if entries.length ≤ iovMax then (log, written + n, none)
      else appendLoop io fuel log (written + n) (entries.drop iovMax)

/-- `appendInMemory`. -/
def appendInMemory (entries : List Entry) : Log :=
  match entries.getLast? with
  | none => log
  | some back => ((entries.foldl takeSequence log).advanceCommittedSequence 1 back.sn.toInt).1

/-- `append`. -/
def append (io : ℕ → FileOutcomes) (entries : List Entry) : Log × ℕ × Option LogError :=
  if log.isInmemory then (log.appendInMemory entries, 0, none)
  else appendLoop io entries.length log 0 entries

/-! ### Trimming -/

/-- What a full trim does to the epoch index. Its errors are ignored. -/
def restartEpochIndex (index : PersistentMonoMap EpochSequence) (newSn : ℤ) :
    Option EpochSequence → PersistentMonoMap EpochSequence
  | some prev => ((index.trimHeadByValue newSn).1.maybeIndex prev).1
  | none => .ofFiles index.maxSize [] []

/-- `trimFullyAndStartAt`: remove everything and start at `newSn`. -/
def trimFullyAndStartAt (log : Log) (io : FileOutcomes) (newSn : ℤ)
    (prevEpochSn : Option EpochSequence) : Log × Option LogError :=
  match log.loglet.trimFullyAndStartAt io newSn with
  | (loglet, some err) => ({ log with loglet := loglet }, some err)
  | (loglet, none) =>
    ({ log with
        loglet := loglet
        epochSnIndex := restartEpochIndex log.epochSnIndex newSn prevEpochSn
        logStartSn := newSn
        committedSn := newSn - 1 }, none)

/-- The general case of `trim`: the target is in the log, at or behind its first segment. -/
def trimTail (targetSn : ℤ) : Log × Option LogError :=
  match log.loglet.trim io targetSn with
  | (loglet, some err) => ({ log with loglet := loglet }, some err)
  | (loglet, none) =>
    let log := { log with loglet := loglet }
    match log.epochSnIndex.trimByValue targetSn with
    | (index, some err) => ({ log with epochSnIndex := index }, some (.index err))
    | (index, none) =>
      ({ log with
          epochSnIndex := index
          logStartSn := min targetSn log.logStartSn
          committedSn :=
            if targetSn < log.committedSn then targetSn else log.committedSn }, none)

/-- `trim`: remove the entries from `targetSn` on. -/
def trim (targetSn : ℤ) : Log × Option LogError :=
  if targetSn < logStartSN then (log, some .invalidSequence)
  else if targetSn < log.nextLogSequence then
    match log.loglet.segments.firstSegment with
    | none => (log, some .undefinedBehaviour)
    | some first =>
      if targetSn < first.baseSn then log.trimFullyAndStartAt io targetSn none
      else log.trimTail io targetSn
  else if targetSn = log.nextLogSequence then
    let trimmed := log.epochSnIndex.trimByValue targetSn
    ({ log with epochSnIndex := trimmed.1 }, trimmed.2.map .index)
  else (log, none)

/-! ### Retention -/

/-- `maybeIncrementLogStartSequence`. -/
def maybeIncrementLogStartSequence (newLogStartSn : ℤ) : Log :=
  if log.logStartSn < newLogStartSn then { log with logStartSn := newLogStartSn } else log

/-- What retention reads besides the log: the clock and when files were last modified. -/
structure FileTimes where
  now : ℤ
  /-- `lastModified`, unless it fails. -/
  lastModified : LogSegment → Option ℤ

/-- Removing segments for retention: the log starts at the first one that is left. An error
of the removal is only reported. -/
def removeDeletable (deletable : List LogSegment) : Log :=
  let log := { log with loglet := (log.loglet.removeSegments io deletable none).1 }
  match log.loglet.segments.firstSegment with
  | none => log
  | some first => log.maybeIncrementLogStartSequence first.baseSn

/-- `deleteOldSegments` with a predicate. -/
def deleteSegments {σ : Type} (log : Log) (io : FileOutcomes)
    (shouldDelete : σ → LogSegment → LogSegment → Option σ) (s : σ) (appliedSn : ℤ) : Log × ℕ :=
  let deletable := log.loglet.deletableSegments shouldDelete s appliedSn
  if deletable = [] then (log, 0) else (log.removeDeletable io deletable, deletable.length)

/-- `deleteLogStartSequenceBreachedSegments`. -/
def deleteLogStartSequenceBreachedSegments (appliedSn : ℤ) : Log × ℕ :=
  log.deleteSegments io
    (fun (_ : Unit) _ nextSegment =>
      if nextSegment.baseSn ≤ log.logStartSn then some () else none) () appliedSn

/-- `deleteRetentionSizeBreachedSegments`. The state of the predicate is what is left of the
log. -/
def deleteRetentionSizeBreachedSegments (appliedSn : ℤ) : Log × ℕ :=
  let config := log.loglet.config
  let totalBytes := log.loglet.size
  if config.retentionSize = 0 ∨ totalBytes < config.retentionSize ∨
      totalBytes < config.minSizeToKeep then (log, 0)
  else
    log.deleteSegments io
      (fun (totalBytes : ℕ) prevSegment _ =>
        if totalBytes > config.retentionSize ∧ totalBytes > prevSegment.size ∧
            totalBytes - prevSegment.size > config.minSizeToKeep then
          some (totalBytes - prevSegment.size)
        else none) totalBytes appliedSn

/-- `deleteRetentionTimeBreachedSegments`. -/
def deleteRetentionTimeBreachedSegments (times : FileTimes) (appliedSn : ℤ) : Log × ℕ :=
  let config := log.loglet.config
  let totalBytes := log.loglet.size
  if config.retentionMs ≤ 0 ∨ totalBytes < config.minSizeToKeep then (log, 0)
  else
    log.deleteSegments io
      (fun (totalBytes : ℕ) segment _ =>
        match times.lastModified segment with
        | none => none
        | some modified =>
          if times.now - modified > config.retentionMs ∧ totalBytes > segment.size ∧
              totalBytes > config.minSizeToKeep then
            some (totalBytes - segment.size)
          else none) totalBytes appliedSn

/-- `deleteOldSegments`: by the start of the log, by size and by time. -/
def deleteOldSegments (times : FileTimes) (appliedSn : ℤ) : Log × ℕ :=
  let byStart := log.deleteLogStartSequenceBreachedSegments io appliedSn
  let bySize := byStart.1.deleteRetentionSizeBreachedSegments io appliedSn
  let byTime := bySize.1.deleteRetentionTimeBreachedSegments io times appliedSn
  (byTime.1, byStart.2 + bySize.2 + byTime.2)

end Log

/-- A log created over an empty directory. -/
def Log.fresh (config : LogConfig) : Log :=
  { loglet :=
      { config := config
        segments := .singleton ⟨segmentStartID, logStartSN, .ofFile []⟩
        orphanFiles := []
        nextSnMeta := ⟨logStartSN, some logStartSN, some 0⟩
        maxEtimestampAndSnSoFar := ⟨0, 0⟩
        bytesSinceLastIndexEntry := 0
        eventTsSnIndex :=
          { PersistentMonoMap.ofFiles config.timestampIndexLogSize [] [] with
            currentLogSegLoaded := true }
        snPosIndex := .ofFiles config.logPositionIndexLogSize [] [] }
    paused := false
    logStartSn := logStartSN
    epochSnIndex := .ofFiles config.leaderEpochIndexLogSize [] []
    committedSn := logStartSN - 1
    committedEpoch := 0 }

end Proton
