import Proton.LocalLog.Indexes.PersistentMonoMap
import Proton.LocalLog.LogSegments

/-!
# The Loglet

This module embeds `Cluster/LocalLog/Log/Loglet.{h,cpp}`: the segments of a log, the
metadata of the next sequence number, and the two sparse indexes, from sequence numbers to
file positions and from event timestamps to sequence numbers, that appends extend and trims
cut.

The state also holds the log files of the directory that no segment stands for any more
(`orphanFiles`). A segment object opened over such a file finds its bytes, because the
source opens segment files for appending and never truncates them.

File operations on segments may fail; `FileOutcomes` says how they end in one call. A lookup
in an index may load a part of it, so the operations that only read return the state too.
Sequence numbers are integers, the fields of an entry stay 64-bit.
-/

open ByteReader SortedSearch

namespace Proton

/-- The configuration fields the modelled functions read, with their defaults. -/
structure LogConfig where
  maxEntrySize : ℕ := 10 * 1024 * 1024
  segmentSize : ℕ := 2 * 1024 * 1024 * 1024
  retentionSize : ℕ := 1
  retentionMs : ℤ := 24 * 60 * 60 * 1000
  indexIntervalBytes : ℕ := 4096 * 1024
  minSizeToKeep : ℕ := segmentSize * 2
  leaderEpochIndexLogSize : ℕ := 8 * 1024 * 1024
  timestampIndexLogSize : ℕ := 8 * 1024 * 1024
  logPositionIndexLogSize : ℕ := 8 * 1024 * 1024
  inmemory : Bool := false
  deriving DecidableEq, Repr

/-- `Constants::LogStartSN`. -/
def logStartSN : ℤ := 1

/-- `Constants::SegmentStartID`. -/
def segmentStartID : ℕ := 1

/-- What an operation of a log can fail with. -/
inductive LogError where
  | streamPaused
  | tooLargeRecord
  | failedToRollLogSegment
  | cannotFlushFile
  | cannotWriteToFileDescriptor
  | cannotTruncateFile
  | fileDoesntExist
  | atomicRenameFail
  | recordNotFound
  | invalidSequence
  | sequenceOutOfRange
  /-- An error an index reports. -/
  | index (err : MonoMapError)
  /-- An exception that leaves the function. -/
  | exception (err : ReadError)
  /-- The source dereferences a null pointer, or relies on an assertion that does not hold. -/
  | undefinedBehaviour
  deriving DecidableEq, Repr

/-- How the file operations on segments end in one call. By default they succeed. -/
structure FileOutcomes where
  /-- `sync` of the active segment. -/
  flush : Bool := true
  /-- A write that fails, with the number of bytes it leaves behind when the rollback of the
  torn tail fails too. -/
  write : Option ℕ := none
  /-- The error of renaming the file of a segment. -/
  rename : LogSegment → Option LogError := fun _ => none
  /-- `ftruncate`. -/
  truncate : Bool := true

/-- All file operations succeed. -/
def FileOutcomes.ok : FileOutcomes := {}

/-! ### Writing and searching a segment -/

namespace LogSegment

/-- `append` of one serialized entry, or of the concatenation of several. -/
def append (seg : LogSegment) (io : FileOutcomes) (data : Bytes) : LogSegment × Except LogError ℕ :=
  match io.write with
  | none => ({ seg with log := { seg.log with file := seg.log.file ++ data } }, .ok data.length)
  | some left =>
    ({ seg with log := { seg.log with file := seg.log.file ++ data.take left } },
      .error .cannotWriteToFileDescriptor)

/-- `append` of a batch with its announced size. The write loop ends when exactly that many
bytes are written, so a size that is not the sum of the parts has no defined outcome. -/
def appendBatch (seg : LogSegment) (io : FileOutcomes) (batchData : List Bytes)
    (totalBytes : ℕ) : LogSegment × Except LogError ℕ :=
  if batchData.flatten.length = totalBytes then seg.append io batchData.flatten
  else (seg, .error .undefinedBehaviour)

/-- `translateSequence`. -/
def translateSequence (seg : LogSegment) (sn : ℤ) (startPosition : ℕ) :
    Except ReadError (Option FileLogEntries.LogSequencePosition) :=
  seg.log.searchForSequenceWithSize sn startPosition

end LogSegment

/-! ### Global file positions -/

/-- `SEGMENT_NUMBER_MASK`. -/
def segmentNumberMask : UInt64 := 0xfffffff000000000

/-- `SEGMENT_FILE_POSITION_MASK`. -/
def segmentFilePositionMask : UInt64 := 0x0000000fffffffff

/-- `globalSegmentFilePosition`. -/
def globalSegmentFilePosition (segmentId filePosition : ℕ) : UInt64 :=
  (UInt64.ofNat segmentId <<< 36) ||| UInt64.ofNat filePosition

/-- `segmentIDAndFilePosition`. -/
def segmentIDAndFilePosition (globalFilePosition : UInt64) : ℕ × ℕ :=
  (((globalFilePosition &&& segmentNumberMask) >>> 36).toNat,
    (globalFilePosition &&& segmentFilePositionMask).toNat)

/-! ### The state -/

/-- `LogSequenceMetadata`. -/
structure LogSequenceMetadata where
  entrySn : ℤ
  segmentBaseSn : Option ℤ := none
  filePosition : Option ℕ := none
  deriving DecidableEq, Repr

/-- `Loglet`, with the log files of its directory that no segment stands for. -/
structure Loglet where
  config : LogConfig
  segments : LogSegments
  orphanFiles : List LogSegment
  nextSnMeta : LogSequenceMetadata
  maxEtimestampAndSnSoFar : TimestampSequence
  bytesSinceLastIndexEntry : ℕ
  eventTsSnIndex : PersistentMonoMap TimestampSequence
  snPosIndex : PersistentMonoMap SequencePosition
  deriving DecidableEq

namespace Loglet

variable (l : Loglet)

/-- `nextLogSequence`. -/
def nextLogSequence : ℤ :=
  l.nextSnMeta.entrySn

/-- `updateNextLogSequence`. -/
def updateNextLogSequence (nextSn segmentBaseSn : ℤ) (segmentPos : ℕ) : Loglet :=
  { l with nextSnMeta := ⟨nextSn, some segmentBaseSn, some segmentPos⟩ }

/-- `activeSegment`. -/
def activeSegment : Option LogSegment :=
  l.segments.lastSegment

/-- `size`. -/
def size (l : Loglet) : ℕ :=
  (l.segments.toList.map LogSegment.size).sum

/-- Opening the segment `id` with base `baseSn`: a file of that name that is still in the
directory is continued. -/
def openSegment (id : ℕ) (baseSn : ℤ) : Loglet × LogSegment :=
  let same (s : LogSegment) : Bool := s.id = id ∧ s.baseSn = baseSn
  ({ l with orphanFiles := l.orphanFiles.filter fun s => ¬ same s },
    { id := id
      baseSn := baseSn
      log := .ofFile (((l.orphanFiles.find? same).map (·.log.file)).getD []) })

/-- `segments->add` of a segment that was just opened. The file of a segment that it
replaces stays in the directory. -/
def addSegment (segment : LogSegment) : Loglet :=
  { l with
    segments := l.segments.add segment
    orphanFiles :=
      l.orphanFiles ++ l.segments.toList.filter fun s => s.baseSn = segment.baseSn }

/-- A write to a segment that is in the map. -/
def setSegment (segment : LogSegment) : Loglet :=
  { l with segments := l.segments.add segment }

/-! ### Appending -/

/-- The index updates of the two `append` functions, when they are due. Errors of the
indexes are soft. -/
def indexEntry (sn : Int64) (segmentId physicalPosition : ℕ) : Loglet :=
  { l with
    eventTsSnIndex := (l.eventTsSnIndex.maybeIndex l.maxEtimestampAndSnSoFar).1
    snPosIndex := (l.snPosIndex.maybeIndex
      ⟨sn, globalSegmentFilePosition segmentId physicalPosition⟩).1
    bytesSinceLastIndexEntry := 0 }

/-- Raise `max_etimestamp_and_sn_so_far`. -/
def raiseMaxTimestamp (ts : TimestampSequence) : Loglet :=
  if l.maxEtimestampAndSnSoFar.timestamp < ts.timestamp then
    { l with maxEtimestampAndSnSoFar := ts }
  else l

/-- The part of the two `append` functions after a successful write of `written` bytes at
`physicalPosition`. The two differ in when they index: a batch at the start of a segment
file, a single entry at the start of the log. -/
def appended (active : LogSegment) (physicalPosition written : ℕ)
    (maxEventTs : TimestampSequence) (firstSn lastSn : Int64) (indexFirst : Bool) : Loglet :=
  let l := l.raiseMaxTimestamp maxEventTs
  let l := { l with bytesSinceLastIndexEntry := l.bytesSinceLastIndexEntry + written }
  let l :=
    if l.bytesSinceLastIndexEntry ≥ l.config.indexIntervalBytes ∨ indexFirst then
      l.indexEntry firstSn active.id physicalPosition
    else l
  l.updateNextLogSequence (lastSn.toInt + 1) active.baseSn active.size

/-- `append` of a batch. -/
def appendBatch (l : Loglet) (io : FileOutcomes) (batch : List Entry)
    (batchData : List Bytes) (totalBytes : ℕ) (maxEventTs : TimestampSequence) :
    Loglet × Except LogError ℕ :=
  match l.activeSegment, batch.head?, batch.getLast? with
  | some active, some first, some back =>
    match active.appendBatch io batchData totalBytes with
    | (active', .error err) => (l.setSegment active', .error err)
    | (active', .ok written) =>
      ((l.setSegment active').appended active' active.size written maxEventTs
        first.sn back.sn (active.size = 0), .ok written)
  | _, _, _ => (l, .error .undefinedBehaviour)

/-- `append` of one entry. -/
def append (l : Loglet) (io : FileOutcomes) (entry : Entry) : Loglet × Except LogError ℕ :=
  match l.activeSegment with
  | none => (l, .error .undefinedBehaviour)
  | some active =>
    match active.append io entry.serialize with
    | (active', .error err) => (l.setSegment active', .error err)
    | (active', .ok written) =>
      ((l.setSegment active').appended active' active.size written
        ⟨entry.maxEventTimestamp, entry.sn⟩ entry.sn entry.sn
        (entry.sn.toInt = logStartSN), .ok written)

variable (io : FileOutcomes)

/-- `roll`. The active segment is flushed, the running maximum of the timestamps is indexed,
and a new segment starts at the next sequence number. -/
def roll (expectedNextSn : Option ℤ) : Loglet × Except LogError LogSegment :=
  match l.activeSegment with
  | none => (l, .error .undefinedBehaviour)
  | some active =>
    if io.flush then
      let newSn := max (expectedNextSn.getD 0) l.nextLogSequence
      let l :=
        { l with
          eventTsSnIndex := (l.eventTsSnIndex.maybeIndex l.maxEtimestampAndSnSoFar).1 }
      let (l, newSegment) := l.openSegment (active.id + 1) newSn
      ((l.addSegment newSegment).updateNextLogSequence l.nextLogSequence newSegment.baseSn
        newSegment.size, .ok newSegment)
    else
      (l, .error .cannotFlushFile)

/-! ### Looking up -/

/-- The result of a scan that may throw. -/
def ofScan {β : Type} : Except ReadError β → Except LogError β
  | .ok b => .ok b
  | .error err => .error (.exception err)

/-- `translateSequence`: the position index tells where in the segment to start the scan, or
the position itself. -/
def translateSequence (l : Loglet) (segment : LogSegment) (sn : ℤ) :
    Loglet × Except LogError (Option FileLogEntries.LogSequencePosition) :=
  let found := l.snPosIndex.leftLowerBound sn
  ({ l with snPosIndex := found.1 },
    match found.2 with
    | .ok (some snPos) =>
      let (segmentId, filePosition) := segmentIDAndFilePosition snPos.filePosition
      if segmentId = segment.id then
        if snPos.sn.toInt = sn then .ok (some ⟨sn, filePosition, 0⟩)
        else ofScan (segment.translateSequence sn filePosition)
      else ofScan (segment.translateSequence sn 0)
    | _ => ofScan (segment.translateSequence sn 0))

/-! ### Removing and trimming -/

/-- The part of `removeSegmentFilesAsync` that is not done in the background: the heads of
both indexes are trimmed, and errors are ignored. The files go. -/
def removeSegmentFilesAsync (newStartSn : ℤ) : Loglet :=
  { l with
    eventTsSnIndex := (l.eventTsSnIndex.trimHeadByValue newStartSn).1
    snPosIndex := (l.snPosIndex.trimHead newStartSn).1 }

/-- The loop that gives the files of removed segments the suffix of deleted files. The
segments from the first failure on keep their file name. -/
def changeFileSuffixes (io : FileOutcomes) : List LogSegment → List LogSegment × Option LogError
  | [] => ([], none)
  | segment :: segments =>
    match io.rename segment with
    | none => changeFileSuffixes io segments
    | some .fileDoesntExist => changeFileSuffixes io segments
    | some err => (segment :: segments, some err)

/-- `removeSegments`. -/
def removeSegments (segmentsToDelete : List LogSegment)
    (newStartSn : Option ℤ) : Loglet × Option LogError :=
  if segmentsToDelete = [] then (l, none)
  else
    let l := { l with
      segments := (segmentsToDelete.map LogSegment.baseSn).foldl LogSegments.remove
        l.segments }
    match changeFileSuffixes io segmentsToDelete with
    | (left, some err) => ({ l with orphanFiles := l.orphanFiles ++ left }, some err)
    | (_, none) =>
      match newStartSn, l.segments.firstSegment with
      | some sn, _ => (l.removeSegmentFilesAsync sn, none)
      | none, some first => (l.removeSegmentFilesAsync first.baseSn, none)
      | none, none => (l, some .undefinedBehaviour)

/-- The part of `trim` that cuts the two indexes and resets the running maximum of the
timestamps to what the index still knows. -/
def trimIndexes (targetSn : ℤ) : Loglet × Option LogError :=
  match l.snPosIndex.trim targetSn with
  | (snPosIndex, some err) => ({ l with snPosIndex := snPosIndex }, some (.index err))
  | (snPosIndex, none) =>
    let l := { l with snPosIndex := snPosIndex }
    match l.eventTsSnIndex.trimByValue targetSn with
    | (eventTsSnIndex, some err) =>
      ({ l with eventTsSnIndex := eventTsSnIndex }, some (.index err))
    | (eventTsSnIndex, none) =>
      match eventTsSnIndex.last with
      | (eventTsSnIndex, .error err) =>
        ({ l with eventTsSnIndex := eventTsSnIndex }, some (.index err))
      | (eventTsSnIndex, .ok last) =>
        ({ l with
            eventTsSnIndex := eventTsSnIndex
            maxEtimestampAndSnSoFar := last.getD ⟨0, 0⟩ }, none)

/-- The part of `trim` that cuts the segments, behind the file position of the target. -/
def trimSegments (targetSegment : LogSegment) (targetSn : ℤ)
    (filePosition : ℕ) : Loglet × Option LogError :=
  match l.removeSegments io (l.segments.upperSegments targetSn) none with
  | (l, some err) => (l, some err)
  | (l, none) =>
    if io.truncate then
      let trimmed := { targetSegment with log := (targetSegment.log.trim filePosition).2 }
      ((l.setSegment trimmed).updateNextLogSequence targetSn trimmed.baseSn trimmed.size, none)
    else
      (l, some .cannotTruncateFile)

/-- `trim`: remove the entries from `targetSn` on. -/
def trim (targetSn : ℤ) : Loglet × Option LogError :=
  match l.segments.floorSegment targetSn with
  | none => (l, some .recordNotFound)
  | some targetSegment =>
    match l.translateSequence targetSegment targetSn with
    | (l, .error err) => (l, some err)
    | (l, .ok none) => (l, some .recordNotFound)
    | (l, .ok (some lsn)) =>
      match l.trimIndexes targetSn with
      | (l, some err) => (l, some err)
      | (l, none) => l.trimSegments io targetSegment targetSn lsn.filePosition

/-- `trimFullyAndStartAt`: remove everything and start a new segment at `newSn`. The new
segment takes the id behind the one of the active segment. -/
def trimFullyAndStartAt (newSn : ℤ) : Loglet × Option LogError :=
  match l.activeSegment with
  | none => (l, some .undefinedBehaviour)
  | some active =>
    match l.removeSegments io l.segments.toList.dropLast (some newSn) with
    | (l, some err) => (l, some err)
    | (l, none) =>
      match if newSn = active.baseSn then io.rename active else none with
      | some err => (l, some err)
      | none =>
        let (l, newSegment) := l.openSegment (active.id + 1) newSn
        let l := { l with
          segments := if newSn = active.baseSn then l.segments.add newSegment
            else (l.segments.add newSegment).remove active.baseSn }
        let l := l.removeSegmentFilesAsync newSn
        (l.updateNextLogSequence newSn newSn 0, none)

/-! ### Retention -/

/-- The loop of `deletableSegments` with the segment visited before. The predicate keeps a
state of its own. -/
def deletableLoop {σ : Type} (shouldDelete : σ → LogSegment → LogSegment → Option σ)
    (appliedSn : ℤ) : σ → LogSegment → List LogSegment → List LogSegment
  | _, _, [] => []
  | s, prevSegment, segment :: segments =>
    if segment.baseSn < appliedSn then
      match shouldDelete s prevSegment segment with
      | some s' => prevSegment :: deletableLoop shouldDelete appliedSn s' segment segments
      | none => []
    else []

/-- `deletableSegments`: the leading segments whose successor starts below the applied
sequence number and that the predicate accepts. -/
def deletableSegments {σ : Type} (l : Loglet)
    (shouldDelete : σ → LogSegment → LogSegment → Option σ) (s : σ) (appliedSn : ℤ) :
    List LogSegment :=
  match l.segments.toList with
  | [] => []
  | first :: segments => deletableLoop shouldDelete appliedSn s first segments

end Loglet

end Proton
