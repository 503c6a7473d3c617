import Mathlib.Algebra.Order.Ring.Int
import Proton.Lib.SortedSearch
import Proton.LocalLog.Indexes.KeyValue

/-!
# PersistentMonoMap

This module embeds `Cluster/LocalLog/Indexes/PersistentMonoMap.{h,cpp}`: a map from
increasing keys to increasing values that is kept in an active index file and a sequence of
rolled ones.

The state has two halves. The files are the active file and the rolled files by segment id.
The memory image is the cache of the active file with the byte offset of every entry, the
believed size `logSize` of the active file, and a map from segment ids to the cached entries
of the rolled files, of which only the first one is loaded at recovery and the rest on
demand. An object that was just created has an empty image and loads it on first use.

All file operations succeed here. What can still go wrong is in `MonoMapError`: the errors
the source reports about the contents of its files, and the places where it reads the first
or last element of a container it has not checked for emptiness.

The four search functions of the source come in two pairs, by key and by value; so do
`trim` / `trimByValue` and `trimHead` / `trimHeadByValue`. Each pair is one definition over
the projection (`KeyValue.key` or `KeyValue.value`) and two members under the source's names.
-/

open ByteReader Records SortedSearch

namespace Proton

/-- What an operation of `PersistentMonoMap` can fail with. -/
inductive MonoMapError where
  /-- `FILE_CORRUPTION`: a rolled file is too small to hold an entry. -/
  | fileCorruption
  /-- `LOGICAL_ERROR`: the first entries of the rolled files are not increasing. -/
  | logicalError
  /-- `FILE_DOESNT_EXIST`: a rolled file that the map names is not there. -/
  | fileDoesntExist
  /-- The source dereferences the front or back of an empty container. -/
  | undefinedBehaviour
  deriving DecidableEq, Repr

/-- `KeyValueWithLogOffset`. -/
structure KeyValueWithLogOffset (α : Type) where
  entry : α
  offset : ℕ
  deriving DecidableEq, Repr

/-- `EntryContainer`. -/
abbrev EntryContainer (α : Type) := List (KeyValueWithLogOffset α)

/-- `FoundKeyValue`. Segment id 0 stands for the active segment. -/
structure FoundKeyValue (α : Type) where
  entryOffset : KeyValueWithLogOffset α
  segmentId : ℕ
  truncationPoint : ℕ
  deriving DecidableEq, Repr

/-- `PersistentMonoMap` together with the files it is stored in. Both association lists
are in ascending order of the segment id. -/
structure PersistentMonoMap (α : Type) where
  maxSize : ℕ
  segmentFiles : List (ℕ × Bytes)
  logFile : Bytes
  segIdToEntryOffsetMap : List (ℕ × EntryContainer α)
  logSize : ℕ
  currentLogSegLoaded : Bool
  cache : EntryContainer α
  deriving DecidableEq, Repr

/-- `ftruncate`: a length past the end of the file extends it with zeros. -/
def truncateFile (file : Bytes) (length : ℕ) : Bytes :=
  file.take length ++ List.replicate (length - file.length) 0

namespace PersistentMonoMap

variable {α : Type} [KeyValue α]

/-- What is stored under a segment id. -/
def findSegment {β : Type} (segments : List (ℕ × β)) (segmentId : ℕ) : Option β :=
  (segments.find? fun s => s.1 = segmentId).map Prod.snd

/-- A fresh object over the given files: nothing is loaded yet. -/
def ofFiles (maxSize : ℕ) (segmentFiles : List (ℕ × Bytes)) (logFile : Bytes) :
    PersistentMonoMap α :=
  { maxSize := maxSize
    segmentFiles := segmentFiles
    logFile := logFile
    segIdToEntryOffsetMap := []
    logSize := 0
    currentLogSegLoaded := false
    cache := [] }

/-! ### Loading -/

variable (α) in
/-- `KeyValue::exactSerializedSize()`. -/
def entrySize : ℕ :=
  (KeyValue.codec : Codec α).size

/-- The complete entries stored in an index file. -/
def storedEntries (file : Bytes) : List α :=
  (KeyValue.codec : Codec α).decode file

/-- The entries up to the first one that is smaller than its predecessor. -/
def orderedPrefix : List α → List α
  | [] => []
  | [a] => [a]
  | a :: b :: l => if KeyValue.lt b a then [a] else a :: orderedPrefix (b :: l)

/-- Entries with the byte offsets at which they stand one after the other. -/
def withOffsets (es : List α) : EntryContainer α :=
  es.mapIdx fun i a => ⟨a, i * entrySize α⟩

/-- The result of `loadLogSegment`: the size it reports, the entries it caches, and the
file afterwards. -/
structure LoadedLogSegment (α : Type) where
  bytes : ℕ
  entryCache : EntryContainer α
  file : Bytes

/-- `loadLogSegment`. A trailing partial entry and the entries from the first one out of
order on are truncated, unless the file is read-only. The size reported is the one before
the second truncation. -/
def loadLogSegment (file : Bytes) (readOnly : Bool) : LoadedLogSegment α :=
  let bytes := file.length / entrySize α * entrySize α
  let stored : List α := storedEntries file
  let kept := orderedPrefix stored
  let complete := if readOnly then file else file.take bytes
  { bytes := bytes
    entryCache := withOffsets kept
    file :=
      if kept.length < stored.length ∧ ¬ readOnly then complete.take (kept.length * entrySize α)
      else complete }

/-- `loadRolledLogSegment` for the rolled files one after the other: only the first entry
of each is cached. A file that is too small stops the loading. -/
def loadRolledLogSegments :
    List (ℕ × Bytes) → List (ℕ × EntryContainer α) × Option MonoMapError
  | [] => ([], none)
  | (segmentId, file) :: files =>
    if file.length < entrySize α then
      ([], some .fileCorruption)
    else
      let first := (KeyValue.codec : Codec α).dec (file.take (entrySize α))
      let (rest, err) := loadRolledLogSegments files
      ((segmentId, [⟨first, 0⟩]) :: rest, err)

/-- The sanity validation at the end of `recover`: consecutive segments start with
increasing entries. -/
def firstEntriesIncrease : List (ℕ × EntryContainer α) → Bool
  | (_, a :: _) :: (id, b :: c) :: segs =>
    KeyValue.lt a.entry b.entry && firstEntriesIncrease ((id, b :: c) :: segs)
  | _ => true

variable (m : PersistentMonoMap α)

/-- `recover`. The directory is visited with the active file first and the rolled files in
the order of their ids. -/
def recover : PersistentMonoMap α × Option MonoMapError :=
  let active : LoadedLogSegment α := loadLogSegment m.logFile false
  let rolled : List (ℕ × EntryContainer α) × Option MonoMapError :=
    loadRolledLogSegments m.segmentFiles
  let m' :=
    { m with
      logFile := active.file
      cache := active.entryCache
      logSize := active.bytes
      currentLogSegLoaded := true
      segIdToEntryOffsetMap := rolled.1 }
  match rolled.2 with
  | some err => (m', some err)
  | none => if firstEntriesIncrease rolled.1 then (m', none) else (m', some .logicalError)

/-- The lazy initialization at the start of every public operation. -/
def ensureLoaded : PersistentMonoMap α × Option MonoMapError :=
  if m.currentLogSegLoaded then (m, none) else m.recover

/-- `loadRolledLogSegmentFully`: a container of at most one entry is taken to be not
loaded yet. -/
def loadRolledLogSegmentFully (segmentId : ℕ)
    (entryCache : EntryContainer α) : Except MonoMapError (EntryContainer α) :=
  if entryCache.length > 1 then
    .ok entryCache
  else
    match findSegment m.segmentFiles segmentId with
    | none => .error .fileDoesntExist
    | some file => .ok (loadLogSegment file true).entryCache

/-- Replace the cached entries of one segment. -/
def setSegment (segmentId : ℕ) (entryCache : EntryContainer α) : PersistentMonoMap α :=
  { m with
    segIdToEntryOffsetMap := m.segIdToEntryOffsetMap.map fun s =>
      if s.1 = segmentId then (segmentId, entryCache) else s }

/-! ### Indexing -/

/-- `nextSegmentID`. -/
def nextSegmentID : ℕ :=
  match m.segIdToEntryOffsetMap.getLast? with
  | none => 1
  | some s => s.1 + 1

/-- Rename a file to the given segment id, replacing the file that had it. -/
def renameTo (files : List (ℕ × Bytes)) (segmentId : ℕ) (file : Bytes) : List (ℕ × Bytes) :=
  files.filter (fun s => s.1 < segmentId) ++ (segmentId, file) ::
    files.filter fun s => segmentId < s.1

/-- `roll`: the active file is renamed to the next segment id and a new one is created. -/
def roll : PersistentMonoMap α :=
  { m with
    segmentFiles := renameTo m.segmentFiles m.nextSegmentID m.logFile
    logFile := []
    segIdToEntryOffsetMap := m.segIdToEntryOffsetMap ++ [(m.nextSegmentID, m.cache)]
    logSize := 0
    cache := [] }

/-- The last part of `maybeIndex`: write the entry to the active file and cache it at the
believed size of the file. -/
def append (entry : α) : PersistentMonoMap α :=
  { m with
    logFile := m.logFile ++ (KeyValue.codec : Codec α).enc entry
    cache := m.cache ++ [⟨entry, m.logSize⟩]
    logSize := m.logSize + entrySize α }

/-- Whether `maybeIndex` takes the entry: the two checks against the last cached entry. -/
def needUpdate (entry : α) : Bool :=
  match m.cache.getLast? with
  | none => true
  | some back => ¬ KeyValue.lt entry back.entry ∧ KeyValue.key back.entry < KeyValue.key entry

/-- `maybeIndex`. -/
def maybeIndex (entry : α) : PersistentMonoMap α × Except MonoMapError Bool :=
  match m.ensureLoaded with
  | (m, some err) => (m, .error err)
  | (m, none) =>
    if m.needUpdate entry then
      ((if m.logSize ≥ m.maxSize then m.roll else m).append entry, .ok true)
    else
      (m, .ok false)

/-! ### Searching -/

section Find

variable (proj : α → ℤ) (t : ℤ)

/-- `std::lower_bound` over a container. -/
def containerLowerBound (c : EntryContainer α) : ℕ :=
  lowerBound (fun kvo => proj kvo.entry) t c

/-- The first entry of a container that the source does not check for emptiness. -/
def front (segmentId : ℕ) : EntryContainer α → Except MonoMapError (Option (FoundKeyValue α))
  | [] => .error .undefinedBehaviour
  | kvo :: _ => .ok (some ⟨kvo, segmentId, 0⟩)

/-- The loop over the rolled segments, from the last one to the first, up to the first one
whose first entry is not above `t`. Unless that entry is equal to `t` the segment is loaded
fully. -/
def searchRolled (m : PersistentMonoMap α) :
    List (ℕ × EntryContainer α) → Except MonoMapError (Option (ℕ × EntryContainer α))
  | [] => .ok none
  | (_, []) :: _ => .error .undefinedBehaviour
  | (segmentId, first :: c) :: segs =>
    if proj first.entry = t then
      .ok (some (segmentId, first :: c))
    else if proj first.entry < t then
      match m.loadRolledLogSegmentFully segmentId (first :: c) with
      | .error err => .error err
      | .ok loaded => .ok (some (segmentId, loaded))
    else
      searchRolled m segs

variable (m : PersistentMonoMap α)

/-- The slow path of `findFirstEntryBy…_EqualToOrGreaterThan`. -/
def findRolledAtLeast : PersistentMonoMap α × Except MonoMapError (Option (FoundKeyValue α)) :=
  match m.searchRolled proj t m.segIdToEntryOffsetMap.reverse with
  | .error err => (m, .error err)
  | .ok (some (segmentId, kvos)) =>
    let m := m.setSegment segmentId kvos
    match kvos[containerLowerBound proj t kvos]? with
    | some kvo => (m, .ok (some ⟨kvo, segmentId, containerLowerBound proj t kvos⟩))
    | none =>
      -- all entries of this segment are smaller: the next bigger segment, or the active
      match m.segIdToEntryOffsetMap.find? fun s => segmentId < s.1 with
      | some s => (m, front s.1 s.2)
      | none => (m, front 0 m.cache)
  | .ok none =>
    match m.segIdToEntryOffsetMap with
    | s :: _ => (m, front s.1 s.2)
    | [] => (m, if m.cache = [] then .ok none else front 0 m.cache)

/-- `findFirstEntryByKey_EqualToOrGreaterThan` and its twin by value. -/
def findAtLeast : PersistentMonoMap α × Except MonoMapError (Option (FoundKeyValue α)) :=
  match m.cache.head?, m.cache.getLast? with
  | some first, some back =>
    if proj back.entry < t then
      (m, .ok none)
    else if proj first.entry ≤ t then
      (m, .ok ((m.cache[containerLowerBound proj t m.cache]?).map
        fun kvo => ⟨kvo, 0, containerLowerBound proj t m.cache⟩))
    else
      m.findRolledAtLeast proj t
  | _, _ => m.findRolledAtLeast proj t

/-- The `bin_search` of `findFirstEntryBy…_LessThanOrEqualTo`. -/
def binSearch (kvos : EntryContainer α) (segmentId : ℕ) :
    Except MonoMapError (Option (FoundKeyValue α)) :=
  let i := containerLowerBound proj t kvos
  match kvos[i]? with
  | none =>
    match kvos.getLast? with
    | none => .error .undefinedBehaviour
    | some back => .ok (some ⟨back, segmentId, i⟩)
  | some kvo =>
    if proj kvo.entry = t then
      .ok (some ⟨kvo, segmentId, i⟩)
    else if i = 0 then
      .error .undefinedBehaviour
    else
      .ok ((kvos[i - 1]?).map fun kvo => ⟨kvo, segmentId, i⟩)

/-- `findFirstEntryByKey_LessThanOrEqualTo` and its twin by value. -/
def findAtMost : PersistentMonoMap α × Except MonoMapError (Option (FoundKeyValue α)) :=
  match m.cache.head? with
  | some first =>
    if proj first.entry ≤ t then (m, binSearch proj t m.cache 0) else slow
  | none => slow
where
  /-- The loop over the rolled segments. -/
  slow : PersistentMonoMap α × Except MonoMapError (Option (FoundKeyValue α)) :=
    match m.searchRolled proj t m.segIdToEntryOffsetMap.reverse with
    | .error err => (m, .error err)
    | .ok none => (m, .ok none)
    | .ok (some (segmentId, c)) => (m.setSegment segmentId c, binSearch proj t c segmentId)

/-- `lowerBound<by_key>`. -/
def lowerBoundBy : PersistentMonoMap α × Except MonoMapError (Option α) :=
  match m.ensureLoaded with
  | (m, some err) => (m, .error err)
  | (m, none) =>
    ((m.findAtLeast proj t).1, (m.findAtLeast proj t).2.map (·.map (·.entryOffset.entry)))

/-- `leftLowerBound<by_key>`. -/
def leftLowerBoundBy : PersistentMonoMap α × Except MonoMapError (Option α) :=
  match m.ensureLoaded with
  | (m, some err) => (m, .error err)
  | (m, none) =>
    ((m.findAtMost proj t).1, (m.findAtMost proj t).2.map (·.map (·.entryOffset.entry)))

end Find

/-- `lowerBound`. -/
def lowerBound (key : ℤ) : PersistentMonoMap α × Except MonoMapError (Option α) :=
  m.lowerBoundBy KeyValue.key key

/-- `lowerBoundByValue`. -/
def lowerBoundByValue (value : ℤ) : PersistentMonoMap α × Except MonoMapError (Option α) :=
  m.lowerBoundBy KeyValue.value value

/-- `leftLowerBound`. -/
def leftLowerBound (key : ℤ) : PersistentMonoMap α × Except MonoMapError (Option α) :=
  m.leftLowerBoundBy KeyValue.key key

/-- `leftLowerBoundByValue`. -/
def leftLowerBoundByValue (value : ℤ) : PersistentMonoMap α × Except MonoMapError (Option α) :=
  m.leftLowerBoundBy KeyValue.value value

/-- `last`. -/
def last : PersistentMonoMap α × Except MonoMapError (Option α) :=
  match m.ensureLoaded with
  | (m, some err) => (m, .error err)
  | (m, none) =>
    match m.cache.getLast?, m.segIdToEntryOffsetMap.getLast? with
    | some back, _ => (m, .ok (some back.entry))
    | none, none => (m, .ok none)
    | none, some s =>
      match m.loadRolledLogSegmentFully s.1 s.2 with
      | .error err => (m, .error err)
      | .ok c =>
        (m.setSegment s.1 c,
          match c.getLast? with
          | none => .error .undefinedBehaviour
          | some back => .ok (some back.entry))

/-! ### Removing and trimming -/

/-- `removeRange` over the segments with the given ids. -/
def removeRange (ids : List ℕ) : PersistentMonoMap α :=
  { m with
    segmentFiles := m.segmentFiles.filter fun s => s.1 ∉ ids
    segIdToEntryOffsetMap := m.segIdToEntryOffsetMap.filter fun s => s.1 ∉ ids }

/-- `remove(segment_id)`: the segments from `segmentId` on and the active one go, and the
last segment that is left becomes the active one. The believed size of the active file is
reset only when no segment is left. -/
def removeFrom (segmentId : ℕ) : PersistentMonoMap α × Option MonoMapError :=
  let ids := (m.segIdToEntryOffsetMap.map Prod.fst).filter fun id => segmentId ≤ id
  let m := m.removeRange ids
  match m.segIdToEntryOffsetMap.getLast? with
  | none =>
    ({ m with logFile := [], currentLogSegLoaded := false, logSize := 0, cache := [] }, none)
  | some s =>
    match findSegment m.segmentFiles s.1 with
    | none => (m, some .fileDoesntExist)
    | some file =>
      ({ m with
          logFile := file
          cache := s.2
          segmentFiles := m.segmentFiles.filter fun f => f.1 ≠ s.1
          segIdToEntryOffsetMap := m.segIdToEntryOffsetMap.filter fun f => f.1 ≠ s.1 },
        none)

/-- The `trim_log` of `trim`: no truncation when the entry stands at the end of the file. -/
def trimLog (file : Bytes) (fileSize : ℕ) (kvo : KeyValueWithLogOffset α) : Bytes :=
  if kvo.offset = fileSize then file else truncateFile file kvo.offset

/-- `trim` after the first entry to remove has been found. -/
def trimAt (found : FoundKeyValue α) : PersistentMonoMap α × Option MonoMapError :=
  if found.segmentId = 0 then
    ({ m with
        logFile := trimLog m.logFile m.logSize found.entryOffset
        cache := m.cache.take found.truncationPoint
        logSize := found.entryOffset.offset }, none)
  else
    match findSegment m.segmentFiles found.segmentId,
      findSegment m.segIdToEntryOffsetMap found.segmentId with
    | some file, some c =>
      let trimmed := trimLog file file.length found.entryOffset
      let m :=
        { m.setSegment found.segmentId (c.take found.truncationPoint) with
          segmentFiles := m.segmentFiles.map fun s : ℕ × Bytes =>
            if s.1 = found.segmentId then (found.segmentId, trimmed) else s }
      -- everything behind the segment goes, and the segment becomes the active one
      m.removeFrom (found.segmentId + 1)
    | _, _ => (m, some .fileDoesntExist)

/-- `trim` and its twin `trimByValue`. -/
def trimBy (proj : α → ℤ) (m : PersistentMonoMap α) (start : ℤ) :
    PersistentMonoMap α × Option MonoMapError :=
  match m.ensureLoaded with
  | (m, some err) => (m, some err)
  | (m, none) =>
    match m.findAtLeast proj start with
    | (m, .error err) => (m, some err)
    | (m, .ok none) => (m, none)
    | (m, .ok (some found)) => m.trimAt found

/-- `trim`: remove the entries with a key from `startKey` on. -/
def trim (startKey : ℤ) : PersistentMonoMap α × Option MonoMapError :=
  trimBy KeyValue.key m startKey

/-- `trimByValue`: remove the entries with a value from `startValue` on. -/
def trimByValue (startValue : ℤ) : PersistentMonoMap α × Option MonoMapError :=
  trimBy KeyValue.value m startValue

/-- The number of leading rolled segments whose first entry is below `target`. -/
def segmentsBelow (proj : α → ℤ) (target : ℤ) :
    List (ℕ × EntryContainer α) → Except MonoMapError ℕ
  | [] => .ok 0
  | (_, []) :: _ => .error .undefinedBehaviour
  | (_, first :: _) :: segs =>
    if proj first.entry ≥ target then .ok 0 else (segmentsBelow proj target segs).map (· + 1)

/-- The end of `trimHead`: remove the first `n` rolled segments. -/
def removeFirst (n : ℕ) : PersistentMonoMap α :=
  m.removeRange ((m.segIdToEntryOffsetMap.take n).map Prod.fst)

/-- There is no such segment, or it starts above the bound. -/
def startsAfter (proj : α → ℤ) (bound : ℤ) : Option (ℕ × EntryContainer α) → Bool
  | none => true
  | some s => s.2.head?.any fun first => bound < proj first.entry

/-- `trimHead` when the active segment does not start at or below `target + 1`. Among the
rolled segments that start below the target only the last one may reach beyond it. -/
def trimHeadRolled (proj : α → ℤ) (succ : ℤ → ℤ) (m : PersistentMonoMap α) (target : ℤ) :
    PersistentMonoMap α × Option MonoMapError :=
  match segmentsBelow proj target m.segIdToEntryOffsetMap with
  | .error err => (m, some err)
  | .ok 0 => (m, none)
  | .ok (n + 1) =>
    if startsAfter proj (succ target) m.segIdToEntryOffsetMap[n + 1]? then
      match m.segIdToEntryOffsetMap[n]? with
      | none => (m, none)
      | some s =>
        match m.loadRolledLogSegmentFully s.1 s.2 with
        | .error err => (m, some err)
        | .ok c =>
          let m := m.setSegment s.1 c
          match c.getLast? with
          | none => (m, some .undefinedBehaviour)
          | some back =>
            if target < proj back.entry then (m.removeFirst n, none)
            else (m.removeFirst (n + 1), none)
    else
      (m.removeFirst (n + 1), none)

/-- `trimHead` and its twin `trimHeadByValue`. -/
def trimHeadBy (proj : α → ℤ) (succ : ℤ → ℤ) (m : PersistentMonoMap α) (target : ℤ) :
    PersistentMonoMap α × Option MonoMapError :=
  match m.ensureLoaded with
  | (m, some err) => (m, some err)
  | (m, none) =>
    if m.cache.head?.any fun first => proj first.entry ≤ succ target then
      (m.removeFirst m.segIdToEntryOffsetMap.length, none)
    else
      trimHeadRolled proj succ m target

/-- `trimHead`: best-effort removal of the entries with a key up to `targetKey`. -/
def trimHead (targetKey : ℤ) : PersistentMonoMap α × Option MonoMapError :=
  trimHeadBy KeyValue.key (KeyValue.keySucc α) m targetKey

/-- `trimHeadByValue`. -/
def trimHeadByValue (targetValue : ℤ) : PersistentMonoMap α × Option MonoMapError :=
  trimHeadBy KeyValue.value (KeyValue.valueSucc α) m targetValue

end PersistentMonoMap

end Proton
