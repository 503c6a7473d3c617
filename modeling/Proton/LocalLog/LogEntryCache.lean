import Proton.LocalLog.Loglet

/-!
# The Tail Cache of a Log

This module embeds `Cluster/LocalLog/Log/LogEntryCache.{h,cpp}`: a queue of the newest entries of
a log, each with the place it was written to and the hint where to fetch next. The log appends
entries one by one or in batches, trims its tail, and clears the cache when it starts anew. A fetch
finds entries by the difference of sequence numbers, so it relies on the cached numbers being
contiguous.

A fetch takes its hint from the entry in front of the one it stopped at. With a size of zero it
stops at the first entry of the request and returns nothing; the entry in front of it is another
one, or none at all when the request starts at the first cached entry.

The log is the abstract state: the list of everything appended and not trimmed.

## Main results

* `Coherent.append`, `Coherent.appendBatch`, `Coherent.trim`, `coherent_clear`: one lemma for each
  operation.
* `cache_coherent_iff`: the cache in every state of a run, and which requests are answered right.
-/

open ByteReader List Nat

namespace Proton

/-- `FetchHint`: the next sequence number to fetch, and where it will stand. -/
structure FetchHint where
  sn : ℤ := 0
  segmentBaseSn : ℤ := 0
  filePosition : ℕ := 2 ^ 64 - 1
  deriving DecidableEq, Repr

/-- `EntryWithSequenceMeta`. -/
structure EntryWithSequenceMeta where
  currentLogSnMetadata : LogSequenceMetadata
  fetchHint : FetchHint
  entry : Entry
  deriving DecidableEq, Repr

/-- The sequence number of the entry. -/
def EntryWithSequenceMeta.sn (r : EntryWithSequenceMeta) : ℤ :=
  r.entry.sn.toInt

/-- `FetchResult`, as far as the cache fills it. -/
structure FetchResult where
  fetchHint : FetchHint := {}
  fetchedLogSnMetadata : LogSequenceMetadata := { entrySn := 0 }
  entries : List Entry := []
  deriving DecidableEq, Repr

/-- `LogEntryCache`. -/
structure LogEntryCache where
  maxCachedEntriesPerShard : ℕ
  cachedBytes : ℕ := 0
  entries : List EntryWithSequenceMeta := []
  deriving DecidableEq, Repr

/-- `approximateSerializedSize`, for a size of the type `Entry`. -/
def Entry.approximateSerializedSize (sizeofEntry : ℕ) (e : Entry) : ℕ :=
  sizeofEntry + e.data.length

/-- The record that a batch append caches for an entry at a file position. -/
def batchRecord (segmentBaseSn : ℤ) (filePosition : ℕ) (entry : Entry) (data : Bytes) :
    EntryWithSequenceMeta where
  currentLogSnMetadata := ⟨entry.sn.toInt, some segmentBaseSn, some filePosition⟩
  fetchHint := ⟨entry.sn.toInt + 1, segmentBaseSn, filePosition + data.length⟩
  entry := entry

namespace LogEntryCache

section Source

variable (sizeofEntry : ℕ)

variable (c : LogEntryCache)

/-- `clear`. -/
def clear : LogEntryCache :=
  { c with entries := [], cachedBytes := 0 }

/-- The eviction behind an insertion: the first entry goes when there is one too many. -/
def evict : LogEntryCache :=
  match c.entries with
  | [] => c
  | front :: rest =>
    if c.entries.length > c.maxCachedEntriesPerShard then
      { c with
        entries := rest
        cachedBytes := c.cachedBytes - front.entry.approximateSerializedSize sizeofEntry }
    else c

/-- `append` of one entry. A copy is cached when the entry is shared. -/
def append (r : EntryWithSequenceMeta) : LogEntryCache :=
  evict sizeofEntry
    { c with
      entries := c.entries ++ [r]
      cachedBytes := c.cachedBytes + r.entry.approximateSerializedSize sizeofEntry }

/-- The loop of `append` over a batch, with the bytes written so far. -/
def appendLoop (segmentBaseSn : ℤ) (startFilePosition : ℕ) :
    List (Entry × Bytes) → ℕ → LogEntryCache → LogEntryCache
  | [], _, c => c
  | (entry, data) :: batch, bytes, c =>
    appendLoop segmentBaseSn startFilePosition batch (bytes + data.length)
      (append sizeofEntry c
        (batchRecord segmentBaseSn (startFilePosition + bytes) entry data))

/-- `append` of a batch of entries with their serialized data. -/
def appendBatch (batch : List (Entry × Bytes)) (segmentBaseSn : ℤ)
    (startFilePosition : ℕ) : LogEntryCache :=
  if c.maxCachedEntriesPerShard = 0 then c
  else
    appendLoop sizeofEntry segmentBaseSn startFilePosition batch 0
      (if batch.length ≥ c.maxCachedEntriesPerShard then c.clear else c)

/-- `trim`: the entries from `targetSn` on are erased, and the hint of the last one that stays is
returned. -/
def trim (targetSn : ℤ) : LogEntryCache × Option FetchHint :=
  match c.entries.getLast? with
  | none => (c, none)
  | some back =>
    if back.sn < targetSn then (c, none)
    else
      let kept := c.entries.takeWhile fun r => r.sn < targetSn
      let erased := c.entries.dropWhile fun r => r.sn < targetSn
      ({ c with
          entries := kept
          cachedBytes := erased.foldl
            (fun bytes r => bytes - r.entry.approximateSerializedSize sizeofEntry)
            c.cachedBytes },
        kept.getLast?.map EntryWithSequenceMeta.fetchHint)

/-- The loop of `fetch`: entries until they reach `maxSize`. -/
def fetchLoop (maxSize : ℕ) : ℕ → List EntryWithSequenceMeta → List EntryWithSequenceMeta
  | _, [] => []
  | totalSize, r :: records =>
    if totalSize < maxSize then
      r :: fetchLoop maxSize (totalSize + r.entry.approximateSerializedSize sizeofEntry) records
    else []

/-- `fetch` of a log on disk, with whether to fall back to the file system. It has no outcome
when it dereferences the entry in front of the first one. -/
def fetch (requestStartSn requestEndSn : ℤ) (maxSize : ℕ) : Option (FetchResult × Bool) :=
  match c.entries.head?, c.entries.getLast? with
  | some front, some back =>
    if requestStartSn > back.sn then some ({}, true)
    else if requestStartSn < front.sn then some ({}, true)
    else
      let requestEndSn := min (back.sn + 1) requestEndSn
      let indexStart := (requestStartSn - front.sn).toNat
      let indexEnd := (requestEndSn - front.sn).toNat
      let batch := fetchLoop sizeofEntry maxSize 0
        ((c.entries.drop indexStart).take (indexEnd - indexStart))
      match indexStart + batch.length with
      | 0 => none
      | it + 1 =>
        match c.entries[it]?, c.entries[indexStart]? with
        | some prev, some start =>
          some (⟨prev.fetchHint, start.currentLogSnMetadata,
            batch.map EntryWithSequenceMeta.entry⟩, false)
        | _, _ => none
  | _, _ => some ({}, true)

end Source

/-! ### The log that feeds the cache -/

/-- The records of a batch, one behind the other in the file. -/
def batchRecords (segmentBaseSn : ℤ) : ℕ → List (Entry × Bytes) → List EntryWithSequenceMeta
  | _, [] => []
  | filePosition, (entry, data) :: batch =>
    batchRecord segmentBaseSn filePosition entry data ::
      batchRecords segmentBaseSn (filePosition + data.length) batch

/-- What the log does to the cache. -/
inductive Operation where
  | append (r : EntryWithSequenceMeta)
  | appendBatch (batch : List (Entry × Bytes)) (segmentBaseSn : ℤ) (startFilePosition : ℕ)
  | trim (targetSn : ℤ)
  /-- The log goes on with other entries, none if it starts anew. -/
  | clear (log : List EntryWithSequenceMeta)

/-- A log and its cache. -/
structure CachedLog where
  log : List EntryWithSequenceMeta
  cache : LogEntryCache

variable (sizeofEntry : ℕ)

/-- The log and the cache after an operation. -/
def CachedLog.apply (s : CachedLog) : Operation → CachedLog
  | .append r => ⟨s.log ++ [r], append sizeofEntry s.cache r⟩
  | .appendBatch batch segmentBaseSn startFilePosition =>
    ⟨s.log ++ batchRecords segmentBaseSn startFilePosition batch,
      appendBatch sizeofEntry s.cache batch segmentBaseSn startFilePosition⟩
  | .trim targetSn =>
    ⟨s.log.filter fun r => r.sn < targetSn, (trim sizeofEntry s.cache targetSn).1⟩
  | .clear log => ⟨log, s.cache.clear⟩

/-- The sequence numbers of the records are contiguous. -/
def Contiguous (records : List EntryWithSequenceMeta) : Prop :=
  ∃ sn, ContiguousFrom sn (records.map EntryWithSequenceMeta.entry)

/-- A step of a log that is in sequence order behind it. -/
def Step (s s' : CachedLog) : Prop :=
  ∃ op, s' = s.apply sizeofEntry op ∧ Contiguous s'.log

/-- The approximate size of records. -/
def recordBytes (records : List EntryWithSequenceMeta) : ℕ :=
  (records.map fun r => r.entry.approximateSerializedSize sizeofEntry).sum

/-- **The cache is coherent with the log.** -/
structure Coherent (s : CachedLog) : Prop where
  contiguous : Contiguous s.log
  suffix : s.cache.entries <:+ s.log
  length_le : s.cache.entries.length ≤ s.cache.maxCachedEntriesPerShard
  cachedBytes_eq : s.cache.cachedBytes = recordBytes sizeofEntry s.cache.entries

/-- The records of a log with sequence numbers in `[startSn, endSn)`. -/
def logRange (log : List EntryWithSequenceMeta) (startSn endSn : ℤ) : List EntryWithSequenceMeta :=
  (log.filter fun r => startSn ≤ r.sn).filter fun r => r.sn < endSn

/-- **A fetch is answered right**: by the file system, or by the shortest run of the log's entries
from `startSn` on that reaches `maxSize` or the end of the request, with the hint of its last
entry. -/
def FetchesRun (log : List EntryWithSequenceMeta) (startSn endSn : ℤ)
    (maxSize : ℕ) (answer : Option (FetchResult × Bool)) : Prop :=
  (∃ result, answer = some (result, true)) ∨
    ∃ run rest first last, logRange log startSn endSn = run ++ rest ∧
      run.head? = some first ∧ first.sn = startSn ∧ run.getLast? = some last ∧
      (rest = [] ∨ maxSize ≤ recordBytes sizeofEntry run) ∧
      (∀ shorter, shorter <+: run → shorter ≠ run →
        recordBytes sizeofEntry shorter < maxSize) ∧
      answer = some (⟨last.fetchHint, first.currentLogSnMetadata,
        run.map EntryWithSequenceMeta.entry⟩, false)

/-- A sequence number is from the first cached one to the last. -/
def InRange (c : LogEntryCache) (sn : ℤ) : Prop :=
  ∃ front back, c.entries.head? = some front ∧ c.entries.getLast? = some back ∧
    front.sn ≤ sn ∧ sn ≤ back.sn

/-! ### Contiguous records -/

section Contiguous

variable {a bound : ℤ} {records : List EntryWithSequenceMeta}

section

variable (h : ContiguousFrom a (records.map EntryWithSequenceMeta.entry))
include h

/-- Where contiguous records pass a sequence number. -/
theorem lt_and_le_of_contiguous (bound : ℤ) :
    (∀ r ∈ records.take (bound - a).toNat, r.sn < bound) ∧
      ∀ r ∈ records.drop (bound - a).toNat, bound ≤ r.sn := by
  induction records generalizing a with
  | nil => simp
  | cons r records ih =>
    obtain ⟨hsn, hrest⟩ := h
    obtain ⟨hlow, hhigh⟩ := ih hrest
    by_cases hlt : a < bound
    · rw [show (bound - a).toNat = (bound - (a + 1)).toNat + 1 by omega]
      exact ⟨forall_mem_cons.2 ⟨hsn.trans_lt hlt, hlow⟩, hhigh⟩
    · rw [show (bound - (a + 1)).toNat = 0 by omega] at hhigh
      rw [show (bound - a).toNat = 0 by omega]
      exact ⟨nofun, forall_mem_cons.2 ⟨(not_lt.1 hlt).trans_eq hsn.symm, hhigh⟩⟩

/-- The records from a sequence number on. -/
theorem filter_ge_eq_drop :
    records.filter (fun r => bound ≤ r.sn) = records.drop (bound - a).toNat := by
  obtain ⟨hlow, hhigh⟩ := lt_and_le_of_contiguous h bound
  conv_lhs => rw [← take_append_drop (bound - a).toNat records]
  rw [filter_append, filter_eq_nil_iff.2 (by simpa using hlow),
    filter_eq_self.2 (by simpa using hhigh), nil_append]

/-- The records up to a sequence number. -/
theorem filter_lt_eq_take :
    records.filter (fun r => r.sn < bound) = records.take (bound - a).toNat := by
  obtain ⟨hlow, hhigh⟩ := lt_and_le_of_contiguous h bound
  conv_lhs => rw [← take_append_drop (bound - a).toNat records]
  rw [filter_append, filter_eq_self.2 (by simpa using hlow),
    filter_eq_nil_iff.2 (by simpa using hhigh), append_nil]

/-- A search for the first record at or above a sequence number splits there. -/
theorem takeWhile_lt_eq_take :
    records.takeWhile (fun r => r.sn < bound) = records.take (bound - a).toNat := by
  obtain ⟨hlow, hhigh⟩ := lt_and_le_of_contiguous h bound
  conv_lhs => rw [← take_append_drop (bound - a).toNat records]
  rw [takeWhile_append_of_pos (by simpa using hlow)]
  cases hrest : records.drop (bound - a).toNat with
  | nil => rw [takeWhile_nil, append_nil]
  | cons r rest =>
    have hle := hhigh r (hrest ▸ mem_cons_self)
    rw [takeWhile_cons_of_neg (by simpa using hle), append_nil]

end

/-- Records in front of others. -/
theorem Contiguous.of_append {front back : List EntryWithSequenceMeta}
    (h : Contiguous (front ++ back)) : Contiguous front := by
  obtain ⟨sn, hsn⟩ := h
  rw [map_append, contiguousFrom_append] at hsn
  exact ⟨sn, hsn.1⟩

end Contiguous

/-! ### The operations keep the cache coherent -/

section Operations

variable {sizeofEntry : ℕ} {log : List EntryWithSequenceMeta} {c : LogEntryCache}

@[simp] theorem recordBytes_nil : recordBytes sizeofEntry [] = 0 := rfl

@[simp] theorem recordBytes_cons (r : EntryWithSequenceMeta)
    (records : List EntryWithSequenceMeta) :
    recordBytes sizeofEntry (r :: records) =
      r.entry.approximateSerializedSize sizeofEntry + recordBytes sizeofEntry records := by
  rw [recordBytes, map_cons, sum_cons, recordBytes]

@[simp] theorem recordBytes_append (front back : List EntryWithSequenceMeta) :
    recordBytes sizeofEntry (front ++ back) =
      recordBytes sizeofEntry front + recordBytes sizeofEntry back := by
  rw [recordBytes, map_append, List.sum_append, recordBytes, recordBytes]

/-- **Eviction** brings a cache with one entry too many back to its bound. -/
theorem coherent_evict (hcontiguous : Contiguous log) (hsuffix : c.entries <:+ log)
    (hlength : c.entries.length ≤ c.maxCachedEntriesPerShard + 1)
    (hbytes : c.cachedBytes = recordBytes sizeofEntry c.entries) :
    Coherent sizeofEntry ⟨log, evict sizeofEntry c⟩ := by
  rw [evict]
  split
  next hnil => exact ⟨hcontiguous, hsuffix, by simp [hnil], hbytes⟩
  next front rest hcons =>
    split
    · rw [hcons] at hsuffix hlength hbytes
      refine ⟨hcontiguous, (suffix_cons front rest).trans hsuffix, ?_, ?_⟩
      · simpa using hlength
      · simp only [hbytes, recordBytes_cons]
        omega
    next hle => exact ⟨hcontiguous, hsuffix, not_lt.1 hle, hbytes⟩

/-- **Clearing**: an empty cache is coherent with any log. -/
theorem coherent_clear (hcontiguous : Contiguous log) (c : LogEntryCache) :
    Coherent sizeofEntry ⟨log, c.clear⟩ :=
  ⟨hcontiguous, nil_suffix, zero_le _, rfl⟩

/-- Taking the erased entries off the byte count. -/
theorem foldl_sub_recordBytes (bytes : ℕ) (records : List EntryWithSequenceMeta) :
    records.foldl (fun bytes r => bytes - r.entry.approximateSerializedSize sizeofEntry)
      (bytes + recordBytes sizeofEntry records) = bytes := by
  induction records generalizing bytes with
  | nil => rfl
  | cons r records ih =>
    have hsub : bytes + recordBytes sizeofEntry (r :: records) -
        r.entry.approximateSerializedSize sizeofEntry =
          bytes + recordBytes sizeofEntry records := by
      rw [recordBytes_cons]
      omega
    rw [foldl_cons, hsub, ih]

section

variable (h : Coherent sizeofEntry ⟨log, c⟩)
include h

/-- **Appending one entry.** -/
theorem Coherent.append {r : EntryWithSequenceMeta}
    (hcontiguous : Contiguous (log ++ [r])) :
    Coherent sizeofEntry ⟨log ++ [r], LogEntryCache.append sizeofEntry c r⟩ := by
  obtain ⟨older, holder⟩ := h.suffix
  refine coherent_evict hcontiguous ⟨older, ?_⟩ ?_ ?_
  · simp only [← append_assoc, holder]
  · have hle := h.length_le
    simp only [length_append, length_singleton] at hle ⊢
    omega
  · have hbytes := h.cachedBytes_eq
    simp only at hbytes
    simp [hbytes]

/-- Appending entries one after the other. -/
theorem Coherent.foldl_append {records : List EntryWithSequenceMeta}
    (hcontiguous : Contiguous (log ++ records)) :
    Coherent sizeofEntry ⟨log ++ records, records.foldl (LogEntryCache.append sizeofEntry) c⟩ := by
  induction records generalizing log c with
  | nil => simpa using h
  | cons r records ih =>
    rw [← singleton_append, ← append_assoc] at hcontiguous
    have hnext := ih (h.append hcontiguous.of_append) hcontiguous
    rwa [append_assoc, singleton_append] at hnext

omit h in
/-- The loop over a batch appends its records one after the other. -/
theorem appendLoop_eq (segmentBaseSn : ℤ) (startFilePosition : ℕ)
    (batch : List (Entry × Bytes)) (bytes : ℕ) (c : LogEntryCache) :
    appendLoop sizeofEntry segmentBaseSn startFilePosition batch bytes c =
      (batchRecords segmentBaseSn (startFilePosition + bytes) batch).foldl
        (LogEntryCache.append sizeofEntry) c := by
  induction batch generalizing bytes c with
  | nil => rfl
  | cons b batch ih =>
    rw [appendLoop, ih, batchRecords, foldl_cons, add_assoc]

/-- **Appending a batch.** -/
theorem Coherent.appendBatch (batch : List (Entry × Bytes))
    (segmentBaseSn : ℤ) (startFilePosition : ℕ)
    (hcontiguous : Contiguous (log ++ batchRecords segmentBaseSn startFilePosition batch)) :
    Coherent sizeofEntry
      ⟨log ++ batchRecords segmentBaseSn startFilePosition batch,
        LogEntryCache.appendBatch sizeofEntry c batch segmentBaseSn startFilePosition⟩ := by
  rw [LogEntryCache.appendBatch]
  split
  next hzero =>
    -- a cache that is disabled is empty
    have hnil : c.entries = [] := by
      have hle := h.length_le
      simp only at hle
      exact length_eq_zero_iff.1 (by omega)
    refine ⟨hcontiguous, ?_, h.length_le, h.cachedBytes_eq⟩
    simp only [hnil]
    exact nil_suffix
  · rw [appendLoop_eq]
    split
    · exact (coherent_clear h.contiguous c).foldl_append hcontiguous
    · exact h.foldl_append hcontiguous

/-- **Trimming the tail** of the log and of the cache. -/
theorem Coherent.trim (targetSn : ℤ) :
    Coherent sizeofEntry
      ⟨log.filter fun r => r.sn < targetSn, (LogEntryCache.trim sizeofEntry c targetSn).1⟩ := by
  obtain ⟨sn, hsn⟩ := h.contiguous
  obtain ⟨older, holder⟩ := h.suffix
  simp only at hsn holder
  have htake : log.filter (fun r => r.sn < targetSn) = log.take (targetSn - sn).toNat :=
    filter_lt_eq_take hsn
  have hcontiguous : Contiguous (log.take (targetSn - sn).toNat) := by
    have hall := h.contiguous
    rw [← take_append_drop (targetSn - sn).toNat log] at hall
    exact hall.of_append
  rw [htake, LogEntryCache.trim]
  split
  next hnone =>
    rw [getLast?_eq_none_iff] at hnone
    refine ⟨hcontiguous, ?_, h.length_le, h.cachedBytes_eq⟩
    simp only [hnone]
    exact nil_suffix
  next back hback =>
    split
    next hlt =>
      -- nothing is at or above the target
      have hlast : back.entry ∈ (log.map EntryWithSequenceMeta.entry).getLast? := by
        rw [getLast?_map, ← holder, getLast?_append, hback]
        rfl
      have hend := hsn.getLast hlast
      rw [length_map, ← EntryWithSequenceMeta.sn] at hend
      refine ⟨hcontiguous, ?_, h.length_le, h.cachedBytes_eq⟩
      rw [take_of_length_le (by omega)]
      exact h.suffix
    · have hentries := hsn
      rw [← holder, map_append, contiguousFrom_append, length_map] at hentries
      refine ⟨hcontiguous, ?_, ?_, ?_⟩
      · refine ⟨older.take (targetSn - sn).toNat, ?_⟩
        rw [takeWhile_lt_eq_take hentries.2, ← holder, take_append,
          show (targetSn - (sn + older.length)).toNat = (targetSn - sn).toNat - older.length by
            omega]
      · exact (takeWhile_sublist _).length_le.trans h.length_le
      · have hsplit : c.cachedBytes =
            recordBytes sizeofEntry (c.entries.takeWhile fun r => r.sn < targetSn) +
              recordBytes sizeofEntry (c.entries.dropWhile fun r => r.sn < targetSn) := by
          rw [← recordBytes_append, takeWhile_append_dropWhile]
          exact h.cachedBytes_eq
        simp only
        rw [hsplit, foldl_sub_recordBytes]

end

/-! The bound is fixed when the cache is made. -/

/-- An append leaves the limit of the cache. -/
theorem maxCachedEntriesPerShard_append (c : LogEntryCache) (r : EntryWithSequenceMeta) :
    (LogEntryCache.append sizeofEntry c r).maxCachedEntriesPerShard =
      c.maxCachedEntriesPerShard := by
  rw [LogEntryCache.append, evict]
  split
  · rfl
  · split
    · rfl
    · rfl

/-- A batch leaves the limit of the cache. -/
theorem maxCachedEntriesPerShard_foldl_append (records : List EntryWithSequenceMeta)
    (c : LogEntryCache) :
    (records.foldl (LogEntryCache.append sizeofEntry) c).maxCachedEntriesPerShard =
      c.maxCachedEntriesPerShard := by
  induction records generalizing c with
  | nil => rfl
  | cons r records ih => rw [foldl_cons, ih, maxCachedEntriesPerShard_append]

/-- Every operation leaves the limit of the cache. -/
theorem maxCachedEntriesPerShard_apply (s : CachedLog) (op : Operation) :
    (s.apply sizeofEntry op).cache.maxCachedEntriesPerShard = s.cache.maxCachedEntriesPerShard := by
  cases op with
  | append r => exact maxCachedEntriesPerShard_append s.cache r
  | appendBatch batch segmentBaseSn startFilePosition =>
    rw [CachedLog.apply, LogEntryCache.appendBatch]
    split
    · rfl
    · rw [appendLoop_eq, maxCachedEntriesPerShard_foldl_append]
      split
      · rfl
      · rfl
  | trim targetSn =>
    rw [CachedLog.apply, LogEntryCache.trim]
    split
    · rfl
    · split
      · rfl
      · rfl
  | clear log => rfl

/-- **One step** of the log. -/
theorem Coherent.step {s s' : CachedLog} (h : Coherent sizeofEntry s)
    (hstep : Step sizeofEntry s s') : Coherent sizeofEntry s' := by
  obtain ⟨op, rfl, hcontiguous⟩ := hstep
  cases op with
  | append r => exact h.append hcontiguous
  | appendBatch batch segmentBaseSn startFilePosition =>
    exact h.appendBatch batch segmentBaseSn startFilePosition hcontiguous
  | trim targetSn => exact h.trim targetSn
  | clear log => exact coherent_clear hcontiguous s.cache

end Operations

/-! ### Fetching -/

section Fetch

variable {sizeofEntry maxSize : ℕ} {log : List EntryWithSequenceMeta} {c : LogEntryCache}
  {startSn endSn : ℤ}

/-- **The loop of `fetch`** takes the shortest run that reaches the size, or all there is. -/
theorem fetchLoop_split (sizeofEntry maxSize totalSize : ℕ) (records : List EntryWithSequenceMeta) :
    ∃ rest, records = fetchLoop sizeofEntry maxSize totalSize records ++ rest ∧
      (rest = [] ∨ maxSize ≤ totalSize +
        recordBytes sizeofEntry (fetchLoop sizeofEntry maxSize totalSize records)) ∧
      ∀ shorter, shorter <+: fetchLoop sizeofEntry maxSize totalSize records →
        shorter ≠ fetchLoop sizeofEntry maxSize totalSize records →
          totalSize + recordBytes sizeofEntry shorter < maxSize := by
  induction records generalizing totalSize with
  | nil =>
    refine ⟨[], rfl, .inl rfl, fun shorter hshorter hne => ?_⟩
    exact absurd (prefix_nil.1 hshorter) hne
  | cons r records ih =>
    rw [fetchLoop]
    by_cases hlt : totalSize < maxSize
    · rw [if_pos hlt]
      obtain ⟨rest, hrest, hreached, hshort⟩ :=
        ih (totalSize + r.entry.approximateSerializedSize sizeofEntry)
      refine ⟨rest, by rw [cons_append, ← hrest], ?_, ?_⟩
      · rw [recordBytes_cons, ← add_assoc]
        exact hreached
      · intro shorter hshorter hne
        rcases prefix_cons_iff.1 hshorter with rfl | ⟨shorter, rfl, htail⟩
        · simpa using hlt
        · have := hshort shorter htail fun heq => hne (by rw [heq])
          rw [recordBytes_cons]
          omega
    · rw [if_neg hlt]
      refine ⟨r :: records, rfl, .inr (by simpa using hlt), fun shorter hshorter hne => ?_⟩
      exact absurd (prefix_nil.1 hshorter) hne

/-- The indexes of a request that starts in the cache give the log's records of the request. -/
theorem Coherent.logRange_eq (h : Coherent sizeofEntry ⟨log, c⟩) (endSn : ℤ)
    {front back : EntryWithSequenceMeta} (hfront : c.entries.head? = some front)
    (hback : c.entries.getLast? = some back) (hlow : front.sn ≤ startSn)
    (hhigh : startSn ≤ back.sn) :
    logRange log startSn endSn = (c.entries.drop (startSn - front.sn).toNat).take
        ((min (back.sn + 1) endSn - front.sn).toNat - (startSn - front.sn).toNat) ∧
      ∃ first later, c.entries.drop (startSn - front.sn).toNat = first :: later ∧
        first.sn = startSn := by
  obtain ⟨sn, hsn⟩ := h.contiguous
  obtain ⟨older, holder⟩ := h.suffix
  simp only at hsn holder
  obtain ⟨rest, hcons⟩ : ∃ rest, c.entries = front :: rest := by
    cases hentries : c.entries with
    | nil => simp [hentries] at hfront
    | cons r rest => exact ⟨rest, by simpa [hentries] using hfront⟩
  have hentries := hsn
  rw [← holder, map_append, contiguousFrom_append, length_map] at hentries
  have hfrontSn : front.sn = sn + older.length := by
    have hcontiguous := hentries.2
    rw [hcons] at hcontiguous
    exact hcontiguous.1
  have hlast : back.entry ∈ (c.entries.map EntryWithSequenceMeta.entry).getLast? := by
    rw [getLast?_map, hback]
    rfl
  have hend := hentries.2.getLast hlast
  rw [length_map, ← EntryWithSequenceMeta.sn] at hend
  -- the records from the start of the request on are cached
  have hfrom : log.filter (fun r => startSn ≤ r.sn) =
      c.entries.drop (startSn - front.sn).toNat := by
    rw [filter_ge_eq_drop hsn, ← holder, drop_append,
      drop_eq_nil_of_le (by omega), nil_append,
      show (startSn - sn).toNat - older.length = (startSn - front.sn).toNat by omega]
  have hdrop : ContiguousFrom startSn
      ((c.entries.drop (startSn - front.sn).toNat).map EntryWithSequenceMeta.entry) := by
    have hsplit := hentries.2
    rw [← take_append_drop (startSn - front.sn).toNat c.entries, map_append,
      contiguousFrom_append, length_map, length_take] at hsplit
    have hat : sn + (older.length : ℤ) +
        ((min (startSn - front.sn).toNat c.entries.length : ℕ) : ℤ) = startSn := by omega
    rw [hat] at hsplit
    exact hsplit.2
  refine ⟨?_, ?_⟩
  · rw [logRange, hfrom, filter_lt_eq_take hdrop, take_eq_take_iff, length_drop]
    omega
  · obtain ⟨first, later, hfirst⟩ : ∃ first later,
        c.entries.drop (startSn - front.sn).toNat = first :: later := by
      refine exists_cons_of_ne_nil fun hnil => ?_
      rw [drop_eq_nil_iff] at hnil
      omega
    rw [hfirst] at hdrop
    exact ⟨first, later, hfirst, hdrop.1⟩

/-- **A fetch from the cache** that asks for at least one byte. -/
theorem Coherent.fetchesRun (h : Coherent sizeofEntry ⟨log, c⟩) (hin : InRange c startSn)
    (hlt : startSn < endSn) (hmax : 0 < maxSize) :
    FetchesRun sizeofEntry log startSn endSn maxSize
      (fetch sizeofEntry c startSn endSn maxSize) := by
  obtain ⟨front, back, hfront, hback, hlow, hhigh⟩ := hin
  obtain ⟨hrange, first, later, hfirst, hfirstSn⟩ := h.logRange_eq endSn hfront hback hlow hhigh
  obtain ⟨rest, hsplit, hreached, hshort⟩ :=
    fetchLoop_split sizeofEntry maxSize 0 (logRange log startSn endSn)
  obtain ⟨run, hrun⟩ : ∃ run,
      fetchLoop sizeofEntry maxSize 0 (logRange log startSn endSn) = run := ⟨_, rfl⟩
  rw [hrun] at hsplit hreached hshort
  obtain ⟨tail, rfl⟩ : ∃ tail, run = first :: tail := by
    rw [hfirst, show (min (back.sn + 1) endSn - front.sn).toNat - (startSn - front.sn).toNat =
      (min (back.sn + 1) endSn - front.sn).toNat - (startSn - front.sn).toNat - 1 + 1 by omega,
      take_succ_cons] at hrange
    rw [hrange, fetchLoop, if_pos hmax] at hrun
    exact ⟨_, hrun.symm⟩
  obtain ⟨last, hlast⟩ : ∃ last, (first :: tail).getLast? = some last :=
    ⟨_, getLast?_eq_some_getLast (cons_ne_nil _ _)⟩
  -- the run stands in the cache from the start of the request on
  obtain ⟨behind, hbehind⟩ : ∃ behind,
      c.entries.drop (startSn - front.sn).toNat = first :: tail ++ behind := by
    have hprefix : first :: tail <+: c.entries.drop (startSn - front.sn).toNat := by
      refine List.IsPrefix.trans ⟨rest, hsplit.symm⟩ ?_
      rw [hrange]
      exact take_prefix _ _
    exact ⟨_, hprefix.choose_spec.symm⟩
  have hget (n : ℕ) (hn : n < (first :: tail).length) :
      c.entries[(startSn - front.sn).toNat + n]? = (first :: tail)[n]? := by
    rw [← getElem?_drop, hbehind, getElem?_append_left hn]
  refine .inr ⟨first :: tail, rest, first, last, hsplit, rfl, hfirstSn, hlast, ?_, ?_, ?_⟩
  · simpa using hreached
  · simpa using hshort
  · rw [fetch, hfront, hback]
    simp only
    rw [if_neg (not_lt.2 hhigh), if_neg (not_lt.2 hlow), ← hrange, hrun, length_cons, ← add_assoc]
    have hprev := hget tail.length (by simp)
    have hstart := hget 0 (by simp)
    rw [getLast?_eq_getElem?, length_cons, Nat.add_sub_cancel] at hlast
    rw [hlast] at hprev
    rw [add_zero, getElem?_cons_zero] at hstart
    simp only [hprev, hstart]

/-- Without a size, a request that starts in the cache is not answered right. -/
theorem not_fetchesRun_zero (hin : InRange c startSn) :
    ¬ FetchesRun sizeofEntry log startSn endSn 0 (fetch sizeofEntry c startSn endSn 0) := by
  obtain ⟨front, back, hfront, hback, hlow, hhigh⟩ := hin
  rintro (⟨result, hfallback⟩ | ⟨run, rest, first, last, -, hfirst, -, -, -, hshort, -⟩)
  · rw [fetch, hfront, hback] at hfallback
    simp only at hfallback
    rw [if_neg (not_lt.2 hhigh), if_neg (not_lt.2 hlow)] at hfallback
    split at hfallback
    · cases hfallback
    · split at hfallback
      · simp at hfallback
      · cases hfallback
  · have hne : [] ≠ run := by
      rintro rfl
      cases hfirst
    exact absurd (hshort [] nil_prefix hne) (not_lt_zero _)

/-- A request that does not start in the cache falls back to the file system. -/
theorem fetch_of_not_inRange (hout : ¬ InRange c startSn) (endSn : ℤ) (maxSize : ℕ) :
    fetch sizeofEntry c startSn endSn maxSize = some ({}, true) := by
  rw [fetch]
  split
  next front back hfront hback =>
    split
    · rfl
    next hhigh =>
      split
      · rfl
      next hlow =>
        exact absurd ⟨front, back, hfront, hback, not_lt.1 hlow, not_lt.1 hhigh⟩ hout
  · rfl

end Fetch

/-- **The tail cache is coherent with its log** in every state of a run of appends, trims and
clears in sequence order from an empty cache. In each of them a fetch is answered right, by the
file system or by the log's entries with the hint of the last one, if and only if it asks for at
least one byte or does not start in the cache. -/
theorem cache_coherent_iff (sizeofEntry : ℕ) {log : List EntryWithSequenceMeta}
    (hlog : Contiguous log) (maxCachedEntriesPerShard : ℕ) {s : CachedLog}
    (hrun : Relation.ReflTransGen (Step sizeofEntry) ⟨log, { maxCachedEntriesPerShard }⟩ s) :
    Coherent sizeofEntry s ∧ s.cache.maxCachedEntriesPerShard = maxCachedEntriesPerShard ∧
      ∀ startSn endSn maxSize, 0 ≤ startSn → startSn < endSn →
        (FetchesRun sizeofEntry s.log startSn endSn maxSize
            (fetch sizeofEntry s.cache startSn endSn maxSize) ↔
          0 < maxSize ∨ ¬ InRange s.cache startSn) := by
  have h : Coherent sizeofEntry s := by
    induction hrun with
    | refl => exact ⟨hlog, nil_suffix, zero_le _, rfl⟩
    | tail _ hstep ih => exact ih.step hstep
  have hmax : s.cache.maxCachedEntriesPerShard = maxCachedEntriesPerShard := by
    clear h
    induction hrun with
    | refl => rfl
    | tail _ hstep ih =>
      obtain ⟨op, rfl, -⟩ := hstep
      rw [maxCachedEntriesPerShard_apply, ih]
  refine ⟨h, hmax, fun startSn endSn maxSize _ hlt => ⟨fun hfetch => ?_, fun hwhen => ?_⟩⟩
  · by_contra hnot
    obtain ⟨hzero, hin⟩ := not_or.1 hnot
    obtain rfl : maxSize = 0 := by omega
    exact not_fetchesRun_zero (not_not.1 hin) hfetch
  · by_cases hin : InRange s.cache startSn
    · exact h.fetchesRun hin hlt (hwhen.resolve_right (not_not.2 hin))
    · exact .inl ⟨{}, fetch_of_not_inRange hin endSn maxSize⟩

/-- The record of an empty entry, which takes 12 bytes of the file. -/
def emptyRecord (n : ℕ) : EntryWithSequenceMeta :=
  batchRecord 1 (12 * n) { sn := .ofNat (n + 1) } (replicate 12 0)

/-- Two entries, and a batch of two that evicts the first one from a cache of three. The last entry
is trimmed and written again. -/
def evictingRun : List Operation :=
  [.append (emptyRecord 0), .append (emptyRecord 1),
    .appendBatch [((emptyRecord 2).entry, replicate 12 0), ((emptyRecord 3).entry, replicate 12 0)]
      1 24,
    .trim 4, .append (emptyRecord 3)]

/-- The three entries that are cached in the end are fetched. -/
theorem cache_coherent_evicting :
    let s := evictingRun.foldl (CachedLog.apply 100) ⟨[], { maxCachedEntriesPerShard := 3 }⟩
    s.log = [emptyRecord 0, emptyRecord 1, emptyRecord 2, emptyRecord 3] ∧
      s.cache.entries = [emptyRecord 1, emptyRecord 2, emptyRecord 3] ∧
      ((fetch 100 s.cache 2 5 250).map fun answer => answer.1.entries.length) = some 3 ∧
      FetchesRun 100 s.log 2 5 250 (fetch 100 s.cache 2 5 250) := by
  have hnil : Contiguous [] := ⟨0, trivial⟩
  refine ⟨by decide, by decide, by decide, ?_⟩
  refine ((cache_coherent_iff 100 hnil 3 ?_).2.2 2 5 250 (by decide) (by decide)).2
    (.inl (by decide))
  simp only [evictingRun, foldl_cons, foldl_nil]
  refine .head ⟨_, rfl, 1, ?_⟩ <| .head ⟨_, rfl, 1, ?_⟩ <| .head ⟨_, rfl, 1, ?_⟩ <|
    .head ⟨_, rfl, 1, ?_⟩ <| .head ⟨_, rfl, 1, ?_⟩ .refl
  all_goals decide

/-- A log of one entry and its cache of at most two. -/
def cachedOne : CachedLog :=
  CachedLog.apply 100 ⟨[], { maxCachedEntriesPerShard := 2 }⟩ (.append (emptyRecord 0))

/-- **A size of zero**: a fetch of its entry dereferences the entry in front of the first one. -/
theorem fetch_zero_undefined :
    cachedOne.cache.entries = [emptyRecord 0] ∧ fetch 100 cachedOne.cache 1 2 0 = none ∧
      ¬ FetchesRun 100 cachedOne.log 1 2 0 (fetch 100 cachedOne.cache 1 2 0) := by
  refine ⟨rfl, rfl, ?_⟩
  exact not_fetchesRun_zero ⟨emptyRecord 0, emptyRecord 0, rfl, rfl, by decide, by decide⟩

end LogEntryCache

end Proton
