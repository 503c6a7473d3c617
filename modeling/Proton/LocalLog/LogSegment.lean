import Proton.LocalLog.FileLogEntries

/-!
# A Log Segment and its Recovery

This module embeds `Cluster/LocalLog/Log/LogSegment.{h,cpp}`: a segment file with an id and
a base sequence number, the scan that recomputes its next sequence number, and the recovery
that truncates a torn tail.

`LogSegment.readNextSequenceAndCheckCorruption` remembers the last entry the metadata scan
visited and, after the scan has ended for whatever reason, calls the file corrupted when
that entry does not end at the end of the file. `LogSegment.recover` then truncates the file
*at the start of that last entry*. So the torn tail itself has to be visited for the
truncation to hit it.

## Main results

* `LogSegment.recover_complete`, `LogSegment.recover_visited_tail`: recovery keeps every
  complete entry when there is no tail, or when the metadata of the tail is readable.
* `LogSegment.recover_unreadable`: otherwise the last complete entry is truncated.
-/

open ByteReader List

namespace Proton

open FileLogEntries

/-- The sequence numbers of `es` are `sn, sn + 1, …`. -/
def ContiguousFrom : ℤ → List Entry → Prop
  | _, [] => True
  | sn, e :: es => e.sn.toInt = sn ∧ ContiguousFrom (sn + 1) es

instance decidableContiguousFrom : (sn : ℤ) → (es : List Entry) →
    Decidable (ContiguousFrom sn es)
  | _, [] => isTrue trivial
  | sn, _ :: es =>
    have := decidableContiguousFrom (sn + 1) es
    inferInstanceAs (Decidable (_ ∧ _))

/-- Contiguity of a concatenation. -/
theorem contiguousFrom_append (sn : ℤ) (es fs : List Entry) :
    ContiguousFrom sn (es ++ fs) ↔ ContiguousFrom sn es ∧ ContiguousFrom (sn + es.length) fs := by
  induction es generalizing sn with
  | nil => simp [ContiguousFrom]
  | cons e es ih =>
    simp only [cons_append, ContiguousFrom, ih, length_cons, Nat.cast_add, Nat.cast_one, and_assoc]
    rw [add_assoc sn 1, add_comm (1 : ℤ)]

/-- The last entry of a contiguous list. -/
theorem ContiguousFrom.getLast {sn : ℤ} {es : List Entry} (h : ContiguousFrom sn es)
    {e : Entry} (he : e ∈ es.getLast?) : e.sn.toInt + 1 = sn + es.length := by
  obtain ⟨init, rfl⟩ := getLast?_eq_some_iff.mp he
  rw [contiguousFrom_append] at h
  have hsn := h.2.1
  rw [length_append, length_singleton]
  omega

/-- `LogSegment`. The id is monotonically increasing over the segments of a log. -/
structure LogSegment where
  id : ℕ
  baseSn : ℤ
  log : FileLogEntries
  deriving DecidableEq, Repr

namespace LogSegment

/-- `size()`. -/
def size (seg : LogSegment) : ℕ :=
  seg.log.size

variable (seg : LogSegment)

/-- `fetch`. -/
def fetch (filePosition size : ℕ) : FileLogEntries :=
  seg.log.slice filePosition size

/-- `shouldRoll`. -/
def shouldRoll (segmentSize appendSize : ℕ) : Bool :=
  seg.size + appendSize > segmentSize

/-- What the callback of `readNextSequenceAndCheckCorruption` remembers of the last entry
it was handed. -/
structure LastEntry where
  sn : ℤ
  startOffset : ℕ
  size : ℕ
  deriving DecidableEq, Repr

/-- The callback of `readNextSequenceAndCheckCorruption`: it never stops the scan. -/
def LastEntry.visit (_ : LastEntry) (entry : ParsedEntry) (entryStartOffset : ℕ) :
    LastEntry × Bool :=
  ({ sn := entry.entry.sn.toInt
     startOffset := entryStartOffset
     size := entry.serializedSize }, false)

/-- The result of `readNextSequenceAndCheckCorruption`. -/
structure NextSequence where
  nextSn : ℤ
  lastEntryOffset : ℕ
  corrupted : Bool
  deriving DecidableEq, Repr

/-- The end of `readNextSequenceAndCheckCorruption`: the last visited entry decides. When
it does not end at the end of the file, its own sequence number is the next one. -/
def LastEntry.nextSequence (last : LastEntry) (logSize : ℕ) : NextSequence :=
  if last.startOffset + last.size ≠ logSize then
    { nextSn := last.sn, lastEntryOffset := last.startOffset, corrupted := true }
  else
    { nextSn := last.sn + 1, lastEntryOffset := last.startOffset, corrupted := false }

/-- The last entry a scan from `startPosition` visits. An exception of the scan is logged
and otherwise ignored. -/
def lastVisited (startPosition : ℕ) (startSn : ℤ) : LastEntry :=
  ((seg.fetch startPosition seg.size).applyLogEntryMetadata LastEntry.visit none
    { sn := startSn, startOffset := startPosition, size := 0 }).1

/-- `readNextSequenceAndCheckCorruption`. -/
def readNextSequenceAndCheckCorruption (startPosition : ℕ) (startSn : ℤ) : NextSequence :=
  if seg.size = 0 then
    { nextSn := seg.baseSn, lastEntryOffset := 0, corrupted := false }
  else
    (seg.lastVisited startPosition startSn).nextSequence seg.size

/-- The result of `recover`: the next sequence number, the number of bytes truncated and
the segment afterwards. -/
structure Recovered where
  nextSn : ℤ
  trimmedBytes : ℕ
  segment : LogSegment
  deriving DecidableEq, Repr

/-- `recover` from a position and its sequence number, with a truncation that succeeds. -/
def recover (sn : ℤ) (filePosition : ℕ) : Recovered :=
  let next := seg.readNextSequenceAndCheckCorruption filePosition sn
  if next.corrupted then
    let trimmed := seg.log.trim next.lastEntryOffset
    { nextSn := next.nextSn
      trimmedBytes := trimmed.1
      segment := { seg with log := trimmed.2 } }
  else
    { nextSn := next.nextSn, trimmedBytes := 0, segment := seg }

/-! ### What a scan remembers -/

/-- The scan of a nonempty run of entries remembers the last one. -/
theorem applyEntries_visit_concat (position : ℕ) (last : LastEntry) (es : List Entry) (e : Entry) :
    applyEntries LastEntry.visit position last (es ++ [e]) =
      { sn := e.sn.toInt
        startOffset := position + (entriesBytes es).length
        size := e.serialize.length } := by
  rw [applyEntries_append]
  simp [applyEntries, LastEntry.visit, Entry.parsedMetadata,
    Entry.length_serialize, ParsedEntry.serializedSize]

/-- Before the scan nothing is remembered but the starting point. -/
def LastEntry.start (sn : ℤ) (position : ℕ) : LastEntry :=
  { sn := sn, startOffset := position, size := 0 }

/-- The last visited entry ends where the scan stopped. -/
theorem applyEntries_visit_end (sn : ℤ) (position : ℕ) (es : List Entry) :
    let last := applyEntries LastEntry.visit position (.start sn position) es
    last.startOffset + last.size = position + (entriesBytes es).length := by
  induction es using reverseRecOn with
  | nil => simp [applyEntries, LastEntry.start]
  | append_singleton es e _ =>
    rw [applyEntries_visit_concat]
    simp [Nat.add_assoc]

/-- The segment with its file cut to `length` bytes. -/
def truncated (length : ℕ) : LogSegment :=
  { seg with log := { seg.log with file := seg.log.file.take length } }

/-- Recovery of a nonempty file is decided by the last visited entry. -/
theorem recover_eq (sn : ℤ) (position : ℕ) (hsize : seg.size ≠ 0) :
    seg.recover sn position = let last := seg.lastVisited position sn
      if last.startOffset + last.size ≠ seg.size then
        { nextSn := last.sn
          trimmedBytes := seg.size - last.startOffset
          segment := seg.truncated last.startOffset }
      else
        { nextSn := last.sn + 1, trimmedBytes := 0, segment := seg } := by
  simp only [recover, readNextSequenceAndCheckCorruption, if_neg hsize, LastEntry.nextSequence]
  split <;> rfl

/-- Recovery of an empty file returns the base sequence number. -/
theorem recover_empty (sn : ℤ) (position : ℕ) (hsize : seg.size = 0) :
    seg.recover sn position = { nextSn := seg.baseSn, trimmedBytes := 0, segment := seg } := by
  simp [recover, readNextSequenceAndCheckCorruption, hsize]

section Recover

variable {seg : LogSegment} {done es : List Entry} {t : Bytes} {sn : ℤ} {next : Entry}

/-- The view a scan from `position` reads: it ends at the end of the file. -/
def view (seg : LogSegment) (position : ℕ) : FileLogEntries :=
  { file := seg.log.file, startPos := position, endPos := seg.size }

/-- `fetch` to the end of the file, or beyond it, gives that view. -/
theorem fetch_of_le (hstart : seg.log.startPos = 0) {position size : ℕ}
    (hle : seg.size ≤ position + size) : seg.fetch position size = seg.view position := by
  have havail : seg.log.availableBytes position size = (seg.size : ℤ) - position := by
    rw [availableBytes]
    simp only [LogSegment.size] at *
    split <;> omega
  simp only [fetch, FileLogEntries.slice, view, FileLogEntries.mk.injEq, true_and]
  omega

/-- A truncation before the end of `es` does not leave `es` in the file. -/
theorem truncated_file_ne {bytes : Bytes} {length : ℕ} (h : length < bytes.length) :
    (seg.truncated length).log.file ≠ bytes := by
  intro heq
  have := congrArg List.length heq
  simp only [truncated, length_take] at this
  omega

section Scan

variable (sn : ℤ) (done es : List Entry) (hstart : seg.log.startPos = 0)
  (hfile : seg.log.file = entriesBytes (done ++ es) ++ t) (hfit : ∀ e ∈ es, e.Fits)
  (hwindow : ∀ e ∈ es, e.metadataLength ≤ approximateSerializedMetadataSize)

include hstart hfile hfit hwindow

/-- The scan of a segment that holds `done ++ es` and a tail, from the position behind
`done`, is the scan of the tail with what the entries `es` left. -/
theorem lastVisited_eq :
    ∃ fuel, seg.lastVisited (entriesBytes done).length sn =
      (applyLogEntryMetadataLoop LastEntry.visit
        (seg.view (entriesBytes done).length) (fuel + 1) (entriesBytes (done ++ es)).length
        (applyEntries LastEntry.visit (entriesBytes done).length
          (.start sn (entriesBytes done).length) es)).1 := by
  have hsize : seg.log.file.length = (entriesBytes done).length + (entriesBytes es).length
      + t.length := by
    simp only [hfile, entriesBytes_append, length_append]
  have hle := length_le_length_entriesBytes es
  refine ⟨seg.log.file.length - es.length, ?_⟩
  have hfuel : seg.log.file.length + 1 =
      es.length + (seg.log.file.length - es.length + 1) := by omega
  unfold lastVisited applyLogEntryMetadata
  rw [fetch_of_le hstart (Nat.le_add_left _ _)]
  simp only [FileLogEntries.size, view, Option.getD_none]
  rw [hfuel, ← LastEntry.start, FileLogEntries.scan_entries _ _ t es (fun _ _ _ _ => rfl)
    (by simp [hfile]) (by simp only [size, FileLogEntries.size]; omega) hfit hwindow,
    entriesBytes_append]

/-- **An unreadable entry**: when the scan meets metadata it cannot read behind the entries
`es`, the file is truncated at the start of the last of these. -/
theorem recover_unreadable (hnext : next.Fits) (hcmp : t <+: next.metadata ∨ next.metadata <+: t)
    (ht : t ≠ []) (hshort : min approximateSerializedMetadataSize t.length < next.metadataLength) :
    seg.recover sn (entriesBytes done).length =
      let last := applyEntries LastEntry.visit (entriesBytes done).length
        (.start sn (entriesBytes done).length) es
      { nextSn := last.sn
        trimmedBytes := seg.size - last.startOffset
        segment := seg.truncated last.startOffset } := by
  have hlen : 0 < t.length := length_pos_iff.mpr ht
  have hsize : seg.size = (entriesBytes (done ++ es)).length + t.length := by
    simp only [size, FileLogEntries.size, hfile, length_append]
  obtain ⟨fuel, hvisit⟩ := lastVisited_eq sn done es hstart hfile hfit hwindow
  obtain ⟨err, hscan⟩ := scan_unreadable LastEntry.visit
    (f := seg.view (entriesBytes done).length) hfile (by simp only [view]; omega)
    hnext hcmp ht hshort fuel
    (applyEntries LastEntry.visit (entriesBytes done).length
      (.start sn (entriesBytes done).length) es)
  rw [hscan] at hvisit
  have hend := applyEntries_visit_end sn (entriesBytes done).length es
  rw [entriesBytes_append, length_append] at hsize
  rw [recover_eq _ _ _ (by omega), hvisit]
  exact if_pos (by simp only; omega)

/-- **A readable tail**: when the metadata of the torn entry can be read, the scan visits
it, and the file is truncated exactly behind the complete entries. -/
theorem recover_visited_tail (hnext : next.Fits) (ht : t <+: next.serialize)
    (hlt : t.length < next.serialize.length)
    (hread : next.metadataLength ≤ min approximateSerializedMetadataSize t.length) :
    seg.recover sn (entriesBytes done).length =
      { nextSn := next.sn.toInt
        trimmedBytes := t.length
        segment := seg.truncated (entriesBytes (done ++ es)).length } := by
  have hsize : seg.size = (entriesBytes (done ++ es)).length + t.length := by
    simp only [size, FileLogEntries.size, hfile, length_append]
  have hmeta : next.metadata <+: t := by
    refine prefix_of_prefix_length_le ?_ ht (by rw [next.length_metadata]; omega)
    exact prefix_append _ _
  have hpos : 0 < next.metadataLength := by
    unfold Entry.metadataLength prefixLengthSize
    omega
  obtain ⟨fuel, hvisit⟩ := lastVisited_eq sn done es hstart hfile hfit hwindow
  rw [scan_step (f := seg.view (entriesBytes done).length) (w := t) _ hfile
    (by simp only [view]; omega) hnext hmeta (by omega)] at hvisit
  simp only [LastEntry.visit] at hvisit
  rw [scan_eof _ (by simp only [view]; omega)] at hvisit
  rw [recover_eq _ _ _ (by omega), hvisit]
  simp only [next.parsedMetadata_serializedSize]
  rw [if_pos (by omega), hsize, Nat.add_sub_cancel_left]
  rfl

omit hwindow in
/-- An entry whose metadata does not fit the window is cut off with all that follows. -/
theorem recover_wide_entry
    (hwide : ¬ ∀ e ∈ es, e.metadataLength ≤ approximateSerializedMetadataSize) :
    (seg.recover sn (entriesBytes done).length).segment.log.file ≠ entriesBytes (done ++ es) := by
  -- split `es` at the first entry that is too wide
  obtain ⟨a, e, b, rfl, ha, he⟩ : ∃ a e b, es = a ++ e :: b ∧
      (∀ e ∈ a, e.metadataLength ≤ approximateSerializedMetadataSize) ∧
      approximateSerializedMetadataSize < e.metadataLength := by
    clear hfile hfit
    induction es with
    | nil => simp at hwide
    | cons x xs ih =>
      by_cases hx : x.metadataLength ≤ approximateSerializedMetadataSize
      · obtain ⟨a, e, b, rfl, ha, he⟩ := ih (by simpa [hx] using hwide)
        exact ⟨x :: a, e, b, rfl, by simpa [hx] using ha, he⟩
      · exact ⟨[], x, xs, rfl, by simp, by omega⟩
  have hmeta : e.metadata <+: entriesBytes (e :: b) ++ t := by
    rw [entriesBytes_cons, e.serialize_eq_metadata_append]
    simp only [append_assoc]
    exact prefix_append _ _
  have hne : entriesBytes (e :: b) ++ t ≠ [] := by
    intro h
    have := congrArg length h
    have := e.length_serialize_pos
    simp only [entriesBytes_cons, length_append, length_nil] at *
    omega
  rw [recover_unreadable (t := entriesBytes (e :: b) ++ t) sn done a hstart
    (by simp [hfile]) (fun x hx => hfit x (by simp [hx])) ha (hfit e (by simp))
    (.inr hmeta) hne (by omega)]
  have hend := applyEntries_visit_end sn (entriesBytes done).length a
  have hpos := e.length_serialize_pos
  refine truncated_file_ne ?_
  simp only [entriesBytes_append, entriesBytes_cons, length_append] at *
  omega

/-- A torn tail whose metadata is unreadable takes the last complete entry with it. -/
theorem recover_unread_tail (hne : es ≠ []) (hnext : next.Fits) (ht : t <+: next.serialize)
    (htne : t ≠ [])
    (hshort : min approximateSerializedMetadataSize t.length < next.metadataLength) :
    (seg.recover sn (entriesBytes done).length).segment.log.file ≠ entriesBytes (done ++ es) := by
  have hcmp : t <+: next.metadata ∨ next.metadata <+: t :=
    prefix_or_prefix_of_prefix ht
      (by rw [next.serialize_eq_metadata_append]; exact prefix_append _ _)
  rw [recover_unreadable sn done es hstart hfile hfit hwindow hnext hcmp htne hshort]
  obtain ⟨es, e, rfl⟩ := eq_nil_or_concat' es |>.resolve_left hne
  simp only [applyEntries_visit_concat]
  have hpos := e.length_serialize_pos
  refine truncated_file_ne ?_
  simp only [entriesBytes_append, entriesBytes_cons, entriesBytes_nil, length_append, length_nil]
  omega

end Scan

/-- **No tail**: recovery leaves a file of complete entries as it is. -/
theorem recover_complete (sn : ℤ) (done es : List Entry) (hstart : seg.log.startPos = 0)
    (hfile : seg.log.file = entriesBytes (done ++ es)) (hfit : ∀ e ∈ es, e.Fits)
    (hwindow : ∀ e ∈ es, e.metadataLength ≤ approximateSerializedMetadataSize)
    (hsn : ContiguousFrom sn es) (hne : es ≠ []) :
    seg.recover sn (entriesBytes done).length =
      { nextSn := sn + es.length, trimmedBytes := 0, segment := seg } := by
  have hsize : seg.size = (entriesBytes (done ++ es)).length := by
    simp only [size, FileLogEntries.size, hfile]
  obtain ⟨fuel, hvisit⟩ := lastVisited_eq (t := []) sn done es hstart (by simp [hfile]) hfit hwindow
  rw [scan_eof _ (by simp only [view]; omega)] at hvisit
  obtain ⟨es, e, rfl⟩ := eq_nil_or_concat' es |>.resolve_left hne
  rw [applyEntries_visit_concat] at hvisit
  rw [contiguousFrom_append] at hsn
  have hpos := e.length_serialize_pos
  simp only [entriesBytes_append, entriesBytes_cons, entriesBytes_nil, append_nil,
    length_append] at hsize
  rw [recover_eq _ _ _ (by omega), hvisit]
  simp only
  rw [if_neg (by omega), hsn.2.1, length_append]
  simp [add_assoc]

/-- Over an empty run of entries every torn tail is cut off whole. -/
theorem recover_only_tail (hstart : seg.log.startPos = 0) (hfile : seg.log.file = t)
    (hnext : next.Fits) (hsn : next.sn.toInt = seg.baseSn) (ht : t <+: next.serialize)
    (hlt : t.length < next.serialize.length) :
    (seg.recover seg.baseSn 0).nextSn = seg.baseSn ∧
      (seg.recover seg.baseSn 0).segment.log.file = [] := by
  by_cases htne : t = []
  · rw [recover_empty _ _ _ (by simp [size, FileLogEntries.size, hfile, htne])]
    exact ⟨rfl, by rw [hfile, htne]⟩
  by_cases hread : next.metadataLength ≤ min approximateSerializedMetadataSize t.length
  · have h := recover_visited_tail seg.baseSn [] [] hstart
      (by simpa using hfile) (by simp) (by simp) hnext ht hlt hread
    rw [entriesBytes_nil, length_nil] at h
    rw [h]
    exact ⟨hsn, by simp [truncated]⟩
  · have hcmp : t <+: next.metadata ∨ next.metadata <+: t :=
      prefix_or_prefix_of_prefix ht
        (by rw [next.serialize_eq_metadata_append]; exact prefix_append _ _)
    have h := recover_unreadable seg.baseSn [] [] hstart
      (by simpa using hfile) (by simp) (by simp) hnext hcmp htne (by omega)
    rw [entriesBytes_nil, length_nil] at h
    rw [h]
    exact ⟨rfl, by simp [truncated, applyEntries, LastEntry.start]⟩

/-- **Recovery of a torn tail.** A segment file holds the complete entries `es` with
contiguous sequence numbers and a proper prefix `t` of the next entry. Recovery from the
start, or from the position of one of the entries, leaves exactly the complete entries and
returns the next sequence number if and only if every scanned entry has metadata that fits
the scan window and the torn tail is empty, follows no entry, or is long enough for its
metadata to be read. -/
theorem recover_torn_tail_iff (seg : LogSegment) (es : List Entry) (next : Entry) (t : Bytes)
    (k : ℕ) (hlog : seg.log = ofFile (entriesBytes es ++ t))
    (hsn : ContiguousFrom seg.baseSn (es ++ [next])) (hfit : ∀ e ∈ es ++ [next], e.Fits)
    (ht : t <+: next.serialize) (hproper : t ≠ next.serialize) (hk : k = 0 ∨ k < es.length) :
    ((seg.recover (seg.baseSn + k) (entriesBytes (es.take k)).length).nextSn =
          seg.baseSn + es.length ∧
        (seg.recover (seg.baseSn + k) (entriesBytes (es.take k)).length).segment.log.file =
          entriesBytes es) ↔
      (∀ e ∈ es.drop k, e.metadataLength ≤ approximateSerializedMetadataSize) ∧
        (t = [] ∨ es = [] ∨
          next.metadataLength ≤ min approximateSerializedMetadataSize t.length) := by
  have hstart : seg.log.startPos = 0 := by rw [hlog]; rfl
  have hfile : seg.log.file = entriesBytes (es.take k ++ es.drop k) ++ t := by
    rw [hlog, take_append_drop]
    rfl
  have hlt : t.length < next.serialize.length :=
    lt_of_le_of_ne ht.length_le fun h => hproper (ht.eq_of_length h)
  have hnext : next.Fits := hfit next (by simp)
  have hfits : ∀ e ∈ es.drop k, e.Fits := fun e he =>
    hfit e (mem_append_left _ (mem_of_mem_drop he))
  obtain ⟨hes, hnextSn, -⟩ := (contiguousFrom_append _ _ _).mp hsn
  by_cases hnil : es = []
  · obtain rfl : k = 0 := by
      rcases hk with h | h
      · exact h
      · simp [hnil] at h
    subst hnil
    have := recover_only_tail hstart (by simpa using hfile) hnext (by simpa using hnextSn) ht hlt
    simpa using this
  have hklt : k < es.length := by
    have := length_pos_iff.mpr hnil
    omega
  have hdrop : es.drop k ≠ [] := by
    intro h
    have := congrArg length h
    simp only [length_drop, length_nil] at this
    omega
  constructor
  · rintro ⟨-, hbytes⟩
    have hwindow : ∀ e ∈ es.drop k, e.metadataLength ≤ approximateSerializedMetadataSize := by
      by_contra hwide
      refine recover_wide_entry (seg.baseSn + k) _ _ hstart hfile hfits hwide ?_
      rw [hbytes, take_append_drop]
    refine ⟨hwindow, ?_⟩
    by_contra hcon
    push Not at hcon
    refine recover_unread_tail (seg.baseSn + k) _ _ hstart hfile hfits hwindow hdrop
      hnext ht hcon.1 hcon.2.2 ?_
    rw [hbytes, take_append_drop]
  · rintro ⟨hwindow, htail⟩
    have hsnk : ContiguousFrom (seg.baseSn + k) (es.drop k) := by
      have h := hes
      rw [← take_append_drop k es, contiguousFrom_append] at h
      simpa [hklt.le] using h.2
    rcases htail with rfl | h | hread
    · rw [append_nil] at hfile
      rw [recover_complete _ _ _ hstart hfile hfits hwindow hsnk hdrop, length_drop]
      refine ⟨?_, by rw [hfile, take_append_drop]⟩
      simp only
      omega
    · exact absurd h hnil
    · rw [recover_visited_tail _ _ _ hstart hfile hfits hwindow hnext ht hlt hread]
      refine ⟨hnextSn, ?_⟩
      rw [truncated, hfile, take_left, take_append_drop]

/-- A segment with base sequence number 1 that holds `es` and the torn tail `t`. -/
def ofEntries (es : List Entry) (t : Bytes) : LogSegment :=
  { id := 1, baseSn := 1, log := ofFile (entriesBytes es ++ t) }

/-- Cut inside its payload length, the second entry is the only thing recovery removes. -/
theorem recover_torn_tail_readable :
    let seg := ofEntries [{ sn := 1 }] (({ sn := 2 } : Entry).serialize.take 11)
    (seg.recover 1 0).nextSn = 2 ∧
      (seg.recover 1 0).segment.log.file = entriesBytes [{ sn := 1 }] :=
  (recover_torn_tail_iff (ofEntries [{ sn := 1 }] _) [{ sn := 1 }] { sn := 2 }
    (({ sn := 2 } : Entry).serialize.take 11) 0 rfl (by decide) (by decide)
    ⟨_, take_append_drop _ _⟩ (by decide) (.inl rfl)).mpr (by decide)

/-- One byte of the second entry's length prefix makes recovery remove the complete first
entry too, and hand out its sequence number again. -/
theorem recover_drops_complete_entry :
    let e₁ : Entry := { sn := 1 }
    let e₂ : Entry := { sn := 2 }
    let t := e₂.serialize.take 1
    ContiguousFrom 1 ([e₁] ++ [e₂]) ∧ (∀ e ∈ [e₁] ++ [e₂], e.Fits) ∧
      t <+: e₂.serialize ∧ t ≠ e₂.serialize ∧
      ((ofEntries [e₁] t).recover 1 0).nextSn ≠ 1 + 1 ∧
      ((ofEntries [e₁] t).recover 1 0).segment.log.file ≠ entriesBytes [e₁] ∧
      (ofEntries [e₁] t).recover 1 0 =
        { nextSn := 1, trimmedBytes := 13, segment := ofEntries [] [] } := by
  decide

end Recover

end LogSegment

end Proton
