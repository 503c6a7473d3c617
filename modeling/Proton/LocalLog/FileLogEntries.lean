import Proton.Cluster.Entry

/-!
# Log Entries Backed by a File

This module embeds the part of `Cluster/LocalLog/Common/FileLogEntries.{h,cpp}` that scans
a file by entry metadata. A `FileLogEntries` is a view `[startPos, endPos)` of a file;
`FileLogEntries.applyLogEntryMetadata` walks the view, reading at each entry a window of
`approximateSerializedMetadataSize` bytes only, and hands the parsed metadata and its
position to a callback until the callback says stop, the view ends or a window does not
parse. A parse failure is an exception in the source: it leaves the loop with whatever the
callback has recorded so far, so the result here is the callback state together with the
error, if any.

The file is its byte string. Reads at an offset past the end return nothing, as
`AppendOnlyFile::read` does at the end of the file.

## Main results

* `FileLogEntries.scan_entries`: over a run of complete entries whose metadata fits the
  window the scan visits every entry at its position and continues behind the last one.
* `FileLogEntries.scan_eof`, `FileLogEntries.scan_unreadable`: the two ways a scan ends.
-/

open ByteReader List

namespace Proton

/-- The bytes of a segment file that holds the entries `es`, in order. -/
def entriesBytes (es : List Entry) : Bytes :=
  es.flatMap Entry.serialize

@[simp] theorem entriesBytes_nil : entriesBytes [] = [] := rfl

@[simp] theorem entriesBytes_cons (e : Entry) (es : List Entry) :
    entriesBytes (e :: es) = e.serialize ++ entriesBytes es := rfl

@[simp] theorem entriesBytes_append (es fs : List Entry) :
    entriesBytes (es ++ fs) = entriesBytes es ++ entriesBytes fs :=
  flatMap_append

/-- Every entry takes at least one byte. -/
theorem length_le_length_entriesBytes (es : List Entry) : es.length ≤ (entriesBytes es).length := by
  induction es with
  | nil => simp
  | cons e es ih =>
    have := e.length_serialize_pos
    simp only [length_cons, entriesBytes_cons, length_append]
    omega

/-- `FileLogEntries`: the view `[startPos, endPos)` of a file. -/
structure FileLogEntries where
  file : Bytes
  startPos : ℕ
  endPos : ℕ
  deriving DecidableEq, Repr

namespace FileLogEntries

/-- `FileLogEntries::open`: a view of the whole file, however far it grows. -/
def ofFile (file : Bytes) : FileLogEntries :=
  { file := file, startPos := 0, endPos := 2 ^ 64 - 1 }

variable (f : FileLogEntries)

/-- `size()`: the byte count kept next to the file, equal to the length of the file. -/
def size : ℕ :=
  f.file.length

/-- `availableBytes`. The source subtracts in unsigned arithmetic; a position behind the
end of the file would make the difference negative, and `slice` adds the same position
back. -/
def availableBytes (position size : ℕ) : ℤ :=
  let stop := f.startPos + position + size
  let stop := if stop > f.startPos + f.size ∨ size = 0 then f.startPos + f.size else stop
  (stop : ℤ) - f.startPos - position

/-- `slice`. -/
def slice (position size : ℕ) : FileLogEntries :=
  { file := f.file
    startPos := f.startPos + position
    endPos := ((f.startPos + position : ℕ) + f.availableBytes position size).toNat }

/-- `trim(length)`: truncate the file, and report how many bytes went. -/
def trim (length : ℕ) : ℕ × FileLogEntries :=
  (f.size - length, { f with file := f.file.take length })

/-- `file->read` of up to `n` bytes at `offset`. -/
def readAt (n offset : ℕ) : Bytes :=
  (f.file.drop offset).take n

/-! ### The metadata scan -/

section Scan

variable {σ : Type} (callback : σ → ParsedEntry → ℕ → σ × Bool)

/-- The loop of `applyLogEntryMetadata` with the offset of the next entry and the state of
the callback. Every step moves the offset forward by at least the length prefix, so the
length of the file bounds the number of steps. -/
def applyLogEntryMetadataLoop (f : FileLogEntries) : ℕ → ℕ → σ → σ × Option ReadError
  | 0, _, s => (s, none)
  | fuel + 1, startOffset, s =>
    if startOffset < f.endPos then
      let window := f.readAt approximateSerializedMetadataSize startOffset
      if window = [] then
        (s, none)
      else
        match (Entry.deserialize true).run window with
        | .error e => (s, some e)
        | .ok (entryMeta, _) =>
          match callback s entryMeta startOffset with
          | (s', true) => (s', none)
          | (s', false) =>
            applyLogEntryMetadataLoop f fuel
              (startOffset + entryMeta.serializedSize) s'
    else
      (s, none)

/-- `applyLogEntryMetadata` from `startingPosition`, or from the start of the view. -/
def applyLogEntryMetadata (f : FileLogEntries) (startingPosition : Option ℕ) (s : σ) :
    σ × Option ReadError :=
  applyLogEntryMetadataLoop callback f (f.size + 1) (startingPosition.getD f.startPos) s

/-- The callback state after the entries `es` that start at `position`. -/
def applyEntries : ℕ → σ → List Entry → σ
  | _, s, [] => s
  | position, s, e :: es =>
    applyEntries (position + e.serialize.length)
      (callback s e.parsedMetadata position).1 es

/-- The callback state over a concatenation. -/
theorem applyEntries_append (position : ℕ) (s : σ) (es fs : List Entry) :
    applyEntries callback position s (es ++ fs) =
      applyEntries callback (position + (entriesBytes es).length)
        (applyEntries callback position s es) fs := by
  induction es generalizing position s with
  | nil => simp [applyEntries]
  | cons e es ih =>
    simp only [cons_append, applyEntries, ih, entriesBytes_cons, length_append, Nat.add_assoc]

variable {f : FileLogEntries} {pre w : Bytes} {e : Entry}

/-- The bytes a scan sees at the offset behind `pre`. -/
theorem readAt_length (hf : f.file = pre ++ w) (n : ℕ) : f.readAt n pre.length = w.take n := by
  rw [readAt, hf, drop_left]

/-- **One step of the scan**: at an offset where the metadata of `e` stands and fits the
window, the callback sees `e`. -/
theorem scan_step (hf : f.file = pre ++ w) (hend : pre.length < f.endPos) (hfit : e.Fits)
    (hmeta : e.metadata <+: w)
    (hwindow : e.metadataLength ≤ approximateSerializedMetadataSize) (fuel : ℕ) (s : σ) :
    applyLogEntryMetadataLoop callback f (fuel + 1) pre.length s =
      match callback s e.parsedMetadata pre.length with
      | (s', true) => (s', none)
      | (s', false) =>
        applyLogEntryMetadataLoop callback f fuel (pre.length + e.serialize.length) s' := by
  obtain ⟨payload, rfl⟩ := hmeta
  rw [← e.length_metadata] at hwindow
  have hread := (e.metadata_exact hfit).run_take_of_le payload hwindow
  have hne : (e.metadata ++ payload).take approximateSerializedMetadataSize ≠ [] := by
    intro h
    rw [h, show (Entry.deserialize true).run [] =
      .error ReadError.cannotReadAllData from rfl] at hread
    cases hread
  rw [applyLogEntryMetadataLoop, if_pos hend, readAt_length hf]
  simp only [if_neg hne, hread, e.parsedMetadata_serializedSize]

/-- **The scan of complete entries**: every entry is handed to the callback at its
position, and the scan goes on behind the last one. -/
theorem scan_entries (pre rest : Bytes) (es : List Entry)
    (hcont : ∀ e ∈ es, ∀ s position, (callback s e.parsedMetadata position).2 = false)
    (hf : f.file = pre ++ (entriesBytes es ++ rest))
    (hend : pre.length + (entriesBytes es).length ≤ f.endPos) (hfit : ∀ e ∈ es, e.Fits)
    (hwindow : ∀ e ∈ es, e.metadataLength ≤ approximateSerializedMetadataSize) (fuel : ℕ) (s : σ) :
    applyLogEntryMetadataLoop callback f (es.length + fuel) pre.length s =
      applyLogEntryMetadataLoop callback f fuel (pre ++ entriesBytes es).length
        (applyEntries callback pre.length s es) := by
  induction es generalizing pre s with
  | nil => simp [applyEntries]
  | cons e es ih =>
    have hpos := e.length_serialize_pos
    simp only [entriesBytes_cons, length_append] at hend
    have hmeta : e.metadata <+: (entriesBytes (e :: es) ++ rest) := by
      rw [entriesBytes_cons, e.serialize_eq_metadata_append]
      simp only [append_assoc]
      exact prefix_append _ _
    have hstep := scan_step callback hf (by omega)
      (hfit e mem_cons_self) hmeta (hwindow e mem_cons_self)
    have htail := ih (pre ++ e.serialize)
      (fun e' h => hcont e' (mem_cons_of_mem _ h)) (by simp [hf])
      (by rw [length_append]; omega)
      (fun e' h => hfit e' (mem_cons_of_mem _ h))
      (fun e' h => hwindow e' (mem_cons_of_mem _ h))
    rw [length_append] at htail
    rw [length_cons, Nat.add_right_comm, hstep,
      ← Prod.mk.eta (p := callback s e.parsedMetadata pre.length),
      hcont e mem_cons_self]
    simp only [htail, applyEntries, entriesBytes_cons, append_assoc]

/-- A scan ends at the end of its view. -/
theorem scan_eof {offset : ℕ} (h : f.endPos ≤ offset) (fuel : ℕ) (s : σ) :
    applyLogEntryMetadataLoop callback f fuel offset s = (s, none) := by
  cases fuel with
  | zero => rfl
  | succ fuel => rw [applyLogEntryMetadataLoop, if_neg (by omega)]

/-- **A scan ends at unreadable metadata**: when the window holds a proper prefix of the
metadata of an entry, because the file or the window ends inside it, the state of the
callback is what the entries before it left. -/
theorem scan_unreadable (hf : f.file = pre ++ w) (hend : pre.length < f.endPos)
    (hfit : e.Fits) (hcmp : w <+: e.metadata ∨ e.metadata <+: w) (hw : w ≠ [])
    (hshort : min approximateSerializedMetadataSize w.length < e.metadataLength)
    (fuel : ℕ) (s : σ) :
    ∃ err, applyLogEntryMetadataLoop callback f (fuel + 1) pre.length s = (s, some err) := by
  have htake : w.take approximateSerializedMetadataSize <+: e.metadata := by
    rcases hcmp with h | ⟨payload, rfl⟩
    · exact IsPrefix.trans ⟨_, take_append_drop _ _⟩ h
    · rw [length_append, e.length_metadata] at hshort
      rw [take_append_of_le_length (by rw [e.length_metadata]; omega)]
      exact take_prefix _ _
  have hne : w.take approximateSerializedMetadataSize ≠ e.metadata := by
    intro h
    have := congrArg length h
    rw [length_take, e.length_metadata] at this
    omega
  obtain ⟨err, herr⟩ := (e.metadata_exact hfit).fails_short _ htake hne
  have hnil : w.take approximateSerializedMetadataSize ≠ [] := by
    simpa [approximateSerializedMetadataSize] using hw
  refine ⟨err, ?_⟩
  rw [applyLogEntryMetadataLoop, if_pos hend, readAt_length hf]
  simp only [if_neg hnil, herr]

end Scan

/-! ### The search for a sequence number -/

/-- `LogSequencePosition`. -/
structure LogSequencePosition where
  sn : ℤ
  filePosition : ℕ
  entrySize : ℕ
  deriving DecidableEq, Repr

/-- The callback of `searchForSequenceWithSize`. It remembers the position and the size of
the entry with the target sequence number, and stops there. -/
def searchVisit (targetSn : ℤ) (target : ℕ × ℕ) (entry : ParsedEntry) (position : ℕ) :
    (ℕ × ℕ) × Bool :=
  if entry.entry.sn.toInt = targetSn then ((position, entry.serializedSize), true)
  else (target, false)

/-- `searchForSequenceWithSize`. An exception of the scan is not caught. -/
def searchForSequenceWithSize (f : FileLogEntries) (targetSn : ℤ) (startingPosition : ℕ) :
    Except ReadError (Option LogSequencePosition) :=
  match f.applyLogEntryMetadata (searchVisit targetSn) (some startingPosition) (0, 0) with
  | (_, some err) => .error err
  | ((targetPosition, targetSize), none) =>
    .ok (if targetSize > 0 then some ⟨targetSn, targetPosition, targetSize⟩ else none)

end FileLogEntries

end Proton
