import Proton.LocalLog.Indexes.MemoryImage

/-!
# The Memory Image over Whole Runs

A run of `PersistentMonoMap` is any sequence of its operations, interrupted by restarts:
a new object is created over the same files, and what a crash left behind in the active
file (a partial entry, or garbage that looks like entries) is still there.

`MemoryAgrees` says that the memory image describes the files: `log_size` is the size of
the active file and every cached entry stands in its file at the cached offset. The source
loses this in two situations, and `SizeKept` excludes exactly these two: a trim that makes
a rolled segment the active one although the bytes it keeps are not as many as the active
file had, and a restart over a file whose entries are out of order.

## Main results

* `memory_image_agrees`: the memory image agrees with the files in every state of a run
  that avoids the two.
-/

open ByteReader Records

namespace Proton.PersistentMonoMap

variable {α : Type} [KeyValue α]

/-- The operations a run consists of. -/
inductive Operation (α : Type) where
  | maybeIndex (entry : α)
  | trim (startKey : ℤ)
  | trimByValue (startValue : ℤ)
  | trimHead (targetKey : ℤ)
  | trimHeadByValue (targetValue : ℤ)
  /-- The loading that every operation starts with, on its own. -/
  | recover
  /-- A fresh object over the same files, with bytes left behind in the active one. -/
  | restart (garbage : Bytes)

variable (m : PersistentMonoMap α)

/-- The state after an operation and the error it reports. -/
def apply : Operation α → PersistentMonoMap α × Option MonoMapError
  | .maybeIndex entry =>
    match m.maybeIndex entry with
    | (m, .ok _) => (m, none)
    | (m, .error err) => (m, some err)
  | .trim startKey => m.trim startKey
  | .trimByValue startValue => m.trimByValue startValue
  | .trimHead targetKey => m.trimHead targetKey
  | .trimHeadByValue targetValue => m.trimHeadByValue targetValue
  | .recover => m.ensureLoaded
  | .restart garbage => (ofFiles m.maxSize m.segmentFiles (m.logFile ++ garbage), none)

/-- A cached entry stands in the file at its offset. -/
def StoredAt (file : Bytes) (kvo : KeyValueWithLogOffset α) : Prop :=
  kvo.offset + entrySize α ≤ file.length ∧
    (KeyValue.codec : Codec α).dec ((file.drop kvo.offset).take (entrySize α)) = kvo.entry

/-- **The memory image agrees with the files**: the believed size is the size, and every
cached entry stands at its offset in the file of its segment. -/
structure MemoryAgrees : Prop where
  logSize : m.logSize = m.logFile.length
  cache : ∀ kvo ∈ m.cache, StoredAt m.logFile kvo
  segments : ∀ s ∈ m.segIdToEntryOffsetMap, ∃ file,
    findSegment m.segmentFiles s.1 = some file ∧ ∀ kvo ∈ s.2, StoredAt file kvo

/-- If the first entry to remove stands in a rolled segment, the bytes in front of it are
as many as the active file is believed to have. -/
def PromotionKeepsSize (proj : α → ℤ) (m : PersistentMonoMap α) (start : ℤ) : Prop :=
  ∀ found, (m.ensureLoaded.1.findAtLeast proj start).2 = .ok (some found) →
    found.segmentId ≠ 0 → found.entryOffset.offset = m.ensureLoaded.1.logSize

/-- The steps that keep the believed size of the active file right. -/
def SizeKept : Operation α → Prop
  | .trim startKey => PromotionKeepsSize KeyValue.key m startKey
  | .trimByValue startValue => PromotionKeepsSize KeyValue.value m startValue
  | .restart garbage => Ordered (storedEntries (m.logFile ++ garbage) : List α)
  | _ => True

/-- A defined step that keeps the size. -/
def KeepingStep (m m' : PersistentMonoMap α) : Prop :=
  ∃ op, SizeKept m op ∧ (m.apply op).1 = m' ∧ (m.apply op).2 ≠ some .undefinedBehaviour

/-- An entry that the memory image mirrors stands at its offset. -/
theorem Mirrors.storedAt {s : ℕ × EntryContainer α} {f : ℕ × Bytes} (h : Mirrors s f) :
    ∀ kvo ∈ s.2, StoredAt f.2 kvo := by
  intro kvo hkvo
  obtain ⟨n, hn⟩ := List.mem_iff_getElem?.mp hkvo
  obtain ⟨hentry, hoffset, -⟩ := h.getElem? hn
  obtain ⟨hlt, hget⟩ := List.getElem?_eq_some_iff.mp hentry
  refine ⟨?_, ?_⟩
  · rw [hoffset]
    exact (KeyValue.codec : Codec α).mul_size_add_le f.2 hlt
  · rw [hoffset, ← hget]
    exact ((KeyValue.codec : Codec α).getElem_decode f.2 hlt).symm

variable {m : PersistentMonoMap α}

/-- In a consistent image, the memory is that of the files. -/
theorem Consistent.memoryAgrees (h : Consistent m) (hsize : SizeAgrees m)
    (hl : m.currentLogSegLoaded = true) : MemoryAgrees m := by
  have hm := h.loaded hl
  refine ⟨hsize hl, ?_, ?_⟩
  · exact Mirrors.storedAt (s := (0, m.cache)) (f := (0, m.logFile)) ⟨rfl, .inl hm.cache_eq⟩
  · rintro ⟨id, c⟩ hs
    obtain ⟨before, after, hsegs⟩ := List.append_of_mem hs
    obtain ⟨file, _, _, hsplit⟩ := h.splitAt hl hsegs
    exact ⟨file, hsplit.findSegment_files, hsplit.mirrors.storedAt⟩

/-- A trim that keeps the size keeps the invariant. -/
theorem Consistent.trimBy_sizeAgrees (h : Consistent m) (hsize : SizeAgrees m) {proj : α → ℤ}
    {t : ℤ} (hkept : PromotionKeepsSize proj m t) :
    Consistent (PersistentMonoMap.trimBy proj m t).1 ∧
      SizeAgrees (PersistentMonoMap.trimBy proj m t).1 := by
  rcases h.trimBy hsize proj t with ⟨ho, -⟩ | ⟨ho, -⟩ | ⟨found, hfound, -, htrim⟩
  · exact ⟨ho.consistent, ho.sizeAgrees hsize⟩
  · exact ⟨ho.consistent, ho.sizeAgrees hsize⟩
  refine ⟨htrim.consistent, ?_⟩
  rcases htrim.kept with ⟨-, -, -, hs⟩ | ⟨file, filesAfter, hid, -, -, -, hlen, hlog⟩
  · exact hs
  · have ho := h.opened_ensureLoaded
    have hr := (ho.consistent.findAtLeast ho.loaded proj t).1
    have hsame : (m.ensureLoaded.1.findAtLeast proj t).1.logSize = m.ensureLoaded.1.logSize := by
      rw [hr.eq]
    exact fun _ => by rw [hlog, hsame, ← hkept found hfound hid, hlen]

/-- A map that was just opened over files is consistent if they are. -/
theorem consistent_ofFiles {maxSize : ℕ} {segmentFiles : List (ℕ × Bytes)} {logFile : Bytes}
    (hpos : 0 < maxSize) (hfiles : ∀ f ∈ segmentFiles, SegmentFile α f)
    (hids : segmentFiles.Pairwise fun f g => f.1 < g.1)
    (hactive : Ordered (storedEntries logFile : List α)) :
    Consistent (ofFiles maxSize segmentFiles logFile : PersistentMonoMap α) :=
  ⟨hpos, hfiles, hids, hactive, fun _ => ⟨rfl, rfl⟩, nofun⟩

/-- **One step**: the invariant and the agreement of the size survive every step that keeps
the size. -/
theorem Consistent.apply (h : Consistent m) (hsize : SizeAgrees m) {op : Operation α}
    (hkept : SizeKept m op) : Consistent (m.apply op).1 ∧ SizeAgrees (m.apply op).1 := by
  cases op with
  | maybeIndex entry =>
    have hstep := h.maybeIndex hsize entry
    simp only [PersistentMonoMap.apply]
    split
    next heq => rw [heq] at hstep; exact ⟨hstep.1, hstep.2.1⟩
    next heq => rw [heq] at hstep; exact ⟨hstep.1, hstep.2.1⟩
  | trim startKey => exact h.trimBy_sizeAgrees hsize hkept
  | trimByValue startValue => exact h.trimBy_sizeAgrees hsize hkept
  | trimHead targetKey =>
    have hstep := h.trimHeadBy KeyValue.key (KeyValue.keySucc α) targetKey
    exact ⟨hstep.consistent, hstep.sizeAgrees hsize⟩
  | trimHeadByValue targetValue =>
    have hstep := h.trimHeadBy KeyValue.value (KeyValue.valueSucc α) targetValue
    exact ⟨hstep.consistent, hstep.sizeAgrees hsize⟩
  | recover =>
    have ho := h.opened_ensureLoaded
    exact ⟨ho.consistent, ho.sizeAgrees hsize⟩
  | restart garbage =>
    exact ⟨consistent_ofFiles h.maxSize_pos h.segmentFiles h.ids_increasing hkept, nofun⟩

/-- A map over no files is consistent. -/
theorem consistent_ofFiles_nil {maxSize : ℕ} (hpos : 0 < maxSize) :
    Consistent (ofFiles maxSize [] [] : PersistentMonoMap α) := by
  have hnil : (storedEntries [] : List α) = [] := (KeyValue.codec : Codec α).decode_nil
  refine consistent_ofFiles hpos nofun .nil ?_
  rw [hnil]
  exact .nil

/-- **The memory image agrees with the files in every run whose steps keep the size.** The
run starts with no files, and any map is loaded as soon as one of its operations runs. -/
theorem memory_image_agrees {maxSize : ℕ} (hpos : 0 < maxSize) {m : PersistentMonoMap α}
    (hrun : Relation.ReflTransGen KeepingStep (ofFiles maxSize [] []) m)
    (hl : m.currentLogSegLoaded = true) : MemoryAgrees m := by
  have hinv : Consistent m ∧ SizeAgrees m := by
    clear hl
    induction hrun with
    | refl => exact ⟨consistent_ofFiles_nil hpos, nofun⟩
    | tail _ hstep ih =>
      obtain ⟨op, hkept, rfl, -⟩ := hstep
      exact ih.1.apply ih.2 hkept
  exact hinv.1.memoryAgrees hinv.2 hl

/-- Operations one after the other. -/
def applyAll (m : PersistentMonoMap α) (ops : List (Operation α)) : PersistentMonoMap α :=
  ops.foldl (fun m op => (m.apply op).1) m

/-- Two entries to a file: five entries roll two segments, and a trim from key 4 on makes the
second one active with as many bytes as the active file had. A crash then leaves a partial entry,
which the restarted map truncates before it takes another entry. -/
theorem memory_image_agrees_promoted :
    let m := applyAll (ofFiles 32 [] []) [.maybeIndex ⟨1, 10⟩, .maybeIndex ⟨2, 20⟩,
      .maybeIndex ⟨3, 30⟩, .maybeIndex ⟨4, 40⟩, .maybeIndex ⟨5, 50⟩, .trim 4, .restart [7],
      .maybeIndex (⟨6, 60⟩ : SequencePosition)]
    m.entries = [⟨1, 10⟩, ⟨2, 20⟩, ⟨3, 30⟩, ⟨6, 60⟩] ∧ MemoryAgrees m :=
  ⟨by decide, memory_image_agrees (by decide : 0 < 32)
    (.head ⟨.maybeIndex ⟨1, 10⟩, trivial, rfl, by decide⟩ <|
      .head ⟨.maybeIndex ⟨2, 20⟩, trivial, rfl, by decide⟩ <|
      .head ⟨.maybeIndex ⟨3, 30⟩, trivial, rfl, by decide⟩ <|
      .head ⟨.maybeIndex ⟨4, 40⟩, trivial, rfl, by decide⟩ <|
      .head ⟨.maybeIndex ⟨5, 50⟩, trivial, rfl, by decide⟩ <|
      .head ⟨.trim 4, fun found hfound _ => by
        obtain rfl : found = ⟨⟨⟨4, 40⟩, 16⟩, 2, 1⟩ :=
          Option.some.inj (Except.ok.inj (hfound.symm.trans (by decide)))
        decide, rfl, by decide⟩ <|
      .head ⟨.restart [7], by unfold SizeKept; decide, rfl, by decide⟩ <|
      .head ⟨.maybeIndex ⟨6, 60⟩, trivial, rfl, by decide⟩ .refl)
    (by decide)⟩

/-- Offer entries one after the other. -/
def indexAll (m : PersistentMonoMap α) (es : List α) : PersistentMonoMap α :=
  es.foldl (fun m e => (m.maybeIndex e).1) m

/-- With two entries to a file, trimming six entries from key 4 on keeps one entry of the
second file, which becomes the active one; but the size of the old active file stays. And
after a restart over two entries that are out of order the second one is truncated, but its
bytes stay counted. -/
theorem memory_image_disagrees :
    let six := indexAll (ofFiles 32 [] [])
      [⟨1, 10⟩, ⟨2, 20⟩, ⟨3, 30⟩, ⟨4, 40⟩, ⟨5, 50⟩, (⟨6, 60⟩ : SequencePosition)]
    let one := indexAll (ofFiles 32 [] []) [(⟨5, 50⟩ : SequencePosition)]
    let garbage := (KeyValue.codec : Codec SequencePosition).enc ⟨3, 30⟩
    ((six.trim 4).1.currentLogSegLoaded = true ∧ (six.trim 4).2 = none ∧
        (six.trim 4).1.logSize = 32 ∧ (six.trim 4).1.logFile.length = 16 ∧
        ¬ MemoryAgrees (six.trim 4).1) ∧
      ((one.apply (.restart garbage)).1.ensureLoaded.2 = none ∧
        (one.apply (.restart garbage)).1.ensureLoaded.1.logSize = 32 ∧
        (one.apply (.restart garbage)).1.ensureLoaded.1.logFile.length = 16 ∧
        ¬ MemoryAgrees (one.apply (.restart garbage)).1.ensureLoaded.1) := by
  refine ⟨⟨by decide, by decide, by decide, by decide, fun h => ?_⟩,
    by decide, by decide, by decide, fun h => ?_⟩
  · exact absurd h.logSize (by decide)
  · exact absurd h.logSize (by decide)

end Proton.PersistentMonoMap
