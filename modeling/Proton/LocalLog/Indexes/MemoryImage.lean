import Mathlib.Data.List.Chain
import Proton.LocalLog.Indexes.PersistentMonoMap

/-!
# The Memory Image of PersistentMonoMap

`PersistentMonoMap` keeps the size of its active file and the byte offset of every cached
entry in memory and updates them along with the files. `Consistent` is the invariant that
ties the two halves together: the cache mirrors the active file, every cached segment
mirrors its rolled file or the first entry of it, and the ids increase.

`Consistent` says nothing about `log_size`, which the source does not always keep up to
date: `remove` makes a rolled segment the active one without setting it, and
`loadLogSegment` reports the size of the file before it truncated entries that are out of
order. `SizeAgrees` is the missing half.

## Main results

* `Consistent.opened_ensureLoaded`, `Consistent.maybeIndex`, `Consistent.trimBy`,
  `Consistent.trimHeadBy`: one lemma for each operation, which says that the invariant is
  kept and what happens to the stored entries.
-/

open ByteReader Records SortedSearch List Option Nat

namespace Proton.PersistentMonoMap

open KeyValue

variable {α : Type} [KeyValue α]

variable (m : PersistentMonoMap α)

/-- The entries stored in the active file. -/
def active : List α :=
  storedEntries m.logFile

/-- The entries stored in the rolled files, by segment id. -/
def rolled : List (ℕ × List α) :=
  m.segmentFiles.map fun s => (s.1, storedEntries s.2)

/-- The stored entries: the rolled segments in the order of their ids, then the active
segment. -/
def entries : List α :=
  m.rolled.flatMap Prod.snd ++ m.active

variable (es : List α)

/-- No entry is smaller than its predecessor. -/
def Ordered : Prop :=
  es.IsChain fun a b => ¬ lt b a
deriving Decidable

/-! ### Offsets -/

/-- Every entry has an offset. -/
@[simp] theorem length_withOffsets : (withOffsets es).length = es.length := by
  simp [withOffsets]

@[simp] theorem withOffsets_nil : withOffsets ([] : List α) = [] := rfl

/-- Entries follow each other in the file. -/
theorem getElem?_withOffsets (i : ℕ) :
    (withOffsets es)[i]? = es[i]?.map fun a => ⟨a, i * entrySize α⟩ := by
  simp [withOffsets]

/-- A new entry is at the end of the file. -/
theorem withOffsets_concat (a : α) :
    withOffsets (es ++ [a]) = withOffsets es ++ [⟨a, es.length * entrySize α⟩] := by
  simp [withOffsets]

/-- The first entries keep their offsets. -/
theorem take_withOffsets (n : ℕ) : (withOffsets es).take n = withOffsets (es.take n) := by
  refine ext_getElem? fun i => ?_
  rw [getElem?_take, getElem?_withOffsets, getElem?_withOffsets, getElem?_take]
  split <;> simp

/-- The entries are those that were given offsets. -/
@[simp] theorem map_entry_withOffsets : (withOffsets es).map (·.entry) = es := by
  refine ext_getElem? fun i => ?_
  rw [getElem?_map, getElem?_withOffsets]
  cases es[i]? <;> rfl

/-! ### Loading a file that is in order -/

/-- Ordered entries are all loaded. -/
theorem orderedPrefix_eq_self {es : List α} (h : Ordered es) : orderedPrefix es = es := by
  induction es using orderedPrefix.induct with
  | case1 => rfl
  | case2 a => rfl
  | case3 a b l hlt =>
    exact absurd hlt (isChain_cons_cons.mp h).1
  | case4 a b l hlt ih =>
    rw [orderedPrefix, if_neg hlt, ih (isChain_cons_cons.mp h).2]

variable {file : Bytes}

/-- A file of ordered entries is loaded up to its last whole entry. -/
theorem loadLogSegment_of_ordered (h : Ordered (storedEntries file : List α)) (readOnly : Bool) :
    (loadLogSegment file readOnly : LoadedLogSegment α) =
      { bytes := file.length / entrySize α * entrySize α
        entryCache := withOffsets (storedEntries file)
        file := if readOnly then file
                else file.take (file.length / entrySize α * entrySize α) } := by
  unfold loadLogSegment
  simp only [orderedPrefix_eq_self h, lt_irrefl, false_and, if_false]

/-- A file that holds an entry is not too small, and its first entry is read back. -/
theorem loadRolledLogSegments_eq {files : List (ℕ × Bytes)}
    (h : ∀ s ∈ files, (storedEntries s.2 : List α) ≠ []) :
    loadRolledLogSegments files =
      (files.map fun s => (s.1, withOffsets ((storedEntries s.2 : List α).take 1)), none) := by
  induction files with
  | nil => rfl
  | cons s files ih =>
    obtain ⟨a, es, hes⟩ := exists_cons_of_ne_nil (h s mem_cons_self)
    have hpos : 0 < (storedEntries s.2 : List α).length := by simp [hes]
    have hsize : entrySize α ≤ s.2.length := by
      have := (codec : Codec α).mul_size_add_le s.2 hpos
      rwa [zero_mul, zero_add] at this
    have hfirst : a = (codec : Codec α).dec (s.2.take (entrySize α)) := by
      have := (codec : Codec α).getElem_decode s.2 hpos
      rw [zero_mul] at this
      exact (getElem_of_eq hes hpos).symm.trans this
    rw [loadRolledLogSegments, if_neg (by omega), ih fun s' hs' => h s' (mem_cons_of_mem _ hs')]
    simp [hes, hfirst, withOffsets]

/-! ### The invariant -/

variable (α) in
/-- A rolled file holds complete entries in order, and at least one. -/
structure SegmentFile (f : ℕ × Bytes) : Prop where
  id_pos : 0 < f.1
  complete : entrySize α ∣ f.2.length
  ordered : Ordered (storedEntries f.2 : List α)
  nonempty : (storedEntries f.2 : List α) ≠ []

/-- A cached segment mirrors its file, or only the first entry of it. -/
structure Mirrors (s : ℕ × EntryContainer α) (f : ℕ × Bytes) : Prop where
  id_eq : s.1 = f.1
  container : s.2 = withOffsets (storedEntries f.2) ∨
    s.2 = withOffsets ((storedEntries f.2).take 1)

/-- A loaded memory image mirrors the files. -/
structure Mirrored : Prop where
  complete : entrySize α ∣ m.logFile.length
  cache_eq : m.cache = withOffsets m.active
  segments : List.Forall₂ Mirrors m.segIdToEntryOffsetMap m.segmentFiles

/-- **The invariant of the map**, loaded or not. It leaves `logSize` out. -/
structure Consistent : Prop where
  maxSize_pos : 0 < m.maxSize
  segmentFiles : ∀ f ∈ m.segmentFiles, SegmentFile α f
  ids_increasing : m.segmentFiles.Pairwise fun f g => f.1 < g.1
  active_ordered : Ordered m.active
  unloaded : m.currentLogSegLoaded = false → m.cache = [] ∧ m.segIdToEntryOffsetMap = []
  loaded : m.currentLogSegLoaded = true → Mirrored m

/-- The believed size of a loaded active file is its size. -/
def SizeAgrees : Prop :=
  m.currentLogSegLoaded = true → m.logSize = m.logFile.length

variable {segs : List (ℕ × EntryContainer α)}

/-- The segments and their files have the same ids. -/
theorem Mirrors.ids_eq {files : List (ℕ × Bytes)} (h : List.Forall₂ Mirrors segs files) :
    segs.map Prod.fst = files.map Prod.fst := by
  induction h with
  | nil => rfl
  | cons hs _ ih => rw [map_cons, map_cons, hs.id_eq, ih]

variable {c kvos : EntryContainer α} {id n : ℕ} {m m' : PersistentMonoMap α}

/-- Loading a mirrored segment fully gives all its entries. -/
theorem loadRolledLogSegmentFully_eq (hfile : findSegment m.segmentFiles id = some file)
    (hf : SegmentFile α (id, file)) (hc : Mirrors (id, c) (id, file)) :
    m.loadRolledLogSegmentFully id c = .ok (withOffsets (storedEntries file)) := by
  unfold loadRolledLogSegmentFully
  split
  case isTrue hlen =>
    rcases hc.container with h | h
    · exact congrArg Except.ok h
    · simp only at h
      rw [h, length_withOffsets, length_take] at hlen
      omega
  case isFalse =>
    simp only [hfile, loadLogSegment_of_ordered hf.ordered]

/-! ### Lists of segments by id -/

section Ids

variable {β : Type} {pre post : List (ℕ × β)} {id : ℕ} {b : β}
  (hpre : ∀ i ∈ pre.map Prod.fst, i < id) (hpost : ∀ i ∈ post.map Prod.fst, id < i)
include hpre

/-- A segment is found under its id. -/
theorem findSegment_append_cons : findSegment (pre ++ (id, b) :: post) id = some b := by
  have hnone : pre.find? (fun s => decide (s.1 = id)) = none := by
    rw [find?_eq_none]
    intro s hs
    have := hpre s.1 (mem_map_of_mem hs)
    simp only [decide_eq_true_eq]
    omega
  simp [findSegment, hnone]

/-- Removing the last segment. -/
theorem filter_id_ne : (pre ++ [(id, b)]).filter (fun s => s.1 ≠ id) = pre := by
  have hkeep : ∀ s ∈ pre, s.1 ≠ id := fun s hs => (hpre s.1 (mem_map_of_mem hs)).ne
  rw [filter_append, filter_eq_self.mpr (by simpa using hkeep)]
  simp

include hpost

/-- Replacing what is stored under an id. -/
theorem map_replace_append_cons {b' : β} :
    (pre ++ (id, b) :: post).map (fun s => if s.1 = id then (id, b') else s) =
      pre ++ (id, b') :: post := by
  have hp : ∀ s ∈ pre, (if s.1 = id then (id, b') else s) = s := fun s hs =>
    if_neg (hpre s.1 (mem_map_of_mem hs)).ne
  have hq : ∀ s ∈ post, (if s.1 = id then (id, b') else s) = s := fun s hs =>
    if_neg (hpost s.1 (mem_map_of_mem hs)).ne'
  rw [map_append, map_cons, map_congr_left hp, map_congr_left hq]
  simp

/-- Removing the segments from `id + 1` on. -/
theorem filter_ids_le {ids : List ℕ} (hids : ids = (pre ++ (id, b) :: post).map Prod.fst) :
    (pre ++ (id, b) :: post).filter (fun s => s.1 ∉ ids.filter fun i => decide (id + 1 ≤ i)) =
      pre ++ [(id, b)] := by
  have hkeep : ∀ s ∈ pre ++ [(id, b)], ¬ id + 1 ≤ s.1 := by
    intro s hs
    rcases mem_append.mp hs with h | h
    · have := hpre s.1 (mem_map_of_mem h)
      omega
    · simp [mem_singleton.mp h]
  have hdrop : ∀ s ∈ post, s.1 ∈ ids ∧ id + 1 ≤ s.1 := fun s hs =>
    ⟨hids ▸ mem_map_of_mem (by simp [hs]), hpost s.1 (mem_map_of_mem hs)⟩
  rw [append_cons, filter_append, filter_eq_self.mpr, filter_eq_nil_iff.mpr, append_nil]
  · intro s hs hnot
    exact of_decide_eq_true hnot (mem_filter.mpr ⟨(hdrop s hs).1, decide_eq_true (hdrop s hs).2⟩)
  · intro s hs
    exact decide_eq_true fun hmem => hkeep s hs (of_decide_eq_true (mem_filter.mp hmem).2)

end Ids

/-! ### A segment and what stands before and after it -/

/-- The segment `id` splits the segments and their files. -/
structure SplitAt (m : PersistentMonoMap α) (id : ℕ) (c : EntryContainer α) (file : Bytes)
    (before after : List (ℕ × EntryContainer α)) (filesBefore filesAfter : List (ℕ × Bytes)) :
    Prop where
  segs_eq : m.segIdToEntryOffsetMap = before ++ (id, c) :: after
  files_eq : m.segmentFiles = filesBefore ++ (id, file) :: filesAfter
  before_mirrors : List.Forall₂ Mirrors before filesBefore
  mirrors : Mirrors (id, c) (id, file)
  after_mirrors : List.Forall₂ Mirrors after filesAfter
  before_lt : ∀ i ∈ filesBefore.map Prod.fst, i < id
  after_gt : ∀ i ∈ filesAfter.map Prod.fst, id < i

/-- A split of the left list of a relation between lists splits the right one. -/
theorem exists_split_of_forall₂ {β γ : Type} {R : β → γ → Prop} {pre post : List β} {x : β}
    {l : List γ} (h : List.Forall₂ R (pre ++ x :: post) l) :
    ∃ pre' y post', l = pre' ++ y :: post' ∧ List.Forall₂ R pre pre' ∧ R x y ∧
      List.Forall₂ R post post' := by
  induction pre generalizing l with
  | nil =>
    obtain ⟨y, post', hxy, hpost, rfl⟩ := forall₂_cons_left_iff.mp h
    exact ⟨[], y, post', rfl, .nil, hxy, hpost⟩
  | cons b pre ih =>
    obtain ⟨y, l', hby, hl', rfl⟩ := forall₂_cons_left_iff.mp h
    obtain ⟨pre', z, post', rfl, hpre, hxz, hpost⟩ := ih hl'
    exact ⟨y :: pre', z, post', rfl, .cons hby hpre, hxz, hpost⟩

/-- A rolled segment of a consistent image has its own file, among those of its neighbours. -/
theorem Consistent.splitAt (h : Consistent m) (hl : m.currentLogSegLoaded = true)
    {before after : List (ℕ × EntryContainer α)}
    (hsegs : m.segIdToEntryOffsetMap = before ++ (id, c) :: after) :
    ∃ file filesBefore filesAfter, SplitAt m id c file before after filesBefore filesAfter := by
  obtain ⟨filesBefore, f, filesAfter, hfiles, hbefore, hmir, hafter⟩ :=
    exists_split_of_forall₂ (hsegs ▸ (h.loaded hl).segments)
  obtain ⟨i, file⟩ := f
  obtain rfl : id = i := hmir.id_eq
  have hinc := h.ids_increasing
  rw [hfiles, pairwise_append, pairwise_cons] at hinc
  refine ⟨file, filesBefore, filesAfter, hsegs, hfiles, hbefore, hmir, hafter, ?_, ?_⟩
  · intro i hi
    obtain ⟨f, hf, rfl⟩ := mem_map.mp hi
    exact hinc.2.2 f hf _ mem_cons_self
  · intro i hi
    obtain ⟨f, hf, rfl⟩ := mem_map.mp hi
    exact hinc.2.1.1 f hf

section Split

variable {before after : List (ℕ × EntryContainer α)} {filesBefore filesAfter : List (ℕ × Bytes)}
  (hs : SplitAt m id c file before after filesBefore filesAfter)
include hs

/-- The segments before it have smaller ids. -/
theorem SplitAt.before_lt' : ∀ i ∈ before.map Prod.fst, i < id :=
  Mirrors.ids_eq hs.before_mirrors ▸ hs.before_lt

/-- The segments after it have larger ids. -/
theorem SplitAt.after_gt' : ∀ i ∈ after.map Prod.fst, id < i :=
  Mirrors.ids_eq hs.after_mirrors ▸ hs.after_gt

/-- The file of the segment is found by its id. -/
theorem SplitAt.findSegment_files : findSegment m.segmentFiles id = some file := by
  rw [hs.files_eq]
  exact findSegment_append_cons hs.before_lt

/-- The segment is found by its id. -/
theorem SplitAt.findSegment_segs : findSegment m.segIdToEntryOffsetMap id = some c := by
  rw [hs.segs_eq]
  exact findSegment_append_cons hs.before_lt'

/-- The segment is replaced in its place. -/
theorem SplitAt.setSegment (c' : EntryContainer α) :
    m.setSegment id c' = { m with segIdToEntryOffsetMap := before ++ (id, c') :: after } := by
  unfold PersistentMonoMap.setSegment
  rw [hs.segs_eq, map_replace_append_cons hs.before_lt' hs.after_gt']

/-- **A trim that hits a rolled segment**: the segment, cut at the entry, becomes the active
one and everything behind it goes. The believed size stays what it was. -/
theorem SplitAt.trimAt (hpos : 0 < id) (kvo : KeyValueWithLogOffset α) (n : ℕ) :
    m.trimAt ⟨kvo, id, n⟩ =
      ({ m with
          logFile := trimLog file file.length kvo
          cache := c.take n
          segmentFiles := filesBefore
          segIdToEntryOffsetMap := before }, none) := by
  have hids (bytes : Bytes) : (before ++ (id, c.take n) :: after).map Prod.fst =
      (filesBefore ++ (id, bytes) :: filesAfter).map Prod.fst := by
    simp [Mirrors.ids_eq hs.before_mirrors, Mirrors.ids_eq hs.after_mirrors]
  unfold PersistentMonoMap.trimAt
  simp only [if_neg hpos.ne', hs.findSegment_segs, hs.setSegment, hs.files_eq,
    map_replace_append_cons hs.before_lt hs.after_gt]
  unfold removeFrom removeRange
  simp only [filter_ids_le hs.before_lt' hs.after_gt' rfl,
    filter_ids_le hs.before_lt hs.after_gt (hids _), getLast?_concat,
    findSegment_append_cons hs.before_lt, filter_id_ne hs.before_lt', filter_id_ne hs.before_lt]

end Split

/-! ### Loading keeps the invariant -/

/-- `m'` is `m` with its memory image loaded. -/
structure Opened (m m' : PersistentMonoMap α) : Prop where
  consistent : Consistent m'
  loaded : m'.currentLogSegLoaded = true
  sizeAgrees : SizeAgrees m → SizeAgrees m'
  segmentFiles_eq : m'.segmentFiles = m.segmentFiles
  active_eq : m'.active = m.active
  maxSize_eq : m'.maxSize = m.maxSize

/-- What `recover` makes of files that are in order. It reports no other error than first entries
that do not increase. -/
theorem Consistent.recover_eq (h : Consistent m) :
    m.recover =
      ({ m with
        logFile := m.logFile.take (m.logFile.length / entrySize α * entrySize α)
        cache := withOffsets m.active
        logSize := m.logFile.length / entrySize α * entrySize α
        currentLogSegLoaded := true
        segIdToEntryOffsetMap := m.segmentFiles.map fun f =>
          (f.1, withOffsets ((storedEntries f.2).take 1)) },
      if firstEntriesIncrease (m.segmentFiles.map fun f =>
        (f.1, withOffsets ((storedEntries f.2 : List α).take 1))) then none
      else some .logicalError) := by
  unfold PersistentMonoMap.recover
  rw [loadLogSegment_of_ordered h.active_ordered,
    loadRolledLogSegments_eq fun f hf => (h.segmentFiles f hf).nonempty]
  simp only
  split <;> rfl

/-- What recovery opens. -/
theorem Consistent.opened_recover (h : Consistent m) : Opened m m.recover.1 := by
  have hactive : storedEntries (m.logFile.take
      (m.logFile.length / entrySize α * entrySize α)) = m.active :=
    (codec : Codec α).decode_take_complete m.logFile
  have hlen : (m.logFile.take (m.logFile.length / entrySize α * entrySize α)).length =
      m.logFile.length / entrySize α * entrySize α := by
    rw [length_take, min_eq_left (div_mul_le_self _ _)]
  rw [h.recover_eq]
  refine ⟨⟨h.maxSize_pos, h.segmentFiles, h.ids_increasing, ?_, nofun, fun _ => ?_⟩, rfl,
    fun _ _ => hlen.symm, rfl, hactive, rfl⟩
  · rw [active, hactive]
    exact h.active_ordered
  · refine ⟨?_, ?_, ?_⟩
    · simp only [hlen]
      exact Dvd.intro_left _ rfl
    · exact congrArg withOffsets hactive.symm
    · rw [forall₂_map_left_iff, forall₂_same]
      exact fun f _ => ⟨rfl, .inr rfl⟩

/-- What is opened when the active segment is loaded. -/
theorem Consistent.opened_ensureLoaded (h : Consistent m) : Opened m m.ensureLoaded.1 := by
  unfold ensureLoaded
  split
  case isTrue hl => exact ⟨h, hl, id, rfl, rfl, rfl⟩
  case isFalse => exact h.opened_recover

/-! ### Indexing keeps the invariant -/

/-- An entry that is not below the last one keeps the order. -/
theorem Ordered.concat {es : List α} {a : α} (h : Ordered es)
    (ha : ∀ b ∈ es.getLast?, ¬ lt a b) : Ordered (es ++ [a]) := by
  unfold Ordered at *
  rw [isChain_append]
  exact ⟨h, .singleton a, by simpa using ha⟩

/-- The first entries are ordered. -/
theorem Ordered.take {es : List α} (h : Ordered es) (n : ℕ) : Ordered (es.take n) :=
  List.IsChain.take h n

section Loaded

variable (h : Consistent m) (hl : m.currentLogSegLoaded = true)
include h hl

/-- **Appending an entry** that does not go below the last one. -/
theorem Consistent.append
    (hsize : SizeAgrees m) {entry : α} (hentry : ∀ b ∈ m.active.getLast?, ¬ lt entry b) :
    Consistent (m.append entry) ∧ SizeAgrees (m.append entry) ∧
      (m.append entry).active = m.active ++ [entry] := by
  have hm := h.loaded hl
  have hactive : (m.append entry).active = m.active ++ [entry] :=
    (codec : Codec α).decode_append_enc hm.complete entry
  have henc : ((codec : Codec α).enc entry).length = entrySize α :=
    (codec : Codec α).length_enc entry
  have hoffset : m.logSize = m.active.length * entrySize α :=
    (hsize hl).trans ((codec : Codec α).length_eq_of_dvd hm.complete)
  refine ⟨⟨h.maxSize_pos, h.segmentFiles, h.ids_increasing, ?_, ?_, fun _ => ⟨?_, ?_, hm.segments⟩⟩,
    fun _ => ?_, hactive⟩
  · rw [hactive]
    exact h.active_ordered.concat hentry
  · intro hf
    simp [PersistentMonoMap.append, hl] at hf
  · simp only [PersistentMonoMap.append, length_append, henc]
    exact Nat.dvd_add hm.complete (dvd_refl _)
  · rw [hactive, withOffsets_concat, ← hm.cache_eq, ← hoffset]
    rfl
  · simp [PersistentMonoMap.append, henc, hsize hl]

/-- The next segment id is above all others. -/
theorem Consistent.lt_nextSegmentID :
    0 < m.nextSegmentID ∧ ∀ f ∈ m.segmentFiles, f.1 < m.nextSegmentID := by
  have hids := Mirrors.ids_eq (h.loaded hl).segments
  unfold nextSegmentID
  rcases eq_nil_or_concat' m.segIdToEntryOffsetMap with hnil | ⟨segs, s, hcat⟩
  · rw [hnil] at hids ⊢
    have : m.segmentFiles = [] := map_eq_nil_iff.mp hids.symm
    simp [this]
  · obtain ⟨file, filesBefore, filesAfter, hs⟩ := h.splitAt hl hcat
    rw [hcat, getLast?_concat]
    refine ⟨succ_pos _, fun f hf => ?_⟩
    have hafter : filesAfter = [] := forall₂_nil_left_iff.mp hs.after_mirrors
    rw [hs.files_eq, hafter] at hf
    rcases mem_append.mp hf with hf | hf
    · have := hs.before_lt f.1 (mem_map_of_mem hf)
      simp only
      omega
    · rw [mem_singleton] at hf
      simp [hf]

/-- **Rolling a full active file.** -/
theorem Consistent.roll (hsize : SizeAgrees m) (hfull : m.logSize ≥ m.maxSize) :
    Consistent m.roll ∧ SizeAgrees m.roll ∧
      m.roll.segmentFiles = m.segmentFiles ++ [(m.nextSegmentID, m.logFile)] := by
  have hm := h.loaded hl
  obtain ⟨hidpos, hidlt⟩ := h.lt_nextSegmentID hl
  have hrename : renameTo m.segmentFiles m.nextSegmentID m.logFile =
      m.segmentFiles ++ [(m.nextSegmentID, m.logFile)] := by
    have hnone : m.segmentFiles.filter (fun s => decide (m.nextSegmentID < s.1)) = [] := by
      rw [filter_eq_nil_iff]
      intro f hf
      have := hidlt f hf
      simp only [decide_eq_true_eq]
      omega
    rw [renameTo, filter_eq_self.mpr (by simpa using hidlt), hnone]
  have hseg : SegmentFile α (m.nextSegmentID, m.logFile) := by
    refine ⟨hidpos, hm.complete, h.active_ordered, fun hnil => ?_⟩
    have hlen := (codec : Codec α).length_eq_of_dvd hm.complete
    have hpos := h.maxSize_pos
    rw [show (codec : Codec α).decode m.logFile = [] from hnil, length_nil, ← hsize hl] at hlen
    omega
  have hnil : (storedEntries [] : List α) = [] := (codec : Codec α).decode_nil
  refine ⟨⟨h.maxSize_pos, ?_, ?_, ?_, ?_, fun _ => ⟨?_, ?_, ?_⟩⟩, fun _ => rfl, hrename⟩
  · intro f hf
    rw [PersistentMonoMap.roll, hrename] at hf
    rcases mem_append.mp hf with hf | hf
    · exact h.segmentFiles f hf
    · rw [mem_singleton.mp hf]
      exact hseg
  · simp only [PersistentMonoMap.roll, hrename]
    rw [pairwise_append]
    exact ⟨h.ids_increasing, pairwise_singleton _ _, by simpa using hidlt⟩
  · simp only [active, PersistentMonoMap.roll, hnil]
    exact .nil
  · intro hf
    simp [PersistentMonoMap.roll, hl] at hf
  · exact Nat.dvd_zero _
  · simp only [active, PersistentMonoMap.roll, hnil, withOffsets_nil]
  · simp only [PersistentMonoMap.roll, hrename]
    exact rel_append hm.segments (.cons ⟨rfl, .inl hm.cache_eq⟩ .nil)

omit h hl

/-! ### Searching keeps the invariant -/

/-- `m'` is `m` with some cached segments loaded fully. -/
structure Refreshed (m m' : PersistentMonoMap α) : Prop where
  eq : m' = { m with segIdToEntryOffsetMap := m'.segIdToEntryOffsetMap }
  segments : List.Forall₂ Mirrors m'.segIdToEntryOffsetMap m.segmentFiles

/-- The entry that was found is cached where the search says. -/
def FoundIn (m : PersistentMonoMap α) (found : FoundKeyValue α) : Prop :=
  (found.segmentId = 0 ∧ m.cache[found.truncationPoint]? = some found.entryOffset) ∨
    ∃ kvos, (found.segmentId, kvos) ∈ m.segIdToEntryOffsetMap ∧
      kvos[found.truncationPoint]? = some found.entryOffset

variable {found : FoundKeyValue α}

omit [KeyValue α] in
/-- The first entry of a segment, as a position. -/
theorem front_eq_ok (h : front id kvos = .ok (some found)) :
    found.segmentId = id ∧ kvos[found.truncationPoint]? = some found.entryOffset := by
  cases kvos with
  | nil => cases h
  | cons kvo kvos =>
    obtain rfl : (⟨kvo, id, 0⟩ : FoundKeyValue α) = found := by
      simpa [front] using h
    exact ⟨rfl, rfl⟩

/-- **What the search over the rolled segments finds**: the last segment that does not
start above `t`. Unless it starts at `t`, it has been loaded. -/
theorem searchRolled_some {proj : α → ℤ} {t : ℤ}
    (h : m.searchRolled proj t segs = .ok (some (id, c))) :
    ∃ later first tail earlier, segs = later ++ (id, first :: tail) :: earlier ∧
      (∀ s ∈ later, ∃ kvo ∈ s.2.head?, t < proj kvo.entry) ∧
      ((proj first.entry = t ∧ c = first :: tail) ∨
        (proj first.entry < t ∧
          m.loadRolledLogSegmentFully id (first :: tail) = .ok c)) := by
  induction segs with
  | nil => simp [searchRolled] at h
  | cons s segs ih =>
    obtain ⟨i, s⟩ := s
    cases s with
    | nil => simp [searchRolled] at h
    | cons first tail =>
      rw [searchRolled] at h
      split at h
      · case isTrue heq =>
        obtain ⟨rfl, rfl⟩ := h
        exact ⟨[], first, tail, segs, rfl, by simp, .inl ⟨heq, rfl⟩⟩
      · split at h
        · case isTrue hlt =>
          cases hload : m.loadRolledLogSegmentFully i (first :: tail) with
          | error err => simp [hload] at h
          | ok loaded =>
            simp only [hload] at h
            obtain ⟨rfl, rfl⟩ := h
            exact ⟨[], first, tail, segs, rfl, by simp, .inr ⟨hlt, hload⟩⟩
        · obtain ⟨later, f, tl, earlier, rfl, hlater, hhit⟩ := ih h
          refine ⟨(i, first :: tail) :: later, f, tl, earlier, rfl, ?_, hhit⟩
          intro s hs
          rcases mem_cons.mp hs with rfl | hs
          · exact ⟨first, rfl, by omega⟩
          · exact hlater s hs

include h hl

/-- Loading segments keeps the image consistent. -/
theorem Consistent.refreshed
    (hr : Refreshed m m') : Consistent m' ∧ (SizeAgrees m → SizeAgrees m') := by
  obtain ⟨heq, hsegs⟩ := hr
  rw [heq]
  have hm := h.loaded hl
  refine ⟨⟨h.maxSize_pos, h.segmentFiles, h.ids_increasing, h.active_ordered, ?_,
    fun _ => ⟨hm.complete, hm.cache_eq, hsegs⟩⟩, id⟩
  intro hf
  simp [hl] at hf

/-- Nothing has to be loaded. -/
theorem Consistent.refreshed_self : Refreshed m m :=
  ⟨rfl, (h.loaded hl).segments⟩

/-- A segment that was loaded fully, or was not touched, may replace the cached one. -/
theorem Consistent.setSegment {c' : EntryContainer α} (hmem : (id, c) ∈ m.segIdToEntryOffsetMap)
    (hc : c' = c ∨ m.loadRolledLogSegmentFully id c = .ok c') :
    Refreshed m (m.setSegment id c') ∧ (id, c') ∈ (m.setSegment id c').segIdToEntryOffsetMap := by
  obtain ⟨before, after, hsegs⟩ := append_of_mem hmem
  obtain ⟨file, filesBefore, filesAfter, hs⟩ := h.splitAt hl hsegs
  have hfile : SegmentFile α (id, file) := h.segmentFiles _ (by simp [hs.files_eq])
  have hmir : Mirrors (id, c') (id, file) := by
    rcases hc with rfl | hload
    · exact hs.mirrors
    · rw [loadRolledLogSegmentFully_eq hs.findSegment_files hfile hs.mirrors,
        Except.ok.injEq] at hload
      exact ⟨rfl, .inl hload.symm⟩
  rw [hs.setSegment]
  refine ⟨⟨rfl, ?_⟩, by simp⟩
  rw [hs.files_eq]
  exact rel_append hs.before_mirrors (.cons hmir hs.after_mirrors)

/-- The segment the search returns may replace the cached one. -/
theorem Consistent.setSegment_searchRolled {proj : α → ℤ} {t : ℤ}
    (hsearch : m.searchRolled proj t m.segIdToEntryOffsetMap.reverse = .ok (some (id, c))) :
    Refreshed m (m.setSegment id c) ∧ (id, c) ∈ (m.setSegment id c).segIdToEntryOffsetMap := by
  obtain ⟨later, first, tail, earlier, hsegs, -, hhit⟩ := searchRolled_some hsearch
  have hmem : (id, first :: tail) ∈ m.segIdToEntryOffsetMap := by
    rw [← mem_reverse, hsegs]
    simp
  refine h.setSegment hl hmem ?_
  rcases hhit with ⟨-, rfl⟩ | ⟨-, hload⟩
  · exact .inl rfl
  · exact .inr hload

/-- A search in the rolled segments loads some of them and finds an entry of one. -/
theorem Consistent.findRolledAtLeast (proj : α → ℤ) (t : ℤ) :
    Refreshed m (m.findRolledAtLeast proj t).1 ∧
      ∀ found, (m.findRolledAtLeast proj t).2 = .ok (some found) →
        FoundIn (m.findRolledAtLeast proj t).1 found := by
  have hself := h.refreshed_self hl
  unfold PersistentMonoMap.findRolledAtLeast
  split
  case h_1 => exact ⟨hself, nofun⟩
  case h_2 id c hsearch =>
    obtain ⟨hr, hmem⟩ := h.setSegment_searchRolled hl hsearch
    dsimp only
    split
    case h_1 kvo hkvo =>
      refine ⟨hr, fun found hfound => ?_⟩
      simp only [Except.ok.injEq, some.injEq] at hfound
      subst hfound
      exact .inr ⟨c, hmem, hkvo⟩
    case h_2 =>
      split
      case h_1 s hs =>
        refine ⟨hr, fun found hfound => ?_⟩
        obtain ⟨hid, hget⟩ := front_eq_ok hfound
        refine .inr ⟨s.2, ?_, hget⟩
        rw [hid]
        exact mem_of_find?_eq_some hs
      case h_2 =>
        exact ⟨hr, fun found hfound => .inl (front_eq_ok hfound)⟩
  case h_3 =>
    split
    case h_1 s segs hsegs =>
      refine ⟨hself, fun found hfound => ?_⟩
      obtain ⟨hid, hget⟩ := front_eq_ok hfound
      exact .inr ⟨s.2, by simp [hsegs, hid], hget⟩
    case h_2 =>
      refine ⟨hself, fun found hfound => .inl ?_⟩
      split at hfound
      · simp at hfound
      · exact front_eq_ok hfound

/-- A search loads segments and finds an entry of one. -/
theorem Consistent.findAtLeast (proj : α → ℤ) (t : ℤ) :
    Refreshed m (m.findAtLeast proj t).1 ∧
      ∀ found, (m.findAtLeast proj t).2 = .ok (some found) →
        FoundIn (m.findAtLeast proj t).1 found := by
  have hself := h.refreshed_self hl
  unfold PersistentMonoMap.findAtLeast
  split
  · split
    · exact ⟨hself, nofun⟩
    · split
      · refine ⟨hself, fun found hfound => .inl ?_⟩
        simp only [Except.ok.injEq, map_eq_some_iff] at hfound
        obtain ⟨kvo, hkvo, rfl⟩ := hfound
        exact ⟨rfl, hkvo⟩
      · exact h.findRolledAtLeast hl proj t
  · exact h.findRolledAtLeast hl proj t

omit h hl

/-! ### Trimming keeps the invariant -/

/-- Loading and then searching opens the map. -/
theorem Opened.refreshed {m₁ m₂ : PersistentMonoMap α} (ho : Opened m m₁) (hr : Refreshed m₁ m₂) :
    Opened m m₂ := by
  obtain ⟨hc, hs⟩ := ho.consistent.refreshed ho.loaded hr
  rw [hr.eq] at hc hs ⊢
  exact ⟨hc, ho.loaded, fun hsize => hs (ho.sizeAgrees hsize), ho.segmentFiles_eq, ho.active_eq,
    ho.maxSize_eq⟩

omit [KeyValue α] in
/-- A file is truncated at an offset that is in it. -/
theorem trimLog_eq {kvo : KeyValueWithLogOffset α} (h : kvo.offset ≤ file.length) :
    trimLog file file.length kvo = file.take kvo.offset := by
  unfold trimLog truncateFile
  split
  case isTrue heq => rw [heq, take_length]
  case isFalse => rw [Nat.sub_eq_zero_of_le h, replicate_zero, append_nil]

/-- The offset of a cached entry, and the entries cached in front of it. -/
theorem Mirrors.getElem? {s : ℕ × EntryContainer α} {f : ℕ × Bytes} (h : Mirrors s f)
    {kvo : KeyValueWithLogOffset α} (hget : s.2[n]? = some kvo) :
    (storedEntries f.2)[n]? = some kvo.entry ∧ kvo.offset = n * entrySize α ∧
      s.2.take n = withOffsets ((storedEntries f.2).take n) := by
  rcases h.container with hc | hc
  · rw [hc, getElem?_withOffsets] at hget
    obtain ⟨a, ha, rfl⟩ := map_eq_some_iff.mp hget
    exact ⟨ha, rfl, by rw [hc, take_withOffsets]⟩
  · rw [hc, getElem?_withOffsets, getElem?_take] at hget
    obtain ⟨a, ha, rfl⟩ := map_eq_some_iff.mp hget
    split at ha
    case isTrue hn =>
      obtain rfl : n = 0 := by omega
      exact ⟨ha, rfl, by simp⟩
    case isFalse => cases ha

/-- Cutting a file in front of a stored entry. -/
theorem storedEntries_cut {a : α} (h : (storedEntries file)[n]? = some a) :
    n * entrySize α ≤ file.length ∧ (file.take (n * entrySize α)).length = n * entrySize α ∧
      storedEntries (file.take (n * entrySize α)) = (storedEntries file : List α).take n := by
  obtain ⟨hlt, -⟩ := List.getElem?_eq_some_iff.mp h
  have hle : n * entrySize α ≤ file.length :=
    (le_add_right _ _).trans ((codec : Codec α).mul_size_add_le file hlt)
  refine ⟨hle, ?_, (codec : Codec α).decode_take file n⟩
  rw [length_take, min_eq_left hle]

/-- What a trim at a found entry leaves: the entries in front of it, in the files before
its segment and in the active file. The believed size follows only inside the active
segment. -/
structure Trimmed (m m' : PersistentMonoMap α) (found : FoundKeyValue α) : Prop where
  consistent : Consistent m'
  loaded : m'.currentLogSegLoaded = true
  maxSize_eq : m'.maxSize = m.maxSize
  kept : (m'.segmentFiles = m.segmentFiles ∧
      m.active[found.truncationPoint]? = some found.entryOffset.entry ∧
      m'.active = m.active.take found.truncationPoint ∧ SizeAgrees m') ∨
    ∃ file filesAfter, found.segmentId ≠ 0 ∧
      m.segmentFiles = m'.segmentFiles ++ (found.segmentId, file) :: filesAfter ∧
      (storedEntries file)[found.truncationPoint]? = some found.entryOffset.entry ∧
      m'.active = (storedEntries file).take found.truncationPoint ∧
      m'.logFile.length = found.entryOffset.offset ∧ m'.logSize = m.logSize

/-- Removing the first `n` ids of a list of distinct ids. -/
theorem filter_take_ids {β : Type} {l : List (ℕ × β)} (h : l.Pairwise fun f g => f.1 < g.1)
    (n : ℕ) {ids : List ℕ} (hids : ids = (l.map Prod.fst).take n) :
    l.filter (fun s => s.1 ∉ ids) = l.drop n := by
  subst hids
  conv_lhs => rw [← take_append_drop n l]
  rw [← take_append_drop n l, pairwise_append] at h
  have hgone : ∀ s ∈ l.take n, s.1 ∈ ((l.take n ++ l.drop n).take n).map Prod.fst := by
    rw [take_append_drop]
    exact fun s hs => mem_map_of_mem hs
  have hkept : ∀ s ∈ l.drop n, s.1 ∉ ((l.take n ++ l.drop n).take n).map Prod.fst := by
    rw [take_append_drop]
    intro s hs hmem
    obtain ⟨g, hg, heq⟩ := mem_map.mp hmem
    have := h.2.2 g hg s hs
    omega
  rw [filter_append, filter_eq_nil_iff.mpr (by simpa using hgone),
    filter_eq_self.mpr (by simpa using hkept), nil_append]

include h hl

/-- **A trim inside the active segment.** -/
theorem Consistent.trimAt_active (hsize : SizeAgrees m) (hid : found.segmentId = 0)
    (hget : m.cache[found.truncationPoint]? = some found.entryOffset) :
    (m.trimAt found).2 = none ∧ Trimmed m (m.trimAt found).1 found := by
  have hm := h.loaded hl
  obtain ⟨hentry, hoffset, htake⟩ := Mirrors.getElem? (s := (0, m.cache)) (f := (0, m.logFile))
    ⟨rfl, .inl hm.cache_eq⟩ hget
  obtain ⟨hle, hlen, hactive⟩ := storedEntries_cut hentry
  rw [← hoffset] at hle hlen hactive
  unfold PersistentMonoMap.trimAt
  rw [if_pos hid, hsize hl, trimLog_eq hle]
  refine ⟨rfl, ⟨h.maxSize_pos, h.segmentFiles, h.ids_increasing, ?_, ?_,
    fun _ => ⟨?_, ?_, hm.segments⟩⟩, hl, rfl, .inl ⟨rfl, hentry, hactive, fun _ => hlen.symm⟩⟩
  · rw [active, hactive]
    exact h.active_ordered.take _
  · intro hf
    simp [hl] at hf
  · exact Dvd.intro_left _ (hlen.trans hoffset).symm
  · exact htake.trans (congrArg withOffsets hactive.symm)

/-- **A trim inside a rolled segment.** -/
theorem Consistent.trimAt_rolled (hmem : (found.segmentId, kvos) ∈ m.segIdToEntryOffsetMap)
    (hget : kvos[found.truncationPoint]? = some found.entryOffset) :
    (m.trimAt found).2 = none ∧ Trimmed m (m.trimAt found).1 found := by
  obtain ⟨before, after, hsegs⟩ := append_of_mem hmem
  obtain ⟨file, filesBefore, filesAfter, hs⟩ := h.splitAt hl hsegs
  have hfile := h.segmentFiles (found.segmentId, file) (by simp [hs.files_eq])
  obtain ⟨hentry, hoffset, htake⟩ := hs.mirrors.getElem? hget
  obtain ⟨hle, hlen, hactive⟩ := storedEntries_cut hentry
  rw [← hoffset] at hle hlen hactive
  have htrim := hs.trimAt hfile.id_pos found.entryOffset found.truncationPoint
  rw [trimLog_eq hle] at htrim
  rw [htrim]
  have hinc := h.ids_increasing
  rw [hs.files_eq, pairwise_append] at hinc
  refine ⟨rfl, ⟨h.maxSize_pos, ?_, hinc.1, ?_, ?_, fun _ => ⟨?_, ?_, hs.before_mirrors⟩⟩, hl,
    rfl, .inr ⟨file, filesAfter, hfile.id_pos.ne', hs.files_eq, hentry, hactive, hlen, rfl⟩⟩
  · intro f hf
    exact h.segmentFiles f (by simp [hs.files_eq, hf])
  · rw [active, hactive]
    exact hfile.ordered.take _
  · intro hf
    simp [hl] at hf
  · exact Dvd.intro_left _ (hlen.trans hoffset).symm
  · exact htake.trans (congrArg withOffsets hactive.symm)

/-- A trim at an entry that was found does not fail. -/
theorem Consistent.trimAt (hsize : SizeAgrees m) (hfound : FoundIn m found) :
    (m.trimAt found).2 = none ∧ Trimmed m (m.trimAt found).1 found := by
  rcases hfound with ⟨hid, hget⟩ | ⟨c, hmem, hget⟩
  · exact h.trimAt_active hl hsize hid hget
  · exact h.trimAt_rolled hl hmem hget

/-- **Removing the first rolled segments.** -/
theorem Consistent.removeFirst (n : ℕ) :
    Consistent (m.removeFirst n) ∧ (SizeAgrees m → SizeAgrees (m.removeFirst n)) ∧
      (m.removeFirst n).segmentFiles = m.segmentFiles.drop n := by
  have hm := h.loaded hl
  have hids := Mirrors.ids_eq hm.segments
  have hsorted : m.segIdToEntryOffsetMap.Pairwise fun f g => f.1 < g.1 := by
    have := h.ids_increasing
    rw [← pairwise_map (f := Prod.fst) (R := (· < ·)), ← hids, pairwise_map] at this
    exact this
  have hsegs : (m.removeFirst n).segIdToEntryOffsetMap = m.segIdToEntryOffsetMap.drop n :=
    filter_take_ids hsorted n map_take
  have hfiles : (m.removeFirst n).segmentFiles = m.segmentFiles.drop n :=
    filter_take_ids h.ids_increasing n (by rw [map_take, hids])
  refine ⟨⟨h.maxSize_pos, ?_, ?_, h.active_ordered, ?_,
    fun _ => ⟨hm.complete, hm.cache_eq, ?_⟩⟩, id, hfiles⟩
  · intro f hf
    rw [hfiles] at hf
    exact h.segmentFiles f (mem_of_mem_drop hf)
  · rw [hfiles]
    exact h.ids_increasing.sublist (drop_sublist n _)
  · intro hf
    simp [PersistentMonoMap.removeFirst, removeRange, hl] at hf
  · rw [hsegs, hfiles]
    exact forall₂_drop n hm.segments

end Loaded

/-! ### The operations -/

/-- The entries are those of the files and of the active segment. -/
theorem entries_congr (hfiles : m'.segmentFiles = m.segmentFiles) (hactive : m'.active = m.active) :
    m'.entries = m.entries := by
  rw [entries, entries, rolled, rolled, hfiles, hactive]

/-- `maybeIndex` takes an entry whose key exceeds that of the last entry of the active
file. -/
theorem needUpdate_iff (hcache : m.cache = withOffsets m.active) (entry : α) :
    m.needUpdate entry = true ↔ ∀ b ∈ m.active.getLast?, key b < key entry := by
  have hlast : m.active.getLast? = m.cache.getLast?.map (·.entry) := by
    rw [hcache, ← getLast?_map, map_entry_withOffsets]
  unfold needUpdate
  rw [hlast]
  cases m.cache.getLast? with
  | none => simp
  | some back =>
    simp only [decide_eq_true_eq, map_some, mem_def, some.injEq,
      forall_eq', and_iff_right_iff_imp]
    exact not_lt_of_key_lt

/-- **`maybeIndex`.** An error comes from loading and leaves the files alone; otherwise the
entry is stored behind all others exactly if its key exceeds that of the last entry of the
active file. -/
theorem Consistent.maybeIndex (h : Consistent m) (hsize : SizeAgrees m) (entry : α) :
    Consistent (m.maybeIndex entry).1 ∧ SizeAgrees (m.maybeIndex entry).1 ∧
      (m.maybeIndex entry).1.maxSize = m.maxSize ∧
      ((∃ err, m.ensureLoaded.2 = some err ∧ (m.maybeIndex entry).2 = .error err ∧
          Opened m (m.maybeIndex entry).1) ∨
        (m.ensureLoaded.2 = none ∧ (m.maybeIndex entry).2 = .ok false ∧
          Opened m (m.maybeIndex entry).1 ∧
          ¬ ∀ b ∈ m.active.getLast?, key b < key entry) ∨
        (m.ensureLoaded.2 = none ∧ (m.maybeIndex entry).2 = .ok true ∧
          (m.maybeIndex entry).1.entries = m.entries ++ [entry] ∧
          (m.maybeIndex entry).1.active ≠ [] ∧
          ∀ b ∈ m.active.getLast?, key b < key entry)) := by
  have ho := h.opened_ensureLoaded
  have hcache := (ho.consistent.loaded ho.loaded).cache_eq
  unfold PersistentMonoMap.maybeIndex
  rcases hload : m.ensureLoaded with ⟨m₁, err⟩
  simp only [hload] at ho hcache
  cases err with
  | some err =>
    exact ⟨ho.consistent, ho.sizeAgrees hsize, ho.maxSize_eq, .inl ⟨err, rfl, rfl, ho⟩⟩
  | none =>
    dsimp only
    have hiff := needUpdate_iff hcache entry
    split
    case isFalse hno =>
      refine ⟨ho.consistent, ho.sizeAgrees hsize, ho.maxSize_eq, .inr (.inl ⟨rfl, rfl, ho, ?_⟩)⟩
      rwa [← ho.active_eq, ← hiff]
    case isTrue hyes =>
      have hkey := hiff.mp hyes
      -- the state the entry is appended to: the same entries, possibly with the active
      -- file rolled
      obtain ⟨m₂, hm₂, hc, hl, hs, hmax, hentries, hlast⟩ : ∃ m₂ : PersistentMonoMap α,
          (if m₁.logSize ≥ m₁.maxSize then m₁.roll else m₁) = m₂ ∧ Consistent m₂ ∧
          m₂.currentLogSegLoaded = true ∧ SizeAgrees m₂ ∧ m₂.maxSize = m₁.maxSize ∧
          m₂.entries = m₁.entries ∧ ∀ b ∈ m₂.active.getLast?, ¬ lt entry b := by
        refine ⟨_, rfl, ?_⟩
        split
        case isTrue hfull =>
          obtain ⟨hcr, hsr, hfiles⟩ := ho.consistent.roll ho.loaded (ho.sizeAgrees hsize) hfull
          have hnil : m₁.roll.active = [] := (codec : Codec α).decode_nil
          refine ⟨hcr, ho.loaded, hsr, rfl, ?_, by simp [hnil]⟩
          rw [entries, entries, rolled, hfiles, hnil]
          simp [rolled, active]
        case isFalse =>
          exact ⟨ho.consistent, ho.loaded, ho.sizeAgrees hsize, rfl, rfl,
            fun b hb => not_lt_of_key_lt (hkey b hb)⟩
      obtain ⟨hca, hsa, hactive⟩ := hc.append hl hs hlast
      rw [hm₂]
      refine ⟨hca, hsa, hmax.trans ho.maxSize_eq, .inr (.inr ⟨rfl, rfl, ?_, ?_, ?_⟩)⟩
      · rw [← entries_congr ho.segmentFiles_eq ho.active_eq, ← hentries, entries,
          hactive, ← append_assoc]
        rfl
      · simp [hactive]
      · rwa [← ho.active_eq]

/-- **`trim` and `trimByValue`.** An error comes from loading or from the search and leaves
the files alone, and so does a search that finds nothing. -/
theorem Consistent.trimBy (h : Consistent m) (hsize : SizeAgrees m) (proj : α → ℤ) (t : ℤ) :
    (Opened m (trimBy proj m t).1 ∧ ∃ err, (PersistentMonoMap.trimBy proj m t).2 = some err ∧
        (m.ensureLoaded.2 = some err ∨ (m.ensureLoaded.1.findAtLeast proj t).2 = .error err)) ∨
      (Opened m (PersistentMonoMap.trimBy proj m t).1 ∧
        (PersistentMonoMap.trimBy proj m t).2 = none ∧
        (m.ensureLoaded.1.findAtLeast proj t).2 = .ok none) ∨
      ∃ found, (m.ensureLoaded.1.findAtLeast proj t).2 = .ok (some found) ∧
        (PersistentMonoMap.trimBy proj m t).2 = none ∧
        Trimmed (m.ensureLoaded.1.findAtLeast proj t).1
          (PersistentMonoMap.trimBy proj m t).1 found := by
  have ho := h.opened_ensureLoaded
  unfold PersistentMonoMap.trimBy
  rcases hload : m.ensureLoaded with ⟨m₁, err⟩
  simp only [hload] at ho
  cases err with
  | some err => exact .inl ⟨ho, err, rfl, .inl rfl⟩
  | none =>
    dsimp only
    obtain ⟨hr, hfoundIn⟩ := ho.consistent.findAtLeast ho.loaded proj t
    have hopened := ho.refreshed hr
    rcases hfind : m₁.findAtLeast proj t with ⟨m₂, res⟩
    simp only [hfind] at hopened hfoundIn
    rcases res with err | _ | found
    · exact .inl ⟨hopened, err, rfl, .inr rfl⟩
    · exact .inr (.inl ⟨hopened, rfl, rfl⟩)
    · obtain ⟨hnone, htrim⟩ := hopened.consistent.trimAt hopened.loaded
        (hopened.sizeAgrees hsize) (hfoundIn found rfl)
      exact .inr (.inr ⟨found, rfl, hnone, htrim⟩)

/-- `m'` is `m`, loaded, without some of its first rolled files. -/
structure HeadTrimmed (m m' : PersistentMonoMap α) : Prop where
  consistent : Consistent m'
  sizeAgrees : SizeAgrees m → SizeAgrees m'
  maxSize_eq : m'.maxSize = m.maxSize
  active_eq : m'.active = m.active
  segmentFiles_eq : ∃ n, m'.segmentFiles = m.segmentFiles.drop n

/-- Opening an image trims nothing. -/
theorem Opened.headTrimmed (ho : Opened m m') : HeadTrimmed m m' :=
  ⟨ho.consistent, ho.sizeAgrees, ho.maxSize_eq, ho.active_eq, 0, ho.segmentFiles_eq⟩

/-- The first segments are removed after the image was opened. -/
theorem Opened.removeFirst (ho : Opened m m') (n : ℕ) : HeadTrimmed m (m'.removeFirst n) := by
  obtain ⟨hc, hs, hfiles⟩ := ho.consistent.removeFirst ho.loaded n
  exact ⟨hc, fun hsize => hs (ho.sizeAgrees hsize), ho.maxSize_eq, ho.active_eq, n,
    hfiles.trans (congrArg (drop n) ho.segmentFiles_eq)⟩

/-- **`trimHead` and `trimHeadByValue`** only remove leading rolled files. -/
theorem Consistent.trimHeadBy (h : Consistent m) (proj : α → ℤ) (succ : ℤ → ℤ) (t : ℤ) :
    HeadTrimmed m (trimHeadBy proj succ m t).1 := by
  have ho := h.opened_ensureLoaded
  unfold PersistentMonoMap.trimHeadBy
  rcases hload : m.ensureLoaded with ⟨m₁, err⟩
  simp only [hload] at ho
  cases err with
  | some err => exact ho.headTrimmed
  | none =>
    dsimp only
    split
    · exact ho.removeFirst _
    · unfold trimHeadRolled
      split
      · exact ho.headTrimmed
      · exact ho.headTrimmed
      · split
        · split
          · exact ho.headTrimmed
          next s hget =>
          cases hfull : m₁.loadRolledLogSegmentFully s.1 s.2 with
          | error err => exact ho.headTrimmed
          | ok c =>
            have hr := ho.refreshed (ho.consistent.setSegment ho.loaded
              (mem_of_getElem? hget) (.inr hfull)).1
            dsimp only
            split
            · exact hr.headTrimmed
            · split
              · exact hr.removeFirst _
              · exact hr.removeFirst _
        · exact ho.removeFirst _

end Proton.PersistentMonoMap
