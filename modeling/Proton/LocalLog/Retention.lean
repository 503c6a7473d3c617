import Proton.Lib.FrontDrop
import Proton.LocalLog.SequenceBounds

/-!
# Retention of Segments

This module is about `deleteOldSegments` of `Cluster/LocalLog/Log/Log.cpp` and its three
passes: segments before the start of the log, segments beyond the retention size and segments
older than the retention time. Each pass drops segments from the front of the log while a
predicate on the segment and on the segments behind it holds, so its outcome is a `FrontDrop`.

The pass by size compares what would be left with `min_size_to_keep`. The pass by time
compares what is there before the removal: an old segment across the boundary is removed, and
the log ends up with less than it has to keep.

## Main results

* `Loglet.deletable_frontDrop`: the segments a pass selects.
* `Log.Passes`: what a pass does to a log.
* `Log.retentionSafe_iff`: when retention keeps what it has to.
-/

open List

namespace Proton

open FrontDrop

/-- The bytes of a list of segments. -/
def segmentBytes (segments : List LogSegment) : ℕ :=
  (segments.map LogSegment.size).sum

/-- The bytes of one more segment. -/
@[simp]
theorem segmentBytes_cons (segment : LogSegment) (segments : List LogSegment) :
    segmentBytes (segment :: segments) = segment.size + segmentBytes segments :=
  sum_cons

/-- The bytes of two lists of segments. -/
@[simp]
theorem segmentBytes_append (front back : List LogSegment) :
    segmentBytes (front ++ back) = segmentBytes front + segmentBytes back := by
  simp [segmentBytes]

/-- The last segments have fewer bytes. -/
theorem segmentBytes_le_of_suffix {segments back : List LogSegment} (h : back <:+ segments) :
    segmentBytes back ≤ segmentBytes segments := by
  obtain ⟨front, rfl⟩ := h
  rw [segmentBytes_append]
  exact Nat.le_add_left _ _

/-- The size of a log is that of its segments. -/
theorem Loglet.size_eq (l : Loglet) : l.size = segmentBytes l.segments.toList :=
  rfl

/-! ### The segments a pass selects -/

/-- The segments behind start below a sequence number. -/
def Followed (appliedSn : ℤ) (rest : List LogSegment) : Prop :=
  ∃ next ∈ rest.head?, next.baseSn < appliedSn

/-- A segment may go: it is followed by one that starts below the applied sequence number, so
that it is not the active one, and the pass wants to remove it. -/
def Deletable (wants : LogSegment → List LogSegment → Prop) (appliedSn : ℤ)
    (segment : LogSegment) (rest : List LogSegment) : Prop :=
  Followed appliedSn rest ∧ wants segment rest

/-- A segment may go if the next one starts before the applied sequence number. -/
theorem followed_cons {appliedSn : ℤ} {next : LogSegment} {rest : List LogSegment} :
    Followed appliedSn (next :: rest) ↔ next.baseSn < appliedSn := by
  simp [Followed]

namespace Loglet

variable {σ : Type} {shouldDelete : σ → LogSegment → LogSegment → Option σ}
  {left : List LogSegment → σ} {wants : LogSegment → List LogSegment → Prop} {appliedSn : ℤ}

/-- The predicate of a pass carries along a value of the segments that are left, and accepts
the segments that the pass wants to remove. -/
structure Decides (shouldDelete : σ → LogSegment → LogSegment → Option σ)
    (left : List LogSegment → σ) (wants : LogSegment → List LogSegment → Prop) : Prop where
  accepts : ∀ segment next rest, wants segment (next :: rest) →
    shouldDelete (left (segment :: next :: rest)) segment next = some (left (next :: rest))
  refuses : ∀ segment next rest, ¬wants segment (next :: rest) →
    shouldDelete (left (segment :: next :: rest)) segment next = none

/-- The loop deletes segments from the front while it wants to. -/
theorem deletableLoop_frontDrop (h : Decides shouldDelete left wants)
    (segment : LogSegment) (segments : List LogSegment) :
    ∃ back, FrontDrop (Deletable wants appliedSn) (segment :: segments)
      (deletableLoop shouldDelete appliedSn (left (segment :: segments)) segment segments)
      back := by
  induction segments generalizing segment with
  | nil =>
    refine ⟨[segment], of_not ?_⟩
    rintro a rest hsplit ⟨⟨next, hnext, -⟩, -⟩
    obtain ⟨-, rfl⟩ := cons_eq_cons.mp hsplit
    exact Option.not_mem_none next hnext
  | cons next rest ih =>
    by_cases hdel : Deletable wants appliedSn segment (next :: rest)
    · obtain ⟨back, hback⟩ := ih next
      refine ⟨back, ?_⟩
      rw [deletableLoop, if_pos (followed_cons.mp hdel.1), h.accepts _ _ _ hdel.2]
      exact hback.cons hdel
    · have hnone : deletableLoop shouldDelete appliedSn (left (segment :: next :: rest))
          segment (next :: rest) = [] := by
        by_cases hlt : next.baseSn < appliedSn
        · rw [deletableLoop, if_pos hlt, h.refuses _ _ _ fun hw =>
            hdel ⟨followed_cons.mpr hlt, hw⟩]
        · rw [deletableLoop, if_neg hlt]
      refine ⟨segment :: next :: rest, hnone ▸ of_not ?_⟩
      intro a rest' hsplit
      obtain ⟨rfl, rfl⟩ := cons_eq_cons.mp hsplit
      exact hdel

/-- **The segments a pass selects**: it drops from the front of the log. -/
theorem deletable_frontDrop (h : Decides shouldDelete left wants) (l : Loglet) (appliedSn : ℤ) :
    ∃ back, FrontDrop (Deletable wants appliedSn) l.segments.toList
      (l.deletableSegments shouldDelete (left l.segments.toList) appliedSn) back := by
  cases hsegs : l.segments.toList with
  | nil =>
    rw [deletableSegments, hsegs]
    exact ⟨[], of_not fun _ _ h => absurd h (cons_ne_nil _ _).symm⟩
  | cons segment segments =>
    simp only [deletableSegments, hsegs]
    exact deletableLoop_frontDrop h segment segments

end Loglet

namespace Log

variable {log log' log'' : Log} {io : FileOutcomes} {times : FileTimes} {appliedSn : ℤ}
  {wants : LogSegment → List LogSegment → Prop}

/-! ### What a pass does to the log -/

/-- A pass drops segments from the front. If it drops any, the start of the log moves up to
the first segment that is left, unless it is above already. -/
structure Passes (wants : LogSegment → List LogSegment → Prop) (appliedSn : ℤ)
    (log log' : Log) (front : List LogSegment) : Prop where
  drops : FrontDrop (Deletable wants appliedSn) log.loglet.segments.toList front
    log'.loglet.segments.toList
  config : log'.loglet.config = log.loglet.config
  same : front = [] → log'.logStartSn = log.logStartSn
  moved : front ≠ [] → ∃ first ∈ log'.loglet.segments.firstSegment,
    log'.logStartSn = max log.logStartSn first.baseSn

/-- A pass that has nothing to remove. -/
theorem Passes.refl (h : ∀ segment rest, log.loglet.segments.toList = segment :: rest →
    ¬Deletable wants appliedSn segment rest) : Passes wants appliedSn log log [] :=
  ⟨of_not h, rfl, fun _ => rfl, fun h => absurd rfl h⟩

/-- Removing segments leaves the configuration. -/
theorem config_removeSegments (l : Loglet) (segmentsToDelete : List LogSegment)
    (newStartSn : Option ℤ) :
    (l.removeSegments io segmentsToDelete newStartSn).1.config = l.config := by
  rw [Loglet.removeSegments]
  split
  · rfl
  · dsimp only
    split
    · rfl
    · split <;> rfl

/-- The start of the log only moves forward. -/
theorem maybeIncrementLogStartSequence_eq (log : Log) (sn : ℤ) :
    (log.maybeIncrementLogStartSequence sn).loglet = log.loglet ∧
      (log.maybeIncrementLogStartSequence sn).logStartSn = max log.logStartSn sn := by
  rw [maybeIncrementLogStartSequence]
  split
  next h => exact ⟨rfl, (max_eq_right h.le).symm⟩
  next h => exact ⟨rfl, (max_eq_left (not_lt.mp h)).symm⟩

/-- The last dropped segment is followed by the first one that is left. -/
theorem exists_first_of_drops {segments front back : List LogSegment}
    (h : FrontDrop (Deletable wants appliedSn) segments front back) (hne : front ≠ []) :
    ∃ first, back.head? = some first := by
  obtain ⟨before, segment, rfl⟩ := front.eq_nil_or_concat'.resolve_left hne
  obtain ⟨first, hfirst, -⟩ := (each_append.mp h.each).2.1.1
  exact ⟨first, hfirst⟩

/-- **The removal of selected segments.** -/
theorem passes_deleteSegments {σ : Type}
    {shouldDelete : σ → LogSegment → LogSegment → Option σ} (left : List LogSegment → σ)
    (h : Loglet.Decides shouldDelete left wants) (log : Log) (io : FileOutcomes) :
    ∃ front, Passes wants appliedSn log
      (log.deleteSegments io shouldDelete (left log.loglet.segments.toList) appliedSn).1
      front := by
  obtain ⟨back, hdrop⟩ := Loglet.deletable_frontDrop h log.loglet appliedSn
  rw [deleteSegments]
  generalize log.loglet.deletableSegments shouldDelete (left log.loglet.segments.toList)
    appliedSn = front at hdrop ⊢
  by_cases hnil : front = []
  · subst hnil
    refine ⟨[], ?_⟩
    refine Passes.refl fun segment rest hsplit => hdrop.stops segment rest ?_
    rw [← hsplit, hdrop.split, nil_append]
  · refine ⟨front, ?_⟩
    simp only [if_neg hnil]
    have hsegs : (log.loglet.removeSegments io front none).1.segments.toList = back := by
      rw [(Loglet.segments_removeSegments io _ _ _).1]
      exact LogSegments.foldl_remove_front hdrop.split
    obtain ⟨first, hfirst⟩ := exists_first_of_drops hdrop hnil
    have hfirst' : (log.loglet.removeSegments io front none).1.segments.firstSegment =
        some first := by
      rw [LogSegments.firstSegment, hsegs, hfirst]
    rw [removeDeletable]
    simp only [hfirst']
    have hinc := maybeIncrementLogStartSequence_eq
      { log with loglet := (log.loglet.removeSegments io front none).1 } first.baseSn
    refine ⟨?_, ?_, fun h => absurd h hnil, fun _ => ⟨first, ?_, hinc.2⟩⟩
    · rw [hinc.1, hsegs]
      exact hdrop
    · rw [hinc.1]
      exact config_removeSegments _ _ _
    · rw [hinc.1]
      exact hfirst'

/-! ### The three passes -/

/-- The next segment starts at or below the start of the log. -/
def StartBreached (logStartSn : ℤ) (_segment : LogSegment) (rest : List LogSegment) : Prop :=
  ∃ next ∈ rest.head?, next.baseSn ≤ logStartSn

/-- The log is larger than the retention size, and what is left is more than the log has to
keep. -/
def SizeBreached (config : LogConfig) (segment : LogSegment) (rest : List LogSegment) : Prop :=
  config.retentionSize ≠ 0 ∧ config.retentionSize < segmentBytes (segment :: rest) ∧
    config.minSizeToKeep < segmentBytes rest

/-- The file was last modified longer ago than the retention time, and what is there, with the
segment itself, is more than the log has to keep. -/
def TimeBreached (config : LogConfig) (times : FileTimes) (segment : LogSegment)
    (rest : List LogSegment) : Prop :=
  0 < config.retentionMs ∧
    (∃ modified ∈ times.lastModified segment, config.retentionMs < times.now - modified) ∧
    0 < segmentBytes rest ∧ config.minSizeToKeep < segmentBytes (segment :: rest)

/-- The pass for segments before the start of the log. -/
theorem passes_start (log : Log) (io : FileOutcomes) (appliedSn : ℤ) :
    ∃ front, Passes (StartBreached log.logStartSn) appliedSn log
      (log.deleteLogStartSequenceBreachedSegments io appliedSn).1 front := by
  refine passes_deleteSegments (fun _ => ()) ⟨?_, ?_⟩ log io
  · rintro segment next rest ⟨next', hnext, hle⟩
    obtain rfl : next = next' := Option.some.inj hnext
    exact if_pos hle
  · intro segment next rest hnot
    exact if_neg fun hle => hnot ⟨next, rfl, hle⟩

/-- The pass for the size of the log. -/
theorem passes_size (log : Log) (io : FileOutcomes) (appliedSn : ℤ) :
    ∃ front, Passes (SizeBreached log.loglet.config) appliedSn log
      (log.deleteRetentionSizeBreachedSegments io appliedSn).1 front := by
  rw [deleteRetentionSizeBreachedSegments]
  split
  · -- the early return: the first segment is not wanted
    case _ hearly =>
      refine ⟨[], Passes.refl ?_⟩
      rintro segment rest hsplit ⟨-, hne, hsize, hkeep⟩
      rw [Loglet.size_eq, hsplit] at hearly
      have := segmentBytes_cons segment rest
      omega
  · refine passes_deleteSegments segmentBytes ⟨?_, ?_⟩ log io
    · rintro segment next rest ⟨hne, hsize, hkeep⟩
      rw [segmentBytes_cons] at hsize ⊢
      rw [if_pos ⟨hsize, by omega, by omega⟩, Nat.add_sub_cancel_left]
    next hearly =>
      intro segment next rest hnot
      refine if_neg ?_
      rintro ⟨hsize, hpos, hkeep⟩
      refine hnot ⟨?_, hsize, ?_⟩
      · exact fun h => hearly (.inl h)
      · rw [segmentBytes_cons] at hkeep
        omega

/-- The pass for the age of the segments. -/
theorem passes_time (log : Log) (io : FileOutcomes) (times : FileTimes) (appliedSn : ℤ) :
    ∃ front, Passes (TimeBreached log.loglet.config times) appliedSn log
      (log.deleteRetentionTimeBreachedSegments io times appliedSn).1 front := by
  rw [deleteRetentionTimeBreachedSegments]
  split
  next hearly =>
    refine ⟨[], Passes.refl ?_⟩
    rintro segment rest hsplit ⟨-, hms, -, -, hkeep⟩
    rw [Loglet.size_eq, hsplit] at hearly
    omega
  · refine passes_deleteSegments segmentBytes ⟨?_, ?_⟩ log io
    · rintro segment next rest ⟨hms, ⟨modified, hmod, hold⟩, hpos, hkeep⟩
      rw [segmentBytes_cons] at hkeep ⊢
      rw [Option.mem_def.mp hmod]
      dsimp only
      rw [if_pos ⟨hold, by omega, hkeep⟩, Nat.add_sub_cancel_left]
    next hearly =>
      intro segment next rest hnot
      cases hmod : times.lastModified segment with
      | none => rfl
      | some modified =>
        refine if_neg ?_
        rintro ⟨hold, hpos, hkeep⟩
        refine hnot ⟨?_, ⟨modified, hmod, hold⟩, ?_, hkeep⟩
        · exact not_le.mp fun h => hearly (.inl h)
        · rw [segmentBytes_cons] at hpos
          omega

/-! ### Retention as a whole -/

/-- A log and the entries its segments hold: the log starts at or below its segments, and the
entries of a segment are below the segments behind it. -/
structure Layered (log : Log) (held : LogSegment → List Entry) : Prop where
  start : ∀ segment ∈ log.loglet.segments.toList, log.logStartSn ≤ segment.baseSn
  below : log.loglet.segments.toList.Pairwise fun a b =>
    ∀ e ∈ held a, e.sn.toInt < b.baseSn

/-- What `deleteOldSegments` has to see to. -/
structure RetentionSafe (log : Log) (io : FileOutcomes) (times : FileTimes) (appliedSn : ℤ)
    (held : LogSegment → List Entry) : Prop where
  /-- Segments go from the front, and no entry from the applied sequence number on goes. If
  any segment goes, the log starts at the first one that is left. -/
  front : ∃ removed, log.loglet.segments.toList =
      removed ++ (log.deleteOldSegments io times appliedSn).1.loglet.segments.toList ∧
    (∀ segment ∈ removed, ∀ e ∈ held segment, e.sn.toInt < appliedSn) ∧
    (removed ≠ [] →
      ∃ first ∈ (log.deleteOldSegments io times appliedSn).1.loglet.segments.firstSegment,
        (log.deleteOldSegments io times appliedSn).1.logStartSn = first.baseSn)
  /-- The active segment stays. -/
  active : (log.deleteOldSegments io times appliedSn).1.loglet.segments.lastSegment =
    log.loglet.segments.lastSegment
  /-- The passes by size and by time do not take the log below what it has to keep. -/
  keeps : log.loglet.config.minSizeToKeep ≤
      (log.deleteLogStartSequenceBreachedSegments io appliedSn).1.loglet.size →
    log.loglet.config.minSizeToKeep ≤ (log.deleteOldSegments io times appliedSn).1.loglet.size

/-- The segments that the pass by size leaves begin with old ones up to a segment that holds
the last of the bytes to keep. -/
def OldAcrossBoundary (log : Log) (times : FileTimes) (appliedSn : ℤ) : Prop :=
  ∃ front middle segment back,
    FrontDrop (Deletable (SizeBreached log.loglet.config) appliedSn)
      log.loglet.segments.toList front (middle ++ segment :: back) ∧
    Each (Deletable (TimeBreached log.loglet.config times) appliedSn) middle
      (segment :: back) ∧
    Deletable (TimeBreached log.loglet.config times) appliedSn segment back ∧
    segmentBytes back < log.loglet.config.minSizeToKeep

variable {held : LogSegment → List Entry} {front : List LogSegment}

/-- Nothing is before the start of a log that starts at or below its segments. -/
theorem Passes.start_nil (h : Passes (StartBreached log.logStartSn) appliedSn log log' front)
    (hlog : log.Layered held) : front = [] := by
  cases front with
  | nil => rfl
  | cons segment front =>
    obtain ⟨-, next, hnext, hle⟩ := h.drops.each.1
    obtain ⟨rest, hrest⟩ := head?_eq_some_iff.mp hnext
    have hsplit : log.loglet.segments.toList = [] ++ segment :: next :: rest := by
      rw [h.drops.split, cons_append, hrest, nil_append]
    have hlt := LogSegments.lt_back hsplit next mem_cons_self
    have hstart := hlog.start segment (by rw [hsplit]; exact mem_cons_self)
    omega

section

variable (h : Passes wants appliedSn log log' front)
include h

/-- A pass leaves the log layered, and if it removes any segment the log starts at the first
one that is left. -/
theorem Passes.layered (hlog : log.Layered held) :
    log'.Layered held ∧ (front ≠ [] →
      ∃ first ∈ log'.loglet.segments.firstSegment, log'.logStartSn = first.baseSn) := by
  have hbelow := hlog.below
  rw [h.drops.split, pairwise_append] at hbelow
  have hmem : ∀ segment ∈ log'.loglet.segments.toList,
      segment ∈ log.loglet.segments.toList := by
    intro segment hsegment
    rw [h.drops.split]
    exact mem_append_right _ hsegment
  by_cases hnil : front = []
  · refine ⟨⟨?_, hbelow.2.1⟩, fun hne => absurd hnil hne⟩
    rw [h.same hnil]
    exact fun segment hsegment => hlog.start segment (hmem segment hsegment)
  · obtain ⟨first, hfirst, hmax⟩ := h.moved hnil
    obtain ⟨rest, hrest⟩ := head?_eq_some_iff.mp hfirst
    have hle : log.logStartSn ≤ first.baseSn :=
      hlog.start first (hmem first (by rw [hrest]; exact mem_cons_self))
    rw [max_eq_right hle] at hmax
    refine ⟨⟨?_, hbelow.2.1⟩, fun _ => ⟨first, hfirst, hmax⟩⟩
    intro segment hsegment
    rw [hmax]
    rw [hrest] at hsegment
    rcases mem_cons.mp hsegment with rfl | hsegment
    · exact le_rfl
    · have hsplit : log'.loglet.segments.toList = [] ++ first :: rest := hrest
      exact (LogSegments.lt_back hsplit segment hsegment).le

/-- No pass removes an entry from the applied sequence number on. -/
theorem Passes.below_applied
    (hlog : log.Layered held) : ∀ segment ∈ front, ∀ e ∈ held segment, e.sn.toInt < appliedSn := by
  intro segment hsegment e he
  obtain ⟨before, behind, rfl, ⟨next, hnext, hlt⟩, -⟩ := h.drops.each.of_mem hsegment
  have hbelow := hlog.below
  rw [h.drops.split, append_assoc, pairwise_append] at hbelow
  exact ((pairwise_cons.mp hbelow.2.1).1 next (mem_of_mem_head? hnext) e he).trans hlt

/-- No pass removes the active segment. -/
theorem Passes.lastSegment :
    log'.loglet.segments.lastSegment = log.loglet.segments.lastSegment := by
  rw [LogSegments.lastSegment, LogSegments.lastSegment, h.drops.split]
  by_cases hnil : front = []
  · rw [hnil, nil_append]
  · obtain ⟨first, hfirst⟩ := exists_first_of_drops h.drops hnil
    obtain ⟨rest, hrest⟩ := head?_eq_some_iff.mp hfirst
    rw [hrest, getLast?_append_of_ne_nil _ (cons_ne_nil _ _)]

end

/-- The three passes of `deleteOldSegments`. -/
theorem exists_passes (hlog : log.Layered held) (io : FileOutcomes) (times : FileTimes)
    (appliedSn : ℤ) :
    ∃ log₂ front₂ front₃,
      (log.deleteLogStartSequenceBreachedSegments io appliedSn).1.loglet.segments.toList =
        log.loglet.segments.toList ∧
      Passes (SizeBreached log.loglet.config) appliedSn
        (log.deleteLogStartSequenceBreachedSegments io appliedSn).1 log₂ front₂ ∧
      Passes (TimeBreached log.loglet.config times) appliedSn log₂
        (log.deleteOldSegments io times appliedSn).1 front₃ ∧
      (log.deleteLogStartSequenceBreachedSegments io appliedSn).1.Layered held := by
  obtain ⟨front₁, h₁⟩ := passes_start log io appliedSn
  obtain rfl : front₁ = [] := h₁.start_nil hlog
  obtain ⟨front₂, h₂⟩ := passes_size
    (log.deleteLogStartSequenceBreachedSegments io appliedSn).1 io appliedSn
  obtain ⟨front₃, h₃⟩ := passes_time ((log.deleteLogStartSequenceBreachedSegments io
    appliedSn).1.deleteRetentionSizeBreachedSegments io appliedSn).1 io times appliedSn
  rw [h₂.config, h₁.config] at h₃
  rw [h₁.config] at h₂
  exact ⟨_, front₂, front₃, h₁.drops.split.symm, h₂, h₃, (h₁.layered hlog).1⟩

/-- The pass by size leaves what the log has to keep. -/
theorem le_bytes_of_sizeBreached {config : LogConfig} {segments front back : List LogSegment}
    (h : FrontDrop (Deletable (SizeBreached config) appliedSn) segments front back)
    (hle : config.minSizeToKeep ≤ segmentBytes segments) :
    config.minSizeToKeep ≤ segmentBytes back := by
  rcases front.eq_nil_or_concat' with rfl | ⟨before, segment, rfl⟩
  · rwa [h.split, nil_append] at hle
  · obtain ⟨⟨-, -, -, hlt⟩, -⟩ := (each_append.mp h.each).2
    exact hlt.le

/-- **When retention keeps what it has to**: its passes together are safe, unless the segments
that are old enough reach across the boundary of the bytes to keep. -/
theorem retentionSafe_iff (io : FileOutcomes) (times : FileTimes) (appliedSn : ℤ)
    (hlog : log.Layered held) :
    RetentionSafe log io times appliedSn held ↔ ¬OldAcrossBoundary log times appliedSn := by
  obtain ⟨log₂, front₂, front₃, hsame, h₂, h₃, hlog₁⟩ := exists_passes hlog io times appliedSn
  have hdrop₂ := h₂.drops
  rw [hsame] at hdrop₂
  constructor
  · rintro hsafe ⟨front, middle, segment, back, hsize, hmiddle, hsegment, hlt⟩
    obtain ⟨-, hback⟩ := hdrop₂.unique hsize
    -- the pass by time goes on to the boundary
    have hsplit : log₂.loglet.segments.toList = (middle ++ [segment]) ++ back := by
      rw [hback, append_assoc]
      rfl
    have hsuffix := h₃.drops.suffix_of_each hsplit (each_append.mpr ⟨hmiddle, hsegment, trivial⟩)
    have hbefore : segmentBytes (segment :: back) ≤ segmentBytes log.loglet.segments.toList :=
      segmentBytes_le_of_suffix ⟨front ++ middle, by rw [hsize.split, append_assoc]⟩
    have hkeeps := hsafe.keeps (by
      rw [Loglet.size_eq, hsame]
      exact hsegment.2.2.2.2.le.trans hbefore)
    rw [Loglet.size_eq] at hkeeps
    have := segmentBytes_le_of_suffix hsuffix
    omega
  · intro hnot
    have hlayered₂ := h₂.layered hlog₁
    refine ⟨⟨front₂ ++ front₃, ?_, ?_, ?_⟩, ?_, ?_⟩
    · rw [hdrop₂.split, h₃.drops.split, append_assoc]
    · intro segment hsegment
      rcases mem_append.mp hsegment with hmem | hmem
      · exact h₂.below_applied hlog₁ segment hmem
      · exact h₃.below_applied hlayered₂.1 segment hmem
    · intro hne
      by_cases hnil : front₃ = []
      · -- only the pass by size has removed segments
        rw [hnil, append_nil] at hne
        obtain ⟨first, hfirst, hstart⟩ := hlayered₂.2 hne
        have hsegs := h₃.drops.split
        rw [hnil, nil_append] at hsegs
        refine ⟨first, ?_, (h₃.same hnil).trans hstart⟩
        rw [LogSegments.firstSegment, ← hsegs]
        exact hfirst
      · exact (h₃.layered hlayered₂.1).2 hnil
    · rw [h₃.lastSegment, h₂.lastSegment, LogSegments.lastSegment, hsame]
      rfl
    · rw [Loglet.size_eq, hsame]
      intro hle
      have hle₂ := le_bytes_of_sizeBreached hdrop₂ hle
      by_contra hlt
      rcases front₃.eq_nil_or_concat' with rfl | ⟨middle, segment, rfl⟩
      · rw [h₃.drops.split] at hle₂
        exact hlt hle₂
      · obtain ⟨hmiddle, hsegment, -⟩ := each_append.mp h₃.drops.each
        have hsplit := h₃.drops.split
        rw [append_assoc] at hsplit
        exact hnot ⟨front₂, middle, segment, _, hsplit ▸ hdrop₂, hmiddle, hsegment, not_le.mp hlt⟩

/-- Two local appends into a log whose segments hold one entry of 12 bytes each. -/
def twoSegments (minSizeToKeep : ℕ) : Log :=
  ((fresh { segmentSize := 1, retentionMs := 1, minSizeToKeep := minSizeToKeep }).apply
    (.appendLocal .ok 0 {})).apply (.appendLocal .ok 0 {})

/-- The entries of the two segments. -/
def oneEntryEach (segment : LogSegment) : List Entry :=
  [{ sn := Int64.ofInt segment.baseSn }]

/-- Files that were written ten milliseconds ago. -/
def writtenAtZero : FileTimes :=
  { now := 10, lastModified := fun _ => some 0 }

/-- Of the 24 bytes 20 have to be kept. The first segment is old, and the pass by time removes
it, since 24 bytes are more than 20: 12 bytes are left. -/
theorem twoSegments_below_min :
    (twoSegments 20).Layered oneEntryEach ∧ (twoSegments 20).loglet.size = 24 ∧
      ((twoSegments 20).deleteOldSegments .ok writtenAtZero 3).1.loglet.size = 12 ∧
      ¬RetentionSafe (twoSegments 20) .ok writtenAtZero 3 oneEntryEach := by
  refine ⟨⟨by decide, by decide⟩, by decide, by decide, fun hsafe => ?_⟩
  exact absurd (hsafe.keeps (by decide)) (by decide)

/-- With 12 bytes to keep the same removal is safe. -/
theorem twoSegments_retentionSafe :
    RetentionSafe (twoSegments 12) .ok writtenAtZero 3 oneEntryEach ∧
      ((twoSegments 12).deleteOldSegments .ok writtenAtZero 3).1.loglet.size = 12 := by
  refine ⟨(retentionSafe_iff .ok writtenAtZero 3 ⟨by decide, by decide⟩).mpr ?_, by decide⟩
  rintro ⟨front, middle, segment, back, hsize, -, ⟨⟨next, hnext, -⟩, -⟩, hlt⟩
  -- what is left holds the next segment, and every segment has 12 bytes
  obtain ⟨rest, rfl⟩ := head?_eq_some_iff.mp hnext
  have hall : ∀ s ∈ (twoSegments 12).loglet.segments.toList, s.size = 12 := by decide
  have hnext12 : next.size = 12 := hall next (by rw [hsize.split]; simp)
  rw [segmentBytes_cons, hnext12] at hlt
  exact absurd hlt (not_lt.mpr (Nat.le_add_right _ _))

end Log

end Proton
