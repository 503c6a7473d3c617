import Proton.Lib.GuardedRun
import Proton.LocalLog.Log

/-!
# The Bounds on the Sequence Numbers of a Log

A log moves three cursors: the sequence number it starts at, the committed one and the next
one. This module says what each operation does to them and to the base sequence numbers of
the segments, and derives the invariant `Log.Bounded`: nothing at or behind the next sequence
number is committed, and no segment starts before the log or behind the next sequence number.

The file operations of a step may fail at any point. The one operation that breaks the
invariant is a tail trim at or below the committed sequence number: it moves the committed
sequence number to the target, which is then the next one. `Log.TrimAboveCommitted` excludes
it.

## Main results

* `Log.Bounded.apply`: every step that is not such a trim keeps the invariant.
* `Log.sequence_bounds`: the bounds hold in every state of a run without such trims.
-/

open SortedSearch List

namespace Proton

/-! ### What the operations of a loglet do to the base sequence numbers -/

namespace Loglet

/-- Every segment starts at a sequence number with the property. -/
def AllBases (l : Loglet) (P : ℤ → Prop) : Prop :=
  ∀ s ∈ l.segments.toList, P s.baseSn

variable {l : Loglet} {P : ℤ → Prop} (io : FileOutcomes)

/-- A write does not move the base of a segment. -/
theorem baseSn_append (seg : LogSegment) (data : ByteReader.Bytes) :
    (seg.append io data).1.baseSn = seg.baseSn := by
  rw [LogSegment.append]
  split <;> rfl

/-- Appending to a segment leaves its first sequence number. -/
theorem baseSn_appendBatch (seg : LogSegment) (batchData : List ByteReader.Bytes) (totalBytes : ℕ) :
    (seg.appendBatch io batchData totalBytes).1.baseSn = seg.baseSn := by
  rw [LogSegment.appendBatch]
  split
  · exact baseSn_append io seg _
  · rfl

/-- The segments after the bookkeeping of an append are those before. -/
theorem segments_appended (l : Loglet) (active : LogSegment) (physicalPosition written : ℕ)
    (maxEventTs : TimestampSequence) (firstSn lastSn : Int64) (indexFirst : Bool) :
    (l.appended active physicalPosition written maxEventTs firstSn lastSn
      indexFirst).segments = l.segments := by
  simp only [appended, raiseMaxTimestamp]
  split <;> split <;> rfl

/-- The segments after a removal, whether or not the files could be renamed. -/
theorem segments_removeSegments (l : Loglet)
    (segmentsToDelete : List LogSegment) (newStartSn : Option ℤ) :
    (l.removeSegments io segmentsToDelete newStartSn).1.segments =
        (segmentsToDelete.map LogSegment.baseSn).foldl LogSegments.remove l.segments ∧
      (l.removeSegments io segmentsToDelete newStartSn).1.nextLogSequence =
        l.nextLogSequence := by
  rw [Loglet.removeSegments]
  split
  next hnil =>
    rw [hnil]
    exact ⟨rfl, rfl⟩
  · dsimp only
    split
    · exact ⟨rfl, rfl⟩
    · split <;> exact ⟨rfl, rfl⟩

/-- Trimming the indexes leaves the segments. -/
theorem segments_trimIndexes (l : Loglet) (targetSn : ℤ) :
    (l.trimIndexes targetSn).1.segments = l.segments ∧
      (l.trimIndexes targetSn).1.nextLogSequence = l.nextLogSequence := by
  rw [trimIndexes]
  split
  · exact ⟨rfl, rfl⟩
  · dsimp only
    split
    · exact ⟨rfl, rfl⟩
    · split <;> exact ⟨rfl, rfl⟩

section

variable (h : l.AllBases P)
include h

/-- What holds of the bases holds with a segment that is added. -/
theorem AllBases.add (segment : LogSegment) (hs : P segment.baseSn) :
    ∀ s ∈ (l.segments.add segment).toList, P s.baseSn := by
  intro s hmem
  rw [LogSegments.toList_add, mem_append, mem_cons] at hmem
  rcases hmem with hmem | rfl | hmem
  · exact h s (mem_filter.mp hmem).1
  · exact hs
  · exact h s (mem_filter.mp hmem).1

/-- What holds of the bases holds of the active one. -/
theorem AllBases.activeSegment {active : LogSegment}
    (hactive : l.activeSegment = some active) : P active.baseSn :=
  h active (mem_of_getLast? hactive)

/-- **Appending** keeps the bases, and moves the next sequence number behind the entry
unless it fails. -/
theorem AllBases.append {entry : Entry} {l' : Loglet} {res : Except LogError ℕ}
    (hr : l.append io entry = (l', res)) :
    l'.AllBases P ∧ (∀ n, res = .ok n → l'.nextLogSequence = entry.sn.toInt + 1) ∧
      ∀ err, res = .error err → l'.nextLogSequence = l.nextLogSequence := by
  obtain ⟨rfl, rfl⟩ := Prod.ext_iff.1 hr
  rw [Loglet.append]
  cases hactive : l.activeSegment with
  | none => exact ⟨h, by simp, by simp⟩
  | some active =>
    have hset := h.add (active.append io entry.serialize).1
      (by rw [baseSn_append]; exact h.activeSegment hactive)
    simp only
    split
    next active' err heq =>
      rw [heq] at hset
      exact ⟨hset, by simp, by simp [setSegment, nextLogSequence]⟩
    next active' written heq =>
      rw [heq] at hset
      refine ⟨?_, fun _ _ => rfl, by simp⟩
      rw [AllBases, segments_appended]
      exact hset

/-- A batch that is written gets the log to the entry after its last one. -/
theorem AllBases.appendBatch {batch : List Entry}
    {batchData : List ByteReader.Bytes} {totalBytes : ℕ} {maxEventTs : TimestampSequence}
    {l' : Loglet} {res : Except LogError ℕ}
    (hr : l.appendBatch io batch batchData totalBytes maxEventTs = (l', res)) :
    l'.AllBases P ∧
      (∀ n, res = .ok n → ∃ back ∈ batch.getLast?, l'.nextLogSequence = back.sn.toInt + 1) ∧
      ∀ err, res = .error err → l'.nextLogSequence = l.nextLogSequence := by
  obtain ⟨rfl, rfl⟩ := Prod.ext_iff.1 hr
  rw [Loglet.appendBatch]
  split
  next active first back hactive hhead hback =>
    have hset := h.add (active.appendBatch io batchData totalBytes).1
      (by rw [baseSn_appendBatch]; exact h.activeSegment hactive)
    split
    next active' err heq =>
      rw [heq] at hset
      exact ⟨hset, by simp, by simp [setSegment, nextLogSequence]⟩
    next active' written heq =>
      rw [heq] at hset
      refine ⟨?_, fun _ _ => ⟨back, hback, rfl⟩, by simp⟩
      rw [AllBases, segments_appended]
      exact hset
  · exact ⟨h, by simp, by simp⟩

/-- **Rolling** adds one base and leaves the next sequence number. -/
theorem AllBases.roll {expectedNextSn : ℤ}
    (hnew : P (max expectedNextSn l.nextLogSequence)) :
    (l.roll io (some expectedNextSn)).1.AllBases P ∧
      (l.roll io (some expectedNextSn)).1.nextLogSequence = l.nextLogSequence := by
  rw [Loglet.roll]
  split
  · exact ⟨h, rfl⟩
  · split
    · exact ⟨AllBases.add (l := l) h _ hnew, rfl⟩
    · exact ⟨h, rfl⟩

/-- **Removing segments** adds no base. -/
theorem AllBases.removeSegments (segmentsToDelete : List LogSegment)
    (newStartSn : Option ℤ) : (l.removeSegments io segmentsToDelete newStartSn).1.AllBases P := by
  intro s hs
  rw [(segments_removeSegments io _ _ _).1, LogSegments.toList_foldl_remove] at hs
  exact h s (mem_filter.mp hs).1

omit h in
/-- The removal of the segments above the target leaves those at or below it. -/
theorem removeSegments_upper (l : Loglet) (targetSn : ℤ) (newStartSn : Option ℤ) :
    (l.removeSegments io (l.segments.upperSegments targetSn) newStartSn).1.AllBases
      (· ≤ targetSn) := by
  intro s hs
  rw [(segments_removeSegments io _ _ _).1, LogSegments.toList_foldl_remove, mem_filter] at hs
  by_contra hgt
  have hmem : s ∈ l.segments.upperSegments targetSn := by
    rw [LogSegments.upperSegments, mem_filter]
    exact ⟨hs.1, by simpa using hgt⟩
  have hbase : s.baseSn ∈ (l.segments.upperSegments targetSn).map LogSegment.baseSn :=
    mem_map_of_mem hmem
  simp [hbase] at hs

/-- **Cutting the segments**: the bases that are left are at or below the target, and the
next sequence number is the target unless the call fails. -/
theorem AllBases.trimSegments {targetSegment : LogSegment} {targetSn : ℤ}
    (hP : P targetSegment.baseSn) (hle : targetSegment.baseSn ≤ targetSn) {filePosition : ℕ}
    {l' : Loglet} {res : Option LogError}
    (hr : l.trimSegments io targetSegment targetSn filePosition = (l', res)) :
    l'.AllBases P ∧
      (res = none → l'.nextLogSequence = targetSn ∧ l'.AllBases (· ≤ targetSn)) ∧
      (res ≠ none → l'.nextLogSequence = l.nextLogSequence) := by
  obtain ⟨rfl, rfl⟩ := Prod.ext_iff.1 hr
  have hkept := h.removeSegments io (l.segments.upperSegments targetSn) none
  have hnext := (segments_removeSegments io l (l.segments.upperSegments targetSn) none).2
  have hupper := removeSegments_upper io l targetSn none
  rw [Loglet.trimSegments]
  split
  next l' err heq =>
    rw [heq] at hkept hnext
    exact ⟨hkept, by simp, fun _ => hnext⟩
  next l' heq =>
    rw [heq] at hkept hnext hupper
    split
    · exact ⟨hkept.add _ hP, fun _ => ⟨rfl, AllBases.add (P := (· ≤ targetSn)) hupper _ hle⟩,
        by simp⟩
    · exact ⟨hkept, by simp, fun _ => hnext⟩

/-- **A tail trim** adds no base. When it succeeds some segment was at or below the target,
all that are left are, and the next sequence number is the target; when it fails the next
sequence number stays. -/
theorem AllBases.trim {targetSn : ℤ} {l' : Loglet} {res : Option LogError}
    (hr : l.trim io targetSn = (l', res)) :
    l'.AllBases P ∧
      (res = none → l'.nextLogSequence = targetSn ∧ l'.AllBases (· ≤ targetSn) ∧
        ∃ s ∈ l.segments.toList, s.baseSn ≤ targetSn) ∧
      (res ≠ none → l'.nextLogSequence = l.nextLogSequence) := by
  obtain ⟨rfl, rfl⟩ := Prod.ext_iff.1 hr
  rw [Loglet.trim]
  split
  · exact ⟨h, by simp, fun _ => rfl⟩
  next targetSegment hfloor =>
    have hmem : targetSegment ∈ l.segments.toList := mem_reverse.mp (mem_of_find?_eq_some hfloor)
    have hle : targetSegment.baseSn ≤ targetSn := by
      simpa using find?_some hfloor
    split
    next l' err heq =>
      obtain rfl := (congrArg Prod.fst heq : _ = l')
      exact ⟨h, by simp, fun _ => rfl⟩
    next l' heq =>
      obtain rfl := (congrArg Prod.fst heq : _ = l')
      exact ⟨h, by simp, fun _ => rfl⟩
    next l' lsn heq =>
      obtain rfl := (congrArg Prod.fst heq : _ = l')
      obtain ⟨hsegs, hnext⟩ := segments_trimIndexes (l.translateSequence targetSegment
        targetSn).1 targetSn
      split
      next l₂ err heq₂ =>
        rw [heq₂] at hsegs hnext
        refine ⟨?_, by simp, fun _ => hnext⟩
        rw [AllBases, hsegs]
        exact h
      next l₂ heq₂ =>
        rw [heq₂] at hsegs hnext
        have hl₂ : l₂.AllBases P := by
          rw [AllBases, hsegs]
          exact h
        obtain ⟨hbases, hok, herr⟩ := hl₂.trimSegments io (h targetSegment hmem) hle rfl
        exact ⟨hbases, fun hnone => ⟨(hok hnone).1, (hok hnone).2,
          targetSegment, hmem, hle⟩, fun hsome => (herr hsome).trans hnext⟩

/-- **A full trim** leaves the new segment only, at the next sequence number; when it fails
it adds no base and the next sequence number stays. -/
theorem AllBases.trimFullyAndStartAt {newSn : ℤ} {l' : Loglet}
    {res : Option LogError} (hr : l.trimFullyAndStartAt io newSn = (l', res)) :
    (res = none → l'.nextLogSequence = newSn ∧ l'.AllBases (· = newSn)) ∧
      (res ≠ none → l'.AllBases P ∧ l'.nextLogSequence = l.nextLogSequence) := by
  obtain ⟨rfl, rfl⟩ := Prod.ext_iff.1 hr
  rw [Loglet.trimFullyAndStartAt]
  split
  · exact ⟨by simp, fun _ => ⟨h, rfl⟩⟩
  next active hactive =>
    have hkept := h.removeSegments io l.segments.toList.dropLast (some newSn)
    obtain ⟨hsegs, hnext⟩ := segments_removeSegments io l l.segments.toList.dropLast (some newSn)
    -- only the active segment is left after the removal
    have honly : ∀ s ∈ (l.removeSegments io l.segments.toList.dropLast
        (some newSn)).1.segments.toList, s = active := by
      rw [hsegs, LogSegments.foldl_remove_front (dropLast_append_getLast? active hactive).symm]
      simp
    split
    next l' err heq =>
      rw [heq] at hkept hnext
      exact ⟨by simp, fun _ => ⟨hkept, hnext⟩⟩
    next l' heq =>
      rw [heq] at hkept hnext honly
      split
      · exact ⟨by simp, fun _ => ⟨hkept, hnext⟩⟩
      · refine ⟨fun _ => ⟨rfl, ?_⟩, by simp⟩
        have hadded : ∀ s ∈ (l'.segments.add (l'.openSegment (active.id + 1)
            newSn).2).toList, s.baseSn = newSn ∨ s.baseSn = active.baseSn :=
          AllBases.add (l := l') (P := fun b => b = newSn ∨ b = active.baseSn)
            (fun s hs => .inr (by rw [honly s hs])) _ (.inl rfl)
        intro s hs
        simp only [updateNextLogSequence, removeSegmentFilesAsync] at hs
        split at hs
        next hsame =>
          rcases hadded s hs with hs | hs
          · exact hs
          · exact hs.trans hsame.symm
        · rw [LogSegments.toList_remove, mem_filter] at hs
          rcases hadded s hs.1 with hbase | hbase
          · exact hbase
          · exact absurd hbase (by simpa using hs.2)

end

end Loglet

/-! ### The invariant -/

namespace Log

/-- **The bounds on the cursors**: what is committed is in the log, and the log and all its
segments start at or before the next sequence number, which is a 64-bit number. -/
structure Bounded (log : Log) : Prop where
  committed : log.committedSn < log.nextLogSequence
  start : log.logStartSn ≤ log.nextLogSequence
  bases : log.loglet.AllBases fun b => log.logStartSn ≤ b ∧ b ≤ log.nextLogSequence
  low : -2 ^ 63 ≤ log.nextLogSequence

variable {log : Log}

section

variable (h : log.Bounded)
include h

/-- Moving the next sequence number forward keeps the bounds. -/
theorem Bounded.advance {loglet : Loglet} {k : ℤ} (hk : 0 ≤ k)
    (hbases : loglet.AllBases fun b => log.logStartSn ≤ b ∧ b ≤ log.nextLogSequence)
    (hnext : loglet.nextLogSequence = log.nextLogSequence + k) :
    Bounded { log with loglet := loglet } := by
  obtain ⟨hcommitted, hstart, -, hlow⟩ := h
  refine ⟨?_, ?_, fun s hs => ?_, ?_⟩ <;> simp only [nextLogSequence] at *
  · omega
  · omega
  · have := hbases s hs
    omega
  · omega

/-- **Rolling** keeps the bounds and the next sequence number. -/
theorem Bounded.maybeRoll {io : FileOutcomes} {appendSize : ℕ}
    {log' : Log} {res : Except LogError LogSegment}
    (hr : log.maybeRoll io appendSize log.nextLogSequence = (log', res)) :
    log'.Bounded ∧ log'.nextLogSequence = log.nextLogSequence ∧
      log'.committedSn = log.committedSn := by
  obtain ⟨rfl, rfl⟩ := Prod.ext_iff.1 hr
  rw [Log.maybeRoll]
  split
  · exact ⟨h, rfl, rfl⟩
  · split
    · have hnew : log.logStartSn ≤ max log.nextLogSequence log.loglet.nextLogSequence ∧
          max log.nextLogSequence log.loglet.nextLogSequence ≤ log.nextLogSequence := by
        rw [show log.loglet.nextLogSequence = log.nextLogSequence from rfl, max_self]
        exact ⟨h.start, le_rfl⟩
      obtain ⟨hbases, hnext⟩ := h.bases.roll io hnew
      exact ⟨h.advance le_rfl hbases (by rw [hnext, add_zero]; rfl), hnext, rfl⟩
    · exact ⟨h, rfl, rfl⟩

variable (io : FileOutcomes)

/-- **The locked part of `appendLocal`**: it hands out the next sequence number, or fails
and leaves it. -/
theorem Bounded.appendLocalLocked (now : Int64)
    (entry : Entry) (hrange : log.nextLogSequence < 2 ^ 63) {log' : Log} {res : Except LogError ℤ}
    (hr : log.appendLocalLocked io now entry = (log', res)) :
    log'.Bounded ∧ log'.committedSn = log.committedSn ∧
      (∀ sn, res = .ok sn →
        sn = log.nextLogSequence ∧ log'.nextLogSequence = log.nextLogSequence + 1) ∧
      ∀ err, res = .error err → log'.nextLogSequence = log.nextLogSequence := by
  obtain ⟨rfl, rfl⟩ := Prod.ext_iff.1 hr
  have hsn : (Int64.ofInt log.nextLogSequence).toInt = log.nextLogSequence :=
    Int64.toInt_ofInt_of_le h.low hrange
  rw [Log.appendLocalLocked]
  simp only [hsn]
  split
  next log' err heq =>
    obtain ⟨hb, hnext, hcommitted⟩ := h.maybeRoll heq
    exact ⟨hb, hcommitted, by simp, fun _ _ => hnext⟩
  next log' seg heq =>
    obtain ⟨hb, hnext, hcommitted⟩ := h.maybeRoll heq
    have hsn' : (Int64.ofInt log'.nextLogSequence).toInt = log'.nextLogSequence := by
      rw [hnext, hsn]
    rw [← hnext]
    split
    · have hmoved : ∀ e : Entry, e.sn = Int64.ofInt log'.nextLogSequence →
          (log'.takeSequence e).nextLogSequence = log'.nextLogSequence + 1 :=
        fun e he => congrArg (· + 1) (he ▸ hsn')
      refine ⟨hb.advance zero_le_one hb.bases (hmoved _ rfl), hcommitted, ?_, by simp⟩
      rintro sn ⟨⟩
      exact ⟨rfl, hmoved _ rfl⟩
    · split
      next loglet err heq' =>
        obtain ⟨hbases, -, herr⟩ := hb.bases.append io heq'
        have hsame := herr err rfl
        exact ⟨hb.advance le_rfl hbases (by rw [hsame, add_zero]; rfl), hcommitted,
          by simp, fun _ _ => hsame⟩
      next loglet n heq' =>
        obtain ⟨hbases, hok, -⟩ := hb.bases.append io heq'
        have hmoved : loglet.nextLogSequence = log'.nextLogSequence + 1 := by
          rw [hok n rfl, hsn']
        refine ⟨hb.advance zero_le_one hbases hmoved, hcommitted, ?_, by simp⟩
        rintro sn ⟨⟩
        exact ⟨rfl, hmoved⟩

omit h in
/-- The locked part of `appendLocal` does not touch the committed epoch. -/
theorem committedEpoch_appendLocalLocked (log : Log) (io : FileOutcomes) (now : Int64)
    (entry : Entry) :
    (log.appendLocalLocked io now entry).1.committedEpoch = log.committedEpoch := by
  have hroll : ∀ appendSize nextSn,
      (log.maybeRoll io appendSize nextSn).1.committedEpoch = log.committedEpoch := by
    intro appendSize nextSn
    rw [Log.maybeRoll]
    split
    · rfl
    · split <;> rfl
  rw [Log.appendLocalLocked]
  split
  next heq => exact (congrArg (fun r => r.1.committedEpoch) heq).symm.trans (hroll _ _)
  next heq =>
    have hsame := (congrArg (fun r => r.1.committedEpoch) heq).symm.trans (hroll _ _)
    split
    · exact hsame
    · split <;> exact hsame

/-- **Committing** keeps the bounds. -/
theorem Bounded.advanceCommittedSequence (newEpoch : ℕ) (newCommittedSn : ℤ) :
    Bounded (log.advanceCommittedSequence newEpoch newCommittedSn).1 := by
  rw [Log.advanceCommittedSequence]
  split
  · exact h
  · split
    · exact h
    · split
      next hlt _ => exact ⟨not_le.mp hlt, h.start, h.bases, h.low⟩
      · exact h

/-- An append on the leader keeps the bounds. -/
theorem Bounded.appendLocal (now : Int64) (entry : Entry)
    (hrange : log.nextLogSequence < 2 ^ 63) : Bounded (log.appendLocal io now entry).1 := by
  rw [Log.appendLocal]
  split
  · exact h
  · split
    next heq => exact (h.appendLocalLocked io now entry hrange heq).1
    next heq =>
      exact (h.appendLocalLocked io now entry hrange heq).1.advanceCommittedSequence _ _

/-- **One span of a batch**: the next sequence number moves behind it, or stays. -/
theorem Bounded.appendSpan {batch : List Entry}
    (hsn : ContiguousFrom log.nextLogSequence batch) {log' : Log} {res : Except LogError ℕ}
    (hr : log.appendSpan io batch = (log', res)) : log'.Bounded ∧
      ∀ n, res = .ok n → log'.nextLogSequence = log.nextLogSequence + batch.length := by
  obtain ⟨rfl, rfl⟩ := Prod.ext_iff.1 hr
  rw [Log.appendSpan]
  split
  · exact ⟨h, by simp⟩
  · exact ⟨⟨h.committed, h.start, h.bases, h.low⟩, by simp⟩
  next first index hhead _ =>
    have hfirst : first.sn.toInt = log.nextLogSequence := by
      obtain ⟨rest, rfl⟩ := head?_eq_some_iff.mp hhead
      exact hsn.1
    have hindexed : Bounded { log with epochSnIndex := index } :=
      ⟨h.committed, h.start, h.bases, h.low⟩
    simp only [hfirst]
    split
    next log' err heq => exact ⟨(hindexed.maybeRoll heq).1, by simp⟩
    next log' seg heq =>
      obtain ⟨hb, hnext, -⟩ := hindexed.maybeRoll heq
      rcases hres : log'.loglet.appendBatch io batch (batch.map Entry.serialize)
        (((batch.map Entry.serialize).map length).sum % 2 ^ 32) (maxEventTs batch)
        with ⟨loglet, err | n⟩
      · obtain ⟨hbases, -, herr⟩ := hb.bases.appendBatch io hres
        exact ⟨hb.advance le_rfl hbases (by rw [herr err rfl, add_zero]; rfl), by simp⟩
      · obtain ⟨hbases, hok, -⟩ := hb.bases.appendBatch io hres
        obtain ⟨back, hback, hmoved⟩ := hok n rfl
        rw [hsn.getLast hback] at hmoved
        refine ⟨hb.advance (Int.natCast_nonneg batch.length) hbases ?_, fun _ _ => hmoved⟩
        rw [hmoved, hnext]
        rfl

end

variable {entries : List Entry}

/-- **The loop over the spans.** -/
theorem Bounded.appendLoop (io : ℕ → FileOutcomes) (fuel : ℕ) {log : Log} (h : log.Bounded)
    (written : ℕ) (hsn : ContiguousFrom log.nextLogSequence entries) :
    Bounded (appendLoop io fuel log written entries).1 := by
  induction fuel generalizing log written entries with
  | zero => exact h
  | succ fuel ih =>
    have hsplit := hsn
    rw [← take_append_drop iovMax entries, contiguousFrom_append] at hsplit
    rw [Log.appendLoop]
    split
    next heq => exact (h.appendSpan (io fuel) hsplit.1 heq).1
    next log' n heq =>
      obtain ⟨hb, hnext⟩ := h.appendSpan (io fuel) hsplit.1 heq
      split
      · exact hb
      · refine ih hb _ ?_
        rw [hnext n rfl]
        exact hsplit.2

/-- An in-memory log takes over the sequence numbers of the entries. -/
theorem Bounded.foldl_takeSequence {log : Log} (h : log.Bounded)
    (hsn : ContiguousFrom log.nextLogSequence entries) :
    Bounded (entries.foldl takeSequence log) := by
  induction entries generalizing log with
  | nil => exact h
  | cons entry entries ih =>
    obtain ⟨hfirst, hrest⟩ := hsn
    have hstep : Bounded (log.takeSequence entry) :=
      h.advance zero_le_one h.bases (by rw [← hfirst]; rfl)
    refine ih hstep ?_
    rw [← hfirst] at hrest
    exact hrest

section

variable (h : log.Bounded)
include h

/-- An append to the cache keeps the bounds. -/
theorem Bounded.appendInMemory
    (hsn : ContiguousFrom log.nextLogSequence entries) : Bounded (log.appendInMemory entries) := by
  rw [Log.appendInMemory]
  split
  · exact h
  · exact (h.foldl_takeSequence hsn).advanceCommittedSequence _ _

/-- An append to the files keeps the bounds. -/
theorem Bounded.append (io : ℕ → FileOutcomes)
    (hsn : ContiguousFrom log.nextLogSequence entries) : Bounded (log.append io entries).1 := by
  rw [Log.append]
  split
  · exact h.appendInMemory hsn
  · exact h.appendLoop io entries.length 0 hsn

variable (io : FileOutcomes)

/-- **A full trim** puts all three cursors at the new start. -/
theorem Bounded.trimFullyAndStartAt {newSn : ℤ}
    (hlow : -2 ^ 63 ≤ newSn) (prevEpochSn : Option EpochSequence) :
    Bounded (log.trimFullyAndStartAt io newSn prevEpochSn).1 := by
  rw [Log.trimFullyAndStartAt]
  split
  next loglet err heq =>
    obtain ⟨hbases, hnext⟩ := (h.bases.trimFullyAndStartAt io heq).2 (by simp)
    exact h.advance le_rfl hbases (by rw [hnext, add_zero]; rfl)
  next loglet heq =>
    obtain ⟨hnext, hbases⟩ := (h.bases.trimFullyAndStartAt io heq).1 rfl
    refine ⟨?_, ?_, fun s hs => ?_, ?_⟩ <;> simp only [nextLogSequence, hnext]
    · omega
    · exact le_rfl
    · exact ⟨(hbases s hs).ge, (hbases s hs).le⟩
    · exact hlow

/-- **A tail trim above the committed sequence number.** -/
theorem Bounded.trimTail {targetSn : ℤ}
    (hcommitted : log.committedSn < targetSn) (hlow : logStartSN ≤ targetSn) :
    Bounded (log.trimTail io targetSn).1 := by
  rw [Log.trimTail]
  split
  next loglet err heq =>
    obtain ⟨hbases, -, herr⟩ := h.bases.trim io heq
    exact h.advance le_rfl hbases (by rw [herr (by simp), add_zero]; rfl)
  next loglet heq =>
    obtain ⟨hbases, hok, -⟩ := h.bases.trim io heq
    obtain ⟨hnext, hle, s, hs, hsle⟩ := hok rfl
    have hstart : log.logStartSn ≤ targetSn := (h.bases s hs).1.trans hsle
    have hlow' : -2 ^ 63 ≤ targetSn := by
      rw [logStartSN] at hlow
      omega
    have hboth : ∀ s ∈ loglet.segments.toList,
        log.logStartSn ≤ s.baseSn ∧ s.baseSn ≤ targetSn :=
      fun s hs => ⟨(hbases s hs).1, hle s hs⟩
    dsimp only
    split
    · refine ⟨?_, ?_, fun s hs => ?_, ?_⟩ <;> simp only [nextLogSequence, hnext]
      · exact hcommitted
      · exact hstart
      · exact hboth s hs
      · exact hlow'
    · refine ⟨?_, ?_, fun s hs => ?_, ?_⟩ <;>
        simp only [nextLogSequence, hnext, min_eq_right hstart]
      · split <;> omega
      · exact hstart
      · exact hboth s hs
      · exact hlow'

/-- **Retention** moves the start of the log to its first segment. -/
theorem Bounded.removeDeletable
    (deletable : List LogSegment) : Bounded (log.removeDeletable io deletable) := by
  have hbases := h.bases.removeSegments io deletable none
  have hnext := (Loglet.segments_removeSegments io log.loglet deletable none).2
  have hkept : Bounded { log with
      loglet := (log.loglet.removeSegments io deletable none).1 } :=
    h.advance le_rfl hbases (by rw [hnext, add_zero]; rfl)
  rw [Log.removeDeletable]
  dsimp only
  split
  · exact hkept
  next first hfirst =>
    rw [maybeIncrementLogStartSequence]
    split
    · obtain ⟨rest, hlist⟩ := head?_eq_some_iff.mp hfirst
      have hfirstle := (hkept.bases first (by simp [hlist])).2
      refine ⟨hkept.committed, hfirstle, fun s hs => ⟨?_, (hkept.bases s hs).2⟩, hkept.low⟩
      -- the first segment has the smallest base
      have hinc := (log.loglet.removeSegments io deletable none).1.segments.increasing
      simp only [hlist] at hs hinc
      rcases mem_cons.mp hs with rfl | hs
      · exact le_rfl
      · exact ((pairwise_cons.mp hinc).1 s hs).le
    · exact hkept

/-- The deletion of segments keeps the bounds. -/
theorem Bounded.deleteSegments {σ : Type}
    (shouldDelete : σ → LogSegment → LogSegment → Option σ) (s : σ) (appliedSn : ℤ) :
    Bounded (log.deleteSegments io shouldDelete s appliedSn).1 := by
  rw [Log.deleteSegments]
  split
  · exact h
  · exact h.removeDeletable io _

/-- Retention keeps the bounds. -/
theorem Bounded.deleteOldSegments (times : FileTimes)
    (appliedSn : ℤ) : Bounded (log.deleteOldSegments io times appliedSn).1 := by
  have hstart : Bounded (log.deleteLogStartSequenceBreachedSegments io appliedSn).1 :=
    h.deleteSegments io _ _ _
  have hsize : ∀ {log : Log}, log.Bounded →
      Bounded (log.deleteRetentionSizeBreachedSegments io appliedSn).1 := by
    intro log h
    rw [deleteRetentionSizeBreachedSegments]
    split
    · exact h
    · exact h.deleteSegments io _ _ _
  have htime : ∀ {log : Log}, log.Bounded →
      Bounded (log.deleteRetentionTimeBreachedSegments io times appliedSn).1 := by
    intro log h
    rw [deleteRetentionTimeBreachedSegments]
    split
    · exact h
    · exact h.deleteSegments io _ _ _
  exact htime (hsize hstart)

end

/-! ### Runs -/

/-- The operations of a run. -/
inductive Operation where
  | appendLocal (io : FileOutcomes) (now : Int64) (entry : Entry)
  | append (io : ℕ → FileOutcomes) (entries : List Entry)
  | advanceCommittedSequence (newEpoch : ℕ) (newCommittedSn : ℤ)
  | trim (io : FileOutcomes) (targetSn : ℤ)
  | trimFullyAndStartAt (io : FileOutcomes) (newSn : Int64) (prevEpochSn : Option EpochSequence)
  | deleteOldSegments (io : FileOutcomes) (times : FileTimes) (appliedSn : ℤ)

/-- The state after an operation. -/
def apply (log : Log) : Operation → Log
  | .appendLocal io now entry => (log.appendLocal io now entry).1
  | .append io entries => (log.append io entries).1
  | .advanceCommittedSequence newEpoch newCommittedSn =>
    (log.advanceCommittedSequence newEpoch newCommittedSn).1
  | .trim io targetSn => (log.trim io targetSn).1
  | .trimFullyAndStartAt io newSn prevEpochSn =>
    (log.trimFullyAndStartAt io newSn.toInt prevEpochSn).1
  | .deleteOldSegments io times appliedSn => (log.deleteOldSegments io times appliedSn).1

/-- What the callers of an operation see to: the sequence number behind a local append is a
64-bit number, a batch is numbered from the next sequence number on, and retention does not
go beyond what is committed. -/
def Promised (log : Log) : Operation → Prop
  | .appendLocal _ _ _ => log.nextLogSequence + 1 < 2 ^ 63
  | .append _ entries => ContiguousFrom log.nextLogSequence entries
  | .deleteOldSegments _ _ appliedSn => appliedSn ≤ log.committedSn
  | _ => True

instance decidablePromised (log : Log) : (op : Operation) → Decidable (Promised log op)
  | .appendLocal _ _ _ => inferInstanceAs (Decidable (_ < _))
  | .append _ _ => decidableContiguousFrom _ _
  | .deleteOldSegments _ _ _ => inferInstanceAs (Decidable (_ ≤ _))
  | .advanceCommittedSequence _ _ => isTrue trivial
  | .trim _ _ => isTrue trivial
  | .trimFullyAndStartAt _ _ _ => isTrue trivial

/-- A trim is above the committed sequence number, or below the first segment, where it is
a full trim. -/
def TrimAboveCommitted (log : Log) : Operation → Prop
  | .trim _ targetSn => log.committedSn < targetSn ∨
      ∀ first ∈ log.loglet.segments.firstSegment, targetSn < first.baseSn
  | _ => True

/-- A step of a run. -/
def Step : Log → Log → Prop :=
  GuardedRun.Step apply Promised

/-- A step that trims nothing at or below the committed sequence number. -/
def CommittedStep : Log → Log → Prop :=
  GuardedRun.Step apply fun log op => Promised log op ∧ TrimAboveCommitted log op

/-- **One step** that does not trim at or below the committed sequence number keeps the
bounds. -/
theorem Bounded.apply (h : log.Bounded) {op : Operation} (hpromised : Promised log op)
    (htrim : TrimAboveCommitted log op) : Bounded (log.apply op) := by
  cases op with
  | appendLocal io now entry =>
    refine h.appendLocal io now entry ?_
    have : log.nextLogSequence + 1 < 2 ^ 63 := hpromised
    omega
  | append io entries => exact h.append io hpromised
  | advanceCommittedSequence newEpoch newCommittedSn =>
    exact h.advanceCommittedSequence newEpoch newCommittedSn
  | trim io targetSn =>
    simp only [Log.apply, Log.trim]
    split
    · exact h
    next hlow =>
      split
      · split
        · exact h
        next first hfirst =>
          have hlow' : -2 ^ 63 ≤ targetSn := by
            rw [logStartSN] at hlow
            omega
          split
          · exact h.trimFullyAndStartAt io hlow' none
          next hle =>
            rcases htrim with hcommitted | hbelow
            · exact h.trimTail io hcommitted (not_lt.mp hlow)
            · exact absurd (hbelow first hfirst) hle
      · split
        · exact ⟨h.committed, h.start, h.bases, h.low⟩
        · exact h
  | trimFullyAndStartAt io newSn prevEpochSn =>
    exact h.trimFullyAndStartAt io newSn.le_toInt prevEpochSn
  | deleteOldSegments io times appliedSn => exact h.deleteOldSegments io times appliedSn

/-- A log as `Log::create` hands it out: it starts at its first segment, its next sequence
number was read from its last one, and nothing is committed. -/
structure Created (log : Log) : Prop where
  committed : log.committedSn = logStartSN - 1
  start : ∀ first ∈ log.loglet.segments.firstSegment, log.logStartSn = first.baseSn
  nonempty : log.loglet.segments.toList ≠ []
  bases : log.loglet.AllBases fun b => b ≤ log.nextLogSequence
  next : logStartSN ≤ log.nextLogSequence

/-- A fresh log is one that was created. -/
theorem created_fresh (config : LogConfig) : Created (fresh config) where
  committed := rfl
  start := by
    rintro first ⟨⟩
    rfl
  nonempty := cons_ne_nil _ _
  bases := by
    intro s hs
    rw [mem_singleton.mp hs]
    exact le_rfl
  next := le_rfl

/-- A created log is within the bounds. -/
theorem Created.bounded (h : Created log) : log.Bounded := by
  obtain ⟨first, rest, hlist⟩ := exists_cons_of_ne_nil h.nonempty
  have hfirst : log.logStartSn = first.baseSn :=
    h.start first (by rw [LogSegments.firstSegment, hlist]; rfl)
  have hinc := log.loglet.segments.increasing
  have hnext := h.next
  rw [logStartSN] at hnext
  refine ⟨?_, ?_, fun s hs => ⟨?_, h.bases s hs⟩, ?_⟩
  · rw [h.committed, logStartSN]
    omega
  · rw [hfirst]
    exact h.bases first (by rw [hlist]; exact mem_cons_self)
  · rw [hfirst]
    rw [hlist] at hs hinc
    rcases mem_cons.mp hs with rfl | hs
    · exact le_rfl
    · exact ((pairwise_cons.mp hinc).1 s hs).le
  · omega

/-- **The sequence bounds of a log**, in every state of a run that trims nothing at or below
the committed sequence number: what is committed is in the log, the log does not start
behind its end, and a fetch of committed entries announces nothing behind it. -/
theorem sequence_bounds {log₀ log : Log} (hcreated : Created log₀)
    (hrun : Relation.ReflTransGen CommittedStep log₀ log) :
    log.committedSn < log.nextLogSequence ∧ log.logStartSn ≤ log.nextLogSequence ∧
      (log.nextSequenceMetadata .committed).entrySn ≤
        (log.nextSequenceMetadata .logEnd).entrySn := by
  have hbounded : log.Bounded := GuardedRun.invariant
    (fun _ _ hlog hguard => hlog.apply hguard.1 hguard.2) hcreated.bounded hrun
  exact ⟨hbounded.committed, hbounded.start, hbounded.committed⟩

/-- Three entries are appended, the first one is committed, and the others are trimmed. -/
theorem sequence_bounds_after_trim :
    let log := (((fresh {}).apply (.append (fun _ => .ok)
      [{ sn := 1 }, { sn := 2 }, { sn := 3 }])).apply (.advanceCommittedSequence 1 1)).apply
        (.trim .ok 2)
    log.nextLogSequence = 2 ∧ log.committedSn < log.nextLogSequence ∧
      log.logStartSn ≤ log.nextLogSequence ∧
      (log.nextSequenceMetadata .committed).entrySn ≤
        (log.nextSequenceMetadata .logEnd).entrySn :=
  ⟨by decide, sequence_bounds (created_fresh {})
    (.tail (.tail (.single ⟨.append (fun _ => .ok) [{ sn := 1 }, { sn := 2 }, { sn := 3 }],
        ⟨by decide, trivial⟩, rfl⟩)
      ⟨.advanceCommittedSequence 1 1, ⟨trivial, trivial⟩, rfl⟩)
      ⟨.trim .ok 2, ⟨trivial, .inl (by decide)⟩, rfl⟩)⟩

/-- Two local appends commit the sequence numbers 1 and 2. A trim at 1 then leaves 1
committed although 1 is the next sequence number: a fetch of committed entries announces an
entry that the log does not hold. -/
theorem trim_at_committed_breaks_bounds :
    ∃ log, Relation.ReflTransGen Step (fresh {}) log ∧ Created (fresh {}) ∧
      log.committedSn = 1 ∧ log.nextLogSequence = 1 ∧
      ¬ log.committedSn < log.nextLogSequence ∧
      (log.nextSequenceMetadata .committed).entrySn = 2 :=
  ⟨(((fresh {}).apply (.appendLocal .ok 0 {})).apply (.appendLocal .ok 0 {})).apply
      (.trim .ok 1),
    .tail (.tail (.single ⟨.appendLocal .ok 0 {}, by decide, rfl⟩)
      ⟨.appendLocal .ok 0 {}, by decide, rfl⟩) ⟨.trim .ok 1, trivial, rfl⟩,
    created_fresh {}, by decide, by decide, by decide, by decide⟩

/-- **Every segment lies in the log**, in every state of such a run: it starts neither before the
log nor behind the next sequence number, whatever file operations have failed. -/
theorem segments_within_log {log₀ log : Log} (hcreated : Created log₀)
    (hrun : Relation.ReflTransGen CommittedStep log₀ log) :
    ∀ segment ∈ log.loglet.segments.toList,
      log.logStartSn ≤ segment.baseSn ∧ segment.baseSn ≤ log.nextLogSequence := by
  have hbounded : log.Bounded := GuardedRun.invariant
    (fun _ _ hlog hguard => hlog.apply hguard.1 hguard.2) hcreated.bounded hrun
  exact hbounded.bases

/-- Five entries in segments of twenty bytes, which take four segments. A trim removes the last
one, the rest is committed, and retention removes the first one. -/
def rollingRun : List Operation :=
  [.appendLocal .ok 0 {}, .appendLocal .ok 0 {}, .append (fun _ => .ok) [{ sn := 3 }, { sn := 4 }],
    .append (fun _ => .ok) [{ sn := 5 }], .trim .ok 4, .advanceCommittedSequence 1 3,
    .deleteOldSegments .ok ⟨0, fun _ => none⟩ 3]

/-- A run with rolled segments, of which one is deleted. -/
theorem segments_within_log_rolling :
    let log := rollingRun.foldl apply (fresh { segmentSize := 20, minSizeToKeep := 0 })
    log.loglet.segments.toList.map (·.baseSn) = [2, 3] ∧ log.nextLogSequence = 4 ∧
      ∀ segment ∈ log.loglet.segments.toList,
        log.logStartSn ≤ segment.baseSn ∧ segment.baseSn ≤ log.nextLogSequence := by
  refine ⟨by decide +kernel, by decide +kernel,
    segments_within_log (created_fresh { segmentSize := 20, minSizeToKeep := 0 }) ?_⟩
  simp only [rollingRun, List.foldl_cons, List.foldl_nil]
  refine .head ⟨_, ?_, rfl⟩ <| .head ⟨_, ?_, rfl⟩ <| .head ⟨_, ?_, rfl⟩ <| .head ⟨_, ?_, rfl⟩ <|
    .head ⟨_, ?_, rfl⟩ <| .head ⟨_, ?_, rfl⟩ <| .head ⟨_, ?_, rfl⟩ .refl
  · exact ⟨by decide +kernel, trivial⟩
  · exact ⟨by decide +kernel, trivial⟩
  · exact ⟨by decide +kernel, trivial⟩
  · exact ⟨by decide +kernel, trivial⟩
  · exact ⟨trivial, .inl (by decide +kernel)⟩
  · exact ⟨trivial, trivial⟩
  · exact ⟨by decide +kernel, trivial⟩

end Log

end Proton
