import Proton.Lib.ByteReader

/-!
# Appending a Batch to a File

This module embeds `AppendOnlyFile::append` of a batch of buffers, from
`Cluster/LocalLog/Base/AppendOnlyFile.cpp`. The buffers are handed to `writev` as an array of
slices. When the system writes only a part of them or is interrupted, the slice the count falls
into is shortened in place and the call is repeated from there. On any other error the bytes
written so far are cut off again.

What the system does is given as a list of outcomes, one for each call of `writev`, and whether
`fstat` and `ftruncate` fail. A call that has not returned when the outcomes run out has no result;
nor has one whose outcomes are not possible.

## Main results

* `Sliced.handlePartialWrite`: the slices after a partial write hold what is left of the buffers.
* `append_exact`: what the file holds and what is reported when the call returns.
-/

open ByteReader List

namespace Proton.AppendOnlyFile

/-! ### The source's functions -/

/-- What a call of `writev` does: it writes a number of bytes, or it fails with an error number
that is not zero. -/
inductive WriteOutcome where
  | written (n : ℕ)
  | failed (errno : ℕ) (nonzero : errno ≠ 0)

/-- `EINTR`. -/
def eintr : ℕ :=
  4

/-- `CallResult`: bytes and an error number, which is zero for success. -/
structure CallResult where
  result : ℕ
  errorCode : ℕ
  deriving DecidableEq, Repr

/-- Whether the calls of a rollback fail. -/
structure Rollback where
  fstatFails : Bool
  ftruncateFails : Bool

/-- The local variables of `append` that its loop changes, and the file. A slice of a buffer is
the bytes it covers. -/
structure AppendState where
  file : Bytes
  iovec : List Bytes
  iovecStart : ℕ
  numVec : ℕ
  writtenBytes : ℕ

/-- The slices that the next `writev` is asked to write. -/
def AppendState.pending (s : AppendState) : List Bytes :=
  (s.iovec.drop s.iovecStart).take s.numVec

/-- The loop of `handle_partial_write` over the buffers from `index` on: the slices, the first one
that is left and their number. It has no result behind the last buffer. -/
def handlePartialWriteLoop (numBuffers writtenBytes : ℕ) (iovec : List Bytes) :
    List Bytes → ℕ → ℕ → Option (List Bytes × ℕ × ℕ)
  | [], _, _ => none
  | data :: buffers, index, accumulatedBytes =>
    if accumulatedBytes + data.length = writtenBytes then
      some (iovec, index + 1, numBuffers - (index + 1))
    else if accumulatedBytes + data.length > writtenBytes then
      let remaining := accumulatedBytes + data.length - writtenBytes
      some (iovec.set index (data.drop (data.length - remaining)), index, numBuffers - index)
    else
      handlePartialWriteLoop numBuffers writtenBytes iovec buffers (index + 1)
        (accumulatedBytes + data.length)

/-- `handle_partial_write`. -/
def handlePartialWrite (batchData : List Bytes) (s : AppendState) : Option AppendState :=
  (handlePartialWriteLoop batchData.length s.writtenBytes s.iovec batchData 0 0).map
    fun (iovec, iovecStart, numVec) =>
      { s with iovec := iovec, iovecStart := iovecStart, numVec := numVec }

/-- `rollbackTornTail`, with the file. -/
def rollbackTornTail (rollback : Rollback) (file : Bytes) (partialBytes errorCode : ℕ) :
    Bytes × CallResult :=
  if partialBytes = 0 then (file, ⟨0, errorCode⟩)
  else if rollback.fstatFails then (file, ⟨partialBytes, errorCode⟩)
  else if rollback.ftruncateFails then (file, ⟨partialBytes, errorCode⟩)
  else (file.take (file.length - partialBytes), ⟨0, errorCode⟩)

/-- The loop of `append`. -/
def appendLoop (rollback : Rollback) (batchData : List Bytes) (totalBytes : ℕ) :
    List WriteOutcome → AppendState → Option (Bytes × CallResult)
  | [], _ => none
  | .written n :: outcomes, s =>
    -- the system writes no more than it is asked to
    if s.pending.flatten.length < n then none
    else
      let s := { s with
        file := s.file ++ s.pending.flatten.take n
        writtenBytes := s.writtenBytes + n }
      if s.writtenBytes = totalBytes then some (s.file, ⟨s.writtenBytes, 0⟩)
      else
        match handlePartialWrite batchData s with
        | none => none
        | some s => appendLoop rollback batchData totalBytes outcomes s
  | .failed errno _ :: outcomes, s =>
    if errno ≠ eintr then some (rollbackTornTail rollback s.file s.writtenBytes errno)
    else
      match handlePartialWrite batchData s with
      | none => none
      | some s => appendLoop rollback batchData totalBytes outcomes s

/-- `append` of a batch: the file and the result when the call returns. -/
def append (rollback : Rollback) (file : Bytes) (batchData : List Bytes) (totalBytes : ℕ)
    (outcomes : List WriteOutcome) : Option (Bytes × CallResult) :=
  appendLoop rollback batchData totalBytes outcomes
    { file := file
      iovec := batchData
      iovecStart := 0
      numVec := batchData.length
      writtenBytes := 0 }

/-! ### The slices -/

/-- The bytes of the buffers in front of an index. -/
def bytesBefore (batchData : List Bytes) (index : ℕ) : ℕ :=
  (batchData.take index).flatten.length

/-- **The slices**: a buffer that no byte was written of has its slice, with all buffers behind it.
The condition gets weaker the more is written. -/
structure Sliced (batchData iovec : List Bytes) (writtenBytes : ℕ) : Prop where
  length_eq : iovec.length = batchData.length
  drop_eq : ∀ index, writtenBytes ≤ bytesBefore batchData index →
    iovec.drop index = batchData.drop index

section Slices

variable {batchData iovec : List Bytes} {writtenBytes : ℕ}

/-- The bytes before the second part of a batch. -/
theorem bytesBefore_append (before after : List Bytes) :
    bytesBefore (before ++ after) before.length = before.flatten.length := by
  rw [bytesBefore, take_left]

/-- More entries have more bytes. -/
theorem bytesBefore_mono (batchData : List Bytes) {i j : ℕ} (h : i ≤ j) :
    bytesBefore batchData i ≤ bytesBefore batchData j := by
  obtain ⟨rest, hrest⟩ := take_prefix_take_left (l := batchData) h
  rw [bytesBefore, bytesBefore, ← hrest, flatten_append, length_append]
  omega

/-- Where the loop of `handle_partial_write` stops: behind a buffer with whose end the written
bytes end, or at the buffer in which they end. -/
theorem handlePartialWriteLoop_cases {numBuffers : ℕ} {buffers : List Bytes}
    (before : List Bytes) (hnum : numBuffers = before.length + buffers.length)
    (hle : before.flatten.length ≤ writtenBytes) {res : List Bytes × ℕ × ℕ}
    (h : handlePartialWriteLoop numBuffers writtenBytes iovec buffers before.length
      before.flatten.length = some res) :
    ∃ front data behind, before ++ buffers = front ++ data :: behind ∧
      ((front.flatten.length + data.length = writtenBytes ∧
          res = (iovec, front.length + 1, behind.length)) ∨
        (front.flatten.length ≤ writtenBytes ∧
          writtenBytes < front.flatten.length + data.length ∧
          res = (iovec.set front.length (data.drop (writtenBytes - front.flatten.length)),
            front.length, behind.length + 1))) := by
  induction buffers generalizing before with
  | nil => cases h
  | cons data buffers ih =>
    rw [length_cons] at hnum
    rw [handlePartialWriteLoop] at h
    split at h
    next heq =>
      refine ⟨before, data, buffers, rfl, .inl ⟨heq, ?_⟩⟩
      rw [← Option.some.inj h, show numBuffers - (before.length + 1) = buffers.length by omega]
    · split at h
      next hgt =>
        refine ⟨before, data, buffers, rfl, .inr ⟨hle, hgt, ?_⟩⟩
        have hoffset : data.length - (before.flatten.length + data.length - writtenBytes) =
            writtenBytes - before.flatten.length := by omega
        rw [← Option.some.inj h, hoffset,
          show numBuffers - before.length = buffers.length + 1 by omega]
      · have hlength : (before ++ [data]).length = before.length + 1 := by simp
        have hbytes : (before ++ [data]).flatten.length =
            before.flatten.length + data.length := by simp
        have hnext := ih (before ++ [data]) (by omega) (by omega) (by rw [hlength, hbytes]; exact h)
        rwa [append_assoc, singleton_append] at hnext

/-- The slice of a buffer that is written in part is shortened. -/
theorem Sliced.set {front behind : List Bytes} {data : Bytes}
    (h : Sliced batchData iovec writtenBytes) (hbatch : batchData = front ++ data :: behind)
    (hle : front.flatten.length ≤ writtenBytes) :
    Sliced batchData (iovec.set front.length (data.drop (writtenBytes - front.flatten.length)))
      writtenBytes := by
  have hbefore : bytesBefore batchData front.length = front.flatten.length := by
    rw [hbatch, bytesBefore_append]
  refine ⟨by rw [length_set, h.length_eq], fun index hindex => ?_⟩
  rcases Nat.lt_or_ge front.length index with hlt | hge
  · rw [drop_set_of_lt hlt]
    exact h.drop_eq index hindex
  · -- nothing of the buffer is written, and its slice is the whole of it
    have hzero : writtenBytes = front.flatten.length := by
      have := bytesBefore_mono batchData hge
      omega
    have hdata : iovec[front.length]? = some data := by
      have hdrop := h.drop_eq front.length (by omega)
      have hhead := congrArg head? hdrop
      rw [head?_drop, hbatch] at hhead
      simpa using hhead
    have hset : iovec.set front.length data = iovec := by
      obtain ⟨hlt, heq⟩ := List.getElem?_eq_some_iff.1 hdata
      rw [← heq, set_getElem_self]
    rw [hzero, Nat.sub_self, drop_zero, hset]
    exact h.drop_eq index hindex

/-- **After a partial write** the slices that are left hold what is left of the buffers. -/
theorem Sliced.handlePartialWrite {s s' : AppendState}
    (h : Sliced batchData s.iovec s.writtenBytes)
    (hs' : AppendOnlyFile.handlePartialWrite batchData s = some s') :
    Sliced batchData s'.iovec s'.writtenBytes ∧ s'.file = s.file ∧
      s'.writtenBytes = s.writtenBytes ∧
      s'.pending.flatten = batchData.flatten.drop s.writtenBytes := by
  rw [AppendOnlyFile.handlePartialWrite, Option.map_eq_some_iff] at hs'
  obtain ⟨res, hres, rfl⟩ := hs'
  obtain ⟨front, data, behind, hbatch, hcases⟩ :=
    handlePartialWriteLoop_cases [] (by simp) (Nat.zero_le _) hres
  rw [nil_append] at hbatch
  have hbatch' : batchData = (front ++ [data]) ++ behind := by rw [hbatch]; simp
  have hlength : (front ++ [data]).length = front.length + 1 := by simp
  have hnext : bytesBefore batchData (front.length + 1) = front.flatten.length + data.length := by
    rw [← hlength, hbatch', bytesBefore_append]
    simp
  have hbehind : batchData.drop (front.length + 1) = behind := by
    rw [← hlength, hbatch', drop_left]
  have hflatten : batchData.flatten = front.flatten ++ (data ++ behind.flatten) := by
    rw [hbatch, flatten_append, flatten_cons]
  rcases hcases with ⟨heq, rfl⟩ | ⟨hle, hlt, rfl⟩
  · refine ⟨h, rfl, rfl, ?_⟩
    have hleft : s.iovec.drop (front.length + 1) = behind := by
      rw [h.drop_eq _ (by omega), hbehind]
    simp only [AppendState.pending]
    rw [hleft, take_length, hflatten, ← append_assoc, drop_left']
    rw [length_append]
    exact heq
  · refine ⟨h.set hbatch hle, rfl, rfl, ?_⟩
    have hleft : s.iovec.drop (front.length + 1) = behind := by
      rw [h.drop_eq _ (by omega), hbehind]
    have hlt' : front.length < s.iovec.length := by
      rw [h.length_eq, hbatch, length_append, length_cons]
      omega
    have hpending : (s.iovec.set front.length
        (data.drop (s.writtenBytes - front.flatten.length))).drop front.length =
          data.drop (s.writtenBytes - front.flatten.length) :: behind := by
      rw [drop_eq_getElem_cons (by rwa [length_set]), getElem_set_self,
        drop_set_of_lt (Nat.lt_succ_self _), hleft]
    simp only [AppendState.pending]
    rw [hpending, take_of_length_le (by simp), flatten_cons, hflatten,
      drop_append, drop_eq_nil_of_le hle, nil_append,
      drop_append_of_le_length (by omega)]

end Slices

/-! ### The loop -/

/-- **What an append may do.** On success the file has grown by the buffers. After an error it is
as before and nothing is reported, if the rollback succeeds; otherwise the bytes that are reported
are the ones it has grown by. -/
structure Appends (rollback : Rollback) (file : Bytes) (batchData : List Bytes) (file' : Bytes)
    (res : CallResult) : Prop where
  success : res.errorCode = 0 →
    file' = file ++ batchData.flatten ∧ res.result = batchData.flatten.length
  rolledBack : res.errorCode ≠ 0 → rollback.fstatFails = false →
    rollback.ftruncateFails = false → file' = file ∧ res.result = 0
  torn : res.errorCode ≠ 0 → rollback.fstatFails = true ∨ rollback.ftruncateFails = true →
    res.result ≤ batchData.flatten.length ∧ file' = file ++ batchData.flatten.take res.result

/-- **The state between two calls of `writev`**: the file has grown by the bytes that count as
written, and the slices hold the others. -/
structure Progress (file : Bytes) (batchData : List Bytes) (s : AppendState) : Prop where
  sliced : Sliced batchData s.iovec s.writtenBytes
  file_eq : s.file = file ++ batchData.flatten.take s.writtenBytes
  written_le : s.writtenBytes ≤ batchData.flatten.length
  pending_eq : s.pending.flatten = batchData.flatten.drop s.writtenBytes

section Loop

variable {rollback : Rollback} {file file' : Bytes} {batchData : List Bytes}
  {outcomes : List WriteOutcome} {res : CallResult} {s s' : AppendState}

/-- Slicing anew keeps the progress. -/
theorem Progress.handlePartialWrite (hsliced : Sliced batchData s.iovec s.writtenBytes)
    (hfile : s.file = file ++ batchData.flatten.take s.writtenBytes)
    (hle : s.writtenBytes ≤ batchData.flatten.length)
    (hs' : AppendOnlyFile.handlePartialWrite batchData s = some s') :
    Progress file batchData s' := by
  obtain ⟨hsliced', hfile', hwritten, hpending⟩ := hsliced.handlePartialWrite hs'
  refine ⟨hsliced', ?_, ?_, ?_⟩
  · rw [hfile', hwritten, hfile]
  · rw [hwritten]
    exact hle
  · rw [hwritten]
    exact hpending

variable (h : Progress file batchData s)
include h

/-- **The rollback** after an error. -/
theorem Progress.rollbackTornTail {errno : ℕ} (hne : errno ≠ 0)
    (hres : AppendOnlyFile.rollbackTornTail rollback s.file s.writtenBytes errno = (file', res)) :
    Appends rollback file batchData file' res := by
  have hle := h.written_le
  have hfile := h.file_eq
  rw [AppendOnlyFile.rollbackTornTail] at hres
  split_ifs at hres with hzero hfstat hftruncate
  · obtain ⟨rfl, rfl⟩ := Prod.mk.inj hres
    rw [hzero, take_zero, append_nil] at hfile
    refine ⟨fun hcode => absurd hcode hne, fun _ _ _ => ⟨hfile, rfl⟩, fun _ _ => ?_⟩
    exact ⟨Nat.zero_le _, by rw [hfile, take_zero, append_nil]⟩
  · obtain ⟨rfl, rfl⟩ := Prod.mk.inj hres
    refine ⟨fun hcode => absurd hcode hne, fun _ hno => ?_, fun _ _ => ⟨hle, hfile⟩⟩
    rw [hno] at hfstat
    cases hfstat
  · obtain ⟨rfl, rfl⟩ := Prod.mk.inj hres
    refine ⟨fun hcode => absurd hcode hne, fun _ _ hno => ?_, fun _ _ => ⟨hle, hfile⟩⟩
    rw [hno] at hftruncate
    cases hftruncate
  · obtain ⟨rfl, rfl⟩ := Prod.mk.inj hres
    refine ⟨fun hcode => absurd hcode hne, fun _ _ _ => ⟨?_, rfl⟩, fun _ hfails => ?_⟩
    · have hlength : s.file.length - s.writtenBytes = file.length := by
        rw [hfile, length_append, length_take]
        omega
      rw [hlength, hfile, take_left]
    · exact absurd hfails (not_or.2 ⟨hfstat, hftruncate⟩)

/-- **The loop.** The induction is on the outcomes: each call leaves progress, or it is the last
one. -/
theorem Progress.appendLoop
    (hres : AppendOnlyFile.appendLoop rollback batchData batchData.flatten.length outcomes s =
      some (file', res)) : Appends rollback file batchData file' res := by
  induction outcomes generalizing s with
  | nil => cases hres
  | cons outcome outcomes ih =>
    cases outcome with
    | written n =>
      rw [AppendOnlyFile.appendLoop] at hres
      split at hres
      · cases hres
      next hn =>
        have hlength : s.pending.flatten.length =
            batchData.flatten.length - s.writtenBytes := by
          rw [h.pending_eq, length_drop]
        have hle := h.written_le
        have hfile : s.file ++ s.pending.flatten.take n =
            file ++ batchData.flatten.take (s.writtenBytes + n) := by
          rw [h.file_eq, h.pending_eq, append_assoc, take_add]
        simp only at hres
        split at hres
        next hall =>
          obtain ⟨rfl, rfl⟩ := Prod.mk.inj (Option.some.inj hres)
          refine ⟨fun _ => ⟨?_, hall⟩, fun hcode => absurd rfl hcode, fun hcode => absurd rfl hcode⟩
          rw [hfile, hall, take_length]
        · split at hres
          · cases hres
          next s' hs' =>
            refine ih (Progress.handlePartialWrite ?_ ?_ ?_ hs') hres
            · exact ⟨h.sliced.length_eq, fun index hindex =>
                h.sliced.drop_eq index ((Nat.le_add_right _ n).trans hindex)⟩
            · exact hfile
            · simp only
              omega
    | failed errno hne =>
      rw [AppendOnlyFile.appendLoop] at hres
      split at hres
      · exact h.rollbackTornTail hne (Option.some.inj hres)
      · split at hres
        · cases hres
        next s' hs' =>
          exact ih (Progress.handlePartialWrite h.sliced h.file_eq h.written_le hs') hres

end Loop

/-- **Appending a batch** of buffers with their total length, over every sequence of outcomes of
`writev`: when the call returns, the file and the result are as `Appends` says. -/
theorem append_exact {rollback : Rollback} {file file' : Bytes} {batchData : List Bytes}
    {outcomes : List WriteOutcome} {res : CallResult}
    (hres : append rollback file batchData batchData.flatten.length outcomes = some (file', res)) :
    Appends rollback file batchData file' res := by
  have hstart : Progress file batchData ⟨file, batchData, 0, batchData.length, 0⟩ := by
    refine ⟨⟨rfl, fun _ _ => rfl⟩, ?_, Nat.zero_le _, ?_⟩
    · rw [take_zero, append_nil]
    · rw [AppendState.pending, drop_zero, take_length, drop_zero]
  exact hstart.appendLoop hres

/-- Two buffers around an empty one: two bytes, an interrupt, one byte, and an error. With a
rollback that fails the three bytes stay and are reported. -/
theorem append_exact_torn :
    append ⟨false, true⟩ [0] [[1], [], [2, 3, 4]] 4
        [.written 2, .failed 4 (by decide), .written 1, .failed 28 (by decide)] =
      some ([0, 1, 2, 3], ⟨3, 28⟩) ∧
    Appends ⟨false, true⟩ [0] [[1], [], [2, 3, 4]] [0, 1, 2, 3] ⟨3, 28⟩ :=
  have hres : append ⟨false, true⟩ [0] [[1], [], [2, 3, 4]] 4
      [.written 2, .failed 4 (by decide), .written 1, .failed 28 (by decide)] =
        some ([0, 1, 2, 3], ⟨3, 28⟩) := rfl
  ⟨hres, append_exact hres⟩

end Proton.AppendOnlyFile
