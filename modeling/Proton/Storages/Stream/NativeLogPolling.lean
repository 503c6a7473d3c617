import Proton.Storages.Stream.StreamCallbackData
import Proton.Storages.Stream.StreamingBlockReader

/-!
# Polling the Log

This module embeds the loop of `StreamShardStore::backgroundPollNativeLog`. Records are read into a
batch, which is handed to `StreamCallbackData::commit` when it is big or old enough. When reading
fails, the reader is set back to the last sequence number that was committed in memory; the batch
stays as it is.

Commits are inline, and succeed: after each call, the sequence number of it is progressed. Left out
are the periodic commit of the sequence number, and what is done when the store is stopped.

## Main results

* `polls_hand_once`: each record is handed to the store once and in order, if reading never fails
  while there are records that were read and not committed.
* `polls_hand_twice`: otherwise, a record is handed twice.
-/

open List

namespace Proton.NativeLogPolling

open StreamShardStore StreamCallbackData StreamingBlockReader SequenceProgress

variable {Row : Type}

/-- The store, as far as polling goes. -/
structure ShardStore (Row : Type) where
  /-- The sequence numbers. -/
  progress : SequenceProgress
  /-- `idempotent_keys`. -/
  idempotentKeys : InMemoryIdempotentKeys
  /-- All records that were handed to `StreamShardStore::commit`. -/
  handed : List (SchemaRecord Row) := []

/-- The range of sequence numbers of a call. -/
def callRange : StoreCall Row → SequencePair
  | .doCommit call => call.seq
  | .command _ sn => .mk sn sn

/-- A call is carried out: an inline commit is outstanding until it is finished. -/
def applyCall (s : SequenceProgress) : StoreCall Row → SequenceProgress
  | .doCommit call => (s.step (.schedule call.seq)).step (.finish call.seq)
  | .command _ sn => s.step (.commitEmpty (.mk sn sn))

/-- `StreamCallbackData::doCommit`. There is no store any more if the commit fails. -/
def doCommit (settings : CommitSettings Row) (s : Option (ShardStore Row)) (bucket : Bucket Row) :
    Option (ShardStore Row) :=
  s.bind fun s =>
    match commit settings s.idempotentKeys bucket.1 bucket.2 with
    | .error _ => none
    | .ok (calls, idempotentKeys) =>
      some ⟨calls.foldl applyCall s.progress, idempotentKeys, s.handed ++ bucket.1⟩

/-- The settings of the stream. -/
structure PollSettings (Row : Type) where
  /-- What `StreamShardStore::commit` uses. -/
  commit : CommitSettings Row
  /-- `flush_threshold_count`. -/
  rowsThreshold : ℕ
  /-- `flush_threshold_bytes`. -/
  bytesThreshold : ℕ
  /-- `flush_threshold_ms`. -/
  intervalThreshold : ℤ
  /-- `approximateSerializedSize`. -/
  approximateSerializedSize : SchemaRecord Row → ℕ
  /-- `maxCommittedSN`. -/
  maxCommittedSN : ℤ

/-- The local variables of `backgroundPollNativeLog`, and the store. -/
structure PollState (Row : Type) where
  /-- `block_reader`. -/
  blockReader : Reader Row
  /-- `batch`. -/
  batch : List (SchemaRecord Row) := []
  /-- `current_bytes_in_batch`. -/
  currentBytesInBatch : ℕ := 0
  /-- `current_rows_in_batch`. -/
  currentRowsInBatch : ℕ := 0
  /-- `last_batch_commit`. -/
  lastBatchCommit : ℤ
  /-- `stream_commit`, and the store. -/
  streamCommit : CallbackState Row (Option (ShardStore Row))

/-- What a turn of the loop meets. -/
inductive Outcome (Row : Type) where
  /-- `read`, and the clock before and after a commit. -/
  | read (a : Answer Row) (now later : ℤ)
  /-- Reading fails. -/
  | failure

/-- The settings of the reader. -/
def readerConfig : ReaderConfig where
  allowFallbackToHistoricalStore := false
  throwIfSequenceHasHole := true
  emitControlBlock := true

/-- `resetBlockReaderToInMemoryCommittedSN`. -/
def resetBlockReader (s : PollState Row) : PollState Row :=
  match s.streamCommit.store with
  | none => s
  | some store =>
    { s with blockReader := s.blockReader.startFetch (store.progress.inMemoryCommittedSN + 1) }

/-- Records are added to the batch. -/
def addRecords (settings : PollSettings Row) (s : PollState Row)
    (records : List (SchemaRecord Row)) :
    PollState Row :=
  records.foldl
    (fun s record => { s with
      currentBytesInBatch := s.currentBytesInBatch + settings.approximateSerializedSize record
      currentRowsInBatch := s.currentRowsInBatch + record.block.rows.length
      batch := s.batch ++ [record] }) s

/-- The batch is committed. -/
def commitBatch (settings : PollSettings Row) (s : PollState Row) (later : ℤ) : PollState Row where
  blockReader := s.blockReader
  lastBatchCommit := later
  streamCommit :=
    commit (doCommit settings.commit) settings.maxCommittedSN
      s.streamCommit s.batch

/-- The batch is committed if a threshold is reached. -/
def flush (settings : PollSettings Row) (s : PollState Row) (now later : ℤ) : PollState Row :=
  if settings.bytesThreshold ≤ s.currentBytesInBatch ∨
      settings.rowsThreshold ≤ s.currentRowsInBatch ∨
      settings.intervalThreshold ≤ now - s.lastBatchCommit then
    if s.batch.isEmpty then s else commitBatch settings s later
  else s

/-- A turn of the loop. -/
def poll (settings : PollSettings Row) (log : List (DataEntry Row)) (s : PollState Row) :
    Outcome Row → PollState Row
  | .failure => resetBlockReader s
  | .read a now later =>
    match read readerConfig log s.blockReader a with
    | none => resetBlockReader s
    | some (records, blockReader) =>
      flush settings (addRecords settings { s with blockReader := blockReader } records)
        now later

/-- The begin of the loop, with a committed sequence number and missing sequence ranges. -/
def begin (committedSN : ℤ) (missing : List SequenceRange) (keys : InMemoryIdempotentKeys)
    (now : ℤ) :
    PollState Row where
  blockReader := Reader.startFetch ⟨-1, none⟩ (committedSN + 1)
  lastBatchCommit := now
  streamCommit := ⟨missing, [], some ⟨⟨committedSN, committedSN, .empty, []⟩, keys, []⟩⟩

/-- Turns of the loop from a begin on. -/
inductive Polls (settings : PollSettings Row) (log : List (DataEntry Row))
    (p : PollState Row → Outcome Row → Prop) (s₀ : PollState Row) : PollState Row → Prop
  /-- The loop begins. -/
  | start : Polls settings log p s₀ s₀
  /-- A turn. -/
  | poll {s : PollState Row} {o : Outcome Row} (run : Polls settings log p s₀ s) (outcome : p s o) :
      Polls settings log p s₀ (poll settings log s o)

/-! ### The sequence numbers of a commit -/

/-- The last sequence number of a call is between two bounds. -/
def Within (a b : ℤ) (call : StoreCall Row) : Prop :=
  a ≤ (callRange call).second ∧ (callRange call).second ≤ b

/-- The sequence numbers in `commit` are between two bounds. -/
structure Bounded (a b : ℤ) (s : CommitState Row) : Prop where
  /-- The end of a block is. -/
  endSN : s.block.isSome → a ≤ s.endSN ∧ s.endSN ≤ b
  /-- What was called is. -/
  calls : ∀ call ∈ s.calls, Within a b call

section Bounds

variable {a b : ℤ} {s : CommitState Row} {rec : SchemaRecord Row}

section

variable (h : Bounded a b s)
include h

/-- A commit keeps the sequence numbers within the bounds. -/
theorem Bounded.doCommit (block : Block Row) {sn : ℤ} (hsn : a ≤ sn ∧ sn ≤ b) :
    Bounded a b (s.doCommit block sn) where
  endSN := h.endSN
  calls call hcall := by
    rcases mem_append.1 hcall with hcall | hcall
    · exact h.calls call hcall
    · rw [mem_singleton.1 hcall]
      exact hsn

variable (hrec : a ≤ rec.sn ∧ rec.sn ≤ b)
include hrec

/-- Inserting rows keeps the bounds. -/
theorem Bounded.insertData : Bounded a b (s.insertData rec) := by
  rw [CommitState.insertData]
  split
  · exact ⟨fun _ => hrec, h.calls⟩
  · rename_i block hblock
    have hcommit := h.doCommit block (h.endSN (hblock ▸ rfl))
    split_ifs
    · exact ⟨fun _ => hrec, hcommit.calls⟩
    · exact ⟨fun _ => hrec, h.calls⟩
    · exact ⟨fun _ => hrec, hcommit.calls⟩

/-- Committing a block with dynamic subcolumns keeps the bounds. -/
theorem Bounded.commitDynamic
    (settings : CommitSettings Row) : Bounded a b (s.commitDynamic settings rec) := by
  rw [CommitState.commitDynamic]
  split
  · exact h
  · rename_i block _
    have hcommit := h.doCommit block hrec
    split_ifs
    · exact ⟨fun hnone => absurd hnone (by simp), hcommit.calls⟩
    · exact h

omit hrec in
/-- Committing before a command keeps the bounds. -/
theorem Bounded.commitBefore : Bounded a b s.commitBefore := by
  rw [CommitState.commitBefore]
  split
  · rename_i hblock
    exact ⟨fun hsome => absurd hsome (by simp [hblock]), h.calls⟩
  · rename_i block hblock
    exact ⟨fun hnone => absurd hnone (by simp), (h.doCommit block (h.endSN (hblock ▸ rfl))).calls⟩

variable {s' : CommitState Row}

/-- A command keeps the bounds. -/
theorem Bounded.controlCommand (heq : s.controlCommand rec = .ok s') : Bounded a b s' := by
  rw [CommitState.controlCommand] at heq
  split at heq
  · cases heq
  · obtain rfl := Except.ok.inj heq
    refine ⟨fun _ => hrec, fun call hcall => ?_⟩
    rcases mem_append.1 hcall with hcall | hcall
    · exact h.commitBefore.calls call hcall
    · rw [mem_singleton.1 hcall]
      exact hrec

variable {settings : CommitSettings Row}

/-- Accepting a record keeps the bounds. -/
theorem Bounded.accept (heq : s.accept settings rec = .ok s') : Bounded a b s' := by
  rw [CommitState.accept] at heq
  split at heq
  · obtain rfl := Except.ok.inj heq
    exact (h.insertData hrec).commitDynamic hrec settings
  · exact h.controlCommand hrec heq

/-- A record keeps the bounds. -/
theorem Bounded.commitRecord (heq : s.commitRecord settings rec = .ok s') : Bounded a b s' := by
  rw [CommitState.commitRecord] at heq
  split_ifs at heq
  · split at heq
    · obtain rfl := Except.ok.inj heq
      exact h
    · split at heq
      · cases heq
      · exact Bounded.accept (by exact ⟨h.endSN, h.calls⟩) hrec heq
  · exact h.accept hrec heq

end

/-- **The calls of a commit** end between two bounds, if the records are between them. -/
theorem within_of_commit {keys keys' : InMemoryIdempotentKeys} {records : List (SchemaRecord Row)}
    {missing : List SequenceRange} {calls : List (StoreCall Row)}
    (hrecords : ∀ r ∈ records, a ≤ r.sn ∧ r.sn ≤ b)
    (heq : StreamShardStore.commit settings keys records missing = .ok (calls, keys')) :
    ∀ call ∈ calls, Within a b call := by
  have hfold : ∀ {s s' : CommitState Row}, Bounded a b s →
      records.foldlM (CommitState.commitRecord settings) s = .ok s' → Bounded a b s' := by
    clear heq
    induction records with
    | nil =>
      intro s s' h heq
      obtain rfl := Except.ok.inj heq
      exact h
    | cons r records ih =>
      intro s s' h heq
      obtain ⟨hr, hrecords⟩ := forall_mem_cons.1 hrecords
      rw [foldlM_cons] at heq
      cases hstep : s.commitRecord settings r with
      | error e => rw [hstep] at heq; cases heq
      | ok s₁ =>
        rw [hstep] at heq
        exact ih hrecords (h.commitRecord hr hstep) heq
  rw [StreamShardStore.commit] at heq
  cases hloop : records.foldlM (CommitState.commitRecord settings)
      { missing := missing, idempotentKeys := keys } with
  | error e => rw [hloop] at heq; cases heq
  | ok s =>
    have hs := hfold ⟨fun hnone => absurd hnone (by simp), by simp⟩ hloop
    rw [hloop] at heq
    cases hlast : records.getLast? with
    | none =>
      simp only [hlast] at heq
      obtain ⟨rfl, -⟩ := Prod.mk.inj (Except.ok.inj heq)
      simp
    | some last =>
      simp only [hlast] at heq
      obtain ⟨rfl, -⟩ := Prod.mk.inj (Except.ok.inj heq)
      rw [CommitState.finish]
      split
      · exact hs.calls
      · exact (hs.doCommit _ (hrecords last (mem_of_getLast? hlast))).calls

end Bounds

/-! ### The sequence number in memory -/

/-- No range is outstanding, and the sequence number in memory is between two bounds. -/
structure Settled (a b : ℤ) (s : SequenceProgress) : Prop where
  /-- Nothing is outstanding. -/
  outstanding : s.outstandingSNs = []
  /-- The sequence number in memory. -/
  inMemory : a ≤ s.inMemoryCommittedSN ∧ s.inMemoryCommittedSN ≤ b

section Settled

variable {a b : ℤ} {s : SequenceProgress}

/-- One call of the store keeps what is settled. -/
theorem Settled.applyCall (h : Settled a b s) {call : StoreCall Row} (hcall : Within a b call) :
    Settled a b (NativeLogPolling.applyCall s call) := by
  have hstep : NativeLogPolling.applyCall s call =
      (s.pushOutstanding (callRange call)).progressSequences (callRange call) := by
    cases call with
    | doCommit call => rfl
    | command opCode sn => rfl
  rw [hstep, pushOutstanding, h.outstanding, progressSequences]
  simp only [nil_append, ne_eq]
  exact ⟨rfl, hcall⟩

/-- All calls keep what is settled. -/
theorem Settled.foldl (h : Settled a b s) {calls : List (StoreCall Row)}
    (hcalls : ∀ call ∈ calls, Within a b call) :
    Settled a b (calls.foldl NativeLogPolling.applyCall s) := by
  induction calls generalizing s with
  | nil => exact h
  | cons call calls ih =>
    obtain ⟨hcall, hcalls⟩ := forall_mem_cons.1 hcalls
    exact ih (h.applyCall hcall) hcalls

/-- What is settled stays so for later records. -/
theorem Settled.mono (h : Settled a b s) {b' : ℤ} (hb : b ≤ b') : Settled a b' s :=
  ⟨h.outstanding, h.inMemory.1, le_trans h.inMemory.2 hb⟩

end Settled

/-! ### The loop -/

/-- The records after a sequence number and up to another one. -/
def recordsBetween (log : List (DataEntry Row)) (a b : ℤ) : List (SchemaRecord Row) :=
  (deserializeRecords true log).filter fun r => decide (a < r.sn ∧ r.sn ≤ b)

/-- Records are deserialized one by one. -/
theorem deserializeRecords_filter (emit : Bool) (log : List (DataEntry Row)) (p : ℤ → Bool) :
    deserializeRecords emit (log.filter fun e => p e.sn) =
      (deserializeRecords emit log).filter fun r => p r.sn := by
  rw [deserializeRecords, deserializeRecords, filterMap_filter, filter_filterMap]
  refine filterMap_congr fun e _ => ?_
  cases hrec : deserializeRecord emit e with
  | none => simp
  | some r =>
    have hsn := sn_of_deserializeRecord hrec
    simp [Option.filter, hsn]

section Loop

variable {log : List (DataEntry Row)}

/-- The records of a log are in order. -/
theorem pairwise_deserializeRecords (hlog : WellFormed log) (emit : Bool) :
    (deserializeRecords emit log).Pairwise fun r r' => r.sn < r'.sn := by
  have h := pairwise_chunksOf emit hlog.lt
  rw [chunksOf, pairwise_map] at h
  exact h

/-- The records between two positions, by way of a third. -/
theorem recordsBetween_append (hlog : WellFormed log) {a b c : ℤ} (hab : a ≤ b) (hbc : b ≤ c) :
    recordsBetween log a b ++ recordsBetween log b c = recordsBetween log a c := by
  have hsplit := Buckets.split_filter (p := fun r => decide (r.sn ≤ b))
    (l := recordsBetween log a c)
    (((pairwise_deserializeRecords hlog true).filter _).imp fun {r r'} hlt => by
      simp only [decide_eq_true_eq]
      omega)
  rw [hsplit]
  simp only [recordsBetween, filter_filter]
  congr 1
  all_goals
    refine filter_congr fun r _ => ?_
    rw [Bool.eq_iff_iff]
    simp only [Bool.and_eq_true, Bool.not_eq_true', decide_eq_true_eq, decide_eq_false_iff_not]
    omega

/-- The records that were handed to the store and those of the batch are those of the log from the
begin up to the position of the reader. -/
structure Sound (log : List (DataEntry Row)) (c : ℤ) (s : PollState Row) : Prop where
  /-- The reader is at the log. -/
  historical : s.blockReader.historical = none
  /-- Recovery is finished. -/
  missing : s.streamCommit.missing = []
  /-- The position only advances. -/
  le : c ≤ s.blockReader.fetchedSn
  /-- The records. -/
  records : ∀ store ∈ s.streamCommit.store,
    store.handed ++ s.batch = recordsBetween log c s.blockReader.fetchedSn
  /-- The sequence number in memory. -/
  settled : ∀ store ∈ s.streamCommit.store, Settled c s.blockReader.fetchedSn store.progress

/-- There is no record that was read, and that is beyond the sequence number in memory. -/
def NoneWaiting (log : List (DataEntry Row)) (s : PollState Row) : Prop :=
  ∀ store ∈ s.streamCommit.store,
    recordsBetween log store.progress.inMemoryCommittedSN s.blockReader.fetchedSn = []

/-- A turn in which reading fails: by an exception, or since the log does not have what is read. -/
def Fails (s : PollState Row) : Outcome Row → Prop
  | .failure => True
  | .read a _ _ => (1 ≤ s.blockReader.fetchedSn + 1 ∧ s.blockReader.fetchedSn + 1 < a.logStartSn) ∨
      max (s.blockReader.fetchedSn + 1) 1 < a.firstSn

variable {c : ℤ} {s : PollState Row}

/-- A reset while no record is waiting. -/
theorem Sound.resetBlockReader (hlog : WellFormed log) (hc : -1 ≤ c) (h : Sound log c s)
    (hnone : NoneWaiting log s) : Sound log c (resetBlockReader s) := by
  rw [NativeLogPolling.resetBlockReader]
  split
  · exact h
  · rename_i store hstore
    obtain ⟨hle, hge⟩ := (h.settled store hstore).inMemory
    have hposition := fetchedSn_startFetch s.blockReader (le_trans hc hle)
    have hsame : recordsBetween log c store.progress.inMemoryCommittedSN =
        recordsBetween log c s.blockReader.fetchedSn := by
      rw [← recordsBetween_append hlog hle hge, hnone store hstore, append_nil]
    have hget : ∀ store' ∈ s.streamCommit.store, store' = store := fun store' hstore' =>
      Option.some.inj (hstore'.symm.trans hstore)
    refine ⟨h.historical, h.missing, ?_, fun store' hstore' => ?_, fun store' hstore' => ?_⟩
    · rw [hposition]
      exact hle
    · rw [hposition, hget store' hstore', hsame]
      exact h.records store hstore
    · rw [hposition, hget store' hstore']
      exact ⟨(h.settled store hstore).outstanding, hle, le_rfl⟩

/-- Records go to the end of the batch. -/
theorem addRecords_eq (settings : PollSettings Row) (s : PollState Row)
    (records : List (SchemaRecord Row)) : ∃ bytes rows, addRecords settings s records =
      { s with
        batch := s.batch ++ records, currentBytesInBatch := bytes,
        currentRowsInBatch := rows } := by
  induction records generalizing s with
  | nil => exact ⟨s.currentBytesInBatch, s.currentRowsInBatch, by simp [addRecords]⟩
  | cons r records ih =>
    obtain ⟨bytes, rows, heq⟩ := ih { s with
      currentBytesInBatch := s.currentBytesInBatch + settings.approximateSerializedSize r
      currentRowsInBatch := s.currentRowsInBatch + r.block.rows.length
      batch := s.batch ++ [r] }
    refine ⟨bytes, rows, heq.trans ?_⟩
    simp

/-- The batch is handed to the store. -/
theorem Sound.commitBatch (h : Sound log c s) (settings : PollSettings Row) (later : ℤ) :
    Sound log c (commitBatch settings s later) := by
  have hcommit : (NativeLogPolling.commitBatch settings s later).streamCommit =
      { s.streamCommit with
        store := doCommit settings.commit s.streamCommit.store (s.batch, []) } := by
    rw [NativeLogPolling.commitBatch, StreamCallbackData.commit, if_pos (by simp [h.missing])]
  have hstore : ∀ store' ∈ (NativeLogPolling.commitBatch settings s later).streamCommit.store,
      ∃ store ∈ s.streamCommit.store, ∃ calls keys,
        commit settings.commit store.idempotentKeys s.batch [] =
          .ok (calls, keys) ∧
        store' = ⟨calls.foldl applyCall store.progress, keys, store.handed ++ s.batch⟩ := by
    intro store' hstore'
    rw [hcommit] at hstore'
    obtain ⟨store, hmem, heq⟩ := Option.bind_eq_some_iff.1 hstore'
    split at heq
    · cases heq
    · rename_i calls keys hok
      exact ⟨store, hmem, calls, keys, hok, (Option.some.inj heq).symm⟩
  refine ⟨h.historical, by rw [hcommit]; exact h.missing, h.le, fun store' hstore' => ?_,
    fun store' hstore' => ?_⟩
  · obtain ⟨store, hmem, calls, keys, -, rfl⟩ := hstore store' hstore'
    exact (append_nil _).trans (h.records store hmem)
  · obtain ⟨store, hmem, calls, keys, hok, rfl⟩ := hstore store' hstore'
    refine (h.settled store hmem).foldl (within_of_commit (fun r hr => ?_) hok)
    have hr' : r ∈ recordsBetween log c s.blockReader.fetchedSn :=
      h.records store hmem ▸ mem_append_right _ hr
    have hsn := of_decide_eq_true (mem_filter.1 hr').2
    exact ⟨le_of_lt hsn.1, hsn.2⟩

/-- A flush hands over what is in the batch. -/
theorem Sound.flush (h : Sound log c s) (settings : PollSettings Row) (now later : ℤ) :
    Sound log c (flush settings s now later) := by
  rw [NativeLogPolling.flush]
  split_ifs
  · exact h
  · exact h.commitBatch settings later
  · exact h

/-- **A turn of the loop.** -/
theorem Sound.poll (hlog : WellFormed log) (hc : -1 ≤ c) (h : Sound log c s)
    (settings : PollSettings Row) {o : Outcome Row} (ho : Fails s o → NoneWaiting log s) :
    Sound log c (poll settings log s o) := by
  cases o with
  | failure => exact h.resetBlockReader hlog hc (ho trivial)
  | read a now later =>
    rw [NativeLogPolling.poll, StreamingBlockReader.read, h.historical]
    by_cases hstart : 1 ≤ s.blockReader.fetchedSn + 1 ∧ s.blockReader.fetchedSn + 1 < a.logStartSn
    · simp only [hstart, if_true, readerConfig, Bool.false_eq_true, if_false]
      exact h.resetBlockReader hlog hc (ho (.inl hstart))
    by_cases hfirst : max (s.blockReader.fetchedSn + 1) 1 < a.firstSn
    · simp only [hstart, hfirst, if_true, if_false]
      exact h.resetBlockReader hlog hc (ho (.inr hfirst))
    · simp only [hstart, hfirst, if_false, readerConfig, fetch_max_zero hlog]
      set entries := fetch log s.blockReader.fetchedSn a.entries with hentries
      obtain ⟨bytes, rows, heq⟩ := addRecords_eq settings
        { s with blockReader := ⟨positionAfter s.blockReader.fetchedSn entries, none⟩ }
        (deserializeRecords true entries)
      have hge : s.blockReader.fetchedSn ≤ positionAfter s.blockReader.fetchedSn entries :=
        positionAfter_ge _ _
      have hrecords : deserializeRecords true entries = recordsBetween log s.blockReader.fetchedSn
          (positionAfter s.blockReader.fetchedSn entries) := by
        conv_lhs => rw [hentries, fetch_eq_filter hlog]
        exact deserializeRecords_filter true log fun sn =>
          decide (s.blockReader.fetchedSn < sn ∧
            sn ≤ positionAfter s.blockReader.fetchedSn entries)
      rw [positionAfter] at heq
      rw [heq]
      have hread : Sound log c { s with
          blockReader := ⟨positionAfter s.blockReader.fetchedSn entries, none⟩
          batch := s.batch ++ deserializeRecords true entries
          currentBytesInBatch := bytes
          currentRowsInBatch := rows } := by
        refine ⟨rfl, h.missing, le_trans h.le hge, fun store hstore => ?_,
          fun store hstore => (h.settled store hstore).mono hge⟩
        have hold := h.records store hstore
        simp only
        rw [← append_assoc, hold, hrecords]
        exact recordsBetween_append hlog h.le hge
      exact hread.flush settings now later

/-- The begin of the loop. -/
theorem Sound.of_begin (log : List (DataEntry Row)) (hc : -1 ≤ c) (keys : InMemoryIdempotentKeys)
    (now : ℤ) : Sound log c (begin c [] keys now) := by
  have hposition : (begin c [] keys now : PollState Row).blockReader.fetchedSn = c :=
    fetchedSn_startFetch _ hc
  refine ⟨rfl, rfl, le_of_eq hposition.symm, fun store hstore => ?_, fun store hstore => ?_⟩
  · obtain rfl := Option.some.inj hstore
    rw [recordsBetween, filter_eq_nil_iff.2]
    · rfl
    · simp only [decide_eq_true_eq]
      omega
  · obtain rfl := Option.some.inj hstore
    rw [hposition]
    exact ⟨rfl, le_rfl, le_rfl⟩

/-- **Every run is sound**, by induction on the polls. -/
theorem Polls.sound (hlog : WellFormed log) {settings : PollSettings Row} (hc : -1 ≤ c)
    {keys : InMemoryIdempotentKeys} {now : ℤ}
    (h : Polls settings log (fun s o => Fails s o → NoneWaiting log s) (begin c [] keys now) s) :
    Sound log c s := by
  induction h with
  | start => exact Sound.of_begin log hc keys now
  | poll run outcome ih => exact ih.poll hlog hc settings outcome

end Loop

/-- **Each record is handed to the store once.** Without missing sequence ranges, and if reading
never fails while there are records that were read and that are beyond the sequence number in
memory, the records that were handed to the store, followed by those of the batch, are those of the
log after the committed sequence number and up to the position of the reader, in order. -/
theorem polls_hand_once {log : List (DataEntry Row)} (hlog : WellFormed log)
    (settings : PollSettings Row)
    {c : ℤ} (hc : -1 ≤ c) {keys : InMemoryIdempotentKeys} {now : ℤ} {s : PollState Row}
    (h : Polls settings log (fun s o => Fails s o → NoneWaiting log s) (begin c [] keys now) s)
    {store : ShardStore Row} (hstore : s.streamCommit.store = some store) :
    store.handed ++ s.batch = (deserializeRecords true log).filter
        (fun r => decide (c < r.sn ∧ r.sn ≤ s.blockReader.fetchedSn)) ∧
      (store.handed ++ s.batch).Pairwise fun r r' => r.sn < r'.sn := by
  have hrecords := (h.sound hlog hc).records store hstore
  refine ⟨hrecords, ?_⟩
  rw [hrecords]
  exact (pairwise_deserializeRecords hlog true).filter _

/-- A log of one record. -/
def oneRecord : List (DataEntry ℕ) := [⟨1, some { sn := 1, block := ⟨[10], false⟩ }⟩]

/-- The log is well-formed. -/
theorem wellFormed_oneRecord : WellFormed oneRecord := ⟨by simp [oneRecord], by simp [oneRecord]⟩

/-- A batch is committed when it has some rows. -/
def rowSettings (rowsThreshold : ℕ) : PollSettings ℕ where
  commit := ⟨100, 100, length⟩
  rowsThreshold := rowsThreshold
  bytesThreshold := 1000
  intervalThreshold := 1000
  approximateSerializedSize _ := 1
  maxCommittedSN := -1

/-- A fetch of one entry. -/
def fetchOne : Outcome ℕ := .read ⟨1, 1, 1, 1, [], false, fun _ => false, fun _ _ => []⟩ 0 0

/-- The first record of a new stream is handed to the store, and then reading fails. -/
theorem polls_hand_once_failure : ∃ (s : PollState ℕ) (store : ShardStore ℕ),
    store.handed.map (·.sn) = [1] ∧ store.handed ++ s.batch =
    (deserializeRecords true oneRecord).filter
      (fun r => decide (-1 < r.sn ∧ r.sn ≤ s.blockReader.fetchedSn)) := by
  have first : Polls (rowSettings 1) oneRecord (fun s o => Fails s o → NoneWaiting oneRecord s)
    (begin (-1) [] ⟨10, []⟩ 0) (begin (-1) [] ⟨10, []⟩ 0) := Polls.start
  have second := first.poll (o := fetchOne) fun h =>
    h.elim (fun h => absurd h.1 (by decide)) (fun h => absurd h (by decide))
  have third := second.poll (o := .failure) fun _ store hstore => by
    obtain rfl := Option.some.inj hstore
    rfl
  exact ⟨_, _, rfl, (polls_hand_once wellFormed_oneRecord _ (by decide) third rfl).1⟩

/-- **A record is handed twice.** Reading fails while a record is in the batch; the reader is set
back before it, and it is read again. -/
theorem polls_hand_twice : WellFormed oneRecord ∧ ∃ s store,
    Polls (rowSettings 2) oneRecord (fun _ _ => True) (begin (-1) [] ⟨10, []⟩ 0) s ∧
      s.streamCommit.store = some store ∧ store.handed.map (·.sn) = [1, 1] := by
  have first : Polls (rowSettings 2) oneRecord (fun _ _ => True) (begin (-1) [] ⟨10, []⟩ 0)
    (begin (-1) [] ⟨10, []⟩ 0) := Polls.start
  have second := first.poll (o := fetchOne) trivial
  have third := second.poll (o := .failure) trivial
  have fourth := third.poll (o := fetchOne) trivial
  exact ⟨wellFormed_oneRecord, _, _, fourth, rfl, rfl⟩

end Proton.NativeLogPolling
