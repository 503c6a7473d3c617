import Mathlib.Algebra.Ring.Nat
import Proton.Storages.Stream.StreamShardStore
import Proton.Streaming.SequencedChunkSplitter

/-!
# Reading the Log and the Historical Store

This module embeds `StreamingBlockReaderNativeLog`. The reader fetches the entries of the log after
its position. When these were compacted away, it queries the historical store for a range of
sequence numbers until it has caught up with the start of the log, and goes on with the log.

What is outside of the reader is in an `Answer`: where the log starts, how much a fetch returns, the
sizes of the chunks that are pulled until `max_bytes` or `max_wait_ms` is reached, and the
historical store. Left out are fetch hints, the columns that are read, and the sequence number of an
empty chunk, which only a remote fetch has.

## Main results

* `Reader.Sound.read`: what a call of `read` returns, and what the reader still holds.
* `Reads.exact`: the rows that are returned are those of the log, if the historical store never has
  a record without those before it.
* `reads_lose_records`: otherwise, records are lost.
-/

open List Bool

namespace Proton.StreamingBlockReader

open StreamShardStore Streaming

variable {Row : Type}

/-- An entry of the log: the record of a data entry that is not empty. -/
structure DataEntry (Row : Type) where
  /-- `sn`. -/
  sn : ℤ
  /-- `data`, parsed. -/
  record : Option (SchemaRecord Row)

/-- The settings of the reader. -/
structure ReaderConfig where
  /-- `allow_fallback_to_historical_store`. -/
  allowFallbackToHistoricalStore : Bool := true
  /-- `throw_if_sequence_has_hole`. -/
  throwIfSequenceHasHole : Bool := false
  /-- `emit_control_block`. -/
  emitControlBlock : Bool := false
  /-- `schema_version_requested`. -/
  schemaVersionRequested : ℕ := 0

/-- The record of an entry, if it is wanted. -/
def deserializeRecord (emitControlBlock : Bool) (e : DataEntry Row) : Option (SchemaRecord Row) :=
  match e.record with
  | some record =>
    if record.opCode = .insertData ∨ emitControlBlock then some { record with sn := e.sn }
    else none
  | none => none

/-- `deserializeRecords`. -/
def deserializeRecords (emitControlBlock : Bool) (entries : List (DataEntry Row)) :
    List (SchemaRecord Row) :=
  entries.filterMap (deserializeRecord emitControlBlock)

/-- `HistoricalQueryContext`. -/
structure HistoricalQuery (Row : Type) where
  /-- The rows that `executor` has not returned yet. -/
  rest : SequencedRows Row
  /-- `sequenced_chunk_splitter`. -/
  splitter : Splitter Row := {}
  /-- `max_sn`. -/
  maxSn : ℤ
  /-- `fetch_start_sn`. -/
  fetchStartSn : ℤ
  /-- `fetch_end_sn`. -/
  fetchEndSn : ℤ
  /-- `log_start_sn`. -/
  logStartSn : ℤ
  /-- `log_committed_sn`. -/
  logCommittedSn : ℤ

/-- `StreamingBlockReaderNativeLog`. -/
structure Reader (Row : Type) where
  /-- `fetched_sn`. -/
  fetchedSn : ℤ
  /-- `historical_ctx`. -/
  historical : Option (HistoricalQuery Row) := none

/-- What a call of `read` meets. -/
structure Answer (Row : Type) where
  /-- `log_start_sn`. -/
  logStartSn : ℤ
  /-- `log_committed_sn`. -/
  logCommittedSn : ℤ
  /-- The first sequence number that the cache or a segment of the log still has. -/
  firstSn : ℤ := logStartSn
  /-- How many entries a fetch returns. -/
  entries : ℕ
  /-- The sizes of the chunks that are pulled; an empty one is a timeout. -/
  pulls : List ℕ
  /-- Whether the last pull says that there are no more rows. -/
  ended : Bool
  /-- Whether the rows of the record with a sequence number are in the historical store. -/
  stored : ℤ → Bool
  /-- The result of a query: the rows after the first and up to the second sequence number. -/
  select : ℤ → ℤ → SequencedRows Row

/-- `startFetch`. -/
def Reader.startFetch (r : Reader Row) (sn : ℤ) : Reader Row :=
  { r with fetchedSn := if 0 < sn then sn - 1 else -1 }

/-- `buildHistoricalQueryContext` at the position `fetchedSn`. -/
def buildHistoricalQueryContext (a : Answer Row)
    (fetchedSn fetchRange logStartSn logCommittedSn : ℤ) :
    HistoricalQuery Row where
  rest := a.select fetchedSn (fetchedSn + fetchRange)
  maxSn := fetchedSn
  fetchStartSn := fetchedSn + 1
  fetchEndSn := fetchedSn + fetchRange
  logStartSn := logStartSn
  logCommittedSn := logCommittedSn

/-- `default_fetch_range`. -/
def defaultFetchRange : ℤ := 10000

/-- `add_record`. -/
def addRecord (records : List (ℤ × List Row)) (chunk : ℤ × List Row) : List (ℤ × List Row) :=
  if chunk.2.isEmpty then records else records ++ [chunk]

/-- A chunk is pulled: the query, and the records so far. -/
def pull (s : HistoricalQuery Row × List (ℤ × List Row)) (size : ℕ) :
    HistoricalQuery Row × List (ℤ × List Row) :=
  match s.1.rest.take size with
  | [] => s
  | first :: rows =>
    let split := s.1.splitter.splitOrConcat first rows
    ({ s.1 with
        rest := s.1.rest.drop size
        splitter := split.2
        maxSn := max s.1.maxSn split.2.bufferedSn },
      split.1.foldl addRecord s.2)

/-- What is done after the last row of a query: the reader, or an exception. -/
def finish (a : Answer Row) (q : HistoricalQuery Row) : Option (Reader Row) :=
  if q.logStartSn ≤ q.maxSn + 1 then some (Reader.startFetch ⟨q.maxSn, none⟩ (q.maxSn + 1))
  else if q.maxSn + 1 = q.fetchStartSn then
    if q.logCommittedSn ≤ q.fetchEndSn then none
    else some ⟨q.maxSn, some (buildHistoricalQueryContext a q.maxSn (q.fetchEndSn - q.maxSn + 10000)
      q.logStartSn q.logCommittedSn)⟩
  else some ⟨q.maxSn, some { buildHistoricalQueryContext a q.maxSn defaultFetchRange
    q.logStartSn q.logCommittedSn with fetchStartSn := q.fetchStartSn }⟩

/-- `readFromHistoricalStore`: the chunks of the records. -/
def readFromHistoricalStore (a : Answer Row) (q : HistoricalQuery Row) :
    Option (List (ℤ × List Row) × Reader Row) :=
  let s := a.pulls.foldl pull (q, [])
  if a.ended ∧ s.1.rest.isEmpty then
    let final := s.1.splitter.finalize
    (finish a { s.1 with splitter := final.2 }).map (addRecord s.2 final.1, ·)
  else some (s.2, ⟨s.1.maxSn, some s.1⟩)

/-- The record that is made of a chunk of the historical store. -/
def toRecord (schemaVersion : ℕ) (chunk : ℤ × List Row) : SchemaRecord Row where
  sn := chunk.1
  schemaVersion := schemaVersion
  block := ⟨chunk.2, false⟩

variable (log : List (DataEntry Row))

/-- The entries that a fetch after a position returns. -/
def fetch (fetchedSn : ℤ) (entries : ℕ) : List (DataEntry Row) :=
  (log.filter fun e => decide (fetchedSn < e.sn)).take entries

/-- `read`, over all entries that were ever appended to the log. There is no result if an exception
is thrown. A reader that was started before `LogStartSN`, which is one, fetches from it: this is not
compacted away for `Log::fetch`, but out of range if the log does not have it. -/
def read (cfg : ReaderConfig) (log : List (DataEntry Row)) (r : Reader Row) (a : Answer Row) :
    Option (List (SchemaRecord Row) × Reader Row) :=
  match r.historical with
  | some q =>
    (readFromHistoricalStore a q).map fun s =>
      (s.1.map (toRecord cfg.schemaVersionRequested), s.2)
  | none =>
    if 1 ≤ r.fetchedSn + 1 ∧ r.fetchedSn + 1 < a.logStartSn then
      if cfg.allowFallbackToHistoricalStore then
        some ([], { r with historical := some (buildHistoricalQueryContext a r.fetchedSn
          defaultFetchRange a.logStartSn a.logCommittedSn) })
      else if cfg.throwIfSequenceHasHole then none
      else some ([], r.startFetch a.logStartSn)
    else if max (r.fetchedSn + 1) 1 < a.firstSn then none
    else
      let entries := fetch log (max r.fetchedSn 0) a.entries
      some (deserializeRecords cfg.emitControlBlock entries,
        { r with fetchedSn := (entries.getLast?.map (·.sn)).getD r.fetchedSn })

/-! ### The rows of the log -/

/-- The chunks of records. -/
def chunksOf (records : List (SchemaRecord Row)) : List (ℤ × List Row) :=
  records.map fun r => (r.sn, r.block.rows)

/-- The rows of the data records of the log, in order. -/
def dataRows : SequencedRows Row :=
  rowsOfChunks (chunksOf (deserializeRecords false log))

/-- The rows after a sequence number and up to another one. -/
def rowsBetween (a b : ℤ) : SequencedRows Row :=
  (dataRows log).filter fun x => decide (a < x.1 ∧ x.1 ≤ b)

/-- The sequence numbers of the log are positive, and increase. -/
structure WellFormed : Prop where
  /-- They increase. -/
  lt : log.Pairwise fun e e' => e.sn < e'.sn
  /-- `LogStartSN` is one. -/
  pos : ∀ e ∈ log, 0 < e.sn

/-- The rows of an entry. -/
def entryRows (e : DataEntry Row) : SequencedRows Row :=
  rowsOfChunks (chunksOf (deserializeRecord false e).toList)

variable {log : List (DataEntry Row)} {e : DataEntry Row} {x : ℤ × Row} {f b sn : ℤ}
  {chunks out' : List (ℤ × List Row)}

/-- A record has the sequence number of its entry. -/
theorem sn_of_deserializeRecord {emit : Bool} {r : SchemaRecord Row}
    (h : deserializeRecord emit e = some r) : r.sn = e.sn := by
  rw [deserializeRecord] at h
  split at h
  · split_ifs at h
    exact congrArg SchemaRecord.sn (Option.some.inj h).symm
  · cases h

/-- A chunk has the sequence number of an entry. -/
theorem exists_of_mem_chunksOf {emit : Bool} {c : ℤ × List Row}
    (h : c ∈ chunksOf (deserializeRecords emit log)) : ∃ e ∈ log, c.1 = e.sn := by
  obtain ⟨r, hr, rfl⟩ := mem_map.1 h
  obtain ⟨e, he, hrec⟩ := mem_filterMap.1 hr
  exact ⟨e, he, sn_of_deserializeRecord hrec⟩

/-- A row has the sequence number of its chunk. -/
theorem sn_of_mem_rowsOfChunks (h : x ∈ rowsOfChunks chunks) : ∃ c ∈ chunks, x.1 = c.1 := by
  obtain ⟨c, hc, hx⟩ := mem_flatMap.1 h
  obtain ⟨row, -, rfl⟩ := mem_map.1 hx
  exact ⟨c, hc, rfl⟩

/-- A row has the sequence number of an entry of the log. -/
theorem exists_of_mem_dataRows (h : x ∈ dataRows log) : ∃ e ∈ log, x.1 = e.sn := by
  obtain ⟨c, hc, hx⟩ := sn_of_mem_rowsOfChunks h
  obtain ⟨e, he, hsn⟩ := exists_of_mem_chunksOf hc
  exact ⟨e, he, hx.trans hsn⟩

@[simp] theorem dataRows_nil : dataRows ([] : List (DataEntry Row)) = [] := rfl

/-- The rows of the log, entry by entry. -/
@[simp] theorem dataRows_cons (e : DataEntry Row) (log : List (DataEntry Row)) :
    dataRows (e :: log) = entryRows e ++ dataRows log := by
  rw [dataRows, deserializeRecords, filterMap_cons, entryRows]
  cases deserializeRecord false e with
  | none => rfl
  | some r => simp [chunksOf, dataRows, deserializeRecords]

/-- The rows of an entry have its sequence number. -/
theorem sn_of_mem_entryRows (h : x ∈ entryRows e) : x.1 = e.sn := by
  have hmem : x ∈ dataRows [e] := by rwa [dataRows_cons, dataRows_nil, append_nil]
  obtain ⟨e', he', hx⟩ := exists_of_mem_dataRows hmem
  rwa [mem_singleton.1 he'] at hx

/-- The rows of the entries with certain sequence numbers. -/
theorem dataRows_filter (log : List (DataEntry Row)) (p : ℤ → Bool) :
    dataRows (log.filter fun e => p e.sn) = (dataRows log).filter fun x => p x.1 := by
  induction log with
  | nil => rfl
  | cons e log ih =>
    have hsn : ∀ x ∈ entryRows e, p x.1 = p e.sn := fun x hx => by rw [sn_of_mem_entryRows hx]
    rw [dataRows_cons, filter_append, filter_cons, filter_congr hsn]
    cases p e.sn <;> simp [ih]

/-- The position after a fetch. -/
def positionAfter (fetchedSn : ℤ) (entries : List (DataEntry Row)) : ℤ :=
  (entries.getLast?.map (·.sn)).getD fetchedSn

/-- Entries are fetched in order. -/
theorem fetch_pairwise (hlog : WellFormed log) (f : ℤ) (n : ℕ) :
    (fetch log f n).Pairwise fun e e' => e.sn < e'.sn :=
  (hlog.lt.filter _).sublist (take_sublist _ _)

/-- Only entries behind the position are fetched. -/
theorem lt_of_mem_fetch {n : ℕ} (h : e ∈ fetch log f n) : f < e.sn :=
  of_decide_eq_true (mem_filter.1 (mem_of_mem_take h)).2

/-- The log starts at one. -/
theorem fetch_max_zero (hlog : WellFormed log) (f : ℤ) (n : ℕ) :
    fetch log (max f 0) n = fetch log f n := by
  rw [fetch, fetch]
  refine congrArg (take n) (filter_congr fun e he => ?_)
  have hpos := hlog.pos e he
  rw [Bool.eq_iff_iff, decide_eq_true_eq, decide_eq_true_eq]
  omega

/-- The position gets to the last entry that is fetched. -/
theorem le_positionAfter (hlog : WellFormed log) {n : ℕ}
    (h : e ∈ fetch log f n) : e.sn ≤ positionAfter f (fetch log f n) := by
  have hlt := fetch_pairwise hlog f n
  rcases eq_nil_or_concat (fetch log f n) with hnil | ⟨init, last, hconcat⟩
  · rw [hnil] at h
    cases h
  · rw [hconcat, concat_eq_append] at h hlt ⊢
    simp only [positionAfter, getLast?_append, getLast?_singleton, Option.some_or,
      Option.map_some, Option.getD_some]
    rcases mem_append.1 h with h | h
    · exact le_of_lt ((pairwise_append.1 hlt).2.2 e h last mem_cons_self)
    · rw [mem_singleton.1 h]

/-- The position does not go back. -/
theorem positionAfter_ge (f : ℤ) (n : ℕ) : f ≤ positionAfter f (fetch log f n) := by
  rw [positionAfter]
  cases h : (fetch log f n).getLast? with
  | none => exact le_rfl
  | some e => exact le_of_lt (lt_of_mem_fetch (mem_of_getLast? h))

/-- **A fetch returns the entries up to the position after it.** -/
theorem fetch_eq_filter (hlog : WellFormed log) (f : ℤ) (n : ℕ) :
    fetch log f n =
      log.filter fun e => decide (f < e.sn ∧ e.sn ≤ positionAfter f (fetch log f n)) := by
  set b := positionAfter f (fetch log f n) with hb
  set after := log.filter fun e => decide (f < e.sn) with hafter
  have hpair : (fetch log f n ++ after.drop n).Pairwise fun e e' => e.sn < e'.sn := by
    rw [fetch, take_append_drop]
    exact hlog.lt.filter _
  have hleft : (fetch log f n).filter (fun e => decide (e.sn ≤ b)) = fetch log f n :=
    filter_eq_self.2 fun e he => decide_eq_true (le_positionAfter hlog he)
  -- an entry that is not fetched is beyond the last one that is
  have hright : (after.drop n).filter (fun e => decide (e.sn ≤ b)) = [] := by
    refine filter_eq_nil_iff.2 fun e he hle => ?_
    refine absurd (of_decide_eq_true hle) (not_le.2 ?_)
    rw [hb, positionAfter]
    cases hlast : (fetch log f n).getLast? with
    | none => exact of_decide_eq_true (mem_filter.1 (mem_of_mem_drop he)).2
    | some last =>
      exact (pairwise_append.1 hpair).2.2 last (mem_of_getLast? hlast) e he
  have hcut : fetch log f n = after.filter fun e => decide (e.sn ≤ b) := by
    rw [← take_append_drop n after, filter_append, hright, append_nil]
    exact hleft.symm
  rw [hcut, filter_filter]
  refine filter_congr fun e _ => ?_
  rw [Bool.eq_iff_iff]
  simp only [and_eq_true, decide_eq_true_eq]
  exact and_comm

variable (log)

/-- The rows between two positions, up to a third. -/
theorem filter_rowsBetween (a b c : ℤ) :
    (rowsBetween log a c).filter (fun x => decide (x.1 ≤ b)) = rowsBetween log a (min b c) := by
  rw [rowsBetween, rowsBetween, filter_filter]
  refine filter_congr fun x _ => ?_
  rw [Bool.eq_iff_iff]
  simp only [and_eq_true, decide_eq_true_eq]
  omega

/-- Two ranges of rows next to each other. -/
theorem rowsBetween_append_perm {a c : ℤ} (hab : a ≤ b) (hbc : b ≤ c) :
    (rowsBetween log a b ++ rowsBetween log b c).Perm (rowsBetween log a c) := by
  have hsplit := filter_append_perm (fun x : ℤ × Row => decide (x.1 ≤ b)) (rowsBetween log a c)
  have hleft : (rowsBetween log a c).filter (fun x => decide (x.1 ≤ b)) = rowsBetween log a b := by
    rw [filter_rowsBetween, min_eq_left hbc]
  have hright : rowsBetween log b c = (rowsBetween log a c).filter fun x => !decide (x.1 ≤ b) := by
    rw [rowsBetween, rowsBetween, filter_filter]
    refine filter_congr fun x _ => ?_
    rw [Bool.eq_iff_iff]
    simp only [and_eq_true, not_eq_true', decide_eq_true_eq, decide_eq_false_iff_not]
    omega
  rw [← hleft, hright]
  exact hsplit

/-- There is no row between a position and itself. -/
@[simp] theorem rowsBetween_self (a : ℤ) : rowsBetween log a a = [] :=
  filter_eq_nil_iff.2 fun _ _ hx =>
    absurd (of_decide_eq_true hx) fun h => absurd h.1 (not_lt.2 h.2)

/-! ### A query -/

namespace HistoricalQuery

variable (q : HistoricalQuery Row)

/-- The rows of a query that were not returned. -/
def pending : SequencedRows Row := q.splitter.rows ++ q.rest

/-- The last sequence number of a query, or the position if there is none. -/
def reach : ℤ := (q.pending.getLast?.map (·.1)).getD q.maxSn

/-- The rows of a query are in order, and its position is that of the rows that are kept. -/
structure Valid : Prop where
  /-- The splitter is valid. -/
  splitter : q.splitter.Valid
  /-- The rows are in order. -/
  sorted : Sorted q.pending
  /-- Sequence numbers are not negative. -/
  nonneg : ∀ x ∈ q.pending, 0 ≤ x.1
  /-- The position is not beyond any row. -/
  ahead : ∀ x ∈ q.pending, q.maxSn ≤ x.1
  /-- The position is that of the rows that are kept. -/
  kept : q.splitter.bufferedChunk ≠ [] → q.maxSn = q.splitter.bufferedSn
  /-- If no rows are kept, the position is before all rows. -/
  unkept : q.splitter.bufferedChunk = [] → ∀ x ∈ q.pending, q.maxSn < x.1

/-- A query reaches at least its position. -/
theorem le_reach {q : HistoricalQuery Row} (hq : q.Valid) : q.maxSn ≤ q.reach := by
  rw [reach]
  cases h : q.pending.getLast? with
  | none => exact le_rfl
  | some x => exact hq.ahead x (mem_of_getLast? h)

end HistoricalQuery

/-! ### What was returned -/

/-- The rows of the log after `start` and up to `reach` are those that were returned, and those that
are pending. All that was returned is up to the position. -/
structure Delivered (start : ℤ) (out : List (ℤ × List Row))
    (pending : SequencedRows Row) (position reach : ℤ) : Prop where
  /-- The sequence numbers that were returned increase. -/
  lt : out.Pairwise fun a b => a.1 < b.1
  /-- Pending rows are beyond what was returned. -/
  before : ∀ o ∈ out, ∀ x ∈ pending, o.1 < x.1
  /-- What was returned is up to the position. -/
  le : ∀ o ∈ out, o.1 ≤ position
  /-- The position only advances. -/
  start_le : start ≤ position
  /-- Pending rows are beyond the position. -/
  le_reach : position ≤ reach
  /-- No row is lost or repeated. -/
  rows : (rowsOfChunks out ++ pending).Perm (rowsBetween log start reach)

variable {log}

variable {start position reach : ℤ} {out : List (ℤ × List Row)} {pending : SequencedRows Row}

/-- **What was returned first.** The chunks up to a sequence number have the rows of the log up to
it. -/
theorem Delivered.upTo (h : Delivered log start (out ++ out') pending position reach)
    (hb : b ≤ reach) (hout : ∀ o ∈ out, o.1 ≤ b) (hout' : ∀ o ∈ out', b < o.1)
    (hpending : ∀ x ∈ pending, b < x.1) : (rowsOfChunks out).Perm (rowsBetween log start b) := by
  have hrows := h.rows.filter fun x => decide (x.1 ≤ b)
  have hleft : (rowsOfChunks out).filter (fun x => decide (x.1 ≤ b)) = rowsOfChunks out := by
    refine filter_eq_self.2 fun x hx => decide_eq_true ?_
    obtain ⟨c, hc, hx⟩ := sn_of_mem_rowsOfChunks hx
    exact hx ▸ hout c hc
  have hright : (rowsOfChunks out').filter (fun x => decide (x.1 ≤ b)) = [] := by
    refine filter_eq_nil_iff.2 fun x hx hle => ?_
    obtain ⟨c, hc, hx⟩ := sn_of_mem_rowsOfChunks hx
    exact absurd (of_decide_eq_true hle) (not_le.2 (hx ▸ hout' c hc))
  have hrest : pending.filter (fun x => decide (x.1 ≤ b)) = [] :=
    filter_eq_nil_iff.2 fun x hx hle =>
      absurd (of_decide_eq_true hle) (not_le.2 (hpending x hx))
  rw [rowsOfChunks_append, filter_append, filter_append, hleft, hright, hrest,
    append_nil, append_nil, filter_rowsBetween, min_eq_left hb] at hrows
  exact hrows

/-- Pending rows are returned. -/
theorem Delivered.append {pending' : SequencedRows Row} {position' : ℤ}
    (h : Delivered log start out pending position reach)
    (hall : rowsOfChunks chunks ++ pending' = pending) (hne : ∀ c ∈ chunks, c.2 ≠ [])
    (hlt : chunks.Pairwise fun a b => a.1 < b.1)
    (hbefore : ∀ c ∈ chunks, ∀ x ∈ pending', c.1 < x.1) (hle : ∀ c ∈ chunks, c.1 ≤ position')
    (hposition : position ≤ position') (hreach : position' ≤ reach) :
    Delivered log start (out ++ chunks) pending' position' reach where
  lt := by
    refine pairwise_append.2 ⟨h.lt, hlt, fun o ho c hc => ?_⟩
    obtain ⟨row, hrow⟩ := exists_mem_of_ne_nil _ (hne c hc)
    refine h.before o ho (c.1, row) (hall ▸ mem_append_left _ ?_)
    exact mem_flatMap.2 ⟨c, hc, mem_map_of_mem hrow⟩
  before o ho x hx := by
    rcases mem_append.1 ho with ho | ho
    · exact h.before o ho x (hall ▸ mem_append_right _ hx)
    · exact hbefore o ho x hx
  le o ho := by
    rcases mem_append.1 ho with ho | ho
    · exact le_trans (h.le o ho) hposition
    · exact hle o ho
  start_le := le_trans h.start_le hposition
  le_reach := hreach
  rows := by
    rw [rowsOfChunks_append, append_assoc, hall]
    exact h.rows

/-- Chunks without rows do not matter. -/
theorem Delivered.sublist (h : Delivered log start out pending position reach)
    (hsub : out'.Sublist out) (hrows : rowsOfChunks out' = rowsOfChunks out) :
    Delivered log start out' pending position reach where
  lt := h.lt.sublist hsub
  before o ho := h.before o (hsub.subset ho)
  le o ho := h.le o (hsub.subset ho)
  start_le := h.start_le
  le_reach := h.le_reach
  rows := hrows ▸ h.rows

/-- Batches that are not empty are added one by one. -/
theorem foldl_addRecord (h : ∀ c ∈ chunks, c.2 ≠ []) (records : List (ℤ × List Row)) :
    chunks.foldl addRecord records = records ++ chunks := by
  induction chunks generalizing records with
  | nil => simp
  | cons c chunks ih =>
    obtain ⟨hc, hchunks⟩ := forall_mem_cons.1 h
    have hempty : ¬c.2.isEmpty := by simpa using hc
    rw [foldl_cons, addRecord, if_neg hempty, ih hchunks, append_assoc]
    rfl

/-! ### Pulling -/

/-- Between two pulls of a call: `base` was returned by the calls before, and `size` rows of the
query `q₀` at its begin were pulled. -/
structure Pulling (log : List (DataEntry Row)) (start : ℤ) (base : List (ℤ × List Row))
    (q₀ : HistoricalQuery Row) (size : ℕ) (s : HistoricalQuery Row × List (ℤ × List Row)) :
    Prop where
  /-- The query stays valid. -/
  valid : s.1.Valid
  /-- The rows are returned or pending. -/
  delivered : Delivered log start (base ++ s.2) s.1.pending s.1.maxSn s.1.reach
  /-- What is not pulled yet. -/
  rest : s.1.rest = q₀.rest.drop size
  /-- No row of the query is lost. -/
  rows : rowsOfChunks s.2 ++ s.1.pending = q₀.pending

section Pull

variable {base : List (ℤ × List Row)} {q₀ : HistoricalQuery Row} {size : ℕ}
  {s : HistoricalQuery Row × List (ℤ × List Row)}

variable (h : Pulling log start base q₀ size s)
include h

/-- One more block is pulled. -/
theorem Pulling.pull (n : ℕ) : Pulling log start base q₀ (size + n) (pull s n) := by
  obtain ⟨q, records⟩ := s
  have hdrop : q.rest.drop n = q₀.rest.drop (size + n) := by rw [h.rest, drop_drop]
  cases htake : q.rest.take n with
  | nil =>
    have hsame : q.rest.drop n = q.rest := by
      conv_rhs => rw [← take_append_drop n q.rest, htake, nil_append]
    simp only [StreamingBlockReader.pull, htake]
    exact ⟨h.valid, h.delivered, hsame.symm.trans hdrop, h.rows⟩
  | cons first rows =>
    have hq : q.Valid := h.valid
    have hpending : q.splitter.rows ++ first :: rows ++ q.rest.drop n = q.pending := by
      rw [← htake, append_assoc, take_append_drop]
      rfl
    have hsorted : Sorted (q.splitter.rows ++ first :: rows ++ q.rest.drop n) :=
      hpending ▸ hq.sorted
    obtain ⟨hinc, hrows⟩ := Splitter.splitOrConcat_spec hq.splitter (pairwise_append.1 hsorted).1
    simp only [StreamingBlockReader.pull, htake]
    set split := q.splitter.splitOrConcat first rows with hsplit
    obtain ⟨hlt, -, hbuffer⟩ := pairwise_append.1 hinc.lt
    have hne : ∀ c ∈ split.1, c.2 ≠ [] := fun c hc => hinc.ne_nil c (mem_append_left _ hc)
    have hkept : split.2.bufferedChunk ≠ [] := hinc.ne_nil _ (mem_append_right _ mem_cons_self)
    have hall : rowsOfChunks split.1 ++ (split.2.rows ++ q.rest.drop n) = q.pending := by
      rw [← hpending, ← hrows, append_assoc]
    -- a row that is kept is one of the query
    obtain ⟨row, hrow⟩ := exists_mem_of_ne_nil _ hkept
    have hmem : (split.2.bufferedSn, row) ∈ split.2.rows := mem_map_of_mem hrow
    have hpend : (split.2.bufferedSn, row) ∈ q.pending :=
      hall ▸ mem_append_right _ (mem_append_left _ hmem)
    have hmax : max q.maxSn split.2.bufferedSn = split.2.bufferedSn :=
      max_eq_right (hq.ahead _ hpend)
    have hsorted' : Sorted (split.2.rows ++ q.rest.drop n) :=
      (pairwise_append.1 (hall ▸ hq.sorted)).2.1
    have hahead : ∀ x ∈ split.2.rows ++ q.rest.drop n, split.2.bufferedSn ≤ x.1 := by
      intro x hx
      rcases mem_append.1 hx with hx | hx
      · obtain ⟨row', -, rfl⟩ := mem_map.1 hx
        exact le_rfl
      · exact (pairwise_append.1 hsorted').2.2 _ hmem x hx
    have hlast : (split.2.rows ++ q.rest.drop n).getLast? = q.pending.getLast? := by
      rw [← hall, getLast?_append_of_ne_nil _ (append_ne_nil_of_left_ne_nil (ne_nil_of_mem hmem) _)]
    rw [foldl_addRecord hne, hmax]
    set q' : HistoricalQuery Row := { q with
      rest := q.rest.drop n, splitter := split.2, maxSn := split.2.bufferedSn } with hq'
    have hvalid : q'.Valid := ⟨⟨fun _ => hq.nonneg _ hpend, fun hnil => absurd hnil hkept⟩,
      hsorted', fun x hx => hq.nonneg x (hall ▸ mem_append_right _ hx), hahead, fun _ => rfl,
      fun hnil => absurd hnil hkept⟩
    have hreach : q'.reach = q.reach := by
      rw [HistoricalQuery.reach, HistoricalQuery.reach, ← hlast]
      simp only [hq', HistoricalQuery.pending]
      rw [hlast, getLast?_eq_some_getLast (ne_nil_of_mem hpend)]
      rfl
    refine ⟨hvalid, ?_, hdrop, ?_⟩
    · rw [hreach, ← append_assoc]
      exact h.delivered.append hall hne hlt
        (fun c hc x hx => lt_of_lt_of_le (hbuffer c hc _ mem_cons_self) (hahead x hx))
        (fun c hc => le_of_lt (hbuffer c hc _ mem_cons_self)) (hq.ahead _ hpend)
        (hreach ▸ HistoricalQuery.le_reach hvalid)
    · rw [rowsOfChunks_append, append_assoc]
      exact (congrArg (rowsOfChunks records ++ ·) hall).trans h.rows

/-- **All pulls of a call.** -/
theorem Pulling.foldl (sizes : List ℕ) :
    Pulling log start base q₀ (size + sizes.sum) (sizes.foldl StreamingBlockReader.pull s) := by
  induction sizes generalizing size s with
  | nil => exact h
  | cons n sizes ih =>
    rw [sum_cons, ← add_assoc]
    exact ih (h.pull n)

/-- The last row was pulled: the rows that are kept are returned. -/
theorem Pulling.finalize (hrest : s.1.rest = []) :
    Delivered log start (base ++ addRecord s.2 s.1.splitter.finalize.1) [] s.1.maxSn s.1.maxSn := by
  have hpending : s.1.pending = s.1.splitter.rows := by
    rw [HistoricalQuery.pending, hrest, append_nil]
  have hdelivered := h.delivered
  by_cases hkept : s.1.splitter.bufferedChunk = []
  · have hnil : s.1.pending = [] := by rw [hpending, Splitter.rows, hkept, map_nil]
    have hreach : s.1.reach = s.1.maxSn := by rw [HistoricalQuery.reach, hnil]; rfl
    rw [hnil, hreach] at hdelivered
    rw [addRecord, Splitter.finalize, if_pos (by simpa using hkept)]
    exact hdelivered
  · have hreach : s.1.reach = s.1.maxSn := by
      rw [HistoricalQuery.reach, hpending, Splitter.rows, getLast?_map,
        getLast?_eq_some_getLast hkept, h.valid.kept hkept]
      rfl
    have hrows : rowsOfChunks [(s.1.splitter.bufferedSn, s.1.splitter.bufferedChunk)] ++ [] =
        s.1.pending := by
      rw [hpending, append_nil, rowsOfChunks_cons, rowsOfChunks_nil, append_nil]
      rfl
    rw [hreach] at hdelivered
    rw [addRecord, Splitter.finalize, if_neg (by simpa using hkept), ← append_assoc]
    exact hdelivered.append hrows (by simpa using hkept) (pairwise_singleton _ _) (by simp)
      (by simpa using le_of_eq (h.valid.kept hkept).symm) le_rfl le_rfl

end Pull

/-! ### Starting a query -/

/-- What the log and the historical store answer: the records before the start of the log are
stored, and a query returns the stored rows of its range, ordered by sequence number. -/
structure Answers (log : List (DataEntry Row)) (a : Answer Row) : Prop where
  /-- What was compacted away is stored. -/
  stored : ∀ x ∈ dataRows log, x.1 < a.logStartSn → a.stored x.1 = true
  /-- A query is ordered. -/
  sorted : ∀ f e, Sorted (a.select f e)
  /-- A query returns the stored rows. -/
  rows : ∀ f e, (a.select f e).Perm
    ((dataRows log).filter fun x => decide (f < x.1 ∧ x.1 ≤ e) && a.stored x.1)

/-- No record is stored without those before it. -/
def NoGap (log : List (DataEntry Row)) (a : Answer Row) : Prop :=
  ∀ x ∈ dataRows log, ∀ y ∈ dataRows log, x.1 ≤ y.1 → a.stored y.1 = true →
    a.stored x.1 = true

variable {a : Answer Row}

/-- A query selects the stored rows of its range. -/
theorem Answers.mem_select (ha : Answers log a) {e : ℤ} :
    x ∈ a.select f e ↔ x ∈ dataRows log ∧ (f < x.1 ∧ x.1 ≤ e) ∧ a.stored x.1 = true := by
  rw [(ha.rows f e).mem_iff, mem_filter, and_eq_true, decide_eq_true_eq]

/-- **The rows of a query.** Without gaps, they are all rows up to the last one. -/
theorem Answers.select_perm (ha : Answers log a) (hgap : NoGap log a) (f e : ℤ) :
    (a.select f e).Perm (rowsBetween log f (((a.select f e).getLast?.map (·.1)).getD f)) := by
  refine (ha.rows f e).trans (List.Perm.of_eq (filter_congr fun x hx => ?_))
  rw [Bool.eq_iff_iff, Bool.and_eq_true, decide_eq_true_eq, decide_eq_true_eq]
  constructor
  · rintro ⟨⟨hf, he⟩, hstored⟩
    have hmem : x ∈ a.select f e := ha.mem_select.2 ⟨hx, ⟨hf, he⟩, hstored⟩
    refine ⟨hf, ?_⟩
    rw [getLast?_eq_some_getLast (ne_nil_of_mem hmem)]
    exact (ha.sorted f e).le_getLast _ hmem
  · rintro ⟨hf, hle⟩
    cases hlast : (a.select f e).getLast? with
    | none =>
      rw [hlast] at hle
      exact absurd hf (not_lt.2 hle)
    | some y =>
      rw [hlast] at hle
      obtain ⟨hy, ⟨-, hye⟩, hstored⟩ := ha.mem_select.1 (mem_of_getLast? hlast)
      exact ⟨⟨hf, le_trans hle hye⟩, hgap x hx y hy hle hstored⟩

variable {q : HistoricalQuery Row}

/-- **A query that is started** takes up the rows after the position. -/
theorem Delivered.buildHistoricalQueryContext (hlog : WellFormed log) (ha : Answers log a)
    (hgap : NoGap log a) (h : Delivered log start out [] position position)
    (range logStartSn logCommittedSn : ℤ)
    (hq : q = buildHistoricalQueryContext a position range logStartSn logCommittedSn) :
    q.Valid ∧ Delivered log start out q.pending q.maxSn q.reach := by
  have hmax : q.maxSn = position := by rw [hq]; rfl
  have hpending : q.pending = a.select position (position + range) := by rw [hq]; rfl
  have hmem : ∀ x ∈ q.pending, x ∈ dataRows log ∧ position < x.1 := by
    intro x hx
    obtain ⟨hx, ⟨hlt, -⟩, -⟩ := ha.mem_select.1 (hpending ▸ hx)
    exact ⟨hx, hlt⟩
  have hvalid : q.Valid :=
    { splitter := by rw [hq]; exact ⟨fun h => absurd rfl h, fun _ => rfl⟩
      sorted := hpending ▸ ha.sorted _ _
      nonneg := fun x hx => by
        obtain ⟨e, he, hsn⟩ := exists_of_mem_dataRows (hmem x hx).1
        exact hsn ▸ le_of_lt (hlog.pos e he)
      ahead := fun x hx => hmax ▸ le_of_lt (hmem x hx).2
      kept := fun hne => absurd (by rw [hq]; rfl) hne
      unkept := fun _ x hx => hmax ▸ (hmem x hx).2 }
  refine ⟨hvalid, ?_⟩
  have hreach := HistoricalQuery.le_reach hvalid
  rw [hmax] at hreach ⊢
  refine ⟨h.lt, fun o ho x hx => lt_of_le_of_lt (h.le o ho) (hmem x hx).2, h.le, h.start_le,
    hreach, ?_⟩
  have hrows := h.rows
  rw [append_nil] at hrows
  have hselect := ha.select_perm hgap position (position + range)
  refine (hrows.append (hpending ▸ hselect)).trans ?_
  have heq : q.reach = (q.pending.getLast?.map (·.1)).getD position := by
    rw [HistoricalQuery.reach, hmax]
  rw [← heq]
  exact rowsBetween_append_perm log h.start_le hreach

/-! ### A call of `read` -/

/-- What was returned, and what the reader holds, are the rows of the log after `start`. -/
def Reader.Sound (log : List (DataEntry Row)) (start : ℤ) (r : Reader Row)
    (out : List (ℤ × List Row)) :
    Prop :=
  match r.historical with
  | none => Delivered log start out [] r.fetchedSn r.fetchedSn
  | some q => q.maxSn = r.fetchedSn ∧ q.Valid ∧ Delivered log start out q.pending q.maxSn q.reach

/-- The chunks of ordered entries are ordered. -/
theorem pairwise_chunksOf (emit : Bool) {entries : List (DataEntry Row)}
    (h : entries.Pairwise fun e e' => e.sn < e'.sn) :
    (chunksOf (deserializeRecords emit entries)).Pairwise fun a b => a.1 < b.1 := by
  refine pairwise_map.2 (pairwise_filterMap.2 (h.imp ?_))
  intro e e' hlt r hr r' hr'
  rw [sn_of_deserializeRecord hr, sn_of_deserializeRecord hr']
  exact hlt

/-- A fetch returns the rows after the position. -/
theorem Delivered.fetch (hlog : WellFormed log) (h : Delivered log start out [] position position)
    (n : ℕ) :
    let entries := fetch log position n
    let position' := positionAfter position entries
    Delivered log start (out ++ chunksOf (deserializeRecords false entries)) []
      position' position' := by
  intro entries position'
  have hge : position ≤ position' := positionAfter_ge position n
  refine ⟨pairwise_append.2 ⟨h.lt, pairwise_chunksOf false (fetch_pairwise hlog _ _), ?_⟩,
    by simp,
    ?_, le_trans h.start_le hge, le_rfl, ?_⟩
  · intro o ho c hc
    obtain ⟨e, he, hsn⟩ := exists_of_mem_chunksOf hc
    exact lt_of_le_of_lt (h.le o ho) (hsn ▸ lt_of_mem_fetch he)
  · intro o ho
    rcases mem_append.1 ho with ho | ho
    · exact le_trans (h.le o ho) hge
    · obtain ⟨e, he, hsn⟩ := exists_of_mem_chunksOf ho
      exact hsn ▸ le_positionAfter hlog he
  · have hrows := h.rows
    rw [append_nil] at hrows
    rw [append_nil, rowsOfChunks_append]
    have hfetch : rowsOfChunks (chunksOf (deserializeRecords false entries)) =
        rowsBetween log position position' :=
      (congrArg dataRows (fetch_eq_filter hlog position n)).trans
        (dataRows_filter log fun sn => decide (position < sn ∧ sn ≤ position'))
    rw [hfetch]
    exact (hrows.append_right _).trans (rowsBetween_append_perm log h.start_le hge)

/-- The position that a fetch starts behind. -/
theorem fetchedSn_startFetch (r : Reader Row) (h : -1 ≤ sn) :
    (r.startFetch (sn + 1)).fetchedSn = sn := by
  simp only [Reader.startFetch]
  split_ifs with hpos
  · omega
  · omega

variable {r : Reader Row}

/-- After the last row of a query. -/
theorem Delivered.finish (hlog : WellFormed log) (ha : Answers log a) (hgap : NoGap log a)
    (hstart : -1 ≤ start) (h : Delivered log start out [] q.maxSn q.maxSn)
    (hr : finish a q = some r) : r.Sound log start out := by
  rw [StreamingBlockReader.finish] at hr
  split_ifs at hr with hcaught hempty hend
  · obtain rfl := Option.some.inj hr
    have hposition := fetchedSn_startFetch (⟨q.maxSn, none⟩ : Reader Row)
      (le_trans hstart h.start_le)
    simp only [Reader.Sound, Reader.startFetch] at hposition ⊢
    rw [hposition]
    exact h
  · obtain rfl := Option.some.inj hr
    exact ⟨rfl, h.buildHistoricalQueryContext hlog ha hgap _ _ _ rfl⟩
  · obtain rfl := Option.some.inj hr
    obtain ⟨hvalid, hdelivered⟩ := h.buildHistoricalQueryContext hlog ha hgap
      defaultFetchRange q.logStartSn q.logCommittedSn rfl
    exact ⟨rfl, ⟨hvalid.splitter, hvalid.sorted, hvalid.nonneg, hvalid.ahead, hvalid.kept,
      hvalid.unkept⟩, hdelivered⟩

/-- The chunks of the records that are made of chunks. -/
theorem chunksOf_map_toRecord (version : ℕ) (chunks : List (ℤ × List Row)) :
    chunksOf (chunks.map (toRecord version)) = chunks := by
  rw [chunksOf, map_map]
  exact map_id _

/-- Nothing was pulled yet. -/
theorem Pulling.init (hq : q.Valid) (h : Delivered log start out q.pending q.maxSn q.reach) :
    Pulling log start out q 0 (q, []) :=
  ⟨hq, by rw [append_nil]; exact h, rfl, rfl⟩

/-- The settings by which the reader does not skip what was compacted away. -/
def ReaderConfig.NoSkip (cfg : ReaderConfig) : Prop :=
  cfg.emitControlBlock = false ∧
    (cfg.allowFallbackToHistoricalStore = true ∨ cfg.throwIfSequenceHasHole = true)

/-- **A call of `read`** returns rows that were not returned before, and holds the others. -/
theorem Reader.Sound.read (hlog : WellFormed log) {cfg : ReaderConfig} (hcfg : cfg.NoSkip)
    (ha : Answers log a) (hgap : NoGap log a) (hstart : -1 ≤ start) {r' : Reader Row}
    (h : r.Sound log start out) {records : List (SchemaRecord Row)}
    (hread : read cfg log r a = some (records, r')) :
    r'.Sound log start (out ++ chunksOf records) := by
  obtain ⟨hemit, hskip⟩ := hcfg
  obtain ⟨f, historical⟩ := r
  cases historical with
  | some q =>
    obtain ⟨-, hq, hdelivered⟩ := h
    have hpulled := (Pulling.init hq hdelivered).foldl a.pulls
    simp only [StreamingBlockReader.read, readFromHistoricalStore, Option.map_eq_some_iff] at hread
    obtain ⟨s, hs, heq⟩ := hread
    obtain ⟨rfl, rfl⟩ := Prod.mk.inj heq
    rw [chunksOf_map_toRecord]
    split_ifs at hs with hended
    · obtain ⟨r, hr, rfl⟩ := Option.map_eq_some_iff.1 hs
      have hrest : (a.pulls.foldl pull (q, [])).1.rest = [] := by simpa using hended.2
      exact (hpulled.finalize hrest).finish hlog ha hgap hstart hr
    · obtain rfl := Option.some.inj hs
      exact ⟨rfl, hpulled.valid, hpulled.delivered⟩
  | none =>
    have hdelivered : Delivered log start out [] f f := h
    simp only [StreamingBlockReader.read, hemit, fetch_max_zero hlog] at hread
    split_ifs at hread with hstart' hallow hthrow
    · obtain ⟨rfl, rfl⟩ := Prod.mk.inj (Option.some.inj hread)
      rw [chunksOf, map_nil, append_nil]
      exact ⟨rfl, hdelivered.buildHistoricalQueryContext hlog ha hgap _ _ _ rfl⟩
    · exact absurd hskip (by simp [hallow, hthrow])
    · obtain ⟨rfl, rfl⟩ := Prod.mk.inj (Option.some.inj hread)
      exact hdelivered.fetch hlog a.entries

/-! ### All calls -/

/-- Calls of `read` by a reader that was started at a sequence number: the reader after them, and
all that was returned. -/
inductive Reads (cfg : ReaderConfig) (log : List (DataEntry Row)) (sn : ℤ) (p : Answer Row → Prop) :
    Reader Row → List (ℤ × List Row) → Prop
  /-- The reader is created. -/
  | start : Reads cfg log sn p (Reader.startFetch ⟨-1, none⟩ sn) []
  /-- `read` is called. -/
  | read {r r' : Reader Row} {out : List (ℤ × List Row)} {a : Answer Row}
      {records : List (SchemaRecord Row)} (run : Reads cfg log sn p r out) (answer : p a)
      (eq : read cfg log r a = some (records, r')) : Reads cfg log sn p r' (out ++ chunksOf records)

/-- The position at which a reader starts. -/
def startPosition (sn : ℤ) : ℤ := if 0 < sn then sn - 1 else -1

/-- Sequence numbers before the log are clipped. -/
theorem neg_one_le_startPosition (sn : ℤ) : -1 ≤ startPosition sn := by
  rw [startPosition]
  split_ifs with hsn
  · omega
  · exact le_rfl

/-- A reader that was just created. -/
theorem Reader.Sound.startFetch (log : List (DataEntry Row)) (sn : ℤ) :
    (Reader.startFetch (⟨-1, none⟩ : Reader Row) sn).Sound log (startPosition sn) [] :=
  ⟨List.Pairwise.nil, by simp, by simp, le_rfl, le_rfl, by simp [Reader.startFetch, startPosition]⟩

/-- **Every run is sound**, by induction on the calls. -/
theorem Reads.sound (hlog : WellFormed log) {cfg : ReaderConfig} (hcfg : cfg.NoSkip)
    (h : Reads cfg log sn (fun a => Answers log a ∧ NoGap log a) r out) :
    r.Sound log (startPosition sn) out := by
  induction h with
  | start => exact Reader.Sound.startFetch log sn
  | read run answer eq ih =>
    exact ih.read hlog hcfg answer.1 answer.2 (neg_one_le_startPosition sn) eq

/-- The rows after the position are those from the start on. -/
theorem rowsBetween_startPosition (hlog : WellFormed log) (sn b : ℤ) :
    rowsBetween log (startPosition sn) b =
      (dataRows log).filter fun x => decide (sn ≤ x.1 ∧ x.1 ≤ b) := by
  refine filter_congr fun x hx => ?_
  obtain ⟨e, he, hsn⟩ := exists_of_mem_dataRows hx
  have hpos := hsn ▸ hlog.pos e he
  rw [Bool.eq_iff_iff, decide_eq_true_eq, decide_eq_true_eq, startPosition]
  split_ifs with h
  · omega
  · omega

/-- No row of a query is kept by the reader. -/
def Reader.Unkept (r : Reader Row) : Prop := ∀ q ∈ r.historical, q.splitter.bufferedChunk = []

section

variable (h : r.Sound log start out)
include h

/-- What a sound reader has delivered. -/
theorem Reader.Sound.delivered :
    ∃ pending position reach, Delivered log start out pending position reach := by
  rw [Reader.Sound] at h
  split at h
  · exact ⟨_, _, _, h⟩
  · exact ⟨_, _, _, h.2.2⟩

/-- The chunks of a sound reader are ordered. -/
theorem Reader.Sound.pairwise : out.Pairwise fun a b => a.1 < b.1 := by
  obtain ⟨_, _, _, hd⟩ := h.delivered
  exact hd.lt

/-- Chunks without rows may be left out. -/
theorem Reader.Sound.sublist (hsub : out'.Sublist out)
    (hrows : rowsOfChunks out' = rowsOfChunks out) : r.Sound log start out' := by
  rw [Reader.Sound] at h ⊢
  split at h
  · exact h.sublist hsub hrows
  · exact ⟨h.1, h.2.1, h.2.2.sublist hsub hrows⟩

/-- At a heartbeat, everything up to the position of the reader was output. -/
theorem Reader.Sound.perm_of_unkept (hr : r.Unkept) :
    (rowsOfChunks out).Perm (rowsBetween log start r.fetchedSn) := by
  rw [Reader.Sound] at h
  split at h
  · have hrows := h.rows
    rw [append_nil] at hrows
    exact hrows
  · rename_i q hq
    obtain ⟨hposition, hvalid, hdelivered⟩ := h
    rw [← hposition]
    rw [← append_nil out] at hdelivered
    refine hdelivered.upTo hdelivered.le_reach (fun o ho => hdelivered.le o (by simpa using ho))
      (by simp) (hvalid.unkept (hr q hq))

end

/-- What was returned is the rows up to the last sequence number of it. -/
theorem Reader.Sound.perm_of_concat {last : ℤ × List Row} (out' : List (ℤ × List Row))
    (h : r.Sound log start (out ++ [last] ++ out')) :
    (rowsOfChunks (out ++ [last])).Perm (rowsBetween log start last.1) := by
  have hmem : last ∈ out ++ [last] ++ out' := by simp
  obtain ⟨pending, position, reach, hd⟩ := h.delivered
  obtain ⟨hfront, -, hcross⟩ := pairwise_append.1 hd.lt
  refine hd.upTo (le_trans (hd.le last hmem) hd.le_reach) (fun o ho => ?_)
    (fun o ho => hcross last (by simp) o ho) (hd.before last hmem)
  rcases mem_append.1 ho with ho | ho
  · exact le_of_lt ((pairwise_append.1 hfront).2.2 o ho last mem_cons_self)
  · rw [mem_singleton.1 ho]

/-- Calls whose answers have a property have a weaker one. -/
theorem Reads.mono {cfg : ReaderConfig} {p p' : Answer Row → Prop} (hp : ∀ a, p a → p' a)
    (h : Reads cfg log sn p r out) : Reads cfg log sn p' r out := by
  induction h with
  | start => exact .start
  | read run answer eq ih => exact ih.read (hp _ answer) eq

/-- **The rows that were returned** are those of the log from the start on: up to the last sequence
number that was returned, and up to the position when the reader is at the log. -/
theorem Reads.exact (hlog : WellFormed log) {cfg : ReaderConfig} (hcfg : cfg.NoSkip)
    (h : Reads cfg log sn (fun a => Answers log a ∧ NoGap log a) r out) :
    (out.Pairwise fun a b => a.1 < b.1) ∧
      (∀ last ∈ out.getLast?, (rowsOfChunks out).Perm
        ((dataRows log).filter fun x => decide (sn ≤ x.1 ∧ x.1 ≤ last.1))) ∧
      (r.historical = none → (rowsOfChunks out).Perm
        ((dataRows log).filter fun x => decide (sn ≤ x.1 ∧ x.1 ≤ r.fetchedSn))) := by
  have hsound := h.sound hlog hcfg
  refine ⟨hsound.pairwise, fun last hlast => ?_, fun hnone => ?_⟩
  · obtain ⟨init, rfl⟩ := getLast?_eq_some_iff.1 hlast
    rw [← rowsBetween_startPosition hlog]
    exact Reader.Sound.perm_of_concat [] (by rw [append_nil]; exact hsound)
  · simp only [Reader.Sound, hnone] at hsound
    have hrows := hsound.rows
    rw [append_nil, rowsBetween_startPosition hlog] at hrows
    exact hrows

/-- A log of four records with a row each. -/
def gapLog : List (DataEntry ℕ) :=
  [⟨1, some { sn := 1, block := ⟨[10], false⟩ }⟩, ⟨2, some { sn := 2, block := ⟨[20], false⟩ }⟩,
    ⟨3, some { sn := 3, block := ⟨[30], false⟩ }⟩, ⟨4, some { sn := 4, block := ⟨[40], false⟩ }⟩]

/-- The first record was compacted away, and the historical store has it and the third one. -/
def gapAnswer : Answer ℕ where
  logStartSn := 2
  logCommittedSn := 4
  entries := 1
  pulls := [2]
  ended := true
  stored sn := sn == 1 || sn == 3
  select f e :=
    (dataRows gapLog).filter fun x => decide (f < x.1 ∧ x.1 ≤ e) && (x.1 == 1 || x.1 == 3)

/-- The historical store has all records. -/
def fullAnswer : Answer ℕ where
  logStartSn := 2
  logCommittedSn := 4
  entries := 1
  pulls := [4]
  ended := true
  stored _ := true
  select f e := (dataRows gapLog).filter fun x => decide (f < x.1 ∧ x.1 ≤ e) && true

/-- The historical store has all records that were compacted away. -/
theorem fullAnswer_answers : Answers gapLog fullAnswer ∧ NoGap gapLog fullAnswer :=
  ⟨⟨fun _ _ _ => rfl, fun _ _ => List.Pairwise.filter _ (by decide), fun _ _ => List.Perm.refl _⟩,
    fun _ _ _ _ _ _ => rfl⟩

/-- The log is well-formed. -/
theorem wellFormed_gapLog : WellFormed gapLog := ⟨by decide, by decide⟩

/-- The historical store has a record without one before it. -/
theorem gapAnswer_answers : Answers gapLog gapAnswer where
  stored := by decide
  sorted f e := List.Pairwise.filter _ (by decide)
  rows f e := List.Perm.refl _

/-- **A record is lost.** After the compacted records, the reader goes on after the last record of
the historical store, although the record before it was not stored yet. -/
theorem reads_lose_records : WellFormed gapLog ∧
    (∃ r, Reads {} gapLog 1 (Answers gapLog) r [(1, [10]), (3, [30]), (4, [40])]) ∧
    (2, 20) ∈ dataRows gapLog := by
  refine ⟨wellFormed_gapLog, ?_, by decide⟩
  have first : Reads {} gapLog 1 (Answers gapLog) (Reader.startFetch ⟨-1, none⟩ 1) [] := Reads.start
  have second := first.read gapAnswer_answers rfl
  have third := second.read gapAnswer_answers rfl
  exact ⟨_, third.read gapAnswer_answers rfl⟩

end Proton.StreamingBlockReader
