import Proton.Storages.Stream.StreamingBlockReader

/-!
# The Position of a Source

This module embeds `StreamingStoreSourceBase::generate` over the reader of a shard. A call returns
the next chunk, or reads again when there is none; if nothing was read, a heartbeat is returned. The
last processed sequence number, which a checkpoint saves, is the one of the chunk, and at a
heartbeat the one up to which the reader has fetched.

Left out are the columns of a chunk other than by their rows, and deduplication, which is off.

## Main results

* `checkpoint_covers_output`: the rows up to the last processed sequence number are those that were
  output, if a heartbeat never happens while the reader keeps rows.
* `checkpoint_covers_kept_rows`: otherwise, a checkpoint covers rows that were not output.
-/

open List

namespace Proton.StreamingStoreSource

open StreamShardStore StreamingBlockReader Streaming

variable {Row : Type}

/-- `StreamingStoreSourceBase`. -/
structure Source (Row : Type) where
  /-- `reader`. -/
  reader : Reader Row
  /-- `result_chunks_with_sns` from `iter` on. -/
  chunks : List (ℤ × List Row) := []
  /-- `lastProcessedSN`. -/
  lastProcessedSn : ℤ

/-- `process`: a record without rows is left out. -/
def process (records : List (SchemaRecord Row)) : List (ℤ × List Row) :=
  (chunksOf records).filter fun c => !c.2.isEmpty

/-- A chunk of the results is returned; without one, it is a heartbeat. -/
def output (s : Source Row) : Option (ℤ × List Row) × Source Row :=
  match s.chunks with
  | c :: chunks => (some c, { s with chunks := chunks, lastProcessedSn := c.1 })
  | [] => (none, { s with
      lastProcessedSn := if s.lastProcessedSn < s.reader.fetchedSn then s.reader.fetchedSn
        else s.lastProcessedSn })

/-- `generate`: the chunk that is returned, unless it is a heartbeat. There is no result if `read`
throws an exception. -/
def generate (cfg : ReaderConfig) (log : List (DataEntry Row)) (s : Source Row) (a : Answer Row) :
    Option (Option (ℤ × List Row) × Source Row) :=
  match s.chunks with
  | _ :: _ => some (output s)
  | [] => (read cfg log s.reader a).map fun r =>
    output { s with reader := r.2, chunks := process r.1 }

/-- A source that is created to start at a sequence number. -/
def create (sn : ℤ) : Source Row where
  reader := Reader.startFetch ⟨-1, none⟩ sn
  lastProcessedSn := if 1 ≤ sn then sn - 1 else -1

/-- Calls of `generate`: the source after them, and all chunks that were output. -/
inductive Generates (cfg : ReaderConfig) (log : List (DataEntry Row)) (sn : ℤ)
    (p : Source Row → Answer Row → Prop) : Source Row → List (ℤ × List Row) → Prop
  /-- The source is created. -/
  | start : Generates cfg log sn p (create sn) []
  /-- `generate` is called. -/
  | generate {s s' : Source Row} {out : List (ℤ × List Row)} {a : Answer Row}
      {chunk : Option (ℤ × List Row)} (run : Generates cfg log sn p s out) (answer : p s a)
      (eq : generate cfg log s a = some (chunk, s')) :
      Generates cfg log sn p s' (out ++ chunk.toList)

/-! ### Reads that keep no rows -/

/-- A read of a query gets to its end, or the rows that it keeps at the begin and those that it
pulls are none, or have two sequence numbers. -/
def Settles (s : Source Row) (a : Answer Row) : Prop :=
  s.chunks = [] → ∀ q ∈ s.reader.historical,
    (a.ended = true ∧ q.rest.length ≤ a.pulls.sum) ∨
      let rows := q.splitter.rows ++ q.rest.take a.pulls.sum
      rows = [] ∨ ∃ x ∈ rows, ∃ y ∈ rows, x.1 ≠ y.1

section Sound

variable {log : List (DataEntry Row)} {start : ℤ} {out : List (ℤ × List Row)}

/-- A query that was just started keeps no rows. -/
theorem unkept_of_finish {a : Answer Row} {q : HistoricalQuery Row} {r : Reader Row}
    (h : finish a q = some r) : r.Unkept := by
  rw [finish] at h
  split_ifs at h with hcaught hempty hend
  · obtain rfl := Option.some.inj h
    intro q' hq'
    cases hq'
  · obtain rfl := Option.some.inj h
    intro q' hq'
    obtain rfl := Option.some.inj hq'
    rfl
  · obtain rfl := Option.some.inj h
    intro q' hq'
    obtain rfl := Option.some.inj hq'
    rfl

/-- Processing keeps the rows. -/
theorem rowsOfChunks_process (records : List (SchemaRecord Row)) :
    rowsOfChunks (process records) = rowsOfChunks (chunksOf records) := by
  rw [process]
  induction chunksOf records with
  | nil => rfl
  | cons c chunks ih =>
    rw [filter_cons, rowsOfChunks_cons, ← ih]
    split_ifs with h
    · rfl
    · have hempty : c.2 = [] := by simpa using h
      rw [hempty, map_nil, nil_append]

/-- Buffered rows have the buffered sequence number. -/
theorem sn_of_mem_rows {t : Splitter Row} {x : ℤ × Row} (h : x ∈ t.rows) : x.1 = t.bufferedSn := by
  obtain ⟨row, -, rfl⟩ := mem_map.1 h
  rfl

variable {cfg : ReaderConfig}

/-- **A read that returns no rows keeps none.** -/
theorem unkept_of_read {s : Source Row} {a : Answer Row} {r : Reader Row}
    {records : List (SchemaRecord Row)} (hsound : s.reader.Sound log start out)
    (hsettles : Settles s a) (hnil : s.chunks = [])
    (hread : read cfg log s.reader a = some (records, r)) (hprocess : process records = []) :
    r.Unkept := by
  obtain ⟨⟨f, historical⟩, chunks, last⟩ := s
  cases historical with
  | none =>
    simp only [StreamingBlockReader.read] at hread
    split_ifs at hread
    all_goals
      obtain ⟨-, rfl⟩ := Prod.mk.inj (Option.some.inj hread)
      intro q hq
      cases hq
    rfl
  | some q =>
    obtain ⟨-, hq, hdelivered⟩ := hsound
    have hpulled := (Pulling.init hq hdelivered).foldl a.pulls
    simp only [StreamingBlockReader.read, readFromHistoricalStore, Option.map_eq_some_iff] at hread
    obtain ⟨t, ht, heq⟩ := hread
    obtain ⟨rfl, rfl⟩ := Prod.mk.inj heq
    split_ifs at ht with hended
    · obtain ⟨r, hr, rfl⟩ := Option.map_eq_some_iff.1 ht
      exact unkept_of_finish hr
    · obtain rfl := Option.some.inj ht
      intro q' hq'
      obtain rfl := Option.some.inj hq'
      set t := a.pulls.foldl pull (q, []) with ht
      have hrest : t.1.rest = q.rest.drop a.pulls.sum := by rw [hpulled.rest, zero_add]
      have hrows : t.1.splitter.rows = q.splitter.rows ++ q.rest.take a.pulls.sum := by
        have hall := hpulled.rows
        have hnone := rowsOfChunks_process (t.2.map (toRecord cfg.schemaVersionRequested))
        rw [hprocess, chunksOf_map_toRecord] at hnone
        rw [← hnone, rowsOfChunks_nil, nil_append, HistoricalQuery.pending,
          HistoricalQuery.pending, hrest, ← take_append_drop a.pulls.sum q.rest,
          ← append_assoc, take_append_drop] at hall
        exact append_cancel_right hall
      rcases hsettles hnil q rfl with ⟨hend, hlength⟩ | hnone | ⟨x, hx, y, hy, hne⟩
      · refine absurd ⟨hend, ?_⟩ hended
        rw [hrest, drop_eq_nil_of_le hlength]
        rfl
      · exact map_eq_nil_iff.1 (hrows.trans hnone)
      · rw [← hrows] at hx hy
        exact absurd ((sn_of_mem_rows hx).trans (sn_of_mem_rows hy).symm) hne

/-! ### All calls -/

/-- What was output and what is waiting is what the reader returned, and the rows up to the last
processed sequence number were output. -/
structure Source.Sound (log : List (DataEntry Row)) (start : ℤ) (s : Source Row)
    (out : List (ℤ × List Row)) : Prop where
  /-- What the reader returned. -/
  reader : s.reader.Sound log start (out ++ s.chunks)
  /-- What was output. -/
  rows : (rowsOfChunks out).Perm (rowsBetween log start s.lastProcessedSn)

/-- A chunk or a heartbeat. -/
theorem Source.Sound.output (s : Source Row) (hreader : s.reader.Sound log start (out ++ s.chunks))
    (hrows : (rowsOfChunks out).Perm (rowsBetween log start s.lastProcessedSn))
    (hunkept : s.chunks = [] → s.reader.Unkept) :
    (output s).2.Sound log start (out ++ (output s).1.toList) := by
  obtain ⟨r, chunks, last⟩ := s
  cases chunks with
  | cons c chunks =>
    have hsplit : out ++ c :: chunks = out ++ [c] ++ chunks := by simp
    rw [hsplit] at hreader
    exact ⟨hreader, Reader.Sound.perm_of_concat chunks hreader⟩
  | nil =>
    have hout : out ++ Option.toList none = out := append_nil out
    simp only [StreamingStoreSource.output]
    rw [hout]
    refine ⟨hreader, ?_⟩
    rw [append_nil] at hreader
    split_ifs with hlt
    · exact hreader.perm_of_unkept (hunkept rfl)
    · exact hrows

/-- One call of `generate` keeps the source sound. -/
theorem Source.Sound.generate (hlog : WellFormed log) (hcfg : cfg.NoSkip) (hstart : -1 ≤ start)
    {s s' : Source Row} {a : Answer Row} (ha : Answers log a) (hgap : NoGap log a)
    (hsettles : Settles s a) {chunk : Option (ℤ × List Row)} (h : s.Sound log start out)
    (heq : generate cfg log s a = some (chunk, s')) : s'.Sound log start (out ++ chunk.toList) := by
  rw [StreamingStoreSource.generate] at heq
  cases hchunks : s.chunks with
  | cons c chunks =>
    rw [hchunks] at heq
    have hs := Source.Sound.output s h.reader h.rows
      fun hnil => absurd (hchunks.symm.trans hnil) (cons_ne_nil _ _)
    rw [Option.some.inj heq] at hs
    exact hs
  | nil =>
    rw [hchunks] at heq
    obtain ⟨⟨records, r⟩, hread, hout⟩ := Option.map_eq_some_iff.1 heq
    have hreader := h.reader
    rw [hchunks, append_nil] at hreader
    have hsub : (out ++ process records).Sublist (out ++ chunksOf records) :=
      (List.Sublist.refl out).append filter_sublist
    have hrows : rowsOfChunks (out ++ process records) =
        rowsOfChunks (out ++ chunksOf records) := by
      rw [rowsOfChunks_append, rowsOfChunks_append, rowsOfChunks_process]
    have hr := (hreader.read hlog hcfg ha hgap hstart hread).sublist hsub hrows
    have hs := Source.Sound.output { s with reader := r, chunks := process records } hr h.rows
      fun hnil => unkept_of_read hreader hsettles hchunks hread hnil
    rw [hout] at hs
    exact hs

/-- **Every run is sound**, by induction on the calls. -/
theorem Generates.sound (hlog : WellFormed log) (hcfg : cfg.NoSkip) {sn : ℤ} {s : Source Row}
    (h : Generates cfg log sn (fun s a => Answers log a ∧ NoGap log a ∧ Settles s a) s out) :
    s.Sound log (startPosition sn) out := by
  induction h with
  | start =>
    refine ⟨Reader.Sound.startFetch log sn, ?_⟩
    have hlast : (create sn : Source Row).lastProcessedSn = startPosition sn := rfl
    rw [hlast, rowsBetween_self]
    exact List.Perm.refl _
  | generate run answer eq ih =>
    obtain ⟨ha, hgap, hsettles⟩ := answer
    exact ih.generate hlog hcfg (neg_one_le_startPosition sn) ha hgap hsettles eq

end Sound

/-- **A checkpoint covers what was output.** If the historical store has no record without those
before it, and a read of it that does not get to the end of its query never has only rows of one
sequence number, the rows that were output are those of the records from the start up to the last
processed sequence number. -/
theorem checkpoint_covers_output {log : List (DataEntry Row)} (hlog : WellFormed log)
    {cfg : ReaderConfig} (hcfg : cfg.NoSkip) {sn : ℤ} {s : Source Row} {out : List (ℤ × List Row)}
    (h : Generates cfg log sn (fun s a => Answers log a ∧ NoGap log a ∧ Settles s a) s out) :
    (rowsOfChunks out).Perm
      ((dataRows log).filter fun x => decide (sn ≤ x.1 ∧ x.1 ≤ s.lastProcessedSn)) := by
  rw [← rowsBetween_startPosition hlog]
  exact (h.sound hlog hcfg).rows

/-- A log of one record with two rows. -/
def twoRows : List (DataEntry ℕ) := [⟨1, some { sn := 1, block := ⟨[10, 11], false⟩ }⟩]

/-- The record was compacted away; its rows are pulled in chunks of some sizes. -/
def chunkedAnswer (pulls : List ℕ) (ended : Bool) : Answer ℕ where
  logStartSn := 2
  logCommittedSn := 2
  entries := 0
  pulls := pulls
  ended := ended
  stored _ := true
  select f e := (dataRows twoRows).filter fun x => decide (f < x.1 ∧ x.1 ≤ e) && true

/-- The log is well-formed. -/
theorem wellFormed_twoRows : WellFormed twoRows := ⟨by decide, by decide⟩

/-- The historical store has both records. -/
theorem chunkedAnswer_answers (pulls : List ℕ) (ended : Bool) :
    Answers twoRows (chunkedAnswer pulls ended) ∧ NoGap twoRows (chunkedAnswer pulls ended) :=
  ⟨⟨fun _ _ _ => rfl, fun _ _ => List.Pairwise.filter _ (by decide), fun _ _ => List.Perm.refl _⟩,
    fun _ _ _ _ _ _ => rfl⟩

/-- A source that outputs a record of the historical store. -/
theorem checkpoint_covers_output_twoRows : ∃ s : Source ℕ, s.lastProcessedSn = 1 ∧
    (rowsOfChunks [(1, [10, 11])]).Perm
      ((dataRows twoRows).filter fun x => decide (1 ≤ x.1 ∧ x.1 ≤ s.lastProcessedSn)) := by
  obtain ⟨ha, hgap⟩ := chunkedAnswer_answers [2] true
  have first : Generates {} twoRows 1
    (fun s a => Answers twoRows a ∧ NoGap twoRows a ∧ Settles s a) (create 1) [] := Generates.start
  have second := first.generate ⟨ha, hgap, fun _ q hq => by cases hq⟩ rfl
  have third := second.generate ⟨ha, hgap, fun _ q hq => by cases hq; exact .inl (by decide)⟩ rfl
  exact ⟨_, rfl, checkpoint_covers_output wellFormed_twoRows ⟨rfl, .inl rfl⟩ third⟩

/-- **A checkpoint covers rows that were not output.** The first row of a record is pulled and kept
by the reader; the heartbeat takes over the position of the reader. -/
theorem checkpoint_covers_kept_rows : WellFormed twoRows ∧
    (∃ s, Generates {} twoRows 1 (fun _ a => Answers twoRows a ∧ NoGap twoRows a) s [] ∧
      s.lastProcessedSn = 1) ∧
    dataRows twoRows = [(1, 10), (1, 11)] := by
  refine ⟨wellFormed_twoRows, ?_, rfl⟩
  have first : Generates {} twoRows 1 (fun _ a => Answers twoRows a ∧ NoGap twoRows a)
      (create 1) [] :=
    Generates.start
  have second := first.generate (chunkedAnswer_answers [] false) rfl
  have third := second.generate (chunkedAnswer_answers [1] false) rfl
  exact ⟨_, third, rfl⟩

end Proton.StreamingStoreSource
