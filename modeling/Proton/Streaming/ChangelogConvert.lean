import Proton.Streaming.HashJoin.RefCountDataBlockList

/-!
# Converting a Stream to a Changelog

This module embeds `Processors/Transforms/Streaming/ChangelogConvertTransform.cpp`: `work`,
`retractAndIndex` and `transformEmptyChunk`. The transform keeps a reference to the row of each
key. A row of a known key retracts the row before it, unless its version is late. Of the rows of
one key in one chunk at most one is retracted, which was there before the chunk, and at most one is
inserted; `retracted` has the last kept row of each key of the chunk, and `filter` the rows that
are inserted.

A row is a value of `R`, of which the key columns, the version column and the output columns are
read. A checkpoint is requested by a chunk without rows, and is treated as one. A function has no
result where the source would follow a reference to an erased chunk.
-/

namespace Proton.Streaming

/-- What the constructor is given. -/
structure ChangelogConvertConfig (R K W O : Type) where
  /-- `key_column_positions`. -/
  keyColumns : R → K
  /-- `version_column_position`. -/
  versionColumn : Option (R → W) := none
  /-- `output_column_positions`. -/
  outputColumns : R → O
  /-- `late_insert_overrides`. -/
  lateInsertOverrides : Bool := true
  /-- `backfill_key_unique`. -/
  backfillKeyUnique : Bool := false

/-- An input chunk, with the marks of a chunk without rows. -/
structure InputChunk (R : Type) where
  /-- The rows. -/
  rows : List R
  /-- `isHistoricalDataStart`. -/
  historicalDataStart : Bool := false
  /-- `isHistoricalDataEnd`. -/
  historicalDataEnd : Bool := false
  deriving DecidableEq, Repr

/-- An output chunk: the output columns and `_tp_delta`. -/
structure OutputChunk (O : Type) where
  /-- The rows. -/
  rows : List (O × ℤ)
  /-- `setConsecutiveDataFlag`. -/
  consecutiveData : Bool := false
  deriving DecidableEq, Repr

/-- The state of `ChangelogConvertTransform`. -/
structure ChangelogConvertTransform (R K : Type) [LinearOrder K] where
  /-- `source_chunks`. -/
  sourceChunks : RefCountDataBlockList R := {}
  /-- `index`. -/
  index : SortedMap K RowRefWithRefCount := .empty
  /-- `late_rows`. -/
  lateRows : ℕ := 0
  /-- `backfill_started`. -/
  backfillStarted : Bool := false
  /-- `backfill_done`. -/
  backfillDone : Bool := false

/-- The variables of the loop of `retractAndIndex`. -/
structure RetractState (R K O : Type) [LinearOrder K] where
  /-- `source_chunks`. -/
  sourceChunks : RefCountDataBlockList R
  /-- `index`. -/
  index : SortedMap K RowRefWithRefCount
  /-- `late_rows`. -/
  lateRows : ℕ
  /-- `retracted`: the last kept row of a key. -/
  retracted : SortedMap K ℕ := .empty
  /-- `filter`. -/
  filter : List Bool
  /-- `retract_chunk_columns`, without `_tp_delta`. -/
  retractChunk : List O := []

section Model

variable {R K W O : Type} [LinearOrder K] [LinearOrder W] (cfg : ChangelogConvertConfig R K W O)

namespace RetractState

/-- `retract_and_update`. -/
def retractAndUpdate (key : K) (mapped : RowRefWithRefCount) (row : ℕ) (s : RetractState R K O) :
    Option (RetractState R K O) := do
  let s ← match s.retracted.find? key with
    | none => do
      let prev ← s.sourceChunks.get mapped
      pure { s with
        retracted := s.retracted.insert key row
        retractChunk := s.retractChunk ++ [cfg.outputColumns prev] }
    | some seen =>
      pure { s with
        retracted := s.retracted.insert key row
        filter := s.filter.set seen false }
  let sourceChunks ← s.sourceChunks.deref mapped
  let last ← sourceChunks.lastDataBlockIter
  pure { s with sourceChunks, index := s.index.insert key ⟨last, row⟩ }

/-- Whether the row of the last chunk is late. -/
def isLate (last : ℕ) (mapped : RowRefWithRefCount) (row : ℕ) (s : RetractState R K O) :
    Option Bool :=
  match cfg.versionColumn with
  | none => some false
  | some version => do
    let prev ← s.sourceChunks.get mapped
    let current ← s.sourceChunks.get ⟨last, row⟩
    pure (¬ (version prev < version current ∨
      cfg.lateInsertOverrides ∧ version current = version prev))

/-- The body of the loop, for the row with this key. -/
def indexRow (last : ℕ) (s : RetractState R K O) (row : K × ℕ) : Option (RetractState R K O) :=
  match s.index.find? row.1 with
  | some mapped => do
    let late ← s.isLate cfg last mapped row.2
    if late then
      pure { s with filter := s.filter.set row.2 false, lateRows := s.lateRows + 1 }
    else s.retractAndUpdate cfg row.1 mapped row.2
  | none => do
    let last ← s.sourceChunks.lastDataBlockIter
    pure { s with
      index := s.index.insert row.1 ⟨last, row.2⟩
      retracted := s.retracted.alter row.1 fun seen => some (seen.getD row.2) }

end RetractState

/-- The rows that a filter keeps. -/
def keepRows (rows : List R) (filter : List Bool) : List R :=
  ((rows.zip filter).filter (·.2)).map (·.1)

/-- The rows with `_tp_delta`. -/
def withDelta (delta : ℤ) (rows : List O) : List (O × ℤ) := rows.map (·, delta)

namespace ChangelogConvertTransform

/-- `backfillingNewKeys`. -/
def backfillingNewKeys (s : ChangelogConvertTransform R K) : Bool :=
  cfg.backfillKeyUnique && s.backfillStarted && !s.backfillDone

/-- The fast path of `retractAndIndex`: the keys are new. -/
def indexNewKeys (last : ℕ) (rows : List R) (index : SortedMap K RowRefWithRefCount) :
    SortedMap K RowRefWithRefCount :=
  rows.zipIdx.foldl (fun index row => index.insert (cfg.keyColumns row.1) ⟨last, row.2⟩) index

/-- The chunks that `retractAndIndex` outputs after its loop. -/
def resultChunks (rows : List R) (s : RetractState R K O) : List (OutputChunk O) :=
  let retract : List (OutputChunk O) :=
    if s.retractChunk = [] then []
    else [⟨withDelta (-1) s.retractChunk, true⟩]
  let resultingRows := s.filter.count true
  let result : OutputChunk O :=
    if resultingRows = rows.length then ⟨withDelta 1 (rows.map cfg.outputColumns), false⟩
    else if resultingRows ≠ 0 then
      ⟨withDelta 1 ((keepRows rows s.filter).map cfg.outputColumns), false⟩
    else ⟨[], false⟩
  retract ++ [result]

/-- `retractAndIndex`. -/
def retractAndIndex (rows : List R) (s : ChangelogConvertTransform R K) :
    Option (ChangelogConvertTransform R K × List (OutputChunk O)) := do
  let sourceChunks := s.sourceChunks.pushBack rows
  let last ← sourceChunks.lastDataBlockIter
  if s.backfillingNewKeys cfg then
    pure ({ s with sourceChunks, index := indexNewKeys cfg last rows s.index },
      [⟨withDelta 1 (rows.map cfg.outputColumns), false⟩])
  else
    let loop ← ((rows.map cfg.keyColumns).zipIdx).foldlM (RetractState.indexRow cfg last)
      { sourceChunks, index := s.index, lateRows := s.lateRows,
        filter := List.replicate rows.length true }
    let chunk ← loop.sourceChunks.blocks.find? last
    pure ({ s with
        sourceChunks := loop.sourceChunks, index := loop.index, lateRows := loop.lateRows },
      resultChunks cfg chunk.rows loop)

/-- `transformEmptyChunk`. -/
def transformEmptyChunk (chunk : InputChunk R) (s : ChangelogConvertTransform R K) :
    ChangelogConvertTransform R K × List (OutputChunk O) :=
  (if s.backfillDone then s
    else if s.backfillStarted then { s with backfillDone := chunk.historicalDataEnd }
    else { s with backfillStarted := chunk.historicalDataStart },
    [⟨[], false⟩])

/-- `work`. -/
def work (chunk : InputChunk R) (s : ChangelogConvertTransform R K) :
    Option (ChangelogConvertTransform R K × List (OutputChunk O)) :=
  if chunk.rows = [] then some (s.transformEmptyChunk chunk)
  else s.retractAndIndex cfg chunk.rows

/-- The chunks one after the other, with what is output for each of them. -/
def run : List (InputChunk R) → ChangelogConvertTransform R K →
    Option (ChangelogConvertTransform R K × List (List (OutputChunk O)))
  | [], s => some (s, [])
  | chunk :: chunks, s => do
    let (s, output) ← s.work cfg chunk
    let (s, outputs) ← run chunks s
    pure (s, output :: outputs)

end ChangelogConvertTransform

end Model

end Proton.Streaming
