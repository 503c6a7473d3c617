import Proton.Storages.MergeTree.SequenceInfo
import Proton.Storages.Stream.SequenceProgress

/-!
# Committing Records

This module embeds `StreamShardStore::commit`, which turns a batch of records into blocks that are
committed to the historical store. Records of one schema version are merged into one block, unless
only some of them have dynamic subcolumns; a block with dynamic subcolumns is committed when it is
big enough, and a control command is carried out after the block before it. A record with an
idempotent key that was seen before is left out (`InMemoryIdempotentKeys`).

The list of keys is behind a pointer that is moved into `doCommit`: after that, it is null until a
new list is made.

Left out are the columns of a block other than by their rows, what `assignSequenceID` and
`assignIndexTime` write into them, and that the store may be stopped at any record.
-/

namespace Proton.StreamShardStore

/-- `OpCode`: data, the control commands that are handled, and the others. -/
inductive OpCode where
  | insertData
  | truncate
  | alterPartition
  | deleteRows
  | rebuildIndex
  | dropIndex
  | optimize
  | other
  deriving DecidableEq, Repr

/-- A block with columns. -/
structure Block (Row : Type) where
  /-- The rows. -/
  rows : List Row
  /-- `hasDynamicSubcolumns`. -/
  hasDynamicSubcolumns : Bool
  deriving DecidableEq, Repr

/-- `SchemaRecord`. -/
structure SchemaRecord (Row : Type) where
  /-- `getSN`. -/
  sn : ℤ
  /-- `idempotentKey`, which is empty if there is none. -/
  idempotentKey : String := ""
  /-- `opCode`. -/
  opCode : OpCode := .insertData
  /-- `schemaVersion`. -/
  schemaVersion : ℕ := 0
  /-- `getBlock`. -/
  block : Block Row
  deriving DecidableEq, Repr

/-- `hasIdempotentKey`. -/
def SchemaRecord.hasIdempotentKey {Row : Type} (rec : SchemaRecord Row) : Prop :=
  rec.idempotentKey ≠ ""
deriving Decidable

/-! ### Idempotent keys -/

/-- `InMemoryIdempotentKeys`: the last keys, the oldest one first. The source needs a positive
`max_ids`: with zero it takes a key from an empty queue. -/
structure InMemoryIdempotentKeys where
  /-- `max_ids`. -/
  maxIds : ℕ
  /-- `keys`. -/
  keys : List IdempotentKey := []
  deriving DecidableEq, Repr

namespace InMemoryIdempotentKeys

/-- `keys_index.contains`. -/
def contains (s : InMemoryIdempotentKeys) (key : String) : Prop := key ∈ s.keys.map (·.2)
deriving Decidable

/-- `add`, unless the key is there. The oldest keys are given up. -/
def add (s : InMemoryIdempotentKeys) (sn : ℤ) (key : String) : Option InMemoryIdempotentKeys :=
  if s.contains key then none
  else some { s with keys := s.keys.drop (s.keys.length + 1 - s.maxIds) ++ [(sn, key)] }

end InMemoryIdempotentKeys

/-! ### The loop -/

/-- How a commit ends early. -/
inductive CommitError where
  /-- The list of keys is used after it was moved. -/
  | nullKeys
  /-- `NOT_IMPLEMENTED`: a control command that is not handled. -/
  | notImplemented
  deriving DecidableEq, Repr

/-- The settings of the stream, and the size of a block. -/
structure CommitSettings (Row : Type) where
  /-- `dynamic_commit_row_threshold`. -/
  rowThreshold : ℕ
  /-- `dynamic_commit_byte_threshold`. -/
  byteThreshold : ℕ
  /-- `Block::bytes`. -/
  bytes : List Row → ℕ

/-- A call of `doCommit`. -/
structure CommitCall (Row : Type) where
  /-- `block`. -/
  block : Block Row
  /-- `seq_pair`. -/
  seq : SequencePair
  /-- `keys`. -/
  keys : Option (List IdempotentKey)
  /-- `missing_sequence_ranges`. -/
  missing : List SequenceRange
  /-- The schema version of `metadata`. -/
  version : ℕ
  deriving DecidableEq

/-- What `commit` does, one after the other. -/
inductive StoreCall (Row : Type) where
  /-- `doCommit`. -/
  | doCommit (call : CommitCall Row)
  /-- `handleControlCommand`, and the progress of its sequence number. -/
  | command (opCode : OpCode) (sn : ℤ)
  deriving DecidableEq

/-- The local variables of `commit`, and what was called. -/
structure CommitState (Row : Type) where
  /-- `block`. -/
  block : Option (Block Row) := none
  /-- `keys`. -/
  keys : Option (List IdempotentKey) := some []
  /-- `start_sn`. -/
  startSN : ℤ := -1
  /-- `end_sn`. -/
  endSN : ℤ := -1
  /-- The schema version of `metadata`. -/
  version : ℕ := 0
  /-- `missing_sequence_ranges`. -/
  missing : List SequenceRange
  /-- `idempotent_keys` of the store. -/
  idempotentKeys : InMemoryIdempotentKeys
  /-- What was called. -/
  calls : List (StoreCall Row) := []

namespace CommitState

variable {Row : Type}

/-- `doCommit` of a block. -/
def doCommit (s : CommitState Row) (block : Block Row) (endSN : ℤ) : CommitState Row :=
  { s with
    calls := s.calls ++
      [.doCommit ⟨block, .mk s.startSN endSN, s.keys, s.missing, s.version⟩] }

variable (s : CommitState Row)

/-- A record is the first one of a block. -/
def restart (rec : SchemaRecord Row) : CommitState Row :=
  { s with block := some rec.block, startSN := rec.sn, endSN := rec.sn }

/-- `mergeBlocks`. -/
def mergeBlocks (lhs rhs : Block Row) : Block Row := { lhs with rows := lhs.rows ++ rhs.rows }

/-- The rows of a record are added to the block, or the block is committed before. -/
def insertData (rec : SchemaRecord Row) : CommitState Row :=
  match s.block with
  | none => { s.restart rec with version := rec.schemaVersion }
  | some block =>
    if s.version = rec.schemaVersion then
      if block.hasDynamicSubcolumns ≠ rec.block.hasDynamicSubcolumns then
        { (s.doCommit block s.endSN).restart rec with keys := some [] }
      else { s with block := some (mergeBlocks block rec.block), endSN := rec.sn }
    else
      -- the keys and the missing ranges are moved
      { (s.doCommit block s.endSN).restart rec with
        keys := none, missing := [], version := rec.schemaVersion }

variable (settings : CommitSettings Row)

/-- A block with dynamic subcolumns is committed if it is big enough. -/
def commitDynamic (s : CommitState Row) (rec : SchemaRecord Row) : CommitState Row :=
  match s.block with
  | none => s
  | some block =>
    if block.hasDynamicSubcolumns ∧ (settings.rowThreshold ≤ block.rows.length ∨
        settings.byteThreshold ≤ settings.bytes block.rows) then
      { s.doCommit block rec.sn with block := none, keys := some [] }
    else s

/-- The block before a control command is committed; the keys and the missing ranges are moved. -/
def commitBefore : CommitState Row :=
  match s.block with
  | none => { s with keys := some [] }
  | some block =>
    { s.doCommit block s.endSN with block := none, keys := some [], missing := [] }

/-- A control command. -/
def controlCommand (rec : SchemaRecord Row) : Except CommitError (CommitState Row) :=
  let s := s.commitBefore
  match rec.opCode with
  | .other => throw .notImplemented
  | opCode =>
    pure { s with
      startSN := rec.sn
      endSN := rec.sn
      calls := s.calls ++ [.command opCode rec.sn] }

/-- A record that is not left out. -/
def accept (s : CommitState Row) (rec : SchemaRecord Row) : Except CommitError (CommitState Row) :=
  match rec.opCode with
  | .insertData => pure ((s.insertData rec).commitDynamic settings rec)
  | _ => s.controlCommand rec

/-- One record of the loop of `commit`. -/
def commitRecord (s : CommitState Row) (rec : SchemaRecord Row) :
    Except CommitError (CommitState Row) :=
  if rec.hasIdempotentKey then
    match s.idempotentKeys.add rec.sn rec.idempotentKey with
    | none => pure s
    | some idempotentKeys =>
      match s.keys with
      | none => throw .nullKeys
      | some keys =>
        accept settings
          { s with
            idempotentKeys := idempotentKeys
            keys := some (keys ++ [(rec.sn, rec.idempotentKey)]) } rec
  else accept settings s rec

/-- The end of `commit`: the last block is committed up to the last record of the batch. -/
def finish (lastSN : ℤ) : CommitState Row :=
  match s.block with
  | none => s
  | some block => s.doCommit block lastSN

end CommitState

variable {Row : Type}

/-- `StreamShardStore::commit`: what is called, and the idempotent keys afterwards. -/
def commit (settings : CommitSettings Row) (idempotentKeys : InMemoryIdempotentKeys)
    (records : List (SchemaRecord Row)) (missing : List SequenceRange) :
    Except CommitError (List (StoreCall Row) × InMemoryIdempotentKeys) := do
  let s ← records.foldlM (CommitState.commitRecord settings)
    { missing := missing, idempotentKeys := idempotentKeys }
  match records.getLast? with
  | none => pure ([], idempotentKeys)
  | some last =>
    let s := s.finish last.sn
    pure (s.calls, s.idempotentKeys)

/-- The blocks that are committed. -/
def commitCalls (calls : List (StoreCall Row)) : List (CommitCall Row) :=
  calls.filterMap fun
    | .doCommit call => some call
    | .command _ _ => none

end Proton.StreamShardStore
