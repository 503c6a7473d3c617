import Mathlib.Data.Int.Notation

/-!
# The Hash Join in Memory

This module embeds `MemoryHashJoin.cpp` for bidirectional joins that are not range joins:
`insertLeftBlockAndJoin` and `insertRightBlockAndJoin`, down to `joinColumns`. The source is a
template in the mapped type of its hash tables; here the functions have the operations of the hash
tables as a parameter.

The functions for a left and for a right block differ in their direction only. They are one
function of the stream a block belongs to, whose rows are of type `A`, and of the other stream,
whose rows are of type `B`; the kind of the join is turned for a right block.

A row of a block comes with its `_tp_delta`, which a joined row takes over and which is left out of
the output unless a changelog is emitted. In a joined row, a missing side stands for the default
values of its columns.
-/

namespace Proton.Streaming

/-- `Kind` of `joinKind.h`. -/
inductive Kind where
  | inner
  | left
  | right
  | full
  deriving DecidableEq, Repr

/-- `flipKind`. -/
def flipKind : Kind → Kind
  | .inner => .inner
  | .left => .right
  | .right => .left
  | .full => .full

/-- `Strictness` of `joinKind.h`, without the range joins. -/
inductive Strictness where
  | latest
  | all
  | asof
  | multiple
  | anti
  deriving DecidableEq, Repr

/-- How a function ends early. -/
inductive JoinError where
  /-- An exception with its text. -/
  | exception (message : String)
  /-- A reference to an erased block is followed. -/
  | dangling
  deriving DecidableEq, Repr

/-- What a row finds in a hash table. -/
inductive Lookup (B : Type) where
  /-- The key of the row is null. -/
  | null
  /-- The hash table does not have the key. -/
  | missing
  /-- The rows of the mapped value. -/
  | found (rows : List B)
  deriving DecidableEq, Repr

/-- The operations of the hash table of a stream with rows of type `A`, which the rows of type `B`
of the other stream look up. -/
structure HashTable (S A B : Type) where
  /-- `insertFromBlockImpl`, with `new_keys_filter`. -/
  insertFromBlock : List A → S → Except JoinError (S × List Bool)
  /-- `findKey`. -/
  findKey : S → B → Except JoinError (Lookup A)
  /-- `doEraseExistingKeys`. -/
  doEraseExistingKeys : List A → S → Except JoinError S

/-- What does not change during a join. -/
structure JoinConfig where
  /-- `streaming_kind`. -/
  kind : Kind
  /-- `streaming_strictness`. -/
  strictness : Strictness
  /-- `emit_changelog`. -/
  emitChangelog : Bool
  /-- `hasDeltaColumn` of the left stream. -/
  leftDelta : Bool
  /-- `hasDeltaColumn` of the right stream. -/
  rightDelta : Bool
  deriving DecidableEq, Repr

/-- The rows of a block, with `_tp_delta`. -/
abbrev DeltaBlock (A : Type) : Type := List (A × ℤ)

/-- Joined rows: the row of the block or its defaults, the row of the other stream or its defaults,
and `_tp_delta`. -/
abbrev JoinedBlock (A B : Type) : Type := List ((Option A × Option B) × ℤ)

section Model

variable {S T A B : Type}

/-- `isRetractBlock`. -/
def isRetractBlock (hasDelta : Bool) (block : DeltaBlock A) : Bool :=
  hasDelta && block.head?.any (·.2 < 0)

/-- The body of the loop of `joinColumns`: the rows that one row is joined with. The kind is that
of a join with the row on the left. -/
def joinColumns (kind : Kind) (strictness : Strictness) (lookup : Lookup B) :
    Except JoinError (List (Option B)) :=
  let notFound : List (Option B) := if kind = .left ∨ kind = .full then [none] else []
  match lookup with
  | .null => pure (if strictness = .anti ∧ kind = .left then [] else notFound)
  | .missing => pure notFound
  | .found rows =>
    match strictness with
    | .asof | .multiple => pure (if rows = [] then notFound else rows.map some)
    | .all => pure (rows.map some)
    | .latest =>
      if kind = .right then throw (.exception "right latest join is not supported")
      else pure (rows.map some)
    | .anti =>
      if kind = .left then pure []
      else throw (.exception "right latest join is not supported")

/-- `doJoinBlockWithHashTable`. -/
def doJoinBlockWithHashTable (kind : Kind) (strictness : Strictness) (other : HashTable T B A)
    (block : DeltaBlock A) (joined : T) : Except JoinError (JoinedBlock A B) := do
  let rows ← block.mapM fun row => do
    let lookup ← other.findKey joined row.1
    let found ← joinColumns kind strictness lookup
    pure (found.map fun b => ((some row.1, b), row.2))
  pure rows.flatten

/-- `eraseExistingKeys`. -/
def eraseExistingKeys (strictness : Strictness) (own : HashTable S A B) (block : DeltaBlock A)
    (joining : S) : Except JoinError S :=
  match strictness with
  | .asof | .latest | .anti => pure joining
  | .all | .multiple => own.doEraseExistingKeys (block.map (·.1)) joining

/-- The block for the new keys: the rows of the other stream that were joined with defaults are
retracted. The columns of the block are its keys and defaults, and its keys are reset after the
join. -/
def retractNewKeys (strictness : Strictness) (other : HashTable T B A) (block : DeltaBlock A)
    (newKeysFilter : List Bool) (joined : T) : Except JoinError (JoinedBlock A B) := do
  let newKeys := ((block.zip newKeysFilter).filter (·.2)).map fun row => (row.1.1, (-1 : ℤ))
  let retracted ← doJoinBlockWithHashTable .inner strictness other newKeys joined
  pure (retracted.map fun row => ((none, row.1.2), row.2))

/-- `insertLeftBlockAndJoin` and `insertRightBlockAndJoin`: the data of the stream, the returned
block of retractions and the joined block. -/
def insertBlockAndJoin (cfg : JoinConfig) (kind : Kind) (hasDelta : Bool) (own : HashTable S A B)
    (other : HashTable T B A) (block : DeltaBlock A) (joining : S) (joined : T) :
    Except JoinError (S × JoinedBlock A B × JoinedBlock A B) :=
  if isRetractBlock hasDelta block then do
    let joining ← eraseExistingKeys cfg.strictness own block joining
    -- `eraseExistingKeysAndRetractJoin`
    let retracted ← if cfg.emitChangelog then
        doJoinBlockWithHashTable kind cfg.strictness other block joined
      else pure []
    pure (joining, retracted, [])
  else do
    let (joining, newKeysFilter) ← own.insertFromBlock (block.map (·.1)) joining
    let retracted ← if (kind = .right ∨ kind = .full) ∧ cfg.emitChangelog then
        retractNewKeys cfg.strictness other block newKeysFilter joined
      else pure []
    let joinedBlock ← doJoinBlockWithHashTable kind cfg.strictness other block joined
    pure (joining, retracted, joinedBlock)

end Model

/-- The data of both streams. -/
structure MemoryHashJoin (S T : Type) where
  /-- `left_data`. -/
  left : S
  /-- `right_data`. -/
  right : T
  deriving DecidableEq, Repr

namespace MemoryHashJoin

variable {S T L R : Type} (cfg : JoinConfig) (leftTable : HashTable S L R)
  (rightTable : HashTable T R L)

/-- `transformToOutputBlock`: the columns of the left stream come first. -/
def transformToOutputBlock (block : JoinedBlock R L) : JoinedBlock L R :=
  block.map fun row => ((row.1.2, row.1.1), row.2)

/-- `insertLeftBlockAndJoin`: the returned block of retractions and the joined block. -/
def insertLeftBlockAndJoin (block : DeltaBlock L) (s : MemoryHashJoin S T) :
    Except JoinError (MemoryHashJoin S T × JoinedBlock L R × JoinedBlock L R) := do
  let (left, retracted, joined) ← insertBlockAndJoin cfg cfg.kind cfg.leftDelta leftTable
    rightTable block s.left s.right
  pure ({ s with left }, retracted, joined)

/-- `insertRightBlockAndJoin`. -/
def insertRightBlockAndJoin (block : DeltaBlock R) (s : MemoryHashJoin S T) :
    Except JoinError (MemoryHashJoin S T × JoinedBlock L R × JoinedBlock L R) := do
  let (right, retracted, joined) ← insertBlockAndJoin cfg (flipKind cfg.kind) cfg.rightDelta
    rightTable leftTable block s.right s.left
  pure ({ s with right }, transformToOutputBlock retracted, transformToOutputBlock joined)

/-- A block of either stream. -/
def insertAndJoin (block : DeltaBlock L ⊕ DeltaBlock R) (s : MemoryHashJoin S T) :
    Except JoinError (MemoryHashJoin S T × JoinedBlock L R × JoinedBlock L R) :=
  match block with
  | .inl block => insertLeftBlockAndJoin cfg leftTable rightTable block s
  | .inr block => insertRightBlockAndJoin cfg leftTable rightTable block s

/-- The blocks of both streams, one after the other: the data of the streams, and the blocks that
are returned for each block. -/
def run : List (DeltaBlock L ⊕ DeltaBlock R) → MemoryHashJoin S T →
    Except JoinError (MemoryHashJoin S T × List (JoinedBlock L R × JoinedBlock L R))
  | [], s => pure (s, [])
  | block :: blocks, s => do
    let (s, output) ← insertAndJoin cfg leftTable rightTable block s
    let (s, outputs) ← run blocks s
    pure (s, output :: outputs)

end MemoryHashJoin

end Proton.Streaming
