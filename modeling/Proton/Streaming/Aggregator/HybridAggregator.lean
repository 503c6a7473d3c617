import Mathlib.Data.UInt
import Proton.Streaming.Aggregator.MemoryAggregator

/-!
# The Hybrid Aggregator

This module embeds `HybridAggregator` as a global aggregation with keys uses it: how a block is
aggregated (`executeOnBlockImpl`), how the groups of one data variant are converted to blocks, and
how those of several are merged first.

A `HybridHashTable` is a map. It is visited with its keys in memory first and those on disk after
them, in batches (`forBatchValue`). The order in which keys are visited, how many of them are in
memory and the estimate of their number are parameters of every function that visits one (`Scan`).

The aggregate functions are exact: their states form a commutative monoid, a row adds to them what
it contributes, a copy is the state itself and a merge is a sum. The number of rows of a group lies
in front of its states in memory.
-/

namespace Proton.Streaming.HybridAggregator

open MemoryAggregator (KeyedRow Layout)

/-- `TrackingUpdatesType`. -/
inductive TrackingUpdatesType where
  | none
  | updates
  | updatesWithRetract
  deriving DecidableEq, Repr

/-- How a conversion ends early: with a `LOGICAL_ERROR`, or by following a pointer that is not
there. -/
inductive HybridError where
  /-- "Updated key is not found in main hybrid hash table". -/
  | updatedKeyNotFound
  /-- "Key is not found in main hybrid hash table". -/
  | keyNotFound
  /-- "Key was updated but was not found in source aggregation hybrid hash table". -/
  | keyUpdatedButNotFound
  /-- A null pointer, or the end of a map. -/
  | nullPointer
  deriving DecidableEq, Repr

/-- The parameters of an aggregator, with its aggregate functions. -/
structure HybridParams (A S V : Type) where
  /-- `tracking_updates_type`. -/
  trackingUpdatesType : TrackingUpdatesType
  /-- `max_block_size`. -/
  maxBlockSize : ℕ
  /-- `max_hot_key_count`. -/
  maxHotKeyCount : ℕ
  /-- `aggregate_state_ttl`. -/
  aggregateStateTtl : ℕ
  /-- `delta_col_pos >= 0`. -/
  hasDeltaColumn : Bool
  /-- `aggregates_size`. -/
  aggregatesSize : ℕ
  /-- What the arguments of a row add to the aggregate states. -/
  contribution : A → S
  /-- What the arguments of a row with delta `-1` add to them. -/
  negation : A → S
  /-- `insertResultInto`. -/
  result : S → V

/-- The number of rows of a group, `TrackingCount`, and its aggregate states. -/
abbrev Group (S : Type) : Type := UInt64 × S

/-- The hash tables of a data variant. -/
structure DataVariants (K S : Type) [LinearOrder K] where
  /-- The groups. -/
  table : SortedMap K (Group S)
  /-- The keys that changed since the last conversion. -/
  updates : SortedMap K Unit
  /-- The groups that changed since the last conversion, as they were before. -/
  retracts : SortedMap K (Group S)

/-- How the hash tables are visited. -/
structure Scan (K : Type) extends Layout K where
  /-- How many of the keys are in memory. -/
  hot : List K → ℕ
  /-- `approximateCount`. -/
  approximateCount : ℕ

section Visit

variable {K G : Type}

/-- The entries on disk, each with whether the batch is full. -/
def coldCalls (batchSize : ℕ) : ℕ → List (K × G) → List ((K × G) × Bool)
  | _, [] => []
  | n, e :: es =>
    if batchSize ≤ n + 1 then (e, true) :: coldCalls batchSize 0 es
    else (e, false) :: coldCalls batchSize (n + 1) es

/-- The entries of a table in the order in which they are visited. -/
def Scan.entries [LinearOrder K] (scan : Scan K) (table : SortedMap K G) : List (K × G) :=
  (scan.order (table.toList.map (·.1))).filterMap fun key => (table.find? key).map (key, ·)

/-- `HybridHashTable::forBatchValue`: the calls of the callback. -/
def Scan.forBatchValue [LinearOrder K] (scan : Scan K) (batchSize : ℕ) (table : SortedMap K G) :
    List ((K × G) × Bool) :=
  let entries := scan.entries table
  let hot := scan.hot (entries.map (·.1))
  (entries.take hot).map (·, false) ++ coldCalls batchSize 0 (entries.drop hot)

end Visit

section Model

variable {K A S V : Type} [LinearOrder K] [AddCommMonoid S] (params : HybridParams A S V)

/-- `trackingStateCount`. -/
def HybridParams.trackingStateCount (params : HybridParams A S V) : Bool :=
  params.hasDeltaColumn || params.trackingUpdatesType = .updatesWithRetract

/-! ### Aggregating a block -/

/-- What a row adds to its group. The column of deltas of `TrackingCount` is that of the first
aggregate function; without one there is no such column. -/
def rowGroup (row : KeyedRow K A) : Group S :=
  (if !params.trackingStateCount then 0
    else if params.aggregatesSize = 0 ∨ 0 ≤ row.2 then 1 else -1,
    if 0 ≤ row.2 then params.contribution row.1.2 else params.negation row.1.2)

/-- `emplaceKeys`. A new group has no rows. -/
def emplaceKeys (keys : List K) (table : SortedMap K (Group S)) : SortedMap K (Group S) :=
  keys.foldl (fun table key => table.alter key fun g => some (g.getD 0)) table

/-- A group is saved unless it was already. A group without rows is not copied. -/
def saveKeys (table : SortedMap K (Group S)) (keys : List K) (retracts : SortedMap K (Group S)) :
    SortedMap K (Group S) :=
  keys.foldl (fun retracts key => retracts.alter key fun g =>
    some (g.getD (((table.find? key).filter (·.1 ≠ 0)).getD 0))) retracts

/-- `executeOnBlockImpl`. -/
def executeOnBlockImpl (trackingRetracts : Bool) (block : List (KeyedRow K A))
    (v : DataVariants K S) : DataVariants K S :=
  let keys := block.map (·.1.1)
  let table := emplaceKeys keys v.table
  { table := block.foldl (fun table row =>
      table.alter row.1.1 (Option.map (· + rowGroup params row))) table
    updates :=
      if !trackingRetracts && params.trackingUpdatesType = .updates then
        keys.foldl (fun updates key => updates.insert key ()) v.updates
      else v.updates
    retracts := if trackingRetracts then saveKeys table keys v.retracts else v.retracts }

/-! ### Conversion to blocks -/

/-- The callback of `convertToBlocksForAll`, on the groups of the next block and the finished
blocks. A group without rows is left out, if the rows are counted. -/
def fillBlock (s : List (K × V) × List (List (K × V))) (call : (K × Group S) × Bool) :
    List (K × V) × List (List (K × V)) :=
  let places :=
    if params.trackingStateCount ∧ call.1.2.1 = 0 then s.1
    else s.1 ++ [(call.1.1, params.result call.1.2.2)]
  if call.2 then ([], s.2 ++ [places]) else (places, s.2)

variable {n : ℕ} (scan : Scan K)

/-- `convertToBlocksForAll`. -/
def convertToBlocksForAll (table : SortedMap K (Group S)) : List (List (K × V)) :=
  let maxBlockSize := min params.maxBlockSize scan.approximateCount + 1
  let (places, res) :=
    (scan.forBatchValue (min maxBlockSize params.maxHotKeyCount) table).foldl (fillBlock params)
      ([], [])
  if places.isEmpty then res else res ++ [places]

/-- The lambda `insert_columns` of `convertToBlocksForUpdates`. -/
def insertUpdate (maxBlockSize : ℕ) (table : SortedMap K (Group S))
    (s : List (K × V) × List (List (K × V))) (key : K) :
    Except HybridError (List (K × V) × List (List (K × V))) :=
  match table.find? key with
  | none => if 0 < params.aggregateStateTtl then pure s else throw .keyUpdatedButNotFound
  | some place =>
    let places := s.1 ++ [(key, params.result place.2)]
    pure (if maxBlockSize ≤ places.length then ([], s.2 ++ [places]) else (places, s.2))

/-- `convertToBlocksForUpdates`. -/
def convertToBlocksForUpdates (table : SortedMap K (Group S))
    (updates : SortedMap K Unit) : Except HybridError (List (List (K × V))) := do
  let maxBlockSize := min params.maxBlockSize scan.approximateCount + 1
  let (places, blocks) ← ((scan.entries updates).map (·.1)).foldlM
    (insertUpdate params maxBlockSize table) ([], [])
  pure (if places.isEmpty then blocks else blocks ++ [places])

/-- What `convertToBlocksForRetracts` has while it visits the saved groups. -/
structure RetractConversion (K S V : Type) [LinearOrder K] where
  /-- The groups. -/
  table : SortedMap K (Group S)
  /-- The rows to be retracted next. -/
  retractPlaces : List (K × V)
  /-- The rows to be inserted next. -/
  places : List (K × V)
  /-- The finished blocks. -/
  blocks : List (List ((K × V) × ℤ))

/-- The lambda `do_insert_columns`, with `init_out_cols` after it. -/
def RetractConversion.doInsertColumns (c : RetractConversion K S V) : RetractConversion K S V :=
  { c with
    retractPlaces := []
    places := []
    blocks := c.blocks ++
      (if c.retractPlaces.isEmpty then [] else [c.retractPlaces.map (·, -1)]) ++
      [c.places.map (·, 1)] }

/-- The row of a group, unless it has no rows. -/
def groupRow (key : K) (g : Group S) : List (K × V) :=
  if g.1 = 0 then [] else [(key, params.result g.2)]

/-- The rows of a saved group, and of the group now. A group without rows is removed. -/
def RetractConversion.visit (e : K × Group S) (place : Group S) (c : RetractConversion K S V) :
    RetractConversion K S V :=
  { c with
    retractPlaces := c.retractPlaces ++ groupRow params e.1 e.2
    places := c.places ++ groupRow params e.1 place
    table := if place.1 = 0 then c.table.erase e.1 else c.table }

/-- The lambda `insert_columns`. -/
def RetractConversion.insertColumns (maxBlockSize : ℕ) (c : RetractConversion K S V)
    (call : (K × Group S) × Bool) : Except HybridError (RetractConversion K S V) :=
  match c.table.find? call.1.1 with
  | none => throw .updatedKeyNotFound
  | some place =>
    let c := c.visit params call.1 place
    pure (if call.2 ∨ maxBlockSize ≤ c.places.length then c.doInsertColumns else c)

/-- `convertToBlocksForRetracts`. If no group is saved, all groups are converted. -/
def convertToBlocksForRetracts (v : DataVariants K S) :
    Except HybridError (DataVariants K S × List (List ((K × V) × ℤ))) :=
  if v.retracts.size = 0 then
    pure (v, (convertToBlocksForAll params scan v.table).map (·.map (·, 1)))
  else do
    let maxBlockSize := min params.maxBlockSize scan.approximateCount + 1
    let c ← (scan.forBatchValue maxBlockSize v.retracts).foldlM
      (RetractConversion.insertColumns params maxBlockSize) ⟨v.table, [], [], []⟩
    -- `done_callback`
    let c := if c.places.isEmpty then c else c.doInsertColumns
    pure ({ v with table := c.table, retracts := .empty }, c.blocks)

/-- `convertToBlocks`: `convertToBlocksImpl` with `clear_updates`. -/
def convertToBlocks (v : DataVariants K S) :
    Except HybridError (DataVariants K S × List (List ((K × V) × ℤ))) :=
  match params.trackingUpdatesType with
  | .none => pure (v, (convertToBlocksForAll params scan v.table).map (·.map (·, 1)))
  | .updates => do
    let blocks ← convertToBlocksForUpdates params scan v.table v.updates
    pure ({ v with updates := .empty }, blocks.map (·.map (·, 1)))
  | .updatesWithRetract => convertToBlocksForRetracts params scan v

/-! ### Merging several data variants -/

/-- A group is merged into the table. -/
def mergeGroup (dst : SortedMap K (Group S)) (e : K × Group S) : SortedMap K (Group S) :=
  dst.alter e.1 fun g => some (g.getD 0 + e.2)

variable (variants : Fin n → DataVariants K S)

/-- `mergeNormal`. -/
def mergeNormal : SortedMap K (Group S) :=
  (List.finRange n).foldl (fun dst i =>
    ((scan.entries (variants i).table).filter fun e =>
      !(params.trackingStateCount && e.2.1 = 0)).foldl mergeGroup dst) .empty

/-- The callback of `mergeUpdates`, for a key that changed in a data variant. -/
def mergeUpdate (v : DataVariants K S) (dst : SortedMap K (Group S)) (e : K × Unit) :
    Except HybridError (SortedMap K (Group S)) :=
  match v.table.find? e.1 with
  | none => throw .keyNotFound
  | some g => pure (mergeGroup dst (e.1, g))

/-- `mergeUpdates`. -/
def mergeUpdates :
    Except HybridError (SortedMap K (Group S)) :=
  (List.finRange n).foldlM (fun dst i =>
    (scan.entries (variants i).updates).foldlM (mergeUpdate (variants i)) dst) .empty

/-- The loop of `mergeRetracts` over the data variants, on the merged group and the merged saved
group of a key. -/
def mergeKey (key : K) :
    List (DataVariants K S) → Option (Group S) × Group S → Option (Group S) × Group S
  | [], merged => merged
  | v :: vs, (dst, retract) =>
    match v.table.find? key with
    | none => mergeKey key vs (dst, retract)
    | some g =>
      match v.retracts.find? key with
      -- the lambda returns: the data variants that follow are left out
      | some old => (some (dst.getD 0 + g), retract + old)
      | none => mergeKey key vs (some (dst.getD 0 + g), retract + g)

/-- `mergeRetracts`: the merged groups, and the merged saved groups. -/
def mergeRetracts :
    SortedMap K (Group S) × SortedMap K (Group S) :=
  let retracts := (List.finRange n).foldl (fun dst i =>
    emplaceKeys ((scan.entries (variants i).retracts).map (·.1)) dst) .empty
  if retracts.size = 0 then (mergeNormal params scan variants, retracts)
  else
    ((scan.entries retracts).foldl (fun dst e =>
        dst.alter e.1 fun g => (mergeKey e.1 (List.ofFn variants) (g, e.2)).1) .empty,
      (scan.entries retracts).foldl (fun dst e =>
        dst.alter e.1 fun _ => some (mergeKey e.1 (List.ofFn variants) (none, e.2)).2) retracts)

/-- `mergeAndConvertToBlocks`: `merge`, `convertToBlocksMerged`, and the tables of changes are
cleared. -/
def mergeAndConvertToBlocks :
    Except HybridError ((Fin n → DataVariants K S) × List (List ((K × V) × ℤ))) := do
  let blocks : List (List ((K × V) × ℤ)) ← match params.trackingUpdatesType with
    | .none => pure ((convertToBlocksForAll params scan (mergeNormal params scan variants)).map
        (·.map (·, 1)))
    | .updates => do
      let dst ← mergeUpdates scan variants
      pure ((convertToBlocksForAll params scan dst).map (·.map (·, 1)))
    | .updatesWithRetract =>
      let (dst, retracts) := mergeRetracts params scan variants
      pure ((convertToBlocksForAll params scan retracts).map (·.map (·, -1)) ++
        (convertToBlocksForAll params scan dst).map (·.map (·, 1)))
  pure (fun i => { variants i with updates := .empty, retracts := .empty }, blocks)

/-! ### Global aggregation -/

/-- The data that `n` transforms share. -/
structure Aggregation (n : ℕ) (K S : Type) [LinearOrder K] where
  /-- `variants`. -/
  variants : Fin n → DataVariants K S
  /-- `retract_enabled`. -/
  retractEnabled : Bool

/-- What happens until a finalization: blocks are aggregated in data variants, and the finalization
visits the hash tables. -/
structure Round (n : ℕ) (K A : Type) where
  /-- The blocks, each with its data variant. -/
  blocks : List (Fin n × List (KeyedRow K A))
  /-- How the finalization visits the hash tables. -/
  scan : Scan K

/-- The rows of a round. -/
def Round.rows (round : Round n K A) : List (KeyedRow K A) := round.blocks.flatMap (·.2)

/-- A single data variant is the first one. -/
theorem pos_of_eq_one (h : n = 1) : 0 < n := h ▸ Nat.one_pos

namespace Aggregation

/-- Nothing has been aggregated. -/
def new : Aggregation n K S := ⟨fun _ => ⟨.empty, .empty, .empty⟩, false⟩

/-- `executeColumns`. -/
def executeColumns (s : Aggregation n K S) (block : Fin n × List (KeyedRow K A)) :
    Aggregation n K S :=
  { s with
    variants := Function.update s.variants block.1
      (executeOnBlockImpl params s.retractEnabled block.2 (s.variants block.1)) }

/-- `GlobalAggregatingTransform::finalize`: the rows that are emitted. Retractions are enabled after
something was emitted. -/
def finalize (scan : Scan K) (s : Aggregation n K S) :
    Except HybridError (Aggregation n K S × List ((K × V) × ℤ)) := do
  let (variants, blocks) ←
    if h : n = 1 then do
      let i : Fin n := ⟨0, pos_of_eq_one h⟩
      let (v, blocks) ← convertToBlocks params scan (s.variants i)
      pure (Function.update s.variants i v, blocks)
    else mergeAndConvertToBlocks params scan s.variants
  pure (⟨variants, s.retractEnabled ||
    (params.trackingUpdatesType = .updatesWithRetract && !blocks.flatten.isEmpty)⟩, blocks.flatten)

/-- The blocks of a round. -/
def executed (round : Round n K A) (s : Aggregation n K S) : Aggregation n K S :=
  round.blocks.foldl (executeColumns params) s

end Aggregation

/-- What has happened in some rounds. -/
structure History (n : ℕ) (K A S V : Type) [LinearOrder K] where
  /-- The rows that were aggregated. -/
  rows : List (KeyedRow K A)
  /-- The data of the transforms. -/
  aggregation : Aggregation n K S
  /-- The rows that each finalization emitted. -/
  emitted : List (List ((K × V) × ℤ))

/-- Nothing has happened. -/
def History.new : History n K A S V := ⟨[], .new, []⟩

/-- One more round. -/
def History.next (round : Round n K A) (h : History n K A S V) :
    Except HybridError (History n K A S V) := do
  let (s, out) ← (h.aggregation.executed params round).finalize params round.scan
  pure ⟨h.rows ++ round.rows, s, h.emitted ++ [out]⟩

/-- Rounds one after the other. -/
def run (rounds : List (Round n K A)) : Except HybridError (History n K A S V) :=
  rounds.foldl (fun h round => h >>= History.next params round) (.ok .new)

end Model

end Proton.Streaming.HybridAggregator
