import Mathlib.Data.Fintype.Basic
import Proton.Lib.MachineWord
import Proton.Lib.SortedMap

/-!
# The Aggregator in Memory

This module embeds `MemoryAggregator` as a global aggregation with keys uses it: how a block is
aggregated (`executeOnBlock`, `executeAndRetractOnBlock`), and how the groups that changed are
converted to rows, from one set of groups (`convertToBlocks`) or from several that are merged first
(`mergeAndConvertToBlocks`).

The aggregate functions are exact: their states form a commutative group, a row adds its
contribution to it or takes it away, a copy is the state itself and a merge is a sum.

A hash table is a map from keys to groups. The order in which it is visited depends on where its
cells lie; it is a parameter of every function that visits one (`Layout`). A two-level hash table
has 256 buckets, each a hash table of its own.

Limits for the number of groups, the key of null of low cardinality, and aggregate functions with
their own emit strategy are left out.
-/

namespace Proton.Streaming.MemoryAggregator

/-- How a conversion ends early. -/
inductive AggregatorError where
  /-- A key is not found in a hash table, and the result of the lookup is followed. -/
  | nullPointer
  deriving DecidableEq, Repr

/-- `AggregatingConvertType`. -/
inductive AggregatingConvertType where
  | normal
  | updates
  | retract
  | updatesAfterRetract
  deriving DecidableEq, Repr

/-- A bucket of a two-level hash table. -/
abbrev Bucket : Type := Fin 256

/-- The parameters of an aggregator, with its aggregate functions. -/
structure AggregatorParams (K A S V : Type) where
  /-- `max_block_size`. -/
  maxBlockSize : ℕ
  /-- `aggregates_size`. -/
  aggregatesSize : ℕ
  /-- `group_by_two_level_threshold`. -/
  groupByTwoLevelThreshold : ℕ
  /-- `isConvertibleToTwoLevel`, for the method of the keys. -/
  isConvertibleToTwoLevel : Bool
  /-- `getBucketFromHash`, for the hash of a key. -/
  bucket : K → Bucket
  /-- What the arguments of a row add to the aggregate states. -/
  contribution : A → S
  /-- `insertResultInto`. -/
  result : S → V

/-- A row: its key, the arguments of the aggregate functions, and `_tp_delta`. -/
abbrev KeyedRow (K A : Type) : Type := (K × A) × ℤ

/-- The order in which the keys of a hash table are visited. -/
structure Layout (K : Type) where
  /-- The keys in this order. -/
  order : List K → List K
  /-- Every key is visited once. -/
  perm : ∀ keys, (order keys).Perm keys

/-- The first of two transforms. -/
def firstTransform : Fin 2 := ⟨0, Nat.two_pos⟩

/-- The second of two transforms. -/
def secondTransform : Fin 2 := ⟨1, Nat.one_lt_two⟩

/-! ### Groups -/

/-- `TrackingUpdatesT` and the aggregate states behind it. -/
structure AggregateStates (S : Type) where
  /-- `updates`, a `UInt64`. -/
  updates : ℤ
  /-- `updated_since_last_finalization`. -/
  updated : Bool
  /-- The states of the aggregate functions. -/
  states : S
  deriving DecidableEq, Repr

/-- What the pointer of a group points to, with `TrackingUpdatesWithRetract`. -/
structure AggregateData (S : Type) extends AggregateStates S where
  /-- `retract_data`. -/
  retract : Option (AggregateStates S)
  deriving DecidableEq, Repr

section Groups

variable {S : Type}

namespace AggregateStates

variable (d : AggregateStates S)

/-- `TrackingUpdatesT::empty`. -/
def empty : Bool := d.updates = 0

/-- `TrackingUpdatesT::add`. -/
def add : AggregateStates S :=
  { d with updates := Word.uint64.wrap (d.updates + 1), updated := true }

/-- `TrackingUpdatesT::negate`. -/
def negate : AggregateStates S :=
  { d with updates := Word.uint64.wrap (d.updates - 1), updated := true }

/-- `TrackingUpdatesT::merge`. -/
def merge (d rhs : AggregateStates S) : AggregateStates S :=
  { d with
    updates := Word.uint64.wrap (d.updates + rhs.updates)
    updated := d.updated || rhs.updated }

end AggregateStates

variable [AddCommGroup S]

/-- `createAggregateStates`. -/
def createAggregateStates : AggregateStates S := ⟨0, true, 0⟩

/-- `copyAggregateStates`. -/
def copyAggregateStates (dst src : AggregateStates S) : AggregateStates S :=
  { dst with states := src.states }

/-- `mergeAggregateStates`. -/
def mergeAggregateStates (dst src : AggregateStates S) : AggregateStates S :=
  { dst with states := dst.states + src.states }

/-- `emplaceKey`, with the states of a new group. -/
def emplaceKey (mapped : Option (AggregateData S)) : AggregateData S :=
  mapped.getD ⟨createAggregateStates, none⟩

/-- The group is saved before it changes, unless it was already since the last finalization. -/
def saveRetract (d : AggregateData S) : AggregateData S :=
  match d.retract with
  | some _ => d
  | none =>
    { d with
      retract := some (
        if d.empty then createAggregateStates
        else (copyAggregateStates createAggregateStates d.toAggregateStates).merge
          d.toAggregateStates) }

end Groups

/-! ### Aggregating a block -/

/-- The hash table of a data variant. -/
@[ext]
structure DataVariants (K S : Type) [LinearOrder K] where
  /-- The groups. -/
  data : SortedMap K (AggregateData S)
  /-- `updated_buckets` of a two-level hash table. -/
  updatedBuckets : Option (List Bucket)
  deriving DecidableEq

section Model

variable {K A S V : Type} [LinearOrder K] [AddCommGroup S] (params : AggregatorParams K A S V)

/-- A new data variant. -/
def DataVariants.new : DataVariants K S := ⟨.empty, none⟩

/-- The keys of the groups. -/
def DataVariants.keys (v : DataVariants K S) : List K := v.data.toList.map (·.1)

/-- The loop over the rows that finds or creates their groups. -/
def emplaceRows (emplace : Option (AggregateData S) → AggregateData S)
    (block : List (KeyedRow K A)) (data : SortedMap K (AggregateData S)) :
    SortedMap K (AggregateData S) :=
  block.foldl (fun data row => data.alter row.1.1 fun mapped => some (emplace mapped)) data

/-- `addBatch` of the aggregate functions, for a row. -/
def addRow (row : KeyedRow K A) (d : AggregateData S) : AggregateData S :=
  { d with
    states :=
      if 0 ≤ row.2 then d.states + params.contribution row.1.2
      else d.states - params.contribution row.1.2 }

/-- `TrackingUpdatesT::addBatch`, for a row. The column of deltas is that of the first aggregate
function; without one there is no such column. -/
def trackRow (row : KeyedRow K A) (d : AggregateData S) : AggregateData S :=
  { d with
    toAggregateStates :=
      if params.aggregatesSize = 0 ∨ 0 ≤ row.2 then d.toAggregateStates.add
      else d.toAggregateStates.negate }

/-- The rows of a block, group by group. -/
def executeRows (emplace : Option (AggregateData S) → AggregateData S)
    (block : List (KeyedRow K A)) (data : SortedMap K (AggregateData S)) :
    SortedMap K (AggregateData S) :=
  let data := emplaceRows emplace block data
  let data := block.foldl (fun data row => data.alter row.1.1 (Option.map (addRow params row))) data
  block.foldl (fun data row => data.alter row.1.1 (Option.map (trackRow params row))) data

/-- `executeImplBatch`. -/
def executeImplBatch (block : List (KeyedRow K A)) (data : SortedMap K (AggregateData S)) :
    SortedMap K (AggregateData S) :=
  executeRows params emplaceKey block data

/-- `executeAndRetractImpl`. -/
def executeAndRetractImpl (block : List (KeyedRow K A)) (data : SortedMap K (AggregateData S)) :
    SortedMap K (AggregateData S) :=
  executeRows params (fun mapped => saveRetract (emplaceKey mapped)) block data

/-- `convertToTwoLevel`: every bucket that is not empty is marked. -/
def convertToTwoLevel (v : DataVariants K S) : DataVariants K S :=
  { v with updatedBuckets := v.updatedBuckets.or (some (v.keys.map params.bucket)) }

/-- `checkAndProcessResult`. -/
def checkAndProcessResult (v : DataVariants K S) : DataVariants K S :=
  if params.isConvertibleToTwoLevel ∧ params.groupByTwoLevelThreshold ≠ 0 ∧
      params.groupByTwoLevelThreshold ≤ v.data.size then convertToTwoLevel params v
  else v

/-- `executeAndRetractOnBlock` if retractions are enabled, else `executeOnBlock`. A key that is
emplaced marks its bucket. -/
def executeOnBlock (retractEnabled : Bool) (block : List (KeyedRow K A)) (v : DataVariants K S) :
    DataVariants K S :=
  checkAndProcessResult params
    { data :=
        if retractEnabled then executeAndRetractImpl params block v.data
        else executeImplBatch params block v.data
      updatedBuckets := v.updatedBuckets.map (block.map (fun row => params.bucket row.1.1) ++ ·) }

/-! ### Conversion to blocks -/

variable (type : AggregatingConvertType)

/-- What `convertState` does with a group: the group afterwards, and the states the callback is
called with. The callback for retracted states resets the pointer to them. -/
def convertGroup (d : AggregateData S) : AggregateData S × Option (AggregateStates S) :=
  match type with
  | .normal => (d, some d.toAggregateStates)
  | .updates =>
    if d.updated then ({ d with updated := false }, some d.toAggregateStates) else (d, none)
  | .updatesAfterRetract =>
    if d.updated then
      ({ d with updated := false }, if d.empty then none else some d.toAggregateStates)
    else (d, none)
  | .retract => ({ d with retract := none }, d.retract)

/-- `convertState`: the groups of the given keys one after the other, in a hash table that has the
keys `has`, and the calls of the callback. -/
def convertState (type : AggregatingConvertType) (has : K → Bool) :
    List K → SortedMap K (AggregateData S) →
      Except AggregatorError (SortedMap K (AggregateData S) × List (K × AggregateStates S))
  | [], data => pure (data, [])
  | key :: keys, data =>
    match if has key then data.find? key else none with
    | none => throw .nullPointer
    | some d => do
      let (data, calls) ← convertState type has keys (data.insert key (convertGroup type d).1)
      pure (data, (convertGroup type d).2.toList.map (key, ·) ++ calls)

/-- The callback of `convertToBlockImplFinal`, on the finished blocks and the columns of the next
one. -/
def fillColumns (returnSingleBlock : Bool) (maxBlockSize : ℕ)
    (s : List (List (K × V)) × List (K × V)) (call : K × AggregateStates S) :
    List (List (K × V)) × List (K × V) :=
  -- if the block is full, it is finished and a new one is started
  let (res, outCols) :=
    if !returnSingleBlock ∧ maxBlockSize ≤ s.2.length then (s.1 ++ [s.2], []) else s
  if type = .retract ∧ call.2.empty then (res, outCols)
  else (res, outCols ++ [(call.1, params.result call.2.states)])

/-- `convertToBlockImplFinal`, after the calls of the callback. -/
def convertToBlockImplFinal (returnSingleBlock : Bool)
    (size : ℕ) (calls : List (K × AggregateStates S)) : List (List (K × V)) :=
  let maxBlockSize := (if returnSingleBlock then size else min params.maxBlockSize size) + 1
  let (res, outCols) :=
    calls.foldl (fillColumns params type returnSingleBlock maxBlockSize) ([], [])
  if outCols.isEmpty then [] else res ++ [outCols]

/-- `prepareBlockAndFillSingleLevel`. The cached keys are visited if there are any. -/
def prepareBlockAndFillSingleLevel (layout : Layout K)
    (cached : List K) (v : DataVariants K S) :
    Except AggregatorError (DataVariants K S × List (List (K × V))) := do
  let keys := if cached.isEmpty then layout.order v.keys else cached
  let (data, calls) ← convertState type (fun _ => true) keys v.data
  pure ({ v with data }, convertToBlockImplFinal params type false v.data.size calls)

/-- What is carried from bucket to bucket of a two-level hash table. -/
structure TwoLevelConversion (K S V : Type) [LinearOrder K] where
  /-- The groups. -/
  data : SortedMap K (AggregateData S)
  /-- `updated_buckets`. -/
  updatedBuckets : List Bucket
  /-- The cached keys. -/
  cached : List K
  /-- The blocks so far. -/
  blocks : List (List (K × V))

/-- `convert_updates`: only marked buckets are converted. -/
def convertsUpdates : Bool :=
  type = .updates ∨ type = .updatesAfterRetract

/-- `convertOneBucketToBlockImpl`. The first bucket that is converted takes the cached keys. -/
def convertOneBucketToBlockImpl (layout : Layout K)
    (c : TwoLevelConversion K S V) (bucket : Bucket) :
    Except AggregatorError (TwoLevelConversion K S V) :=
  let impl := (c.data.toList.map (·.1)).filter (params.bucket · = bucket)
  if convertsUpdates type && bucket ∉ c.updatedBuckets then pure c
  else do
    let c := { c with
      updatedBuckets :=
        if convertsUpdates type then c.updatedBuckets.filter (· ≠ bucket) else c.updatedBuckets }
    if impl.isEmpty then pure c
    else
      let keys := if c.cached.isEmpty then layout.order impl else c.cached
      let (data, calls) ← convertState type (params.bucket · = bucket) keys c.data
      pure { c with
        data, cached := []
        blocks := c.blocks ++ convertToBlockImplFinal params type true impl.length calls }

/-- `doConvertToBlocks`. -/
def doConvertToBlocks (layout : Layout K) (cached : List K)
    (v : DataVariants K S) : Except AggregatorError (DataVariants K S × List (List (K × V))) :=
  if v.keys.isEmpty then pure (v, [])
  else
    match v.updatedBuckets with
    | none => prepareBlockAndFillSingleLevel params type layout cached v
    | some updatedBuckets => do
      let c ← (List.finRange 256).foldlM (convertOneBucketToBlockImpl params type layout)
        { data := v.data, updatedBuckets, cached, blocks := [] }
      pure (⟨c.data, some c.updatedBuckets⟩, c.blocks)

/-- `convertToBlocks`, for updates or for a changelog. A row without `_tp_delta` counts as an
insertion. -/
def convertToBlocks (emitChangelog : Bool) (layout : Layout K) (cached : List K)
    (v : DataVariants K S) : Except AggregatorError (DataVariants K S × List ((K × V) × ℤ)) :=
  if emitChangelog then do
    let (v, retracted) ← doConvertToBlocks params .retract layout cached v
    let (v, updated) ← doConvertToBlocks params .updatesAfterRetract layout cached v
    pure (v, retracted.flatten.map (·, -1) ++ updated.flatten.map (·, 1))
  else do
    let (v, updated) ← doConvertToBlocks params .updates layout cached v
    pure (v, updated.flatten.map (·, 1))

/-! ### Merging several data variants -/

variable {n : ℕ}

/-- The keys in the order of `forEachValue`, of the buckets in `buckets` for a two-level hash
table. -/
def DataVariants.visited (layout : Layout K) (buckets : Bucket → Bool) (v : DataVariants K S) :
    List K :=
  match v.updatedBuckets with
  | none => layout.order v.keys
  | some _ =>
    (List.finRange 256).flatMap fun bucket =>
      if buckets bucket then layout.order (v.keys.filter (params.bucket · = bucket)) else []

/-- `prepareVariantsToMerge`: if a variant has two levels, all others get them, and the variant
that they are merged into has them. -/
def prepareVariantsToMerge (variants : Fin n → DataVariants K S) :
    (Fin n → DataVariants K S) × DataVariants K S :=
  if ∃ i, (variants i).updatedBuckets.isSome then
    (fun i => if (variants i).keys.isEmpty then variants i
      else convertToTwoLevel params (variants i),
      ⟨.empty, some []⟩)
  else (variants, .new)

/-- The keys are emplaced in the variant that is merged into. -/
def emplaceKeys (keys : List K) (dst : DataVariants K S) : DataVariants K S :=
  { data := keys.foldl
      (fun data key => data.alter key fun mapped => some (emplaceKey mapped)) dst.data
    updatedBuckets := dst.updatedBuckets.map (keys.map params.bucket ++ ·) }

/-- The groups of `dst` are merged with those of `src`, where `src` has them. -/
def mergeInto (merge : AggregateStates S → AggregateData S → AggregateStates S) (layout : Layout K)
    (dst src : DataVariants K S) : DataVariants K S :=
  { dst with
    data := (dst.visited params layout fun _ => true).foldl (fun data key =>
      data.alter key (Option.map fun m =>
        match src.data.find? key with
        | none => m
        | some d => { m with toAggregateStates := merge m.toAggregateStates d })) dst.data }

/-- The groups of `src` that were merged into `dst` are reset. -/
def resetMerged (reset : AggregateData S → AggregateData S) (layout : Layout K)
    (dst src : DataVariants K S) : DataVariants K S :=
  { src with
    data := (dst.visited params layout fun _ => true).foldl (fun data key =>
      data.alter key (Option.map reset)) src.data }

/-- The second part of `mergeUpdatesDataImpl` and `mergeRetractGroupsImpl`: the groups with the
collected keys are merged from all variants, and reset there. -/
def mergeCollected (merge : AggregateStates S → AggregateData S → AggregateStates S)
    (reset : AggregateData S → AggregateData S) (layout : Layout K) (keys : List K)
    (dst : DataVariants K S) (variants : Fin n → DataVariants K S) :
    (Fin n → DataVariants K S) × DataVariants K S :=
  let dst := emplaceKeys params keys dst
  (fun i => resetMerged params reset layout dst (variants i),
    (List.finRange n).foldl (fun dst i => mergeInto params merge layout dst (variants i)) dst)

/-- The groups of `keys` that were updated. -/
def updatedKeys (keys : List K) (v : DataVariants K S) : List K :=
  keys.filter fun key => (v.data.find? key).any (·.updated)

/-- `mergeUpdatesDataImpl`. Without cached keys, the updated groups are collected from the updated
buckets, whose marks are reset. -/
def mergeUpdatesDataImpl (layout : Layout K) (cached : List K) (dst : DataVariants K S)
    (variants : Fin n → DataVariants K S) : (Fin n → DataVariants K S) × DataVariants K S :=
  let merge := fun m d => mergeAggregateStates m d.toAggregateStates
  let reset := fun d => { d with updated := false }
  if cached.isEmpty then
    let keys := (List.finRange n).flatMap fun i =>
      updatedKeys ((variants i).visited params layout fun bucket =>
        ((variants i).updatedBuckets.getD []).contains bucket) (variants i)
    mergeCollected params merge reset layout keys dst fun i =>
      { variants i with updatedBuckets := (variants i).updatedBuckets.map fun _ => [] }
  else mergeCollected params merge reset layout cached dst variants

/-- `mergeRetractGroupsImpl`. A group without retracted states did not change. -/
def mergeRetractGroupsImpl (layout : Layout K) (cached : List K) (dst : DataVariants K S)
    (variants : Fin n → DataVariants K S) : (Fin n → DataVariants K S) × DataVariants K S :=
  let merge := fun m d =>
    let old := d.retract.getD d.toAggregateStates
    (mergeAggregateStates m old).merge old
  let reset := fun d => { d with retract := none }
  let keys :=
    if cached.isEmpty then
      (List.finRange n).flatMap fun i =>
        ((variants i).visited params layout fun _ => true).filter fun key =>
          ((variants i).data.find? key).any (·.retract.isSome)
    else cached
  mergeCollected params merge reset layout keys dst variants

/-- The part of `mergeAndConvertToBlocks` for the retracted groups. -/
def mergeAndConvertRetract (layout : Layout K) (cached : List K)
    (variants : Fin n → DataVariants K S) :
    Except AggregatorError ((Fin n → DataVariants K S) × List (List (K × V))) := do
  let (variants, dst) := prepareVariantsToMerge params variants
  let (variants, merged) := mergeRetractGroupsImpl params layout cached dst variants
  let (_, blocks) ← doConvertToBlocks params .updatesAfterRetract layout [] merged
  pure (variants, blocks)

/-- The part of `mergeAndConvertToBlocks` for the updated groups. -/
def mergeAndConvertUpdates (layout : Layout K) (cached : List K)
    (variants : Fin n → DataVariants K S) :
    Except AggregatorError ((Fin n → DataVariants K S) × List (List (K × V))) := do
  let (variants, dst) := prepareVariantsToMerge params variants
  let (variants, merged) := mergeUpdatesDataImpl params layout cached dst variants
  let (_, blocks) ← doConvertToBlocks params .normal layout [] merged
  pure (variants, blocks)

/-- `mergeAndConvertToBlocks`, for updates or for a changelog. -/
def mergeAndConvertToBlocks (emitChangelog : Bool) (layout : Layout K) (cached : List K)
    (variants : Fin n → DataVariants K S) :
    Except AggregatorError ((Fin n → DataVariants K S) × List ((K × V) × ℤ)) :=
  if emitChangelog then do
    let (variants, retracted) ← mergeAndConvertRetract params layout cached variants
    let (variants, updated) ← mergeAndConvertUpdates params layout cached variants
    pure (variants, retracted.flatten.map (·, -1) ++ updated.flatten.map (·, 1))
  else do
    let (variants, updated) ← mergeAndConvertUpdates params layout cached variants
    pure (variants, updated.flatten.map (·, 1))

end Model

end Proton.Streaming.MemoryAggregator
