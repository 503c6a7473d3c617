import Proton.Streaming.Aggregator.MergedConversion

/-!
# What a Block Does to a Group

A block of rows with deltas `1` and `-1` adds to the states of a group the contributions of the rows
with its key, each with its delta, and to the number of rows the sum of the deltas. If retractions
are enabled, the group is saved before it changes; what it was at the last finalization is the same
before and after (`AggregateData.old`), except that the states of a group without rows are not
copied.

## Main results

* `find?_executeOnBlock`: the groups after a block.
* `marked_executeOnBlock`: the buckets of updated groups are marked.
-/

open List

namespace Proton.Streaming.MemoryAggregator

variable {K A S V : Type} [LinearOrder K] [AddCommGroup S] (params : AggregatorParams K A S V)

variable (rows : List (KeyedRow K A))

/-- The rows with a key. -/
def rowsOf (k : K) : List (KeyedRow K A) :=
  rows.filter fun row => row.1.1 = k

/-- The sum of the deltas of a key. -/
def netRows (k : K) : ℤ := ((rowsOf rows k).map (·.2)).sum

/-- What the rows of a key add up to. -/
def aggregated (k : K) : S :=
  ((rowsOf rows k).map fun row => row.2 • params.contribution row.1.2).sum

/-- The deltas are `1` and `-1`, and they are counted: without aggregate functions, there are no
rows with `-1`. -/
def Countable : Prop :=
  ∀ row ∈ rows, row.2 = 1 ∨ row.2 = -1 ∧ params.aggregatesSize ≠ 0
deriving Decidable

/-- The rows of a key in two blocks. -/
theorem rowsOf_append (rows rows' : List (KeyedRow K A)) (k : K) :
    rowsOf (rows ++ rows') k = rowsOf rows k ++ rowsOf rows' k := filter_append _ _

/-- The row counts of two blocks add up. -/
theorem netRows_append (rows rows' : List (KeyedRow K A)) (k : K) :
    netRows (rows ++ rows') k = netRows rows k + netRows rows' k := by
  rw [netRows, rowsOf_append, map_append, sum_append]
  rfl

/-- The states of two blocks add up. -/
theorem aggregated_append (rows rows' : List (KeyedRow K A)) (k : K) :
    aggregated params (rows ++ rows') k = aggregated params rows k + aggregated params rows' k := by
  rw [aggregated, rowsOf_append, map_append, sum_append]
  rfl

/-! ### Rows one after the other -/

omit [LinearOrder K] in
/-- Rows of one group, for the aggregate functions. -/
theorem foldl_addRow {rows : List (KeyedRow K A)} (h : Countable params rows)
    (d : AggregateData S) :
    rows.foldl (fun d row => addRow params row d) d =
      { d with
        states := d.states + (rows.map fun row => row.2 • params.contribution row.1.2).sum } := by
  induction rows generalizing d with
  | nil => simp
  | cons row rows ih =>
    have hrest : Countable params rows := fun r hr => h r (mem_cons_of_mem _ hr)
    rw [foldl_cons, ih hrest, map_cons, sum_cons, ← add_assoc]
    rcases h row mem_cons_self with hdelta | ⟨hdelta, -⟩
    · simp [addRow, hdelta]
    · simp [addRow, hdelta, sub_eq_add_neg]

omit [LinearOrder K] [AddCommGroup S] in
/-- Rows of one group, for the number of rows. -/
theorem foldl_trackRow {rows : List (KeyedRow K A)} (h : Countable params rows) (hne : rows ≠ [])
    (d : AggregateData S) :
    rows.foldl (fun d row => trackRow params row d) d =
      { d with
        updates := Word.uint64.wrap (d.updates + (rows.map (·.2)).sum)
        updated := true } := by
  induction rows generalizing d with
  | nil => exact absurd rfl hne
  | cons row rows ih =>
    have hrest : Countable params rows := fun r hr => h r (mem_cons_of_mem _ hr)
    have hrow : trackRow params row d =
        { d with updates := Word.uint64.wrap (d.updates + row.2), updated := true } := by
      rcases h row mem_cons_self with hdelta | ⟨hdelta, hsize⟩
      · simp [trackRow, hdelta, AggregateStates.add]
      · simp [trackRow, hdelta, hsize, AggregateStates.negate, sub_eq_add_neg]
    rw [foldl_cons, hrow, map_cons, sum_cons]
    by_cases hnil : rows = []
    · simp [hnil]
    · rw [ih hrest hnil]
      simp only [Word.wrap_wrap_add, add_assoc]

omit [LinearOrder K] [AddCommGroup S] in
/-- Rows do not create a group. -/
theorem foldl_map {f : KeyedRow K A → AggregateData S → AggregateData S}
    (rows : List (KeyedRow K A)) (d : AggregateData S) :
    rows.foldl (fun v row => Option.map (f row) v) (some d) =
      some (rows.foldl (fun d row => f row d) d) := by
  induction rows generalizing d with
  | nil => rfl
  | cons row rows ih => exact ih (f row d)

/-! ### A block -/

section Block

variable {emplace : Option (AggregateData S) → AggregateData S} {block : List (KeyedRow K A)}
  {data : SortedMap K (AggregateData S)} {k : K}

/-- A group with the rows of a block that have its key. -/
def executeGroup (block : List (KeyedRow K A)) (k : K) (d : AggregateData S) : AggregateData S :=
  (rowsOf block k).foldl (fun d row => trackRow params row d)
    ((rowsOf block k).foldl (fun d row => addRow params row d) d)

/-- A key without rows does not occur. -/
theorem rowsOf_eq_nil_iff : rowsOf block k = [] ↔ k ∉ block.map (·.1.1) := by
  simp only [rowsOf, filter_eq_nil_iff, decide_eq_true_eq, mem_map, not_exists, not_and]

/-- **The groups after the rows of a block.** -/
theorem find?_executeRows (hagain : ∀ v, emplace (some (emplace v)) = emplace v) :
    (executeRows params emplace block data).find? k =
      if k ∈ block.map (·.1.1) then some (executeGroup params block k (emplace (data.find? k)))
      else data.find? k := by
  have hemplace := SortedMap.find?_foldl_alter_idem (f := fun _ v => some (emplace v))
    (fun _ v => congrArg some (hagain v)) (block.map (·.1.1)) data k
  rw [List.foldl_map] at hemplace
  have hrows : ∀ l : List (KeyedRow K A), ∀ f : KeyedRow K A → AggregateData S → AggregateData S,
      ∀ m : SortedMap K (AggregateData S),
      (l.foldl (fun data row => data.alter row.1.1 (Option.map (f row))) m).find? k =
        (rowsOf l k).foldl (fun v row => Option.map (f row) v) (m.find? k) := by
    intro l f m
    exact SortedMap.find?_foldl_alter_key (fun row : KeyedRow K A => row.1.1)
      (fun row => Option.map (f row)) l m k
  rw [executeRows, hrows, hrows, emplaceRows, hemplace]
  split_ifs with hk
  · rw [foldl_map, foldl_map]
    rfl
  · rw [rowsOf_eq_nil_iff.2 hk]
    rfl

/-- The rows that are counted. -/
theorem executeGroup_eq (h : Countable params block) (hk : k ∈ block.map (·.1.1))
    (d : AggregateData S) :
    executeGroup params block k d =
      { d with
        updates := Word.uint64.wrap (d.updates + netRows block k)
        updated := true
        states := d.states + aggregated params block k } := by
  have hrows : Countable params (rowsOf block k) := fun row hrow => h row (mem_filter.1 hrow).1
  have hne : rowsOf block k ≠ [] := fun hnil => rowsOf_eq_nil_iff.1 hnil hk
  rw [executeGroup, foldl_addRow params hrows, foldl_trackRow params hrows hne]
  rfl

/-- Rows are not saved. -/
theorem retract_executeGroup (d : AggregateData S) :
    (executeGroup params block k d).retract = d.retract := by
  have hfold (f : KeyedRow K A → AggregateData S → AggregateData S)
      (hf : ∀ row d, (f row d).retract = d.retract) (l : List (KeyedRow K A))
      (d : AggregateData S) : (l.foldl (fun d row => f row d) d).retract = d.retract := by
    induction l generalizing d with
    | nil => rfl
    | cons row l ih => exact (ih _).trans (hf row d)
  rw [executeGroup, hfold (trackRow params) fun _ _ => rfl, hfold (addRow params) fun _ _ => rfl]

/-- A group with rows is updated. -/
theorem updated_executeGroup (hk : k ∈ block.map (·.1.1)) (d : AggregateData S) :
    (executeGroup params block k d).updated = true := by
  have htrack : ∀ l : List (KeyedRow K A), ∀ d : AggregateData S, d.updated = true ∨ l ≠ [] →
      (l.foldl (fun d row => trackRow params row d) d).updated = true := by
    intro l
    induction l with
    | nil => exact fun d h => h.resolve_right fun hne => hne rfl
    | cons row l ih =>
      intro d _
      refine ih _ (.inl ?_)
      simp only [trackRow]
      split_ifs <;> rfl
  exact htrack _ _ (.inr fun hnil => rowsOf_eq_nil_iff.1 hnil hk)

end Block

/-! ### Groups that are saved -/

section Save

variable {d : AggregateData S}

/-- Saving leaves something to retract. -/
theorem isSome_retract_saveRetract (d : AggregateData S) : (saveRetract d).retract.isSome := by
  rw [saveRetract]
  cases h : d.retract with
  | none => rfl
  | some r => simp [h]

/-- What is saved stays saved. -/
theorem saveRetract_saveRetract (d : AggregateData S) :
    saveRetract (saveRetract d) = saveRetract d := by
  obtain ⟨r, hr⟩ := Option.isSome_iff_exists.1 (isSome_retract_saveRetract d)
  rw [saveRetract, hr]

/-- Saving leaves the states. -/
theorem toAggregateStates_saveRetract (d : AggregateData S) :
    (saveRetract d).toAggregateStates = d.toAggregateStates := by
  rw [saveRetract]
  cases d.retract <;> rfl

/-- **Saving a group** does not change how many rows it had. -/
theorem updates_old_saveRetract (hword : Word.uint64.wrap d.updates = d.updates) :
    (saveRetract d).old.updates = d.old.updates := by
  rw [saveRetract]
  cases h : d.retract with
  | some r => rfl
  | none =>
    by_cases hempty : d.updates = 0
    · simp [AggregateData.old, h, AggregateStates.empty, hempty, createAggregateStates]
    · simp [AggregateData.old, h, AggregateStates.empty, hempty, createAggregateStates,
        copyAggregateStates, AggregateStates.merge, hword]

/-- **Saving a group** does not change its old states, if it had rows. -/
theorem states_old_saveRetract (h : d.retract = none → d.updates = 0 → d.states = 0) :
    (saveRetract d).old.states = d.old.states := by
  rw [saveRetract]
  cases hr : d.retract with
  | some r => rfl
  | none =>
    by_cases hempty : d.updates = 0
    · simp [AggregateData.old, hr, AggregateStates.empty, hempty, createAggregateStates,
        h hr hempty]
    · simp [AggregateData.old, hr, AggregateStates.empty, hempty,
        copyAggregateStates, AggregateStates.merge]

end Save

/-! ### Executing a block -/

section Execute

variable {block : List (KeyedRow K A)} {v : DataVariants K S} {k : K}

/-- The group that a row finds or creates. -/
def emplaced (retractEnabled : Bool) (mapped : Option (AggregateData S)) : AggregateData S :=
  if retractEnabled then saveRetract (emplaceKey mapped) else emplaceKey mapped

omit [AddCommGroup S] in
@[simp] theorem data_checkAndProcessResult : (checkAndProcessResult params v).data = v.data := by
  rw [checkAndProcessResult]
  split_ifs <;> rfl

/-- **The groups after a block.** -/
theorem find?_executeOnBlock (retractEnabled : Bool) :
    (executeOnBlock params retractEnabled block v).data.find? k =
      if k ∈ block.map (·.1.1) then
        some (executeGroup params block k (emplaced retractEnabled (v.data.find? k)))
      else v.data.find? k := by
  rw [executeOnBlock, data_checkAndProcessResult]
  cases retractEnabled with
  | false =>
    rw [if_neg Bool.false_ne_true, executeImplBatch, find?_executeRows params fun v => rfl]
    rfl
  | true =>
    rw [if_pos rfl, executeAndRetractImpl,
      find?_executeRows params fun v => saveRetract_saveRetract (emplaceKey v)]
    rfl

/-- The buckets of updated groups are marked. -/
theorem marked_executeOnBlock {retractEnabled : Bool} (h : Marked params v) :
    Marked params (executeOnBlock params retractEnabled block v) := by
  intro buckets hbuckets k d hd hupdated
  have hk : k ∈ block.map (·.1.1) ∨ v.data.find? k = some d := by
    rw [find?_executeOnBlock] at hd
    split_ifs at hd with hk
    · exact .inl hk
    · exact .inr hd
  -- the marks before a conversion to two levels
  set w : DataVariants K S := ⟨(executeOnBlock params retractEnabled block v).data,
    v.updatedBuckets.map (block.map (fun row => params.bucket row.1.1) ++ ·)⟩ with hw
  have hbefore : ∀ marks, w.updatedBuckets = some marks → params.bucket k ∈ marks := by
    intro marks hmarks
    obtain ⟨old, hold, rfl⟩ := Option.map_eq_some_iff.1 hmarks
    rcases hk with hk | hd'
    · obtain ⟨row, hrow, rfl⟩ := mem_map.1 hk
      exact mem_append_left _ (mem_map_of_mem hrow)
    · exact mem_append_right _ (h old hold k d hd' hupdated)
  have hexec : executeOnBlock params retractEnabled block v = checkAndProcessResult params w := by
    rw [hw, executeOnBlock, data_checkAndProcessResult]
  rw [hexec, checkAndProcessResult] at hbuckets
  split_ifs at hbuckets
  · rw [convertToTwoLevel] at hbuckets
    cases hlevel : w.updatedBuckets with
    | none =>
      rw [hlevel] at hbuckets
      cases hbuckets
      exact mem_map_of_mem (mem_keys_iff.2 (by rw [hd]; rfl))
    | some marks =>
      rw [hlevel] at hbuckets
      cases hbuckets
      exact hbefore buckets hlevel
  · exact hbefore buckets hbuckets

/-! ### The part of a group -/

variable {retractEnabled : Bool}

/-- What a group has before the rows of a block. -/
theorem parts_emplaced (p : Option (AggregateData S)) :
    (emplaced retractEnabled p).states = partStates p ∧
      (emplaced retractEnabled p).updates = partUpdates p := by
  rw [emplaced]
  split_ifs
  · rw [toAggregateStates_saveRetract]
    cases p <;> exact ⟨rfl, rfl⟩
  · cases p <;> exact ⟨rfl, rfl⟩

/-- **A block adds** the contributions of its rows. -/
theorem partStates_executeOnBlock (h : Countable params block) :
    partStates ((executeOnBlock params retractEnabled block v).data.find? k) =
      partStates (v.data.find? k) + aggregated params block k := by
  rw [find?_executeOnBlock]
  split_ifs with hk
  · rw [executeGroup_eq params h hk]
    exact congrArg (· + aggregated params block k) (parts_emplaced _).1
  · rw [aggregated, rowsOf_eq_nil_iff.2 hk]
    exact (add_zero _).symm

/-- **A block counts** its rows. -/
theorem partUpdates_executeOnBlock (h : Countable params block)
    (hword : Word.uint64.wrap (partUpdates (v.data.find? k)) = partUpdates (v.data.find? k)) :
    partUpdates ((executeOnBlock params retractEnabled block v).data.find? k) =
      Word.uint64.wrap (partUpdates (v.data.find? k) + netRows block k) := by
  rw [find?_executeOnBlock]
  split_ifs with hk
  · rw [executeGroup_eq params h hk]
    exact congrArg (fun x => Word.uint64.wrap (x + netRows block k)) (parts_emplaced _).2
  · rw [netRows, rowsOf_eq_nil_iff.2 hk, map_nil, sum_nil, add_zero, hword]

/-- A saved group keeps what it was. -/
theorem old_executeGroup (block : List (KeyedRow K A)) (k : K) (d : AggregateData S) :
    (executeGroup params block k (saveRetract d)).old = (saveRetract d).old := by
  obtain ⟨r, hr⟩ := Option.isSome_iff_exists.1 (isSome_retract_saveRetract d)
  rw [AggregateData.old, AggregateData.old, retract_executeGroup, hr]
  rfl

/-- If retractions are enabled, **a block keeps** how many rows a group had. -/
theorem oldUpdates_executeOnBlock
    (hword : Word.uint64.wrap (partUpdates (v.data.find? k)) = partUpdates (v.data.find? k)) :
    oldUpdates ((executeOnBlock params true block v).data.find? k) =
      oldUpdates (v.data.find? k) := by
  rw [find?_executeOnBlock]
  split_ifs with hk
  · have hgroup : oldUpdates (some (executeGroup params block k (emplaced true (v.data.find? k)))) =
        (saveRetract (emplaceKey (v.data.find? k))).old.updates :=
      congrArg (·.updates) (old_executeGroup params block k _)
    rw [hgroup]
    cases hd : v.data.find? k with
    | none => rfl
    | some d =>
      rw [hd] at hword
      exact updates_old_saveRetract hword
  · rfl

/-- If retractions are enabled, **a block keeps** the old states of a group, unless it had none and
no rows. -/
theorem oldStates_executeOnBlock
    (h : ∀ d, k ∈ block.map (·.1.1) → v.data.find? k = some d → d.retract = none → d.updates = 0 →
      d.states = 0) :
    oldStates ((executeOnBlock params true block v).data.find? k) = oldStates (v.data.find? k) := by
  rw [find?_executeOnBlock]
  split_ifs with hk
  · have hgroup : oldStates (some (executeGroup params block k (emplaced true (v.data.find? k)))) =
        (saveRetract (emplaceKey (v.data.find? k))).old.states :=
      congrArg (·.states) (old_executeGroup params block k _)
    rw [hgroup]
    cases hd : v.data.find? k with
    | none => rfl
    | some d => exact states_old_saveRetract (h d hk hd)
  · rfl

end Execute

end Proton.Streaming.MemoryAggregator
