import Proton.Lib.GuardedRun
import Proton.Streaming.Aggregator.BlockExecution
import Proton.Streaming.Aggregator.HybridAggregator

/-!
# What a Round Does to the Groups

A group of a data variant is the sum of its rows (`rowsGroup`), and the parts of a group that
several data variants have add up to the sum of all its rows. If retractions are enabled, a part
that changes in a round is saved as it was before the round, provided that a part without rows has
no states.

## Main results

* `flatten_convertToBlocksForAll`: the rows of all groups.
* `Aggregation.Executed.of_round`: the parts after the blocks of a round.
-/

open List SortedMap Function

namespace Proton.Streaming.HybridAggregator

open MemoryAggregator (KeyedRow rowsOf netRows rowsOf_append rowsOf_eq_nil_iff)

variable {n : ℕ} {K A S V : Type} [LinearOrder K]

/-! ### Visiting a table -/

section Visit

variable {G : Type} (scan : Scan K) (table : SortedMap K G)

/-- The keys are visited in the order of the scan. -/
theorem map_fst_entries : (scan.entries table).map (·.1) = scan.order (table.toList.map (·.1)) := by
  have hmem : ∀ key ∈ scan.order (table.toList.map (·.1)), (table.find? key).isSome := by
    intro key hkey
    rw [← SortedMap.mem_keys, SortedMap.mem_keys_iff_mem_map]
    exact (scan.perm _).mem_iff.1 hkey
  rw [Scan.entries]
  generalize scan.order (table.toList.map (·.1)) = keys at hmem
  induction keys with
  | nil => rfl
  | cons key keys ih =>
    obtain ⟨g, hg⟩ := Option.isSome_iff_exists.1 (hmem key mem_cons_self)
    rw [filterMap_cons, hg]
    simp only [Option.map_some, map_cons]
    rw [ih fun k hk => hmem k (mem_cons_of_mem _ hk)]

/-- Every entry is visited once. -/
theorem listing_entries : Listing table.find? (scan.entries table) := by
  refine ⟨?_, fun key g => ?_⟩
  · rw [map_fst_entries]
    exact (scan.perm _).nodup_iff.2 table.nodup_keys
  · rw [Scan.entries, mem_filterMap]
    constructor
    · rintro ⟨k, -, hk⟩
      obtain ⟨g', hg, heq⟩ := Option.map_eq_some_iff.1 hk
      cases heq
      exact hg
    · intro hg
      refine ⟨key, (scan.perm _).mem_iff.2 ?_, by rw [hg]; rfl⟩
      exact mem_map_of_mem (find?_eq_some.1 hg)

/-- A value for every key. -/
theorem listing_map_entries {C : Type} (v : K → C) :
    Listing (fun k => if k ∈ table.keys then some (v k) else none)
      ((scan.entries table).map fun e => (e.1, v e.1)) := by
  refine ((listing_entries scan table).mapWithKey fun k _ => v k).congr fun k => ?_
  simp only [SortedMap.mem_keys]
  cases table.find? k <;> rfl

/-- Every key is visited. -/
theorem mem_map_entries {table : SortedMap K G} {k : K} :
    k ∈ (scan.entries table).map (·.1) ↔ k ∈ table.keys := by
  rw [map_fst_entries, (scan.perm _).mem_iff, mem_keys_iff_mem_map]

omit [LinearOrder K] in
/-- Every cold group is passed on. -/
theorem map_fst_coldCalls (batchSize m : ℕ) (es : List (K × G)) :
    (coldCalls batchSize m es).map (·.1) = es := by
  induction es generalizing m with
  | nil => rfl
  | cons e es ih =>
    rw [coldCalls]
    split_ifs <;> rw [map_cons, ih]

/-- Every group is passed on, in the order of the scan. -/
theorem map_fst_forBatchValue (batchSize : ℕ) :
    (scan.forBatchValue batchSize table).map (·.1) = scan.entries table := by
  rw [Scan.forBatchValue, map_append, map_fst_coldCalls, map_map]
  simp only [comp_def, map_id', take_append_drop]

end Visit

/-! ### The rows of all groups -/

section ForAll

variable (params : HybridParams A S V)

/-- The row that `convertToBlocksForAll` makes of a group. -/
def shownRow (g : Group S) : Option V :=
  if params.trackingStateCount ∧ g.1 = 0 then none else some (params.result g.2)

omit [LinearOrder K] in
/-- The rows of all blocks are those of the groups that are shown. -/
theorem flatten_foldl_fillBlock (calls : List ((K × Group S) × Bool))
    (s : List (K × V) × List (List (K × V))) :
    ((calls.foldl (fillBlock params) s).2 ++ [(calls.foldl (fillBlock params) s).1]).flatten =
      (s.2 ++ [s.1]).flatten ++
        (calls.map (·.1)).filterMap fun e => (shownRow params e.2).map (e.1, ·) := by
  induction calls generalizing s with
  | nil => simp
  | cons call calls ih =>
    rw [foldl_cons, ih, map_cons, filterMap_cons, fillBlock, shownRow]
    split_ifs <;> simp

/-- **The rows of all groups.** -/
theorem flatten_convertToBlocksForAll (scan : Scan K) (table : SortedMap K (Group S)) :
    (convertToBlocksForAll params scan table).flatten =
      (scan.entries table).filterMap fun e => (shownRow params e.2).map (e.1, ·) := by
  have hrows := flatten_foldl_fillBlock params (scan.forBatchValue
    (min (min params.maxBlockSize scan.approximateCount + 1) params.maxHotKeyCount) table) ([], [])
  rw [map_fst_forBatchValue] at hrows
  simp only [nil_append, flatten_singleton] at hrows
  rw [← hrows, convertToBlocksForAll]
  dsimp only
  split_ifs with hplaces
  · simp [isEmpty_iff.1 hplaces]
  · rfl

/-- The conversion lists the groups that are shown. -/
theorem listing_convertToBlocksForAll (scan : Scan K) (table : SortedMap K (Group S)) :
    Listing (fun k => (table.find? k).bind (shownRow params))
      (convertToBlocksForAll params scan table).flatten := by
  rw [flatten_convertToBlocksForAll]
  exact (listing_entries scan table).bind _

end ForAll

/-! ### A block -/

section Block

variable [AddCommMonoid S] (params : HybridParams A S V) {v : DataVariants K S} {k : K}

/-- What the rows of a key add to its group. -/
def rowsGroup (rows : List (KeyedRow K A)) (k : K) : Group S :=
  ((rowsOf rows k).map (rowGroup params)).sum

@[simp] theorem rowsGroup_nil (k : K) : rowsGroup params ([] : List (KeyedRow K A)) k = 0 := rfl

/-- The group of two lists of rows is the sum of their groups. -/
theorem rowsGroup_append (rows rows' : List (KeyedRow K A)) (k : K) :
    rowsGroup params (rows ++ rows') k = rowsGroup params rows k + rowsGroup params rows' k := by
  rw [rowsGroup, rowsOf_append, map_append, sum_append]
  rfl

/-- A key without rows. -/
theorem rowsGroup_of_notMem {rows : List (KeyedRow K A)} (h : k ∉ rows.map (·.1.1)) :
    rowsGroup params rows k = 0 := by
  rw [rowsGroup, rowsOf_eq_nil_iff.2 h]
  rfl

/-- The part of a group that a data variant has. -/
def DataVariants.part (v : DataVariants K S) (k : K) : Group S := (v.table.find? k).getD 0

/-- The part as it was at the last finalization. -/
def DataVariants.oldPart (v : DataVariants K S) (k : K) : Group S :=
  (v.retracts.find? k).getD (v.part k)

/-- New keys start with an empty group. -/
theorem find?_emplaceKeys (keys : List K) (table : SortedMap K (Group S)) :
    (emplaceKeys keys table).find? k =
      if k ∈ keys then some ((table.find? k).getD 0) else table.find? k :=
  find?_foldl_alter_idem (f := fun _ g => some (g.getD 0)) (fun _ _ => rfl) keys table k

/-- A group gets all of its rows. -/
theorem find?_foldl_rowGroup (block : List (KeyedRow K A)) (table : SortedMap K (Group S)) :
    (block.foldl (fun table row =>
      table.alter row.1.1 (Option.map (· + rowGroup params row))) table).find? k =
      (table.find? k).map (· + rowsGroup params block k) := by
  induction block generalizing table with
  | nil => simp
  | cons row block ih =>
    have hcons : rowsGroup params (row :: block) k =
        (if k = row.1.1 then rowGroup params row else 0) + rowsGroup params block k := by
      by_cases hk : k = row.1.1
      · simp [rowsGroup, rowsOf, hk]
      · simp [rowsGroup, rowsOf, hk, Ne.symm hk]
    rw [foldl_cons, ih, find?_alter, hcons]
    by_cases hk : k = row.1.1
    · subst hk
      simp only [if_true, Option.map_map, comp_def, add_assoc]
    · simp only [if_neg hk, zero_add]

/-- **The groups after a block.** -/
theorem find?_table_executeOnBlockImpl (retract : Bool) (block : List (KeyedRow K A)) :
    (executeOnBlockImpl params retract block v).table.find? k =
      if k ∈ block.map (·.1.1) then some (v.part k + rowsGroup params block k)
      else v.table.find? k := by
  rw [executeOnBlockImpl]
  rw [find?_foldl_rowGroup, find?_emplaceKeys]
  split_ifs with hk
  · rfl
  · rw [rowsGroup_of_notMem params hk]
    simp

/-- What a data variant has of a key after a block. -/
theorem part_executeOnBlockImpl (retract : Bool) (block : List (KeyedRow K A)) :
    (executeOnBlockImpl params retract block v).part k = v.part k + rowsGroup params block k := by
  rw [DataVariants.part, find?_table_executeOnBlockImpl]
  split_ifs with hk
  · rfl
  · rw [rowsGroup_of_notMem params hk, add_zero]
    rfl

/-- The saved groups after a block. -/
theorem find?_retracts_executeOnBlockImpl (block : List (KeyedRow K A))
    (hneutral : v.retracts.find? k = none → (v.part k).1 = 0 → v.part k = 0) :
    (executeOnBlockImpl params true block v).retracts.find? k =
      if k ∈ block.map (·.1.1) then some (v.oldPart k) else v.retracts.find? k := by
  rw [executeOnBlockImpl]
  simp only [if_true]
  rw [saveKeys, find?_foldl_alter_idem, find?_emplaceKeys]
  swap
  · exact fun _ _ => rfl
  split_ifs with hk
  · rw [DataVariants.oldPart]
    cases hfind : v.retracts.find? k with
    | some old => rfl
    | none =>
      have hsaved : ((some (v.part k)).filter (·.1 ≠ 0)).getD 0 = v.part k := by
        by_cases hzero : (v.part k).1 = 0
        · rw [hneutral hfind hzero]
          rfl
        · simp [Option.filter, hzero]
      exact congrArg some hsaved
  · rfl

end Block

/-! ### Merging groups -/

section Merge

variable [AddCommMonoid S] {lists : Fin n → List (K × Group S)} {f : Fin n → K → Option (Group S)}

/-- A change for each entry of a listing. -/
theorem find?_foldl_alter_listing {G G' : Type} {f : K → Option G} {l : List (K × G)}
    (h : Listing f l) (change : K × G → Option G' → Option G') (m : SortedMap K G') (k : K) :
    (l.foldl (fun m e => m.alter e.1 (change e)) m).find? k =
      (f k).elim (m.find? k) fun g => change (k, g) (m.find? k) := by
  rw [find?_foldl_alter_key (fun e : K × G => e.1), filter_eq_find? h.nodup, h.find?_eq]
  cases f k <;> rfl

/-- Merging adds up the groups of a key. -/
theorem find?_foldl_merge (h : ∀ i, Listing (f i) (lists i)) (l : List (Fin n))
    (dst : SortedMap K (Group S)) (k : K) :
    let merged := (l.foldl (fun dst i => (lists i).foldl mergeGroup dst) dst).find? k
    merged.getD 0 = (dst.find? k).getD 0 + (l.map fun i => (f i k).getD 0).sum ∧
      (merged.isSome ↔ (dst.find? k).isSome ∨ ∃ i ∈ l, (f i k).isSome) := by
  induction l generalizing dst with
  | nil => simp
  | cons i l ih =>
    obtain ⟨hsum, hsome⟩ := ih ((lists i).foldl mergeGroup dst)
    have hgroup : ((lists i).foldl mergeGroup dst).find? k = _ :=
      find?_foldl_alter_listing (h i) (fun e g => some (g.getD 0 + e.2)) dst k
    rw [hgroup] at hsum hsome
    refine ⟨hsum.trans ?_, hsome.trans ?_⟩
    · rw [map_cons, sum_cons, ← add_assoc]
      cases f i k <;> simp
    · rw [exists_mem_cons_iff]
      cases f i k <;> simp

/-- **The groups of several tables, merged.** -/
theorem merged_spec (h : ∀ i, Listing (f i) (lists i)) (k : K) :
    let merged := ((finRange n).foldl (fun dst i => (lists i).foldl mergeGroup dst)
      (.empty : SortedMap K (Group S))).find? k
    merged.getD 0 = ∑ i, (f i k).getD 0 ∧ (merged.isSome ↔ ∃ i, (f i k).isSome) := by
  obtain ⟨hsum, hsome⟩ := find?_foldl_merge h (finRange n) .empty k
  refine ⟨hsum.trans ?_, hsome.trans ?_⟩
  · rw [find?_empty, Option.getD_none, zero_add, Fin.sum_univ_def]
  · simp

end Merge

/-! ### A round -/

namespace Aggregation

variable [AddCommMonoid S] (params : HybridParams A S V)

/-- The rows of blocks that are aggregated in a data variant. -/
def rowsOn (i : Fin n) (blocks : List (Fin n × List (KeyedRow K A))) : List (KeyedRow K A) :=
  (blocks.filter (·.1 = i)).flatMap (·.2)

omit [LinearOrder K] in
/-- The rows that a data variant gets from two lists of blocks. -/
theorem rowsOn_append (i : Fin n) (blocks blocks' : List (Fin n × List (KeyedRow K A))) :
    rowsOn i (blocks ++ blocks') = rowsOn i blocks ++ rowsOn i blocks' := by
  rw [rowsOn, filter_append, flatMap_append]
  rfl

omit [LinearOrder K] in
/-- A block goes to one data variant. -/
theorem rowsOn_singleton (i : Fin n) (block : Fin n × List (KeyedRow K A)) :
    rowsOn i [block] = if block.1 = i then block.2 else [] := by
  by_cases h : block.1 = i <;> simp [rowsOn, h]

/-- A group, which is the sum of its parts. -/
def total (s : Aggregation n K S) (k : K) : Group S := ∑ i, (s.variants i).part k

/-- A group as it was at the last finalization. -/
def oldTotal (s : Aggregation n K S) (k : K) : Group S := ∑ i, (s.variants i).oldPart k

/-- What holds after some blocks. -/
structure Executed (start : Aggregation n K S) (blocks : List (Fin n × List (KeyedRow K A)))
    (s : Aggregation n K S) : Prop where
  enabled : s.retractEnabled = start.retractEnabled
  /-- A part has the rows that were aggregated in its data variant. -/
  part : ∀ i k, (s.variants i).part k =
    (start.variants i).part k + rowsGroup params (rowsOn i blocks) k
  mem : ∀ i k, ((s.variants i).table.find? k).isSome ↔
    ((start.variants i).table.find? k).isSome ∨ k ∈ (rowsOn i blocks).map (·.1.1)
  /-- A part that changed is saved as it was. -/
  saved : ∀ i k, (s.variants i).retracts.find? k =
    if start.retractEnabled ∧ k ∈ (rowsOn i blocks).map (·.1.1) then
      some ((start.variants i).part k)
    else none
  /-- A key that changed is kept. -/
  updated : params.trackingUpdatesType = .updates → start.retractEnabled = false →
    ∀ i k, k ∈ (s.variants i).updates.keys ↔
      k ∈ (start.variants i).updates.keys ∨ k ∈ (rowsOn i blocks).map (·.1.1)

variable {params} {start s : Aggregation n K S} {blocks : List (Fin n × List (KeyedRow K A))}

/-- What a part was before the blocks. -/
theorem Executed.oldPart (h : Executed params start blocks s) (henabled : start.retractEnabled)
    (i : Fin n) (k : K) : (s.variants i).oldPart k = (start.variants i).part k := by
  rw [DataVariants.oldPart, h.saved, h.part]
  by_cases hk : k ∈ (rowsOn i blocks).map (·.1.1)
  · rw [if_pos ⟨henabled, hk⟩]
    rfl
  · rw [if_neg fun hand => hk hand.2, rowsGroup_of_notMem params hk]
    exact add_zero _

/-- One more block. -/
theorem Executed.concat (h : Executed params start blocks s)
    (hneutral : start.retractEnabled → ∀ i k, ((start.variants i).part k).1 = 0 →
      (start.variants i).part k = 0) (block : Fin n × List (KeyedRow K A)) :
    Executed params start (blocks ++ [block]) (s.executeColumns params block) := by
  have hrows : ∀ i, rowsOn i (blocks ++ [block]) =
      rowsOn i blocks ++ if block.1 = i then block.2 else [] := fun i => by
    rw [rowsOn_append, rowsOn_singleton]
  have hother : ∀ i, block.1 ≠ i → (s.executeColumns params block).variants i = s.variants i :=
    fun i hi => update_of_ne (Ne.symm hi) _ _
  have hself : (s.executeColumns params block).variants block.1 =
      executeOnBlockImpl params s.retractEnabled block.2 (s.variants block.1) :=
    update_self _ _ _
  refine ⟨h.enabled, fun i k => ?_, fun i k => ?_, fun i k => ?_, fun htype henabled i k => ?_⟩
  · rw [hrows, rowsGroup_append, ← add_assoc, ← h.part]
    by_cases hi : block.1 = i
    · subst hi
      rw [hself, part_executeOnBlockImpl, if_pos rfl]
    · rw [hother i hi, if_neg hi, rowsGroup_nil, add_zero]
  · rw [hrows, map_append, mem_append, ← or_assoc, ← h.mem]
    by_cases hi : block.1 = i
    · subst hi
      rw [hself, find?_table_executeOnBlockImpl, if_pos rfl]
      split_ifs with hk <;> simp [hk]
    · simp [hother i hi, hi]
  · by_cases hi : block.1 = i
    · subst hi
      rw [hself, hrows, if_pos rfl]
      simp only [map_append, mem_append]
      cases henabled : start.retractEnabled with
      | false =>
        have hsaved := h.saved block.1 k
        simp only [h.enabled, henabled, executeOnBlockImpl] at hsaved ⊢
        simpa using hsaved
      | true =>
        rw [h.enabled, henabled, find?_retracts_executeOnBlockImpl, h.oldPart henabled, h.saved,
          henabled]
        · by_cases hk : k ∈ block.2.map (·.1.1)
          · simp only [hk, if_true, true_and, or_true]
          · simp only [hk, if_false, or_false]
        · intro hnone
          have hold := h.oldPart henabled block.1 k
          rw [DataVariants.oldPart, hnone, Option.getD_none] at hold
          rw [hold]
          exact hneutral henabled _ k
    · rw [hother i hi, hrows, if_neg hi, append_nil, h.saved]
  · rw [hrows, map_append, mem_append, ← or_assoc, ← h.updated htype henabled]
    by_cases hi : block.1 = i
    · subst hi
      rw [hself, executeOnBlockImpl, h.enabled, henabled, htype]
      simp only [Bool.not_false, decide_true, Bool.and_self, if_true]
      rw [mem_keys_foldl_insert, or_comm]
    · simp [hother i hi, hi]

/-- **The blocks of a round.** -/
theorem Executed.of_round (round : Round n K A)
    (hunsaved : ∀ i k, (start.variants i).retracts.find? k = none)
    (hneutral : start.retractEnabled → ∀ i k, ((start.variants i).part k).1 = 0 →
      (start.variants i).part k = 0) :
    Executed params start round.blocks (start.executed params round) := by
  rw [executed]
  induction round.blocks using reverseRecOn with
  | nil =>
    refine ⟨rfl, fun i k => ?_, fun i k => ?_, fun i k => ?_, fun _ _ i k => ?_⟩
    · simp [rowsOn]
    · simp [rowsOn]
    · simp [rowsOn, hunsaved]
    · simp [rowsOn]
  | append_singleton blocks block ih =>
    rw [foldl_append]
    exact ih.concat hneutral block

/-- The rows of all data variants. -/
theorem sum_rowsGroup_rowsOn (blocks : List (Fin n × List (KeyedRow K A))) (k : K) :
    ∑ i, rowsGroup params (rowsOn i blocks) k = rowsGroup params (blocks.flatMap (·.2)) k := by
  induction blocks with
  | nil => simp [rowsOn]
  | cons block blocks ih =>
    have hone : ∑ i, rowsGroup params (rowsOn i [block]) k = rowsGroup params block.2 k := by
      simp only [rowsOn_singleton]
      rw [Finset.sum_eq_single block.1 (fun i _ hi => by simp [Ne.symm hi]) (by simp), if_pos rfl]
    rw [flatMap_cons, rowsGroup_append, ← ih, ← hone, ← Finset.sum_add_distrib]
    refine Finset.sum_congr rfl fun i _ => ?_
    rw [← rowsGroup_append, ← rowsOn_append]
    rfl

/-- **A group after the blocks of a round.** -/
theorem Executed.total {round : Round n K A} (h : Executed params start round.blocks s) (k : K) :
    s.total k = start.total k + rowsGroup params round.rows k := by
  rw [Aggregation.total, Round.rows, ← sum_rowsGroup_rowsOn, Aggregation.total,
    ← Finset.sum_add_distrib]
  exact Finset.sum_congr rfl fun i _ => h.part i k

/-- The retracted totals are those before the round. -/
theorem Executed.oldTotal {round : Round n K A} (h : Executed params start round.blocks s)
    (henabled : start.retractEnabled) (k : K) : s.oldTotal k = start.total k :=
  Finset.sum_congr rfl fun i _ => h.oldPart henabled i k

omit [LinearOrder K] in
/-- The keys of a round. -/
theorem mem_rows_iff {round : Round n K A} {k : K} :
    k ∈ round.rows.map (·.1.1) ↔ ∃ i, k ∈ (rowsOn i round.blocks).map (·.1.1) := by
  simp only [Round.rows, rowsOn, mem_map, mem_flatMap, mem_filter, decide_eq_true_eq]
  constructor
  · rintro ⟨row, ⟨block, hblock, hrow⟩, rfl⟩
    exact ⟨block.1, row, ⟨block, ⟨hblock, rfl⟩, hrow⟩, rfl⟩
  · rintro ⟨i, row, ⟨block, ⟨hblock, -⟩, hrow⟩, rfl⟩
    exact ⟨row, ⟨block, hblock, hrow⟩, rfl⟩

/-- A finalization of the only data variant. -/
theorem finalize_one {s : Aggregation 1 K S} {scan : Scan K} {v : DataVariants K S}
    {blocks : List (List ((K × V) × ℤ))}
    (h : convertToBlocks params scan (s.variants 0) = .ok (v, blocks)) :
    s.finalize params scan = .ok (⟨update s.variants 0 v, s.retractEnabled ||
      (params.trackingUpdatesType = .updatesWithRetract && !blocks.flatten.isEmpty)⟩,
      blocks.flatten) := by
  rw [finalize]
  simp only [Fin.mk_zero, h]
  rfl

/-- A finalization that merges the data variants. -/
theorem finalize_of_ne (hn : n ≠ 1) {scan : Scan K} {variants : Fin n → DataVariants K S}
    {blocks : List (List ((K × V) × ℤ))}
    (h : mergeAndConvertToBlocks params scan s.variants = .ok (variants, blocks)) :
    s.finalize params scan = .ok (⟨variants, s.retractEnabled ||
      (params.trackingUpdatesType = .updatesWithRetract && !blocks.flatten.isEmpty)⟩,
      blocks.flatten) := by
  rw [finalize, dif_neg hn, h]
  rfl

end Aggregation

/-! ### Runs -/

section Run

variable [AddCommMonoid S] (params : HybridParams A S V)

/-- A condition before a round. -/
def Before (guard : History n K A S V → Round n K A → Prop) :
    Except HybridError (History n K A S V) → Round n K A → Prop
  | .ok h, round => guard h round
  | .error _, _ => True

instance {guard : History n K A S V → Round n K A → Prop} [∀ h round, Decidable (guard h round)] :
    (r : Except HybridError (History n K A S V)) → (round : Round n K A) →
      Decidable (Before guard r round)
  | .ok h, round => inferInstanceAs (Decidable (guard h round))
  | .error _, _ => isTrue trivial

/-- The condition holds before every round. -/
def Guarded (guard : History n K A S V → Round n K A → Prop) (rounds : List (Round n K A)) : Prop :=
  GuardedRun.Along (fun h round => h >>= History.next params round) (Before guard) (.ok .new) rounds

instance {guard : History n K A S V → Round n K A → Prop} [∀ h round, Decidable (guard h round)]
    (rounds : List (Round n K A)) : Decidable (Guarded params guard rounds) :=
  inferInstanceAs (Decidable (GuardedRun.Along _ _ _ _))

variable {params} {guard : History n K A S V → Round n K A → Prop} {rounds : List (Round n K A)}

/-- One more round. -/
theorem run_concat (rounds : List (Round n K A)) (round : Round n K A) :
    run params (rounds ++ [round]) = run params rounds >>= History.next params round := by
  rw [run, foldl_append]
  rfl

/-- The rows of a run are those of its rounds. -/
theorem rows_run {h : History n K A S V} (hrun : run params rounds = .ok h) :
    h.rows = rounds.flatMap Round.rows := by
  induction rounds using reverseRecOn generalizing h with
  | nil =>
    cases hrun
    rfl
  | append_singleton rounds round ih =>
    rw [run_concat] at hrun
    obtain ⟨h', hrun', hnext⟩ := ExceptRel.bind_eq_ok.1 hrun
    obtain ⟨⟨s, out⟩, -, heq⟩ := ExceptRel.bind_eq_ok.1 hnext
    cases heq
    rw [flatMap_append, ← ih hrun', flatMap_singleton]

/-- A condition on the rows of a run. -/
theorem Guarded.and_rows (hguard : Guarded params guard rounds)
    {P : List (KeyedRow K A) → Round n K A → Prop}
    (hP : ∀ earlier round later, rounds = earlier ++ round :: later →
      P (earlier.flatMap Round.rows) round) :
    Guarded params (fun h round => guard h round ∧ P h.rows round) rounds := by
  induction rounds using reverseRecOn with
  | nil => trivial
  | append_singleton rounds round ih =>
    obtain ⟨hguard, hlast⟩ := GuardedRun.along_concat.1 hguard
    refine GuardedRun.along_concat.2 ⟨ih hguard fun earlier r later heq =>
      hP earlier r (later ++ [round]) (by simp [heq]), ?_⟩
    change Before _ (run params rounds) round at hlast ⊢
    cases hrun : run params rounds with
    | error e => trivial
    | ok h =>
      rw [hrun] at hlast
      refine ⟨hlast, ?_⟩
      rw [rows_run hrun]
      exact hP rounds round [] rfl

/-- **The invariant rule.** -/
theorem run_invariant {I : History n K A S V → Prop} (hnew : I .new)
    (hstep : ∀ h round, I h → guard h round → ∃ h', h.next params round = .ok h' ∧ I h')
    (hguard : Guarded params guard rounds) : ∃ h, run params rounds = .ok h ∧ I h := by
  refine GuardedRun.invariant (I := fun r => ∃ h, r = .ok h ∧ I h) ?_ ⟨_, rfl, hnew⟩
    hguard.reflTransGen
  rintro _ round ⟨h, rfl, hI⟩ hbefore
  exact hstep h round hI hbefore

end Run

/-! ### Sums -/

/-- Sums of integers, with or without retractions. -/
def sumParams (trackingUpdatesType : TrackingUpdatesType) : HybridParams ℤ ℤ ℤ where
  trackingUpdatesType
  maxBlockSize := 8
  maxHotKeyCount := 8
  aggregateStateTtl := 0
  hasDeltaColumn := false
  aggregatesSize := 1
  contribution a := a
  negation a := -a
  result s := s

/-- All keys are in memory, and visited in their order. -/
def memoryScan : Scan ℕ := ⟨⟨id, List.Perm.refl⟩, List.length, 0⟩

end Proton.Streaming.HybridAggregator
