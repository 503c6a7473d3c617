import Mathlib.Algebra.BigOperators.Fin
import Proton.Streaming.Aggregator.Conversion

/-!
# Merging Data Variants

Several data variants are merged before they are converted: the keys of the groups that changed in
any of them are collected, and the parts of these groups are summed up. This module says what the
two passes of a changelog emit, group by group, in terms of the sums over all variants.

The pass for retractions sums up what every part was at the last finalization, and skips a group
without rows. The pass for updates sums up what every part is now. It does not look at the number
of rows, and also emits a group that has none.

## Main results

* `mergeAndConvertRetract_spec`, `mergeAndConvertUpdates_spec`: the rows of the two passes, and what
  becomes of the variants.
-/

open List Option

namespace Proton.Streaming.MemoryAggregator

open Finset

variable {K A S V : Type} [LinearOrder K] (params : AggregatorParams K A S V)

/-! ### Visits -/

section Visits

variable {layout : Layout K} {v : DataVariants K S}

/-- The keys of the buckets that are visited. -/
theorem mem_visited {buckets : Bucket → Bool} {k : K} :
    k ∈ v.visited params layout buckets ↔
      (v.data.find? k).isSome ∧ (v.updatedBuckets.isSome → buckets (params.bucket k)) := by
  rw [DataVariants.visited]
  cases hlevel : v.updatedBuckets with
  | none => simp [(layout.perm v.keys).mem_iff, mem_keys_iff]
  | some marks =>
    simp only [mem_flatMap, mem_finRange, true_and, isSome_some, forall_true_left]
    constructor
    · rintro ⟨bucket, hk⟩
      split_ifs at hk with hbucket
      · rw [(layout.perm _).mem_iff, mem_filter, mem_keys_iff, decide_eq_true_eq] at hk
        obtain ⟨hsome, rfl⟩ := hk
        exact ⟨hsome, hbucket⟩
      · exact absurd hk not_mem_nil
    · rintro ⟨hsome, hbucket⟩
      refine ⟨params.bucket k, ?_⟩
      rw [if_pos hbucket, (layout.perm _).mem_iff, mem_filter, mem_keys_iff]
      exact ⟨hsome, by simp⟩

/-- No key is visited twice. -/
theorem nodup_visited (layout : Layout K) (v : DataVariants K S) (buckets : Bucket → Bool) :
    (v.visited params layout buckets).Nodup := by
  rw [DataVariants.visited]
  cases hlevel : v.updatedBuckets with
  | none => exact (layout.perm v.keys).nodup_iff.2 v.data.nodup_keys
  | some marks =>
    refine nodup_flatMap.2 ⟨fun bucket _ => ?_, ?_⟩
    · split_ifs
      · exact (layout.perm _).nodup_iff.2 (v.data.nodup_keys.filter _)
      · exact .nil
    · refine (nodup_finRange 256).imp fun {b b'} hne => ?_
      intro k hk hk'
      dsimp only at hk hk'
      split_ifs at hk hk'
      · rw [(layout.perm _).mem_iff, mem_filter, decide_eq_true_eq] at hk hk'
        exact hne (hk.2.symm.trans hk'.2)
      all_goals simp_all

end Visits

/-! ### Merging the parts of a group -/

section Merge

variable {n : ℕ} {layout : Layout K}
  {merge : AggregateStates S → AggregateData S → AggregateStates S}
  {reset : AggregateData S → AggregateData S} {dst src : DataVariants K S}
  {variants : Fin n → DataVariants K S} {keys : List K}

/-- A group with a part of it that a variant may have. -/
def mergePart (merge : AggregateStates S → AggregateData S → AggregateStates S)
    (part : Option (AggregateData S)) (m : AggregateData S) : AggregateData S :=
  match part with
  | none => m
  | some d => { m with toAggregateStates := merge m.toAggregateStates d }

/-- A merge adds to the groups that are there. -/
theorem find?_mergeInto (k : K) :
    (mergeInto params merge layout dst src).data.find? k =
      (dst.data.find? k).map (mergePart merge (src.data.find? k)) := by
  have hvisited := nodup_visited params layout dst fun _ => true
  rw [mergeInto, SortedMap.find?_foldl_alter_self hvisited]
  simp only [mem_visited, implies_true]
  cases dst.data.find? k <;> rfl

/-- Groups that were merged are reset. -/
theorem find?_resetMerged (k : K) :
    (resetMerged params reset layout dst src).data.find? k =
      if (dst.data.find? k).isSome then (src.data.find? k).map reset else src.data.find? k := by
  have hvisited := nodup_visited params layout dst fun _ => true
  rw [resetMerged, SortedMap.find?_foldl_alter_self hvisited]
  simp only [mem_visited, implies_true, and_true]

/-- All variants, one after the other. -/
theorem find?_foldl_mergeInto (l : List (Fin n)) (k : K) :
    (l.foldl (fun dst i => mergeInto params merge layout dst (variants i)) dst).data.find? k =
      (dst.data.find? k).map fun m =>
        l.foldl (fun m i => mergePart merge ((variants i).data.find? k) m) m := by
  induction l generalizing dst with
  | nil => simp
  | cons i l ih =>
    rw [foldl_cons, ih, find?_mergeInto, Option.map_map]
    rfl

/-- A merge leaves the updated buckets. -/
theorem updatedBuckets_foldl_mergeInto (l : List (Fin n)) :
    (l.foldl (fun dst i => mergeInto params merge layout dst (variants i)) dst).updatedBuckets =
      dst.updatedBuckets := by
  induction l generalizing dst with
  | nil => rfl
  | cons i l ih => rw [foldl_cons, ih, mergeInto]

variable [AddCommGroup S]

/-- The keys that are merged start with new states. -/
theorem find?_emplaceKeys (hdst : dst.data = .empty) (k : K) :
    (emplaceKeys params keys dst).data.find? k =
      if k ∈ keys then some ⟨createAggregateStates, none⟩ else none := by
  have hkeys := SortedMap.find?_foldl_alter_idem (f := fun _ v => some (emplaceKey v))
    (fun _ _ => rfl) keys dst.data k
  rw [emplaceKeys, hkeys, hdst]
  rfl

/-- The groups that were collected are the sums of their parts. -/
theorem find?_mergeCollected (hdst : dst.data = .empty) (k : K) :
    (mergeCollected params merge reset layout keys dst variants).2.data.find? k =
      if k ∈ keys then some ((finRange n).foldl
        (fun m i => mergePart merge ((variants i).data.find? k) m) ⟨createAggregateStates, none⟩)
      else none := by
  rw [mergeCollected, find?_foldl_mergeInto, find?_emplaceKeys params hdst]
  split_ifs <;> rfl

/-- The buckets of collected groups are marked. -/
theorem marked_mergeCollected (hdst : dst.data = .empty) :
    Marked params (mergeCollected params merge reset layout keys dst variants).2 := by
  intro buckets hbuckets k d hd _
  rw [find?_mergeCollected params hdst] at hd
  split_ifs at hd with hk
  rw [mergeCollected, updatedBuckets_foldl_mergeInto, emplaceKeys, map_eq_some_iff] at hbuckets
  obtain ⟨marks, -, rfl⟩ := hbuckets
  exact mem_append_left _ (mem_map_of_mem hk)

end Merge

/-! ### Sums of parts -/

section Sums

variable {n : ℕ}

/-- The states of a group at the last finalization. -/
def AggregateData.old (d : AggregateData S) : AggregateStates S :=
  d.retract.getD d.toAggregateStates

variable [AddCommGroup S]

variable (part : Option (AggregateData S))

/-- The states of a part. -/
def partStates : S := part.elim 0 (·.states)

/-- The number of rows of a part. -/
def partUpdates : ℤ := part.elim 0 (·.updates)

/-- The states of a part at the last finalization. -/
def oldStates : S := part.elim 0 (·.old.states)

/-- The number of rows of a part at the last finalization. -/
def oldUpdates : ℤ := part.elim 0 (·.old.updates)

variable (parts : Fin n → Option (AggregateData S))

/-- The parts as they are now. -/
theorem foldl_mergePart_updates (l : List (Fin n)) (m : AggregateData S) :
    l.foldl (fun m i => mergePart
        (fun m d => mergeAggregateStates m d.toAggregateStates) (parts i) m) m =
      { m with states := m.states + (l.map fun i => partStates (parts i)).sum } := by
  induction l generalizing m with
  | nil => simp
  | cons i l ih =>
    rw [List.foldl_cons, ih, List.map_cons]
    cases parts i with
    | none => simp [mergePart, partStates]
    | some d => simp [mergePart, partStates, mergeAggregateStates, add_assoc]

/-- The parts as they were. -/
theorem foldl_mergePart_retract (l : List (Fin n))
    (m : AggregateData S) (hupdated : m.updated) (hword : Word.uint64.wrap m.updates = m.updates) :
    l.foldl (fun m i => mergePart (fun m d =>
        (mergeAggregateStates m (d.retract.getD d.toAggregateStates)).merge
          (d.retract.getD d.toAggregateStates)) (parts i) m) m =
      { m with
        updates := Word.uint64.wrap (m.updates + (l.map fun i => oldUpdates (parts i)).sum)
        states := m.states + (l.map fun i => oldStates (parts i)).sum } := by
  induction l generalizing m with
  | nil => simp [hword]
  | cons i l ih =>
    rw [List.foldl_cons, List.map_cons, List.map_cons]
    cases parts i with
    | none =>
      rw [mergePart, ih m hupdated hword]
      simp [oldUpdates, oldStates]
    | some d =>
      rw [mergePart, ih]
      · simp [mergeAggregateStates, AggregateStates.merge, oldUpdates, oldStates,
          AggregateData.old, Word.wrap_wrap_add, hupdated, add_assoc]
      · simp [mergeAggregateStates, AggregateStates.merge, hupdated]
      · exact Word.wrap_of_mem (Word.wrap_mem _)

end Sums

/-! ### Preparation -/

section Prepare

variable {n : ℕ} {variants : Fin n → DataVariants K S}

@[simp] theorem data_prepareVariantsToMerge (i : Fin n) :
    ((prepareVariantsToMerge params variants).1 i).data = (variants i).data := by
  rw [prepareVariantsToMerge]
  split_ifs
  · dsimp only
    split_ifs <;> rfl
  · rfl

@[simp] theorem data_prepareVariantsToMerge_dst :
    (prepareVariantsToMerge params variants).2.data = .empty := by
  rw [prepareVariantsToMerge]
  split_ifs <;> rfl

/-- Variants that get two levels have all their groups marked. -/
theorem marked_prepareVariantsToMerge (h : ∀ i, Marked params (variants i)) (i : Fin n) :
    Marked params ((prepareVariantsToMerge params variants).1 i) := by
  rw [prepareVariantsToMerge]
  split_ifs
  · dsimp only
    split_ifs
    · exact h i
    · intro buckets hbuckets k d hd hupdated
      rw [convertToTwoLevel] at hbuckets
      cases hlevel : (variants i).updatedBuckets with
      | none =>
        rw [hlevel] at hbuckets
        cases hbuckets
        have hk : k ∈ (variants i).keys := mem_keys_iff.2 (by
          rw [show (variants i).data.find? k = some d from hd]
          rfl)
        exact mem_map_of_mem hk
      | some marks =>
        rw [hlevel] at hbuckets
        cases hbuckets
        exact h i buckets hlevel k d hd hupdated
  · exact h i

end Prepare

/-! ### The two passes -/

section Passes

variable {n : ℕ} [AddCommGroup S] {layout : Layout K} {cached : List K}
  {variants : Fin n → DataVariants K S}

variable (variants)

/-- A part of the group was updated since the last finalization. -/
def UpdatedIn (k : K) : Prop :=
  ∃ i, ((variants i).data.find? k).any (·.updated)
deriving Decidable

/-- A part of the group was saved since the last finalization. -/
def SavedIn (k : K) : Prop :=
  ∃ i, ((variants i).data.find? k).any (·.retract.isSome)
deriving Decidable

/-- The row of an updated group. -/
def mergedRow (k : K) : Option V :=
  if UpdatedIn variants k then
    some (params.result (∑ i, partStates ((variants i).data.find? k)))
  else none

/-- The row of a saved group, as it was. -/
def mergedOldRow (k : K) : Option V :=
  if SavedIn variants k ∧
      Word.uint64.wrap (∑ i, oldUpdates ((variants i).data.find? k)) ≠ 0 then
    some (params.result (∑ i, oldStates ((variants i).data.find? k)))
  else none

variable {variants}

variable (layout) in
/-- The collected groups are converted, and their parts are reset. -/
theorem convert_mergeCollected {type : AggregatingConvertType} (htype : type ≠ .retract)
    {merge : AggregateStates S → AggregateData S → AggregateStates S}
    {reset : AggregateData S → AggregateData S} {dst : DataVariants K S}
    {sources : Fin n → DataVariants K S} {keys : List K} (hdst : dst.data = .empty)
    (hsources : ∀ i, (sources i).data = (variants i).data) {changed : AggregateData S → Bool}
    (hkeys : ∀ k, k ∈ keys ↔ ∃ i, ((variants i).data.find? k).any changed)
    (hreset : ∀ d, changed d = false → reset d = d) :
    let merged := mergeCollected params merge reset layout keys dst sources
    ∃ v' blocks, doConvertToBlocks params type layout [] merged.2 = .ok (v', blocks) ∧
      (∀ i k, (merged.1 i).data.find? k = ((variants i).data.find? k).map reset) ∧
      Listing (fun k => if k ∈ keys then
          (emittedStates type ((finRange n).foldl
            (fun m i => mergePart merge ((variants i).data.find? k) m)
            ⟨createAggregateStates, none⟩)).map fun d => params.result d.states
        else none) blocks.flatten := by
  intro merged
  obtain ⟨v', blocks, hrun, hemits⟩ := doConvertToBlocks_spec params layout
    (marked_mergeCollected params hdst) (fun _ hk => absurd hk not_mem_nil) (.inl rfl)
  have hrows := hemits.rows fun h => absurd h htype
  refine ⟨v', blocks, hrun, fun i k => ?_, hrows.congr fun k => ?_⟩
  · -- the parts of collected groups are reset
    refine (find?_resetMerged params k).trans ?_
    rw [find?_emplaceKeys params hdst, hsources]
    by_cases hk : k ∈ keys
    · rw [if_pos hk]
      rfl
    · rw [if_neg hk]
      cases hd : (variants i).data.find? k with
      | none => rfl
      | some d =>
        rw [map_some, hreset d]
        · rfl
        · by_contra h
          exact hk ((hkeys k).2 ⟨i, by simpa [hd] using h⟩)
  · rw [emittedRow, find?_mergeCollected params hdst]
    simp only [hsources]
    split_ifs <;> rfl

variable (layout) in
/-- **The pass for updates.** Cached keys have to be those of the updated groups. -/
theorem mergeAndConvertUpdates_spec (hmarked : ∀ i, Marked params (variants i))
    (hcached : cached = [] ∨ ∀ k, k ∈ cached ↔ UpdatedIn variants k) :
    ∃ variants' blocks, mergeAndConvertUpdates params layout cached variants =
        .ok (variants', blocks) ∧
      (∀ i k, (variants' i).data.find? k =
        ((variants i).data.find? k).map fun d => { d with updated := false }) ∧
      (∀ i, Marked params (variants' i)) ∧ Listing (mergedRow params variants) blocks.flatten := by
  set prepared := prepareVariantsToMerge params variants with hprepared
  have hdata : ∀ i, (prepared.1 i).data = (variants i).data := data_prepareVariantsToMerge params
  -- both ways of collecting find the updated groups
  obtain ⟨keys, sources, hmerge, hsources, hkeys⟩ : ∃ keys sources,
      mergeUpdatesDataImpl params layout cached prepared.2 prepared.1 =
        mergeCollected params (fun m d => mergeAggregateStates m d.toAggregateStates)
          (fun d => { d with updated := false }) layout keys prepared.2 sources ∧
      (∀ i, (sources i).data = (variants i).data) ∧ ∀ k, k ∈ keys ↔ UpdatedIn variants k := by
    by_cases hnil : cached = []
    · refine ⟨_, _, if_pos (by simp [hnil]), hdata, fun k => ?_⟩
      simp only [mem_flatMap, mem_finRange, true_and, updatedKeys, mem_filter, mem_visited, hdata]
      refine exists_congr fun i => ⟨fun h => h.2, fun h => ⟨⟨?_, fun hlevel => ?_⟩, h⟩⟩
      · exact isSome_of_any h
      · obtain ⟨marks, hmarks⟩ := isSome_iff_exists.1 hlevel
        obtain ⟨d, hd, hupdated⟩ := (any_eq_true _ _).1 h
        rw [hmarks, contains_iff_mem]
        exact marked_prepareVariantsToMerge params hmarked i marks hmarks k d (by rwa [hdata])
          hupdated
    · exact ⟨cached, prepared.1, if_neg (by simpa using hnil), hdata, hcached.resolve_left hnil⟩
  have hreset (d : AggregateData S) (hupdated : d.updated = false) :
      { d with updated := false } = d := by rw [← hupdated]
  have htype : AggregatingConvertType.normal ≠ .retract := by decide
  obtain ⟨v', blocks, hrun, hfind, hrows⟩ := convert_mergeCollected params layout htype
    (data_prepareVariantsToMerge_dst params) hsources hkeys hreset
  refine ⟨_, blocks, ?_, hfind, fun i buckets _ k d hd hupdated => ?_, hrows.congr fun k => ?_⟩
  · rw [mergeAndConvertUpdates]
    simp only [← hprepared]
    rw [hmerge, hrun]
    rfl
  · rw [hfind, map_eq_some_iff] at hd
    obtain ⟨d, -, rfl⟩ := hd
    cases hupdated
  · refine if_congr (hkeys k) ?_ rfl
    rw [foldl_mergePart_updates, Fin.sum_univ_def]
    simp [emittedStates, convertGroup, addsRow, createAggregateStates]

variable (layout) in
/-- **The pass for retractions.** Cached keys have to be those of the saved groups. -/
theorem mergeAndConvertRetract_spec (hmarked : ∀ i, Marked params (variants i))
    (hcached : cached = [] ∨ ∀ k, k ∈ cached ↔ SavedIn variants k) :
    ∃ variants' blocks, mergeAndConvertRetract params layout cached variants =
        .ok (variants', blocks) ∧
      (∀ i k, (variants' i).data.find? k =
        ((variants i).data.find? k).map fun d => { d with retract := none }) ∧
      (∀ i, Marked params (variants' i)) ∧
      Listing (mergedOldRow params variants) blocks.flatten := by
  set prepared := prepareVariantsToMerge params variants with hprepared
  have hdata : ∀ i, (prepared.1 i).data = (variants i).data := data_prepareVariantsToMerge params
  obtain ⟨keys, hmerge, hkeys⟩ : ∃ keys,
      mergeRetractGroupsImpl params layout cached prepared.2 prepared.1 =
        mergeCollected params (fun m d =>
            (mergeAggregateStates m (d.retract.getD d.toAggregateStates)).merge
              (d.retract.getD d.toAggregateStates))
          (fun d => { d with retract := none }) layout keys prepared.2 prepared.1 ∧
      ∀ k, k ∈ keys ↔ SavedIn variants k := by
    refine ⟨_, rfl, fun k => ?_⟩
    by_cases hnil : cached = []
    · rw [if_pos (by simp [hnil])]
      simp only [mem_flatMap, mem_finRange, true_and, mem_filter, mem_visited,
        implies_true, and_true, hdata]
      exact exists_congr fun i => ⟨fun h => h.2, fun h => ⟨isSome_of_any h, h⟩⟩
    · rw [if_neg (by simpa using hnil), hcached.resolve_left hnil]
  have hreset (d : AggregateData S) (hretract : d.retract.isSome = false) :
      { d with retract := none } = d := by
    rw [← isNone_iff_eq_none.1 (isSome_eq_false_iff.1 hretract)]
  have htype : AggregatingConvertType.updatesAfterRetract ≠ .retract := by decide
  obtain ⟨v', blocks, hrun, hfind, hrows⟩ := convert_mergeCollected params layout htype
    (data_prepareVariantsToMerge_dst params) hdata hkeys hreset
  refine ⟨_, blocks, ?_, hfind, fun i buckets hbuckets k d hd hupdated => ?_,
    hrows.congr fun k => ?_⟩
  · rw [mergeAndConvertRetract]
    simp only [← hprepared]
    rw [hmerge, hrun]
    rfl
  · rw [hfind, ← hdata, map_eq_some_iff] at hd
    obtain ⟨d, hd, rfl⟩ := hd
    exact marked_prepareVariantsToMerge params hmarked i buckets hbuckets k d hd hupdated
  · rw [mergedOldRow, ite_and]
    refine if_congr (hkeys k) ?_ rfl
    rw [foldl_mergePart_retract _ _ _ rfl rfl, Fin.sum_univ_def, Fin.sum_univ_def]
    split_ifs with hzero
    · simp [emittedStates, convertGroup, addsRow, createAggregateStates, hzero,
        AggregateStates.empty]
    · simp [emittedStates, convertGroup, createAggregateStates, not_not.1 hzero,
        AggregateStates.empty]

end Passes

end Proton.Streaming.MemoryAggregator
