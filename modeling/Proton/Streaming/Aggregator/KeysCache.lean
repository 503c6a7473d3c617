import Proton.Streaming.Aggregator.BlockExecution
import Proton.Streaming.Aggregator.Finalization

/-!
# The Cache of Processed Keys

After its own first finalization, a transform caches the keys of the blocks it consumes. A
finalization that finds cached keys does not scan the groups: it takes the cached keys of all
transforms instead.

The cached keys are keys of groups that changed, and a transform that caches keys has the keys of
all its groups that changed (`Cached`). A transform that has not finalized yet has none of them, and
the groups it changed are missed when another one finalizes.
-/

open Option Function Bool

namespace Proton.Streaming

open MemoryAggregator GlobalAggregation

variable {n : ℕ} {K A S V : Type} [LinearOrder K] [AddCommGroup S]

namespace MemoryAggregator

instance (d : AggregateData S) : Decidable (Changed d) :=
  inferInstanceAs (Decidable (_ ∨ _))

omit [AddCommGroup S] in
/-- A group that was finalized has not changed. -/
theorem not_changed_finalizedGroup {emitChangelog : Bool} {d : AggregateData S}
    (h : emitChangelog = false → d.retract = none) : ¬Changed (finalizedGroup emitChangelog d) := by
  rintro (hupdated | hretract)
  · cases hupdated
  · cases emitChangelog with
    | true => cases hretract
    | false =>
      rw [finalizedGroup, h rfl] at hretract
      cases hretract

variable (params : AggregatorParams K A S V)
include params

omit [AddCommGroup S] in
/-- A large table becomes a two-level one. -/
theorem isSome_updatedBuckets_checkAndProcessResult (v : DataVariants K S) :
    (checkAndProcessResult params v).updatedBuckets.isSome ↔
      (params.isConvertibleToTwoLevel ∧ params.groupByTwoLevelThreshold ≠ 0 ∧
        params.groupByTwoLevelThreshold ≤ v.data.size) ∨ v.updatedBuckets.isSome := by
  rw [checkAndProcessResult]
  split_ifs with hlevel
  · refine iff_of_true ?_ (.inl hlevel)
    rw [convertToTwoLevel]
    cases v.updatedBuckets <;> rfl
  · exact (or_iff_right hlevel).symm

/-- When the hash table has two levels after a block. -/
theorem isSome_updatedBuckets_executeOnBlock
    (retractEnabled : Bool) (block : List (KeyedRow K A)) (v : DataVariants K S) :
    (executeOnBlock params retractEnabled block v).updatedBuckets.isSome ↔
      (params.isConvertibleToTwoLevel ∧ params.groupByTwoLevelThreshold ≠ 0 ∧
        params.groupByTwoLevelThreshold ≤
          (executeOnBlock params retractEnabled block v).data.size) ∨ v.updatedBuckets.isSome := by
  rw [executeOnBlock, isSome_updatedBuckets_checkAndProcessResult, data_checkAndProcessResult,
    isSome_map]

end MemoryAggregator

namespace GlobalAggregation

variable (params : GlobalAggregatingParams K A S V) {i : Fin n} {s : GlobalAggregation n K S}

/-- The transform caches the keys of the blocks it consumes. -/
def caches (s : GlobalAggregation n K S) (i : Fin n) : Bool :=
  params.enableKeysCache && s.keysCacheEnabled i

/-- What the cached keys are. -/
structure Cached (s : GlobalAggregation n K S) : Prop where
  /-- A transform that does not cache keys has none. -/
  off : ∀ i, s.caches params i = false → s.processedKeysColumns i = []
  /-- The cached keys are keys of updated groups, which are saved if retractions are enabled. -/
  updated : ∀ i, ∀ k ∈ s.processedKeysColumns i, ∃ d, (s.variants i).data.find? k = some d ∧
    d.updated ∧ (s.retractEnabled → d.retract.isSome)
  /-- A transform that caches keys has those of all groups that changed. -/
  covers : ∀ i, s.caches params i → ∀ k d, (s.variants i).data.find? k = some d → Changed d →
    k ∈ s.processedKeysColumns i
  /-- No group is saved before retractions are enabled. -/
  unsaved : s.retractEnabled = false → ∀ i k d, (s.variants i).data.find? k = some d →
    d.retract = none
  /-- Without a changelog, retractions are not enabled. -/
  plain : params.emitChangelog = false → s.retractEnabled = false

omit [AddCommGroup S] in
theorem Cached.new : Cached params (new : GlobalAggregation n K S) where
  off _ _ := rfl
  updated _ _ hk := absurd hk List.not_mem_nil
  covers _ _ _ _ hd := absurd hd (by simp [GlobalAggregation.new, DataVariants.new])
  unsaved _ _ _ _ hd := absurd hd (by simp [GlobalAggregation.new, DataVariants.new])
  plain _ := rfl

variable {params}

variable {block rows : List (KeyedRow K A)}

/-- A group of the block after it. -/
theorem find?_executeColumns_of_mem {k : K} (hk : k ∈ block.map (·.1.1)) :
    ∃ d, ((s.executeColumns params i block).variants i).data.find? k = some d ∧ d.updated ∧
      d.retract = (emplaced s.retractEnabled ((s.variants i).data.find? k)).retract := by
  simp only [executeColumns, update_self]
  rw [find?_executeOnBlock, if_pos hk]
  exact ⟨_, rfl, updated_executeGroup _ hk _, retract_executeGroup _ _⟩

/-- A group that is not in the block, or not of the transform, is what it was. -/
theorem find?_executeColumns_of_notMem {j : Fin n} {k : K} (hk : ¬(j = i ∧ k ∈ block.map (·.1.1))) :
    ((s.executeColumns params i block).variants j).data.find? k = (s.variants j).data.find? k := by
  by_cases hj : j = i
  · subst hj
    simp only [executeColumns, update_self]
    rw [find?_executeOnBlock, if_neg fun hin => hk ⟨rfl, hin⟩]
  · simp only [executeColumns, update_of_ne hj]

/-- The cached keys after a block. -/
theorem mem_processedKeysColumns_executeColumns {j : Fin n} {k : K} :
    k ∈ (s.executeColumns params i block).processedKeysColumns j ↔
      k ∈ s.processedKeysColumns j ∨ s.caches params j ∧ j = i ∧ k ∈ block.map (·.1.1) := by
  rw [executeColumns, caches]
  by_cases hj : j = i
  · subst hj
    split_ifs with hon <;> simp [hon]
  · split_ifs <;> simp [hj]

/-- **A block** is consumed. -/
theorem Cached.executeColumns (h : Cached params s) (i : Fin n) (block : List (KeyedRow K A)) :
    Cached params (s.executeColumns params i block) := by
  refine ⟨fun j hoff => ?_, fun j k hk => ?_, fun j hon k d hd hchanged => ?_,
    fun hretract j k d hd => ?_, h.plain⟩
  · have hoff : s.caches params j = false := hoff
    refine List.eq_nil_iff_forall_not_mem.2 fun k hk => ?_
    rw [mem_processedKeysColumns_executeColumns, h.off j hoff, hoff] at hk
    simp at hk
  · rw [mem_processedKeysColumns_executeColumns] at hk
    by_cases hin : j = i ∧ k ∈ block.map (·.1.1)
    · obtain ⟨rfl, hin⟩ := hin
      obtain ⟨d, hd, hupdated, hretract⟩ := find?_executeColumns_of_mem (s := s) hin
      refine ⟨d, hd, hupdated, fun henabled => ?_⟩
      have henabled : s.retractEnabled = true := henabled
      rw [hretract, henabled]
      exact isSome_retract_saveRetract _
    · rw [find?_executeColumns_of_notMem hin]
      exact h.updated j k (hk.resolve_right fun hin' => hin hin'.2)
  · rw [mem_processedKeysColumns_executeColumns]
    by_cases hin : j = i ∧ k ∈ block.map (·.1.1)
    · exact .inr ⟨hon, hin⟩
    · rw [find?_executeColumns_of_notMem hin] at hd
      exact .inl (h.covers j hon k d hd hchanged)
  · by_cases hin : j = i ∧ k ∈ block.map (·.1.1)
    · obtain ⟨rfl, hin⟩ := hin
      obtain ⟨d', hd', -, hretract'⟩ := find?_executeColumns_of_mem (s := s) hin
      rw [hd'] at hd
      cases hd
      -- a group is saved when it changes only if retractions are enabled
      rw [hretract', show s.retractEnabled = false from hretract, emplaced]
      cases hd : (s.variants j).data.find? k with
      | none => rfl
      | some d => exact h.unsaved hretract j k d hd
    · rw [find?_executeColumns_of_notMem hin] at hd
      exact h.unsaved hretract j k d hd

/-- A block keeps the cache complete. -/
theorem Cached.consume (h : Cached params s) (i : Fin n) (block : List (KeyedRow K A)) :
    Cached params (s.consume params i block) := by
  rw [GlobalAggregation.consume]
  split_ifs
  · exact h
  · exact h.executeColumns i block

variable {variants sources : Fin n → DataVariants K S}

omit [AddCommGroup S] in
/-- **A finalization.** Afterwards, no group is changed. -/
theorem Cached.finalized (h : Cached params s) {rows : List ((K × V) × ℤ)}
    (hfind : ∀ j k, (variants j).data.find? k =
      ((s.variants j).data.find? k).map (finalizedGroup params.emitChangelog)) :
    Cached params (s.finalized params i variants rows) := by
  have hunsaved : ∀ j k d, (variants j).data.find? k = some d → ¬Changed d ∧ d.retract = none := by
    intro j k d hd
    rw [hfind, map_eq_some_iff] at hd
    obtain ⟨d, hd, rfl⟩ := hd
    have hchanged : ¬Changed (finalizedGroup params.emitChangelog d) :=
      not_changed_finalizedGroup fun hplain => h.unsaved (h.plain hplain) j k d hd
    refine ⟨hchanged, ?_⟩
    rw [← not_isSome_iff_eq_none]
    exact fun hsome => hchanged (.inr hsome)
  refine ⟨fun _ _ => rfl, fun _ _ hk => absurd hk List.not_mem_nil,
    fun j _ k d hd hchanged => absurd hchanged (hunsaved j k d hd).1,
    fun _ j k d hd => (hunsaved j k d hd).2, fun hplain => ?_⟩
  simp only [GlobalAggregation.finalized, hplain, h.plain hplain, Bool.false_and, Bool.or_false]

/-! ### The condition -/

variable (params) in
/-- What a finalization with cached keys relies on: the only transform has a hash table with one
level and keeps its blocks; of several transforms, those that do not cache keys have no group that
changed, and a changelog has been started. -/
def CacheSuffices (i : Fin n) (s : GlobalAggregation n K S) : Prop :=
  s.cachedKeys i ≠ [] →
    (n = 1 → (s.variants i).updatedBuckets = none ∧
      (params.emitChangelog → KeepsBlocks params.toAggregatorParams (s.variants i).data)) ∧
    (n ≠ 1 → (∀ j, s.keysCacheEnabled j = false → ∀ e ∈ (s.variants j).data.toList, ¬Changed e.2) ∧
      (params.emitChangelog → s.retractEnabled))
deriving Decidable

omit [AddCommGroup S] in
/-- A key is cached if a transform has processed it. -/
theorem mem_cached {k : K} : k ∈ s.cached ↔ ∃ i, k ∈ s.processedKeysColumns i := by
  rw [cached, List.mem_flatMap]
  exact exists_congr fun i => by simp

omit [AddCommGroup S] in
/-- The only transform can finalize from its cached keys, if its hash table has one level. -/
theorem Cached.ready_single (h : Cached params s) (hn : n = 1)
    (hmarked : ∀ j, Marked params.toAggregatorParams (s.variants j))
    (hlevel : s.cachedKeys i = [] ∨ (s.variants i).updatedBuckets = none) : Ready params i s := by
  refine ⟨hmarked, fun _ => ?_, fun hne => absurd hn hne⟩
  have hkeys : s.cachedKeys i = s.processedKeysColumns i := if_pos hn
  by_cases hnil : s.cachedKeys i = []
  · exact .inl hnil
  refine .inr ⟨hlevel.resolve_left hnil, fun k hk => ?_, fun k d hd hchanged => ?_⟩
  · obtain ⟨d, hd, -⟩ := h.updated i k (hkeys ▸ hk)
    rw [hd]
    rfl
  · rw [hkeys]
    refine h.covers i ?_ k d hd hchanged
    by_contra hoff
    exact hnil (hkeys ▸ h.off i (not_eq_true _ ▸ hoff))

omit [AddCommGroup S] in
/-- **With cached keys**, a finalization can be made from them. -/
theorem Cached.ready (h : Cached params s) (hon : params.enableKeysCache)
    (hmarked : ∀ j, Marked params.toAggregatorParams (s.variants j))
    (hsuffices : CacheSuffices params i s) : Ready params i s := by
  by_cases hn : n = 1
  · refine h.ready_single hn hmarked ?_
    by_cases hnil : s.cachedKeys i = []
    · exact .inl hnil
    · exact .inr ((hsuffices hnil).1 hn).1
  · refine ⟨hmarked, fun hone => absurd hone hn, fun _ => ?_⟩
    have hkeys : s.cachedKeys i = s.cached := if_neg hn
    by_cases hnil : s.cachedKeys i = []
    · exact .inl hnil
    obtain ⟨hoff, henabled⟩ := (hsuffices hnil).2 hn
    -- a group that changed belongs to a transform that caches its key
    have hcovered : ∀ j k d, (s.variants j).data.find? k = some d → Changed d → k ∈ s.cached := by
      intro j k d hd hchanged
      refine mem_cached.2 ⟨j, h.covers j ?_ k d hd hchanged⟩
      rw [caches, hon]
      by_contra hfalse
      exact hoff j (not_eq_true _ ▸ hfalse) (k, d) (SortedMap.find?_eq_some.1 hd) hchanged
    rw [hkeys]
    refine .inr ⟨fun k => ⟨fun hk => ?_, ?_⟩, fun hchangelog k => ⟨fun hk => ?_, ?_⟩⟩
    · obtain ⟨j, hj⟩ := mem_cached.1 hk
      obtain ⟨d, hd, hupdated, -⟩ := h.updated j k hj
      exact ⟨j, by simpa [hd] using hupdated⟩
    · rintro ⟨j, hj⟩
      obtain ⟨d, hd, hupdated⟩ := (any_eq_true _ _).1 hj
      exact hcovered j k d hd (.inl hupdated)
    · obtain ⟨j, hj⟩ := mem_cached.1 hk
      obtain ⟨d, hd, -, hsaved⟩ := h.updated j k hj
      exact ⟨j, by simpa [hd] using hsaved (henabled hchangelog)⟩
    · rintro ⟨j, hj⟩
      obtain ⟨d, hd, hsaved⟩ := (any_eq_true _ _).1 hj
      exact hcovered j k d hd (.inr hsaved)

omit [AddCommGroup S] in
/-- **Without cached keys**, a finalization can always be made. -/
theorem ready_of_processedKeysColumns (hnone : ∀ j, s.processedKeysColumns j = [])
    (hmarked : ∀ j, Marked params.toAggregatorParams (s.variants j)) : Ready params i s := by
  have hnil : s.cachedKeys i = [] := by
    rw [cachedKeys]
    split_ifs
    · exact hnone i
    · rw [cached, List.flatMap_eq_nil_iff]
      exact fun j _ => hnone j
  exact ⟨hmarked, fun _ => .inl hnil, fun _ => .inl hnil⟩

/-! ### Two runs -/

variable (params) in
/-- The same transforms without the keys cache. -/
def withoutKeysCache : GlobalAggregatingParams K A S V := { params with enableKeysCache := false }

variable (params) in
/-- Transforms that may cache keys, and transforms that do not, have the same groups. -/
structure SameGroups (s t : GlobalAggregation n K S) : Prop where
  /-- The groups are the same. -/
  data : ∀ i, (s.variants i).data = (t.variants i).data
  /-- The hash tables of the only transforms have the same levels. -/
  level : n = 1 → ∀ i, (s.variants i).updatedBuckets.isSome = (t.variants i).updatedBuckets.isSome
  /-- Retractions are enabled at the same time. -/
  retractEnabled : s.retractEnabled = t.retractEnabled
  /-- The buckets of updated groups are marked. -/
  marked : ∀ i, Marked params.toAggregatorParams (s.variants i) ∧
    Marked params.toAggregatorParams (t.variants i)
  /-- The cached keys. -/
  cached : Cached params s
  /-- There are no other cached keys. -/
  uncached : ∀ i, t.processedKeysColumns i = []

omit [AddCommGroup S] in
theorem SameGroups.new : SameGroups params (new : GlobalAggregation n K S) (new) where
  data _ := rfl
  level _ _ := rfl
  retractEnabled := rfl
  marked _ := ⟨fun _ h => absurd h (by simp [GlobalAggregation.new, DataVariants.new]),
    fun _ h => absurd h (by simp [GlobalAggregation.new, DataVariants.new])⟩
  cached := .new params
  uncached _ := rfl

variable {t : GlobalAggregation n K S}

/-- **A block** is consumed by both. -/
theorem SameGroups.consume (h : SameGroups params s t) (i : Fin n) (block : List (KeyedRow K A)) :
    SameGroups params (s.consume params i block) (t.consume (withoutKeysCache params) i block) := by
  have hcached := h.cached.consume i block
  revert hcached
  rw [GlobalAggregation.consume, GlobalAggregation.consume]
  split_ifs with hempty
  · exact fun _ => h
  intro hcached
  -- the groups after a block depend on the groups before it
  have hdata : (executeOnBlock params.toAggregatorParams s.retractEnabled block
      (s.variants i)).data = (executeOnBlock params.toAggregatorParams s.retractEnabled block
      (t.variants i)).data :=
    SortedMap.ext_find? fun k => by rw [find?_executeOnBlock, find?_executeOnBlock, h.data i]
  refine ⟨fun j => ?_, fun hn j => ?_, h.retractEnabled, fun j => ?_, hcached, h.uncached⟩
  · by_cases hj : j = i
    · subst hj
      simp only [executeColumns, update_self, ← h.retractEnabled]
      exact hdata
    · simp only [executeColumns, update_of_ne hj]
      exact h.data j
  · by_cases hj : j = i
    · subst hj
      simp only [executeColumns, update_self, ← h.retractEnabled]
      rw [Bool.eq_iff_iff, isSome_updatedBuckets_executeOnBlock, hdata, h.level hn j,
        ← isSome_updatedBuckets_executeOnBlock]
      rfl
    · simp only [executeColumns, update_of_ne hj]
      exact h.level hn j
  · by_cases hj : j = i
    · subst hj
      simp only [executeColumns, update_self]
      exact ⟨marked_executeOnBlock _ (h.marked j).1, marked_executeOnBlock _ (h.marked j).2⟩
    · simp only [executeColumns, update_of_ne hj]
      exact h.marked j

/-- If nothing is cached, the only transform does the same without the cache. -/
theorem SameGroups.convert_eq (h : SameGroups params s t) (hn : n = 1)
    (hcached : s.cachedKeys i = []) (hlevel : (s.variants i).updatedBuckets = none)
    (layout : Layout K) :
    s.convert params i layout = t.convert (withoutKeysCache params) i layout := by
  have hvariants : s.variants = t.variants := by
    funext j
    have hj : j = i := by
      subst hn
      exact Subsingleton.elim j i
    have hlevel' : (t.variants i).updatedBuckets = none := by
      rw [← not_isSome_iff_eq_none, ← h.level hn i, hlevel]
      exact false_ne_true
    rw [hj]
    exact DataVariants.ext (h.data i) (hlevel.trans hlevel'.symm)
  have hkeys : s.processedKeysColumns i = t.processedKeysColumns i := by
    rw [h.uncached i, ← hcached, cachedKeys, if_pos hn]
  rw [convert, convert, if_pos hn, if_pos hn, hkeys, hvariants]
  rfl

/-- **A finalization** of both: the same rows are emitted, in some order. -/
theorem SameGroups.finalize (h : SameGroups params s t) (hon : params.enableKeysCache)
    (hsuffices : CacheSuffices params i s) {layout layout' : Layout K}
    (hlayout : n = 1 → layout = layout') :
    ∃ s' t' rows rows', s.finalize params i layout = .ok (s', rows) ∧
      t.finalize (withoutKeysCache params) i layout' = .ok (t', rows') ∧
      rows.Perm rows' ∧ SameGroups params s' t' := by
  have hready := h.cached.ready hon (fun j => (h.marked j).1) hsuffices
  have hready' : Ready (withoutKeysCache params) i t :=
    ready_of_processedKeysColumns h.uncached fun j => (h.marked j).2
  obtain ⟨variants, rows, hrun, hconv⟩ := convert_spec params layout hready
  obtain ⟨variants', rows', hrun', hconv'⟩ := convert_spec (withoutKeysCache params) layout' hready'
  have hperm : rows.Perm rows' := by
    by_cases hkept : n = 1 → params.emitChangelog → (s.variants i).updatedBuckets = none →
        KeepsBlocks params.toAggregatorParams (s.variants i).data
    · obtain ⟨retracted, updated, rfl, hold, hnew⟩ := hconv.rows hkept
      have hkept' : n = 1 → params.emitChangelog → (t.variants i).updatedBuckets = none →
          KeepsBlocks params.toAggregatorParams (t.variants i).data := by
        intro hn hchangelog hlevel
        rw [← h.data i]
        refine hkept hn hchangelog ?_
        rw [← not_isSome_iff_eq_none, h.level hn i, hlevel]
        exact false_ne_true
      obtain ⟨retracted', updated', rfl, hold', hnew'⟩ := hconv'.rows hkept'
      -- the rows of a finalization only depend on the groups
      have hold : Listing (oldRow (withoutKeysCache params) i t.variants) retracted :=
        hold.congr fun k => by
          simp only [oldRow, mergedOldRow, SavedIn, h.data]
          rfl
      have hnew : Listing (newRow (withoutKeysCache params) i t.variants) updated :=
        hnew.congr fun k => by
          simp only [newRow, mergedRow, UpdatedIn, h.data]
          rfl
      exact ((hold.perm hold').map _).append ((hnew.perm hnew').map _)
    · -- blocks are dropped, which the condition only allows if nothing is cached
      simp only [not_forall] at hkept
      obtain ⟨hn, hchangelog, hlevel, hdropped⟩ := hkept
      have hnil : s.cachedKeys i = [] := by
        by_contra hne
        exact hdropped (((hsuffices hne).1 hn).2 hchangelog)
      rw [h.convert_eq hn hnil hlevel, hlayout hn, hrun'] at hrun
      cases hrun
      exact .refl _
  refine ⟨_, _, rows, rows', finalize_eq params hrun, finalize_eq (withoutKeysCache params) hrun',
    hperm, ?_⟩
  have hempty : rows.isEmpty = rows'.isEmpty := by
    rw [Bool.eq_iff_iff, List.isEmpty_iff, List.isEmpty_iff]
    constructor
    · rintro rfl
      exact hperm.nil_eq.symm
    · rintro rfl
      exact hperm.eq_nil
  refine ⟨fun j => SortedMap.ext_find? fun k => ?_, fun hn j => ?_, ?_,
    fun j => ⟨hconv.marked j, hconv'.marked j⟩, h.cached.finalized hconv.find, fun _ => rfl⟩
  · simp only [finalized]
    rw [hconv.find, hconv'.find, h.data]
    rfl
  · simp only [finalized]
    rw [hconv.level hn, hconv'.level hn, h.level hn]
  · simp only [finalized, h.retractEnabled, hempty]
    rfl

/-- The same step. The hash table that several variants are merged into may have another layout. -/
inductive SameStep : GlobalStep n K A → GlobalStep n K A → Prop
  | consume (i : Fin n) (block : List (KeyedRow K A)) :
      SameStep (.consume i block) (.consume i block)
  | finalize (i : Fin n) {layout layout' : Layout K} (h : n = 1 → layout = layout') :
      SameStep (.finalize i layout) (.finalize i layout')

variable (params) in
/-- The condition on the steps of a run. -/
def CacheGuard (_ : List (KeyedRow K A)) (s : GlobalAggregation n K S) : GlobalStep n K A → Prop
  | .consume _ _ => True
  | .finalize i _ => CacheSuffices params i s

instance (rows : List (KeyedRow K A)) (s : GlobalAggregation n K S) :
    (a : GlobalStep n K A) → Decidable (CacheGuard params rows s a)
  | .consume _ _ => isTrue trivial
  | .finalize i _ => inferInstanceAs (Decidable (CacheSuffices params i s))

/-- **A step** of both. -/
theorem SameGroups.step (h : SameGroups params s t) (hon : params.enableKeysCache)
    {a a' : GlobalStep n K A} (hsame : SameStep a a') (hguard : CacheGuard params rows s a) :
    ∃ s' t' out out', s.step params a = .ok (s', out) ∧
      t.step (withoutKeysCache params) a' = .ok (t', out') ∧
      out.Perm out' ∧ SameGroups params s' t' := by
  cases hsame with
  | consume i block => exact ⟨_, _, [], [], rfl, rfl, .refl _, h.consume i block⟩
  | finalize i hlayout => exact h.finalize hon hguard hlayout

/-- **Runs** of both. -/
theorem SameGroups.run (h : SameGroups params s t) (hon : params.enableKeysCache)
    {steps steps' : List (GlobalStep n K A)} (hsame : List.Forall₂ SameStep steps steps')
    (hguard : Along params (CacheGuard params) rows s steps) :
    ∃ s' t' out out', s.run params steps = .ok (s', out) ∧
      t.run (withoutKeysCache params) steps' = .ok (t', out') ∧
      List.Forall₂ List.Perm out out' ∧ SameGroups params s' t' := by
  induction hsame generalizing rows s t with
  | nil => exact ⟨s, t, [], [], rfl, rfl, .nil, h⟩
  | cons hfirst _ ih =>
    obtain ⟨hguard, hrest⟩ := hguard
    obtain ⟨s₁, t₁, out, out', hstep, hstep', hperm, h₁⟩ := h.step hon hfirst hguard
    rw [hstep] at hrest
    obtain ⟨s₂, t₂, outs, outs', hrun, hrun', hperms, h₂⟩ := ih h₁ hrest
    exact ⟨s₂, t₂, out :: outs, out' :: outs', run_cons hstep hrun, run_cons hstep' hrun',
      .cons hperm hperms, h₂⟩

/-- **The cache is an optimization**: every finalization emits the rows it would emit without it. -/
theorem keysCache_exact (hon : params.enableKeysCache) {steps steps' : List (GlobalStep n K A)}
    (hsame : List.Forall₂ SameStep steps steps')
    (hguard : Along params (CacheGuard params) [] new steps) :
    ∃ s t out out', run params steps new = .ok (s, out) ∧
      run (withoutKeysCache params) steps' new = .ok (t, out') ∧
      List.Forall₂ List.Perm out out' := by
  obtain ⟨s, t, out, out', hrun, hrun', hperms, -⟩ := SameGroups.new.run hon hsame hguard
  exact ⟨s, t, out, out', hrun, hrun', hperms⟩

/-! ### Sums of one number -/

/-- An aggregation of sums that emits updates. -/
def sumParams : GlobalAggregatingParams ℕ ℤ ℤ ℤ where
  maxBlockSize := 100
  aggregatesSize := 1
  groupByTwoLevelThreshold := 0
  isConvertibleToTwoLevel := false
  bucket _ := 0
  contribution a := a
  result s := s
  emitChangelog := false
  enableKeysCache := true

/-- The order of the keys. -/
def keyOrder : Layout ℕ := ⟨id, List.Perm.refl⟩

/-- Both transforms change a group, and only one of them has finalized before. -/
def missedSteps : List (GlobalStep 2 ℕ ℤ) :=
  [.consume firstTransform [((0, 5), 1)], .finalize firstTransform keyOrder,
    .consume secondTransform [((0, 6), 1)], .consume firstTransform [((1, 6), 1)],
    .finalize firstTransform keyOrder]

/-- The group of the transform that has not finalized is missed. -/
theorem keysCache_misses_key :
    (run sumParams missedSteps new).map (·.2) =
        .ok [[], [((0, 5), 1)], [], [], [((1, 6), 1)]] ∧
      (run (withoutKeysCache sumParams) missedSteps new).map (·.2) =
        .ok [[], [((0, 5), 1)], [], [], [((0, 11), 1), ((1, 6), 1)]] := by
  decide +kernel

/-- Both transforms finalize before the groups change. -/
def cachedSteps : List (GlobalStep 2 ℕ ℤ) :=
  [.consume firstTransform [((0, 5), 1)], .finalize firstTransform keyOrder,
    .finalize secondTransform keyOrder, .consume secondTransform [((0, 6), 1)],
    .consume firstTransform [((1, 6), 1)], .finalize firstTransform keyOrder]

/-- Then no group is missed. -/
theorem keysCache_exact_cachedSteps :
    ∃ s t out out', run sumParams cachedSteps new = .ok (s, out) ∧
      run (withoutKeysCache sumParams) cachedSteps new = .ok (t, out') ∧
      List.Forall₂ List.Perm out out' := by
  refine keysCache_exact rfl ?_ (by decide +kernel)
  exact .cons (.consume _ _) (.cons (.finalize _ fun _ => rfl) (.cons (.finalize _ fun _ => rfl)
    (.cons (.consume _ _) (.cons (.consume _ _) (.cons (.finalize _ fun _ => rfl) .nil)))))

end GlobalAggregation

end Proton.Streaming
