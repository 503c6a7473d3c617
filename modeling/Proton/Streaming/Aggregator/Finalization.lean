import Proton.Streaming.Aggregator.GlobalAggregatingTransform
import Proton.Streaming.Aggregator.MergedConversion

/-!
# Finalizations

What a finalization of a global aggregation emits, group by group, for one transform and for
several: the rows that are retracted, the rows that are inserted, and what becomes of the groups.
None of it depends on the keys cache, as long as the cached keys are those of the groups that
changed (`Ready`).

## Main results

* `convert_spec`: the rows of a finalization.
-/

open Option

namespace Proton.Streaming

open MemoryAggregator

variable {n : ℕ} {K A S V : Type} [LinearOrder K] [AddCommGroup S]

namespace MemoryAggregator

variable (params : AggregatorParams K A S V) {layout : Layout K} {cached : List K}

variable (emitChangelog : Bool)

/-- A group after a finalization. -/
def finalizedGroup (d : AggregateData S) : AggregateData S :=
  { d with updated := false, retract := if emitChangelog then none else d.retract }

/-- The conversion that emits the new rows. -/
def updateType : AggregatingConvertType :=
  if emitChangelog then .updatesAfterRetract else .updates

/-- The group changed since the last finalization. -/
def Changed (d : AggregateData S) : Prop := d.updated ∨ d.retract.isSome

omit [AddCommGroup S] in
/-- A group that did not change is not emitted. -/
theorem convertGroup_of_not_changed {d : AggregateData S} (h : ¬Changed d)
    {type : AggregatingConvertType} (htype : type ≠ .normal) : convertGroup type d = (d, none) := by
  obtain ⟨hupdated, hretract⟩ := not_or.1 h
  rw [Bool.not_eq_true] at hupdated
  rw [not_isSome_iff_eq_none] at hretract
  cases type with
  | normal => exact absurd rfl htype
  | updates => exact convertGroup_of_not_updated rfl hupdated
  | updatesAfterRetract => exact convertGroup_of_not_updated rfl hupdated
  | retract =>
    rw [convertGroup]
    cases d
    simp_all

omit [AddCommGroup S] in
/-- An emitted group is not updated any more. -/
theorem convertGroup_updateType_fst (d : AggregateData S) :
    (convertGroup (updateType emitChangelog) d).1 = { d with updated := false } := by
  cases emitChangelog <;> by_cases hd : d.updated <;>
    simp [updateType, convertGroup, hd]
  all_goals
    rw [Bool.not_eq_true] at hd
    rw [← hd]

omit [AddCommGroup S] in
variable (layout) in
/-- **One data variant.** Cached keys have to include every group that changed, and the hash table
must have one level then. -/
theorem convertToBlocks_spec {v : DataVariants K S}
    (hmarked : Marked params v)
    (hcached : cached = [] ∨ v.updatedBuckets = none ∧ (∀ k ∈ cached, (v.data.find? k).isSome) ∧
      ∀ k d, v.data.find? k = some d → Changed d → k ∈ cached) :
    ∃ v' retracted updated, convertToBlocks params emitChangelog layout cached v =
        .ok (v', retracted.map (·, -1) ++ updated.map (·, 1)) ∧
      (∀ k, v'.data.find? k = (v.data.find? k).map (finalizedGroup emitChangelog)) ∧
      Marked params v' ∧ v'.updatedBuckets.isSome = v.updatedBuckets.isSome ∧
      ((emitChangelog → v.updatedBuckets = none → KeepsBlocks params v.data) →
        Listing (fun k => if emitChangelog then emittedRow params .retract v.data k else none)
          retracted) ∧
      Listing (emittedRow params (updateType emitChangelog) v.data) updated := by
  have hsome : ∀ k ∈ cached, (v.data.find? k).isSome := by
    rcases hcached with hnil | ⟨-, hsome, -⟩
    · subst hnil
      exact fun k hk => absurd hk List.not_mem_nil
    · exact hsome
  have hcovers : ∀ type : AggregatingConvertType, type ≠ .normal →
      cached = [] ∨ v.updatedBuckets = none ∧ type ≠ .normal ∧ Covers type cached v.data := by
    intro type htype
    refine hcached.imp_right fun h => ⟨h.1, htype, fun k d hd hk => ?_⟩
    exact convertGroup_of_not_changed (fun hchanged => hk (h.2.2 k d hd hchanged)) htype
  cases emitChangelog with
  | false =>
    obtain ⟨v', blocks, hrun, hemits⟩ := doConvertToBlocks_spec params layout
      hmarked hsome (hcovers .updates (by decide))
    refine ⟨v', [], blocks.flatten, ?_, fun k => ?_, hemits.marked, hemits.level,
      fun _ => Listing.nil, hemits.rows (by simp)⟩
    · rw [convertToBlocks, hrun]
      rfl
    · rw [hemits.find]
      refine congrArg (Option.map · (v.data.find? k)) (funext fun d => ?_)
      exact convertGroup_updateType_fst false d
  | true =>
    obtain ⟨v₁, blocks₁, hrun₁, hemits₁⟩ := doConvertToBlocks_spec params layout
      hmarked hsome (hcovers .retract (by decide))
    have hlevel : v₁.updatedBuckets = none ↔ v.updatedBuckets = none := by
      rw [← not_isSome_iff_eq_none, hemits₁.level, not_isSome_iff_eq_none]
    -- the second pass finds the same updated groups
    have hcovers₁ : cached = [] ∨ v₁.updatedBuckets = none ∧
        AggregatingConvertType.updatesAfterRetract ≠ .normal ∧
        Covers .updatesAfterRetract cached v₁.data := by
      refine hcached.imp_right fun h => ⟨hlevel.2 h.1, by decide, fun k d₁ hd₁ hk => ?_⟩
      rw [hemits₁.find, map_eq_some_iff] at hd₁
      obtain ⟨d, hd, rfl⟩ := hd₁
      refine convertGroup_of_not_updated rfl ?_
      by_contra hupdated
      exact hk (h.2.2 k d hd (.inl (by simpa [convertGroup] using hupdated)))
    have hsome₁ : ∀ k ∈ cached, (v₁.data.find? k).isSome := by
      intro k hk
      rw [hemits₁.find, isSome_map]
      exact hsome k hk
    obtain ⟨v₂, blocks₂, hrun₂, hemits₂⟩ := doConvertToBlocks_spec params layout
      hemits₁.marked hsome₁ hcovers₁
    have hrows₂ := hemits₂.rows (by simp)
    refine ⟨v₂, blocks₁.flatten, blocks₂.flatten, ?_, fun k => ?_, hemits₂.marked,
      hemits₂.level.trans hemits₁.level,
      fun hkept => (hemits₁.rows fun _ => hkept rfl).congr fun k => rfl, hrows₂.congr fun k => ?_⟩
    · rw [convertToBlocks, hrun₁]
      change (doConvertToBlocks params .updatesAfterRetract layout cached v₁ >>= _) = _
      rw [hrun₂]
      rfl
    · rw [hemits₂.find, hemits₁.find, map_map]
      refine congrArg (Option.map · (v.data.find? k)) (funext fun d => ?_)
      exact convertGroup_updateType_fst true _
    · rw [emittedRow, emittedRow, hemits₁.find]
      cases v.data.find? k with
      | none => rfl
      | some d =>
        -- the conversion of updates does not look at saved states
        refine congrArg (Option.map _) ?_
        by_cases hd : d.updated <;> simp [updateType, emittedStates, convertGroup, hd]

variable (layout) in
/-- **Several data variants.** Cached keys have to be those of the groups that changed. -/
theorem mergeAndConvertToBlocks_spec {variants : Fin n → DataVariants K S}
    (hmarked : ∀ i, Marked params (variants i))
    (hcached : cached = [] ∨ (∀ k, k ∈ cached ↔ UpdatedIn variants k) ∧
      (emitChangelog → ∀ k, k ∈ cached ↔ SavedIn variants k)) :
    ∃ variants' retracted updated,
      mergeAndConvertToBlocks params emitChangelog layout cached variants =
        .ok (variants', retracted.map (·, -1) ++ updated.map (·, 1)) ∧
      (∀ i k, (variants' i).data.find? k =
        ((variants i).data.find? k).map (finalizedGroup emitChangelog)) ∧
      (∀ i, Marked params (variants' i)) ∧
      Listing (fun k => if emitChangelog then mergedOldRow params variants k else none) retracted ∧
      Listing (mergedRow params variants) updated := by
  cases emitChangelog with
  | false =>
    obtain ⟨variants', blocks, hrun, hfind, hmarks, hrows⟩ := mergeAndConvertUpdates_spec params
      layout hmarked (hcached.imp_right fun h => h.1)
    refine ⟨variants', [], blocks.flatten, ?_, hfind, hmarks, Listing.nil, hrows⟩
    rw [mergeAndConvertToBlocks, hrun]
    rfl
  | true =>
    obtain ⟨variants₁, blocks₁, hrun₁, hfind₁, hmarks₁, hrows₁⟩ := mergeAndConvertRetract_spec
      params layout hmarked (hcached.imp_right fun h => h.2 rfl)
    -- the second pass finds the same updated groups, with the same states
    have hpart : ∀ i k, ((variants₁ i).data.find? k).any (·.updated) =
        ((variants i).data.find? k).any (·.updated) := by
      intro i k
      rw [hfind₁, any_map]
    have hupdated : ∀ k, UpdatedIn variants₁ k ↔ UpdatedIn variants k := fun k => by
      simp only [UpdatedIn, hpart]
    have hstates : ∀ i k, partStates ((variants₁ i).data.find? k) =
        partStates ((variants i).data.find? k) := by
      intro i k
      rw [hfind₁]
      cases (variants i).data.find? k <;> rfl
    obtain ⟨variants₂, blocks₂, hrun₂, hfind₂, hmarks₂, hrows₂⟩ := mergeAndConvertUpdates_spec
      params layout hmarks₁ (hcached.imp_right fun h k => (h.1 k).trans (hupdated k).symm)
    refine ⟨variants₂, blocks₁.flatten, blocks₂.flatten, ?_, fun i k => ?_, hmarks₂,
      hrows₁.congr fun k => rfl, hrows₂.congr fun k => ?_⟩
    · rw [mergeAndConvertToBlocks, hrun₁]
      change (mergeAndConvertUpdates params layout cached variants₁ >>= _) = _
      rw [hrun₂]
      rfl
    · rw [hfind₂, hfind₁, map_map]
      rfl
    · rw [mergedRow, mergedRow]
      by_cases hk : UpdatedIn variants k
      · rw [if_pos hk, if_pos ((hupdated k).2 hk)]
        simp only [hstates]
      · rw [if_neg hk, if_neg ((hupdated k).not.2 hk)]

end MemoryAggregator

/-! ### All transforms -/

namespace GlobalAggregation

variable (params : GlobalAggregatingParams K A S V) {i : Fin n} {layout : Layout K}
  {s : GlobalAggregation n K S}

/-- The row that is retracted for a key. -/
def oldRow (i : Fin n) (variants : Fin n → DataVariants K S) (k : K) : Option V :=
  if params.emitChangelog then
    if n = 1 then emittedRow params.toAggregatorParams .retract (variants i).data k
    else mergedOldRow params.toAggregatorParams variants k
  else none

/-- The row that is inserted for a key. -/
def newRow (i : Fin n) (variants : Fin n → DataVariants K S) (k : K) : Option V :=
  if n = 1 then
    emittedRow params.toAggregatorParams (updateType params.emitChangelog) (variants i).data k
  else mergedRow params.toAggregatorParams variants k

/-- The variants were converted to these rows. -/
structure Converts (i : Fin n) (variants variants' : Fin n → DataVariants K S)
    (rows : List ((K × V) × ℤ)) : Prop where
  /-- What becomes of the groups. -/
  find : ∀ j k, (variants' j).data.find? k =
    ((variants j).data.find? k).map (finalizedGroup params.emitChangelog)
  /-- The buckets of updated groups are marked. -/
  marked : ∀ j, Marked params.toAggregatorParams (variants' j)
  /-- The only hash table keeps its levels. -/
  level : n = 1 → ∀ j, (variants' j).updatedBuckets.isSome = (variants j).updatedBuckets.isSome
  /-- The rows, unless the only transform drops finished blocks. -/
  rows : (n = 1 → params.emitChangelog → (variants i).updatedBuckets = none →
      KeepsBlocks params.toAggregatorParams (variants i).data) →
    ∃ retracted updated, rows = retracted.map (·, -1) ++ updated.map (·, 1) ∧
      Listing (oldRow params i variants) retracted ∧ Listing (newRow params i variants) updated

/-- The keys that the transform finds in its cache. -/
def cachedKeys (i : Fin n) (s : GlobalAggregation n K S) : List K :=
  if n = 1 then s.processedKeysColumns i else s.cached

/-- A finalization can be made from the groups that changed, or from the cached keys. -/
structure Ready (i : Fin n) (s : GlobalAggregation n K S) : Prop where
  /-- The buckets of updated groups are marked. -/
  marked : ∀ j, Marked params.toAggregatorParams (s.variants j)
  /-- The cached keys of the only transform. -/
  single : n = 1 → s.cachedKeys i = [] ∨ (s.variants i).updatedBuckets = none ∧
    (∀ k ∈ s.cachedKeys i, ((s.variants i).data.find? k).isSome) ∧
    ∀ k d, (s.variants i).data.find? k = some d → Changed d → k ∈ s.cachedKeys i
  /-- The cached keys of several transforms. -/
  merged : n ≠ 1 → s.cachedKeys i = [] ∨
    (∀ k, k ∈ s.cachedKeys i ↔ UpdatedIn s.variants k) ∧
    (params.emitChangelog → ∀ k, k ∈ s.cachedKeys i ↔ SavedIn s.variants k)

variable (layout) in
/-- **The rows of a finalization.** -/
theorem convert_spec (h : Ready params i s) :
    ∃ variants' rows, s.convert params i layout = .ok (variants', rows) ∧
      Converts params i s.variants variants' rows := by
  by_cases hn : n = 1
  · have hkeys : s.cachedKeys i = s.processedKeysColumns i := if_pos hn
    have honly : ∀ j : Fin n, j = i := by
      subst hn
      exact fun j => Subsingleton.elim j i
    obtain ⟨v', retracted, updated, hrun, hfind, hmarked, hlevel, hold, hnew⟩ :=
      convertToBlocks_spec params.toAggregatorParams layout params.emitChangelog (h.marked i)
        (hkeys ▸ h.single hn)
    refine ⟨Function.update s.variants i v', _, ?_, ⟨fun j k => ?_, fun j => ?_, fun _ j => ?_,
      fun hkept => ⟨retracted, updated, rfl, (hold (hkept hn)).congr fun k => ?_,
        hnew.congr fun k => ?_⟩⟩⟩
    · rw [convert, if_pos hn, hrun]
      rfl
    · rw [honly j, Function.update_self, hfind]
    · rw [honly j, Function.update_self]
      exact hmarked
    · rw [honly j, Function.update_self, hlevel]
    · rw [oldRow, if_pos hn]
    · rw [newRow, if_pos hn]
  · have hkeys : s.cachedKeys i = s.cached := if_neg hn
    obtain ⟨variants', retracted, updated, hrun, hfind, hmarked, hold, hnew⟩ :=
      mergeAndConvertToBlocks_spec params.toAggregatorParams layout params.emitChangelog h.marked
        (hkeys ▸ h.merged hn)
    refine ⟨variants', _, ?_, ⟨hfind, hmarked, fun h => absurd h hn,
      fun _ => ⟨retracted, updated, rfl, hold.congr fun k => ?_, hnew.congr fun k => ?_⟩⟩⟩
    · rw [convert, if_neg hn, hrun]
    · rw [oldRow, if_neg hn]
    · rw [newRow, if_neg hn]

/-- The state after a finalization with these variants and rows. -/
def finalized (i : Fin n) (variants : Fin n → DataVariants K S) (rows : List ((K × V) × ℤ))
    (s : GlobalAggregation n K S) : GlobalAggregation n K S where
  variants
  retractEnabled := s.retractEnabled || (params.emitChangelog && !rows.isEmpty)
  processedKeysColumns _ := []
  keysCacheEnabled :=
    if params.enableKeysCache then Function.update s.keysCacheEnabled i true
    else s.keysCacheEnabled

/-- A finalization whose conversion succeeds. -/
theorem finalize_eq {variants : Fin n → DataVariants K S} {rows : List ((K × V) × ℤ)}
    (h : s.convert params i layout = .ok (variants, rows)) :
    s.finalize params i layout = .ok (s.finalized params i variants rows, rows) := by
  rw [finalize, h]
  rfl

end GlobalAggregation

end Proton.Streaming
