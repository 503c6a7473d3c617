import Mathlib.Algebra.BigOperators.Pi
import Proton.Streaming.Aggregator.HybridExecution

/-!
# Updates of Several Hybrid Data Variants

A finalization of updates emits a row for every key that changed in some data variant. A group is
only merged from the data variants in which it changed: what the others have of it is missing,
unless there is nothing (`Gathered`).

## Main results

* `mergeUpdates_spec`: the groups that are merged.
* `updates_exact`: the rows of a finalization.
* `updates_lose_part`: a part that is missing.
-/

namespace Proton.Streaming.HybridAggregator

open MemoryAggregator (KeyedRow Layout firstTransform secondTransform)

variable {n : ℕ} {K A S V : Type} [LinearOrder K] [AddCommMonoid S]

/-- The part of a group that a data variant has, if the group changed there. -/
def DataVariants.updatedPart (v : DataVariants K S) (k : K) : Option (Group S) :=
  if k ∈ v.updates.keys then some (v.part k) else none

/-- **The groups that are merged.** -/
theorem mergeUpdates_spec (scan : Scan K) (variants : Fin n → DataVariants K S)
    (h : ∀ i, ∀ k ∈ (variants i).updates.keys, ((variants i).table.find? k).isSome) :
    ∃ dst, mergeUpdates scan variants = .ok dst ∧ ∀ k,
      (dst.find? k).getD 0 = ∑ i, ((variants i).updatedPart k).getD 0 ∧
        ((dst.find? k).isSome ↔ ∃ i, k ∈ (variants i).updates.keys) := by
  have hlist : ∀ i, Listing (variants i).updatedPart
      ((scan.entries (variants i).updates).map fun e => (e.1, (variants i).part e.1)) :=
    fun i => listing_map_entries scan _ _
  have hloop : mergeUpdates scan variants = .ok ((List.finRange n).foldl (fun dst i =>
      ((scan.entries (variants i).updates).map fun e => (e.1, (variants i).part e.1)).foldl
        mergeGroup dst) .empty) := by
    refine ExceptRel.foldlM_eq_ok (fun i _ dst => ?_) _
    rw [List.foldl_map]
    refine ExceptRel.foldlM_eq_ok (fun e he dst => ?_) dst
    have hfind := ((listing_entries scan _).mem_iff e.1 e.2).1 he
    obtain ⟨g, hg⟩ := Option.isSome_iff_exists.1
      (h i e.1 (SortedMap.mem_keys.2 (by rw [hfind]; rfl)))
    rw [mergeUpdate, DataVariants.part, hg]
    rfl
  refine ⟨_, hloop, fun k => ?_⟩
  obtain ⟨hsum, hsome⟩ := merged_spec hlist k
  refine ⟨hsum, hsome.trans (exists_congr fun i => ?_)⟩
  rw [DataVariants.updatedPart]
  split_ifs with hk <;> simp [hk]

/-! ### The rows of a finalization -/

variable (params : HybridParams A S V)

/-- Every key that changed in a data variant changed in all those that have something of its group.
If rows are counted, the group that is merged has some: the rows of a key may cancel. -/
def Gathered (s : Aggregation n K S) : Prop :=
  ∀ i, ∀ e ∈ (s.variants i).updates.toList,
    (∀ j, e.1 ∈ (s.variants j).updates.keys ∨ ((s.variants j).part e.1).2 = 0) ∧
      (params.trackingStateCount → (∑ j, ((s.variants j).updatedPart e.1).getD 0).1 ≠ 0)

instance [DecidableEq S] (s : Aggregation n K S) : Decidable (Gathered params s) :=
  inferInstanceAs (Decidable (∀ i, ∀ e ∈ (s.variants i).updates.toList, _ ∧ _))

/-- What holds between the rounds. -/
structure Tracked (h : History n K A S V) : Prop where
  total : ∀ k, h.aggregation.total k = rowsGroup params h.rows k
  disabled : h.aggregation.retractEnabled = false
  unsaved : ∀ i k, (h.aggregation.variants i).retracts.find? k = none
  clear : ∀ i k, k ∉ (h.aggregation.variants i).updates.keys

variable {params}

/-- The rows that a finalization is to emit: one for each key with rows in the round. -/
def updatedRow (params : HybridParams A S V) (rows : List (KeyedRow K A)) (round : Round n K A)
    (k : K) : Option V :=
  if k ∈ round.rows.map (·.1.1) then
    some (params.result (rowsGroup params (rows ++ round.rows) k).2)
  else none

/-- **A round** emits its updates. -/
theorem Tracked.next {h : History n K A S V} (hh : Tracked params h) (hn : n ≠ 1)
    (htype : params.trackingUpdatesType = .updates) {round : Round n K A}
    (hgathered : Gathered params (h.aggregation.executed params round)) :
    ∃ s out, h.next params round = .ok ⟨h.rows ++ round.rows, s, h.emitted ++ [out]⟩ ∧
      Tracked params ⟨h.rows ++ round.rows, s, h.emitted ++ [out]⟩ ∧
      Listing (updatedRow params h.rows round) (out.map (·.1)) := by
  have hexec : Aggregation.Executed params h.aggregation round.blocks
      (h.aggregation.executed params round) :=
    .of_round round hh.unsaved fun henabled => by simp [hh.disabled] at henabled
  set s := h.aggregation.executed params round with hs
  have hupdated : ∀ i k, k ∈ (s.variants i).updates.keys ↔
      k ∈ (Aggregation.rowsOn i round.blocks).map (·.1.1) := fun i k => by
    rw [hexec.updated htype hh.disabled]
    exact or_iff_right (hh.clear i k)
  obtain ⟨dst, hmerge, hdst⟩ := mergeUpdates_spec round.scan s.variants
    fun i k hk => (hexec.mem i k).2 (.inr ((hupdated i k).1 hk))
  have htotal : ∀ k, s.total k = rowsGroup params (h.rows ++ round.rows) k := fun k => by
    rw [hexec.total, hh.total, rowsGroup_append]
  have hrow : ∀ k, (dst.find? k).bind (shownRow params) = updatedRow params h.rows round k := by
    intro k
    obtain ⟨hsum, hsome⟩ := hdst k
    have hmem : (dst.find? k).isSome ↔ k ∈ round.rows.map (·.1.1) := by
      rw [hsome, Aggregation.mem_rows_iff]
      exact exists_congr fun i => hupdated i k
    rw [updatedRow]
    cases hfind : dst.find? k with
    | none => rw [if_neg (by rw [← hmem, hfind]; simp)]; rfl
    | some g =>
      obtain ⟨i, hi⟩ := hsome.1 (by rw [hfind]; rfl)
      obtain ⟨u, hu⟩ := Option.isSome_iff_exists.1 (SortedMap.mem_keys.1 hi)
      obtain ⟨hparts, hcount⟩ := hgathered i (k, u) (SortedMap.find?_eq_some.1 hu)
      rw [hfind, Option.getD_some] at hsum
      rw [← hsum] at hcount
      have hstates : g.2 = (s.total k).2 := by
        rw [hsum, Aggregation.total, Prod.snd_sum, Prod.snd_sum]
        refine Finset.sum_congr rfl fun j _ => ?_
        rw [DataVariants.updatedPart]
        split_ifs with hj
        · rfl
        · exact ((hparts j).resolve_left hj).symm
      rw [if_pos (hmem.1 (by rw [hfind]; rfl)), Option.bind_some, shownRow,
        if_neg fun hand => hcount hand.1 hand.2, hstates, htotal]
  have hfinal : s.finalize params round.scan = .ok (⟨fun i =>
      { s.variants i with updates := .empty, retracts := .empty }, false⟩,
      ((convertToBlocksForAll params round.scan dst).map (·.map (·, 1))).flatten) := by
    rw [Aggregation.finalize_of_ne hn
      (by rw [mergeAndConvertToBlocks, htype]; simp only [hmerge]; rfl), hexec.enabled,
      hh.disabled, htype]
    rfl
  refine ⟨_, _, by rw [History.next, hfinal]; rfl, ?_, ?_⟩
  · refine ⟨fun k => htotal k, rfl, fun i k => rfl, fun i k => ?_⟩
    simp [SortedMap.keys]
  · rw [List.map_flatten]
    simp only [Function.comp_def, List.map_map, List.map_id']
    exact (listing_convertToBlocksForAll params round.scan dst).congr hrow

/-- Nothing was updated yet. -/
theorem Tracked.new : Tracked params (History.new : History n K A S V) where
  total k := by simp [History.new, Aggregation.total, Aggregation.new, DataVariants.part]
  disabled := rfl
  unsaved _ _ := rfl
  clear i k := by simp [History.new, Aggregation.new, SortedMap.keys]

/-- **The updates of several data variants**: every finalization emits one row for each key with
rows since the last one, with the aggregate of all its rows. -/
theorem updates_exact (hn : 2 ≤ n) (htype : params.trackingUpdatesType = .updates)
    (rounds : List (Round n K A)) (round : Round n K A)
    (hguard : Guarded params (fun (h : History n K A S V) round =>
      Gathered params (h.aggregation.executed params round)) (rounds ++ [round])) :
    ∃ h out, run params (rounds ++ [round]) = .ok h ∧ h.emitted.getLast? = some out ∧
      Listing (updatedRow params (rounds.flatMap Round.rows) round) (out.map (·.1)) := by
  have hne : n ≠ 1 := by omega
  obtain ⟨hguard, hlast⟩ := GuardedRun.along_concat.1 hguard
  obtain ⟨h, hrun, hh⟩ := run_invariant (I := Tracked params) .new
    (fun h round hh hgathered => by
      obtain ⟨s, out, hnext, hs, -⟩ := hh.next hne htype hgathered
      exact ⟨_, hnext, hs⟩) hguard
  change Before _ (run params rounds) round at hlast
  rw [hrun] at hlast
  obtain ⟨s, out, hnext, -, hout⟩ := hh.next hne htype hlast
  rw [rows_run hrun] at hout
  exact ⟨_, out, by rw [run_concat, hrun]; exact hnext, by simp, hout⟩

/-- A key changes in one data variant, then in the other. -/
def movingRounds : List (Round 2 ℕ ℤ) :=
  [⟨[(firstTransform, [((0, 5), 1)])], memoryScan⟩,
    ⟨[(secondTransform, [((0, 6), 1)])], memoryScan⟩]

/-- The second finalization emits what one data variant has. -/
theorem updates_lose_part :
    ((run (sumParams .updates) movingRounds).map (·.emitted) =
        .ok [[((0, 5), 1)], [((0, 6), 1)]]) ∧
      (rowsGroup (sumParams .updates) (movingRounds.flatMap Round.rows) 0).2 = 11 := by
  constructor
  · decide +kernel
  · decide +kernel

/-- A key that both data variants have changes in both. -/
def gatheredRound : Round 2 ℕ ℤ :=
  ⟨[(secondTransform, [((0, 6), 1)]), (firstTransform, [((0, 1), 1)])], memoryScan⟩

/-- The updates of the key, after a round of two keys in one data variant. -/
theorem updates_exact_gathered :
    let first : Round 2 ℕ ℤ := ⟨[(0, [((0, 5), 1), ((1, 7), 1)])], memoryScan⟩
    ∃ h out, run (sumParams .updates) ([first] ++ [gatheredRound]) = .ok h ∧
      h.emitted.getLast? = some out ∧
      Listing (updatedRow (sumParams .updates) ([first].flatMap Round.rows) gatheredRound)
        (out.map (·.1)) :=
  updates_exact (by decide) rfl _ _ (by decide +kernel)

end Proton.Streaming.HybridAggregator
