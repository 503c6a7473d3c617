import Mathlib.Algebra.BigOperators.Fin

/-!
# Finalizing Sharded Distinct Aggregates

The distinct adaptors wrap a nested aggregate function. Each shard has a place with the keys
it has seen, the entries that came in since the last finalization, and the state of the
nested function. A finalization merges all shards that have data into a fresh place and writes
the increment back to the first of them.

The module embeds what the adaptors share: which shards are merged, the bookkeeping of a
merge, and `insertResultInto`. The nested function is an additive one, given by the
contribution of an entry to a commutative monoid `M`.

## Main results

* `DistinctPlace.mergeAll_nested`, `DistinctPlace.mergeAll_mergedPlaces`: what merging all
  shards accumulates.
* `DistinctPlace.finalizeMerged_snd`: the shards after a merged finalization.
-/

open Finset

namespace Proton.Streaming

variable {n : ℕ} {σ ε M : Type*}

/-! ### The shards with data -/

/-- The shards whose data is not empty, in order. A shard gets its place with its first
row. -/
def nonEmptyData {ρ : Type*} (shards : Fin n → Option ρ) : List (Fin n × ρ) :=
  (List.finRange n).filterMap fun i => (shards i).map (i, ·)

/-- Shards without keys have none together. -/
theorem biUnion_empty_family {κ : Type*} [DecidableEq κ] :
    (univ : Finset (Fin n)).biUnion (fun _ => (∅ : Finset κ)) = ∅ := by
  ext k
  simp

/-! ### Places -/

/-- The place of a distinct adaptor: the keys seen, `extra_data_since_last_finalize`, the
places merged into this one, and the state of the nested function. -/
@[ext] structure DistinctPlace (n : ℕ) (σ ε M : Type*) where
  seen : σ
  extraData : List ε
  mergedPlaces : List (Fin n)
  nested : M

namespace DistinctPlace

variable [AddCommMonoid M]

/-- A new place. -/
def create (seen : σ) : DistinctPlace n σ ε M := ⟨seen, [], [], 0⟩

/-- The place of shard `i`, a new one if it has no data. -/
def placeAt (fresh : σ) (shards : Fin n → Option (DistinctPlace n σ ε M)) (i : Fin n) :
    DistinctPlace n σ ε M :=
  (shards i).getD (create fresh)

/-- The places after the place of shard `i` is replaced. -/
theorem placeAt_update (fresh : σ) (shards : Fin n → Option (DistinctPlace n σ ε M))
    (i : Fin n) (place : DistinctPlace n σ ε M) :
    placeAt fresh (Function.update shards i (some place)) =
      Function.update (placeAt fresh shards) i place := by
  funext j
  by_cases hj : j = i
  · subst hj
    simp [placeAt]
  · simp [placeAt, hj]

/-- A reading of the places that is the same for the new place of shard `i` is unchanged. -/
theorem apply_placeAt_update {τ : Type*} (g : DistinctPlace n σ ε M → τ) {fresh : σ}
    {shards : Fin n → Option (DistinctPlace n σ ε M)} {i : Fin n} {place : DistinctPlace n σ ε M}
    (h : g place = g (placeAt fresh shards i)) (j : Fin n) :
    g (placeAt fresh (Function.update shards i (some place)) j) = g (placeAt fresh shards j) := by
  rw [placeAt_update]
  by_cases hj : j = i
  · rw [hj, Function.update_self, h]
  · rw [Function.update_of_ne hj]

variable (mergeData : σ × List ε → σ × List ε → σ × List ε)

/-- `merge(place, rhs)`: the data is merged by `mergeData`, `rhs` is remembered by its shard,
and the nested states are merged. -/
def merge (place : DistinctPlace n σ ε M)
    (rhs : Fin n × DistinctPlace n σ ε M) : DistinctPlace n σ ε M where
  seen := (mergeData (place.seen, place.extraData) (rhs.2.seen, rhs.2.extraData)).1
  extraData := (mergeData (place.seen, place.extraData) (rhs.2.seen, rhs.2.extraData)).2
  mergedPlaces :=
    if rhs.1 ∈ place.mergedPlaces then place.mergedPlaces else place.mergedPlaces ++ [rhs.1]
  nested := place.nested + rhs.2.nested

variable (contribution : ε → M)

/-- `addBatchSinglePlace` of the nested function over a list of entries. -/
def addBatch (entries : List ε) (place : DistinctPlace n σ ε M) :
    DistinctPlace n σ ε M :=
  { place with nested := place.nested + (entries.map contribution).sum }

/-- `insertResultInto(place)`: the result, the place afterwards and the shards afterwards.
The extra data is added to the nested state and cleared in every merged place; the first
merged place gets the increment. -/
def insertResultInto
    (shards : Fin n → Option (DistinctPlace n σ ε M)) (place : DistinctPlace n σ ε M) :
    M × DistinctPlace n σ ε M × (Fin n → Option (DistinctPlace n σ ε M)) :=
  let added := place.addBatch contribution place.extraData
  let cleared : Fin n → Option (DistinctPlace n σ ε M) := fun i =>
    if i ∈ place.mergedPlaces then (shards i).map ({ · with extraData := [] }) else shards i
  (added.nested, { added with extraData := [], mergedPlaces := [] },
    match place.mergedPlaces with
    | [] => cleared
    | first :: _ => fun i =>
      if i = first then (cleared i).map (addBatch contribution place.extraData)
      else cleared i)

/-- Merge all shards with data into a fresh place. -/
def mergeAll (fresh : σ)
    (shards : Fin n → Option (DistinctPlace n σ ε M)) : DistinctPlace n σ ε M :=
  (nonEmptyData shards).foldl (merge mergeData) (create fresh)

/-- A finalization of the merged shards: the result and the shards afterwards. -/
def finalizeMerged (fresh : σ)
    (contribution : ε → M) (shards : Fin n → Option (DistinctPlace n σ ε M)) :
    M × (Fin n → Option (DistinctPlace n σ ε M)) :=
  let finalized := insertResultInto contribution shards (mergeAll mergeData fresh shards)
  (finalized.1, finalized.2.2)

/-! ### What a merge accumulates -/

variable {mergeData : σ × List ε → σ × List ε → σ × List ε} {fresh : σ}
  {contribution : ε → M} {shards : Fin n → Option (DistinctPlace n σ ε M)}

/-- The sum of the nested states of all shards. -/
def nestedTotal (shards : Fin n → Option (DistinctPlace n σ ε M)) : M :=
  ∑ i, (shards i).elim 0 (·.nested)

/-- A shard without data counts as a new place. -/
theorem nestedTotal_eq (fresh : σ) (shards : Fin n → Option (DistinctPlace n σ ε M)) :
    nestedTotal shards = ∑ i, (placeAt fresh shards i).nested :=
  sum_congr rfl fun i _ => by cases h : shards i <;> simp [placeAt, h, create]

/-- A merge adds the nested states. -/
theorem foldl_merge_nested (data : List (Fin n × DistinctPlace n σ ε M))
    (place : DistinctPlace n σ ε M) :
    (data.foldl (merge mergeData) place).nested = place.nested + (data.map (·.2.nested)).sum := by
  induction data generalizing place with
  | nil => simp
  | cons rhs data ih => simp [ih, merge, add_assoc]

/-- A merge remembers each place once. -/
theorem foldl_merge_mergedPlaces (data : List (Fin n × DistinctPlace n σ ε M))
    (place : DistinctPlace n σ ε M) (h : (place.mergedPlaces ++ data.map (·.1)).Nodup) :
    (data.foldl (merge mergeData) place).mergedPlaces = place.mergedPlaces ++ data.map (·.1) := by
  induction data generalizing place with
  | nil => simp
  | cons rhs data ih =>
    have hnew : rhs.1 ∉ place.mergedPlaces := fun hin =>
      (List.disjoint_of_nodup_append h hin) (by simp)
    have hmerged : (merge mergeData place rhs).mergedPlaces =
        place.mergedPlaces ++ [rhs.1] := if_neg hnew
    rw [List.foldl_cons, ih _ (by simpa [hmerged] using h), hmerged]
    simp

/-- The shards with data, by number. -/
theorem map_fst_nonEmptyData {ρ : Type*} (shards : Fin n → Option ρ) :
    (nonEmptyData shards).map (·.1) = (List.finRange n).filter fun i => (shards i).isSome := by
  rw [nonEmptyData]
  induction List.finRange n with
  | nil => rfl
  | cons i l ih => cases h : shards i <;> simp [h, ih]

/-- A shard with data is listed with its place. -/
theorem mem_nonEmptyData {ρ : Type*} {shards : Fin n → Option ρ} {i : Fin n} {p : ρ} :
    (i, p) ∈ nonEmptyData shards ↔ shards i = some p := by
  simp only [nonEmptyData, List.mem_filterMap, List.mem_finRange, true_and,
    Option.map_eq_some_iff, Prod.mk.injEq]
  constructor
  · rintro ⟨j, q, hj, rfl, rfl⟩
    exact hj
  · exact fun h => ⟨i, p, h, rfl, rfl⟩

omit [AddCommMonoid M] in
/-- A sum over the shards with data is one over all shards. -/
theorem sum_nonEmptyData {A : Type*} [AddCommMonoid A] (g : DistinctPlace n σ ε M → A)
    (shards : Fin n → Option (DistinctPlace n σ ε M)) :
    ((nonEmptyData shards).map fun x => g x.2).sum = ∑ i, (shards i).elim 0 g := by
  rw [Fin.sum_univ_def, nonEmptyData]
  induction List.finRange n with
  | nil => rfl
  | cons i l ih => cases h : shards i <;> simp [h, ih]

variable (mergeData fresh contribution shards)

/-- Merging all shards adds up their nested states. -/
theorem mergeAll_nested : (mergeAll mergeData fresh shards).nested = nestedTotal shards := by
  rw [mergeAll, foldl_merge_nested, create, zero_add]
  exact sum_nonEmptyData (·.nested) shards

/-- Merging all shards remembers the ones with data. -/
theorem mergeAll_mergedPlaces : (mergeAll mergeData fresh shards).mergedPlaces =
    (List.finRange n).filter fun i => (shards i).isSome := by
  have hnodup : ((nonEmptyData shards).map (·.1)).Nodup := by
    rw [map_fst_nonEmptyData]
    exact (List.nodup_finRange n).filter _
  rw [mergeAll, foldl_merge_mergedPlaces _ _ (by simpa [create] using hnodup), create,
    List.nil_append, map_fst_nonEmptyData]

/-! ### The shards after a finalization -/

/-- The increment of a finalization of the merged shards. -/
def increment : M := ((mergeAll mergeData fresh shards).extraData.map contribution).sum

/-- The result is the nested total with the increment. -/
theorem finalizeMerged_fst : (finalizeMerged mergeData fresh contribution shards).1 =
    nestedTotal shards + increment mergeData fresh contribution shards := by
  rw [← mergeAll_nested mergeData fresh shards]
  rfl

/-- The part of the increment that goes to shard `i`: the first shard with data has it all. -/
def share (i : Fin n) : M :=
  if ((List.finRange n).filter fun i => (shards i).isSome).head? = some i then
    increment mergeData fresh contribution shards
  else 0

/-- A merged finalization clears the extra data of every shard and changes nothing else but
the nested states. -/
theorem finalizeMerged_snd (i : Fin n) :
    (finalizeMerged mergeData fresh contribution shards).2 i = (shards i).map fun p =>
      { p with
        extraData := []
        nested := p.nested + share mergeData fresh contribution shards i } := by
  simp only [finalizeMerged, insertResultInto, mergeAll_mergedPlaces, share]
  cases hi : shards i with
  | none => cases (List.finRange n).filter fun i => (shards i).isSome <;> simp [hi]
  | some p =>
    have hin : i ∈ (List.finRange n).filter fun i => (shards i).isSome := by simp [hi]
    cases hplaces : (List.finRange n).filter fun i => (shards i).isSome with
    | nil => simp [hplaces] at hin
    | cons first rest =>
      rw [hplaces] at hin
      by_cases hfirst : i = first
      · subst hfirst
        simp [hi, addBatch, increment]
      · simp [hi, hin, hfirst, Ne.symm hfirst]

/-- The increment goes to exactly one shard. -/
theorem nestedTotal_finalizeMerged :
    nestedTotal (finalizeMerged mergeData fresh contribution shards).2 =
      nestedTotal shards + increment mergeData fresh contribution shards := by
  have hsplit : nestedTotal (finalizeMerged mergeData fresh contribution shards).2 =
      nestedTotal shards +
        ∑ i, (shards i).elim 0 fun _ => share mergeData fresh contribution shards i := by
    rw [nestedTotal, nestedTotal, ← sum_add_distrib]
    refine sum_congr rfl fun i _ => ?_
    rw [finalizeMerged_snd]
    cases shards i <;> simp
  rw [hsplit]
  cases hplaces : (List.finRange n).filter fun i => (shards i).isSome with
  | nil =>
    -- without data nothing was merged, and there is no increment
    have hnone : ∀ i, shards i = none := by simpa using hplaces
    have hdata : nonEmptyData shards = [] := by simp [nonEmptyData, hnone]
    simp [hnone, increment, mergeAll, hdata, create]
  | cons first rest =>
    have hsome : (shards first).isSome := by
      have hin : first ∈ (List.finRange n).filter fun i => (shards i).isSome := by
        simp [hplaces]
      simpa using hin
    obtain ⟨p, hp⟩ := Option.isSome_iff_exists.1 hsome
    rw [sum_eq_single first]
    · simp [hp, share, hplaces]
    · intro i _ hne
      cases shards i <;> simp [share, hplaces, Ne.symm hne]
    · simp

end DistinctPlace

end Proton.Streaming
