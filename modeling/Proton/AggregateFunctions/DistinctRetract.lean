import Proton.AggregateFunctions.CountedValueMap
import Proton.AggregateFunctions.DistinctShards
import Proton.Lib.GuardedRun

/-!
# The Distinct Adaptor under Retraction

`AggregateFunctionDistinctRetract` counts its keys per shard and keeps a list of pending
changes since the last finalization: `(key, 1)` for a key that came in and `(key, -1)` for one
that went away. A finalization merges the shards in order and feeds the pending changes that
survive to the nested function.

The pending list of a shard is meant to be the difference between its keys now and its keys
at the last finalization. The code breaks this in two places. A key that comes in and goes
away again leaves both changes behind, and a merge lets the first of them win; and a key that
comes in on one shard and goes away on a later one is counted as new. The result is exact in
every run in which no finalization meets a key that is pending with both signs
(`DistinctRetract.finalize_of_run`).
-/

open List Nat SortedMap

namespace Proton.Streaming

namespace DistinctRetract

open DistinctPlace CountedValueMap

variable {n : ℕ} {κ M : Type*} [LinearOrder κ]

/-- `INTERNAL_MAP_SIZE`. -/
def internalMapSize : ℕ+ := ⟨0xFFFFFFFF, by decide⟩

/-- A pending change: a key and its delta. -/
abbrev Change (κ : Type*) := κ × ℤ

/-- The place of a shard: the counted keys and the pending changes. -/
abbrev Place (n : ℕ) (κ M : Type*) [LinearOrder κ] :=
  DistinctPlace n (CountedValueMap κ) (Change κ) M

/-! ### The operations of the source -/

/-- The map of a new place. -/
def newMap : CountedValueMap κ := .new internalMapSize

/-- `add(key)`: a key that is new to the map is pending, unless its removal was. -/
def add (place : Place n κ M) (key : κ) : Place n κ M :=
  let emplaced := place.seen.emplace key
  { place with
    seen := emplaced.1
    extraData :=
      if emplaced.2 = some 1 then
        if (key, -1) ∈ place.extraData then place.extraData.erase (key, -1)
        else place.extraData ++ [(key, 1)]
      else place.extraData }

/-- `negate(key)`: a key that left the map is pending. -/
def negate (place : Place n κ M) (key : κ) : Place n κ M :=
  let erased := place.seen.erase key
  { place with
    seen := erased.1
    extraData :=
      if erased.1.contains key then place.extraData else place.extraData ++ [(key, -1)] }

variable (data : CountedValueMap κ × List (Change κ))

/-- One pending change of `rhs` in a merge: it is taken over if its key is new to the map. -/
def insertChange (change : Change κ) :
    CountedValueMap κ × List (Change κ) :=
  let inserted := data.1.insertCount change.1 (change.2 % 2 ^ 32).toNat
  (inserted.1, if inserted.2 then data.2 ++ [change] else data.2)

/-- The own pending changes that a merge keeps: those whose key `rhs` does not have, or has
pending as well. -/
def keptChanges (changes : List (Change κ)) (rhs : CountedValueMap κ × List (Change κ)) :
    List (Change κ) :=
  changes.filter fun change => !rhs.1.contains change.1 || change ∈ rhs.2

/-- `merge`, on the map and the pending changes. -/
def mergeData (data rhs : CountedValueMap κ × List (Change κ)) :
    CountedValueMap κ × List (Change κ) :=
  let inserted := rhs.2.foldl insertChange (data.1, keptChanges data.2 rhs)
  (inserted.1.mergeConst rhs.1, inserted.2)

section System

variable [AddCommGroup M]

/-- What `addBatchSinglePlace` of the nested function adds for a change. -/
def contribution (f : κ → M) (change : Change κ) : M := change.2 • f change.1

/-- The shards, with the keys that are live on each of them as the history says. -/
structure State (n : ℕ) (κ M : Type*) [LinearOrder κ] where
  shards : Fin n → Option (Place n κ M)
  live : Fin n → Multiset κ

/-- What happens to the shards. -/
inductive Action (n : ℕ) (κ : Type*)
  | create (i : Fin n)
  | add (i : Fin n) (key : κ)
  | negate (i : Fin n) (key : κ)
  | finalize

/-- A finalization of all shards: the result and the shards afterwards. -/
def finalize (f : κ → M) (shards : Fin n → Option (Place n κ M)) :
    M × (Fin n → Option (Place n κ M)) :=
  finalizeMerged mergeData newMap (contribution f) shards

/-- One action. -/
def step (f : κ → M) (s : State n κ M) : Action n κ → State n κ M
  | .create i => { s with shards := Function.update s.shards i (some (placeAt newMap s.shards i)) }
  | .add i key =>
    { shards := Function.update s.shards i (some (add (placeAt newMap s.shards i) key))
      live := Function.update s.live i (key ::ₘ s.live i) }
  | .negate i key =>
    { shards := Function.update s.shards i (some (negate (placeAt newMap s.shards i) key))
      live := Function.update s.live i ((s.live i).erase key) }
  | .finalize => { s with shards := (finalize f s.shards).2 }

/-- No key is pending with both signs, on one shard or on two. -/
def NoMixedChanges (shards : Fin n → Option (Place n κ M)) : Prop :=
  ∀ i j, ∀ change ∈ (placeAt newMap shards i).extraData,
    (change.1, -change.2) ∉ (placeAt newMap shards j).extraData
deriving Decidable

/-- The conditions on the steps of a run: the counters and the maps do not overflow, only live
keys are negated, and no finalization meets a key that is pending with both signs. -/
def Careful (s : State n κ M) : Action n κ → Prop
  | .create _ => True
  | .add i key => (placeAt newMap s.shards i).seen.m.size < internalMapSize ∧
      (s.live i).count key + 1 < 2 ^ 32
  | .negate i key => key ∈ s.live i
  | .finalize => NoMixedChanges s.shards ∧
      ∑ i, ((placeAt newMap s.shards i).seen.m.size +
        (placeAt newMap s.shards i).extraData.length) ≤ internalMapSize

instance (s : State n κ M) : (action : Action n κ) → Decidable (Careful s action)
  | .create _ => isTrue trivial
  | .add _ _ => inferInstanceAs (Decidable (_ ∧ _))
  | .negate _ _ => inferInstanceAs (Decidable (_ ∈ _))
  | .finalize => inferInstanceAs (Decidable (_ ∧ _))

/-- The shards before the first row. -/
def fresh : State n κ M := ⟨fun _ => none, fun _ => 0⟩

/-- What a finalization should return: the nested function over every key whose total count
is positive, once. -/
def expected (f : κ → M) (s : State n κ M) : M := ∑ key ∈ (∑ i, s.live i).toFinset, f key

end System

/-! ### One shard -/

/-- How a key is pending: whether it was there at the last finalization and whether it is
there now, against the number of its pending changes of either sign. -/
structure Pending (before now : Prop) (came went : ℕ) : Prop where
  stayed : before → now → came = 0 ∧ went = 0
  gone : before → ¬ now → came = 0 ∧ went = 1
  new : ¬ before → now → came = 1 ∧ went = 0
  absent : ¬ before → ¬ now → came = went ∧ came ≤ 1

variable {before now now' : Prop}

/-- What is pending depends on whether the key is there now. -/
theorem Pending.congr {came went : ℕ} (h : Pending before now came went) (hnow : now' ↔ now) :
    Pending before now' came went := by
  rwa [show now' = now from propext hnow]

/-- A key that comes back takes its removal out of the pending changes. -/
theorem Pending.came_of_went {came went : ℕ} (h : Pending before now came went) (hnow : ¬ now)
    (hwent : 0 < went) (hnow' : now') :
    Pending before now' came (went - 1) where
  stayed hb _ := by
    obtain ⟨hcame, hone⟩ := h.gone hb hnow
    exact ⟨hcame, by omega⟩
  gone _ hn := absurd hnow' hn
  new hb _ := by
    obtain ⟨heq, hle⟩ := h.absent hb hnow
    exact ⟨by omega, by omega⟩
  absent _ hn := absurd hnow' hn

/-- A key that comes in without a pending removal was not there before. -/
theorem Pending.came {came went : ℕ} (h : Pending before now came went) (hnow : ¬ now)
    (hwent : went = 0) (hnow' : now') :
    Pending before now' (came + 1) 0 where
  stayed hb _ := absurd (h.gone hb hnow).2 (by omega)
  gone _ hn := absurd hnow' hn
  new hb _ := by
    obtain ⟨heq, -⟩ := h.absent hb hnow
    exact ⟨by omega, rfl⟩
  absent _ hn := absurd hnow' hn

/-- A key that goes away has its removal pending. -/
theorem Pending.went {came went : ℕ} (h : Pending before now came went) (hnow : now)
    (hnow' : ¬ now') :
    Pending before now' came (went + 1) where
  stayed _ hn := absurd hn hnow'
  gone hb _ := by
    obtain ⟨hcame, hzero⟩ := h.stayed hb hnow
    exact ⟨hcame, by omega⟩
  new _ hn := absurd hn hnow'
  absent hb _ := by
    obtain ⟨hone, hzero⟩ := h.new hb hnow
    exact ⟨by omega, by omega⟩

/-- A shard counts its live keys, and its changes are pending relative to the keys it had at
the last finalization. -/
structure Shard (place : Place n κ M) (live : Multiset κ) (base : Finset κ) : Prop where
  maxSize : place.seen.maxSize = internalMapSize
  find? : ∀ k, place.seen.m.find? k =
    if live.count k = 0 then none else some (live.count k)
  count_lt : ∀ k, live.count k < 2 ^ 32
  sign : ∀ change ∈ place.extraData, change.2 = 1 ∨ change.2 = -1
  pending : ∀ k, Pending (k ∈ base) (k ∈ live)
    (place.extraData.count (k, 1)) (place.extraData.count (k, -1))

variable {place : Place n κ M} {live : Multiset κ} {base : Finset κ} {key : κ}

section

variable (h : Shard place live base)
include h

/-- The keys of the map are the live ones. -/
theorem Shard.mem_keys {k : κ} : k ∈ place.seen.m.keys ↔ k ∈ live := by
  rw [SortedMap.mem_keys, h.find?, ← Multiset.count_pos]
  split_ifs with h0
  · simp [h0]
  · simp [pos_of_ne_zero h0]

/-- What `emplace` leaves at the key it counts. -/
theorem Shard.counted_self (hcount : live.count key + 1 < 2 ^ 32) :
    (counted place.seen.m key).find? key = some (live.count key + 1) := by
  rw [find?_counted, if_pos rfl, h.find?]
  split_ifs with h0
  · rw [h0]
    rfl
  · rw [mergedCount, mod_eq_of_lt hcount]

section

variable (hroom : place.seen.m.size < internalMapSize)
include hroom

/-- What `add` leaves of the map. -/
theorem Shard.add_seen :
    (DistinctRetract.add place key).seen = { place.seen with m := counted place.seen.m key } := by
  rw [DistinctRetract.add, emplace_of_lt (h.maxSize ▸ hroom)]

/-- What `add` leaves pending, by the count of the key. -/
theorem Shard.add_extraData (hcount : live.count key + 1 < 2 ^ 32) :
    (DistinctRetract.add place key).extraData =
      if live.count key = 0 then
        if (key, -1) ∈ place.extraData then place.extraData.erase (key, -1)
        else place.extraData ++ [(key, 1)]
      else place.extraData := by
  simp only [DistinctRetract.add, emplace_of_lt (h.maxSize ▸ hroom),
    h.counted_self hcount, Option.some.injEq, add_eq_right]

/-- A key that comes in. -/
theorem Shard.add (hcount : live.count key + 1 < 2 ^ 32) :
    Shard (DistinctRetract.add place key) (key ::ₘ live) base where
  maxSize := by
    rw [h.add_seen hroom]
    exact h.maxSize
  find? k := by
    rw [h.add_seen hroom]
    by_cases hk : k = key
    · subst hk
      rw [h.counted_self hcount, Multiset.count_cons_self, if_neg (succ_ne_zero _)]
    · rw [find?_counted, if_neg hk, h.find?, Multiset.count_cons_of_ne hk]
  count_lt k := by
    by_cases hk : k = key
    · rwa [hk, Multiset.count_cons_self]
    · rw [Multiset.count_cons_of_ne hk]
      exact h.count_lt k
  sign change hchange := by
    rw [h.add_extraData hroom hcount] at hchange
    split_ifs at hchange
    · exact h.sign change (mem_of_mem_erase hchange)
    · rcases mem_append.1 hchange with hin | hin
      · exact h.sign change hin
      · exact .inl (by rw [mem_singleton.1 hin])
    · exact h.sign change hchange
  pending k := by
    have hpending := h.pending k
    rw [h.add_extraData hroom hcount]
    by_cases hk : k = key
    · subst hk
      have hnow : k ∈ k ::ₘ live := Multiset.mem_cons_self k live
      split_ifs with h0 hwent
      · have hwas : k ∉ live := Multiset.count_eq_zero.1 h0
        have hpos := count_pos_iff.2 hwent
        rw [count_erase_of_ne (by simp), count_erase_self]
        exact hpending.came_of_went hwas hpos hnow
      · have hwas : k ∉ live := Multiset.count_eq_zero.1 h0
        have hzero := count_eq_zero_of_not_mem hwent
        rw [count_append, count_append, hzero]
        simpa using hpending.came hwas hzero hnow
      · have hwas : k ∈ live := Multiset.count_ne_zero.1 h0
        exact hpending.congr (by simp [hwas])
    · have hsame : k ∈ key ::ₘ live ↔ k ∈ live := by simp [hk]
      refine Pending.congr ?_ hsame
      split_ifs
      · rwa [count_erase_of_ne (by simp [hk]), count_erase_of_ne (by simp [hk])]
      · simpa [Ne.symm hk] using hpending
      · exact hpending

end

variable (hlive : key ∈ live)
include hlive

/-- What `negate` leaves of the map. -/
theorem Shard.negate_seen :
    (DistinctRetract.negate place key).seen = { place.seen with
      m := place.seen.m.alter key fun _ =>
        if live.count key - 1 = 0 then none else some (live.count key - 1) } := by
  have hpos := Multiset.count_pos.2 hlive
  have hfind : place.seen.m.find? key = some (live.count key) := by
    rw [h.find?, if_neg hpos.ne']
  have hlt := h.count_lt key
  have hless : decremented (live.count key) = live.count key - 1 := by
    rw [decremented]
    omega
  rw [DistinctRetract.negate, erase_of_some hfind, hless]

/-- After `negate` the map counts the keys that are left. -/
theorem Shard.negate_find? (k : κ) :
    (DistinctRetract.negate place key).seen.m.find? k =
      if (live.erase key).count k = 0 then none else some ((live.erase key).count k) := by
  rw [h.negate_seen hlive, find?_alter]
  by_cases hk : k = key
  · rw [hk, if_pos rfl, Multiset.count_erase_self]
  · rw [if_neg hk, Multiset.count_erase_of_ne hk, h.find?]

/-- What `negate` leaves pending, by whether the key is left. -/
theorem Shard.negate_extraData :
    (DistinctRetract.negate place key).extraData =
      if key ∈ live.erase key then place.extraData else place.extraData ++ [(key, -1)] := by
  have hcontains : (place.seen.erase key).1.contains key = true ↔ key ∈ live.erase key := by
    have hfind := h.negate_find? hlive key
    rw [DistinctRetract.negate] at hfind
    rw [CountedValueMap.contains, hfind, ← Multiset.count_pos]
    split_ifs with h0
    · exact iff_of_false Bool.false_ne_true h0.not_gt
    · exact iff_of_true rfl (pos_of_ne_zero h0)
  simp only [DistinctRetract.negate, hcontains]

/-- A key that goes away. -/
theorem Shard.negate : Shard (DistinctRetract.negate place key) (live.erase key) base where
  maxSize := by
    rw [h.negate_seen hlive]
    exact h.maxSize
  find? := h.negate_find? hlive
  count_lt k := (Multiset.count_le_of_le k (Multiset.erase_le key live)).trans_lt (h.count_lt k)
  sign change hchange := by
    rw [h.negate_extraData hlive] at hchange
    split_ifs at hchange
    · exact h.sign change hchange
    · rcases mem_append.1 hchange with hin | hin
      · exact h.sign change hin
      · exact .inr (by rw [mem_singleton.1 hin])
  pending k := by
    have hpending := h.pending k
    rw [h.negate_extraData hlive]
    by_cases hk : k = key
    · subst hk
      split_ifs with hstill
      · exact hpending.congr (iff_of_true hstill hlive)
      · simpa using hpending.went hlive hstill
    · refine Pending.congr ?_ (Multiset.mem_erase_of_ne hk)
      split_ifs
      · exact hpending
      · simpa [Ne.symm hk] using hpending

end

/-! ### Merging -/

/-- The pending changes say what changed from the keys `base` to the keys `keys`. -/
structure Changes (changes : List (Change κ)) (keys base : Finset κ) : Prop where
  nodup_keys : (changes.map (·.1)).Nodup
  sign : ∀ change ∈ changes, change.2 = 1 ∨ change.2 = -1
  came : ∀ k, (k, 1) ∈ changes ↔ k ∈ keys ∧ k ∉ base
  went : ∀ k, (k, -1) ∈ changes ↔ k ∈ base ∧ k ∉ keys

/-- No change is pending twice. -/
theorem Pending.count_le {came went : ℕ} (h : Pending before now came went) :
    came ≤ 1 ∧ went ≤ 1 := by
  by_cases hb : before <;> by_cases hn : now
  · have := h.stayed hb hn
    omega
  · have := h.gone hb hn
    omega
  · have := h.new hb hn
    omega
  · have := h.absent hb hn
    omega

/-- A key that is not pending with both signs is pending as its presence changed. -/
theorem Pending.iff {came went : ℕ} (h : Pending before now came went)
    (hmix : 0 < came → went = 0) : (0 < came ↔ now ∧ ¬ before) ∧ (0 < went ↔ before ∧ ¬ now) := by
  by_cases hb : before <;> by_cases hn : now
  · simp [h.stayed hb hn, hb, hn]
  · simp [h.gone hb hn, hb, hn]
  · simp [h.new hb hn, hb, hn]
  · have habsent := h.absent hb hn
    simp only [hb, hn, false_and, iff_false]
    omega

omit [LinearOrder κ] in
/-- The pending keys are those that came or went. -/
theorem Changes.mem_keys {changes : List (Change κ)} {keys base : Finset κ}
    (h : Changes changes keys base) {k : κ} :
    k ∈ changes.map (·.1) ↔ (k ∈ keys ∧ k ∉ base) ∨ (k ∈ base ∧ k ∉ keys) := by
  rw [← h.came, ← h.went]
  constructor
  · intro hk
    obtain ⟨⟨_, delta⟩, hchange, rfl⟩ := mem_map.1 hk
    rcases h.sign _ hchange with rfl | rfl
    · exact .inl hchange
    · exact .inr hchange
  · rintro (hchange | hchange) <;> exact mem_map_of_mem (f := (·.1)) hchange

/-- Without keys that are pending with both signs, the pending changes of a shard are the
difference of its keys. -/
theorem Shard.changes (h : Shard place live base)
    (hmix : ∀ k, (k, 1) ∈ place.extraData → (k, -1) ∉ place.extraData) :
    Changes place.extraData live.toFinset base where
  nodup_keys := by
    have hnodup : place.extraData.Nodup := by
      refine nodup_iff_count_le_one.2 fun ⟨k, delta⟩ => ?_
      by_cases hin : (k, delta) ∈ place.extraData
      · rcases h.sign _ hin with rfl | rfl
        · exact (h.pending k).count_le.1
        · exact (h.pending k).count_le.2
      · rw [count_eq_zero_of_not_mem hin]
        exact zero_le 1
    refine hnodup.map_on fun ⟨k, delta⟩ hx ⟨k', delta'⟩ hy hkey => ?_
    obtain rfl : k = k' := hkey
    rcases h.sign _ hx with rfl | rfl <;> rcases h.sign _ hy with rfl | rfl
    · rfl
    · exact absurd hy (hmix k hx)
    · exact absurd hx (hmix k hy)
    · rfl
  sign := h.sign
  came k := by
    rw [← count_pos_iff, ((h.pending k).iff _).1, Multiset.mem_toFinset]
    exact fun hcame => count_eq_zero_of_not_mem (hmix k (count_pos_iff.1 hcame))
  went k := by
    rw [← count_pos_iff, ((h.pending k).iff _).2, Multiset.mem_toFinset]
    exact fun hcame => count_eq_zero_of_not_mem (hmix k (count_pos_iff.1 hcame))

/-- The map contains its keys. -/
theorem contains_iff {c : CountedValueMap κ} {k : κ} : c.contains k = true ↔ k ∈ c.m.keys :=
  mem_keys.symm

/-- A change whose key is known is not taken over. -/
theorem insertChange_snd (change : Change κ) :
    (insertChange data change).2 =
      if change.1 ∈ data.1.m.keys then data.2 else data.2 ++ [change] := by
  by_cases hin : change.1 ∈ data.1.m.keys
  · rw [if_pos hin, insertChange, insertCount, contains_iff.2 hin]
    rfl
  · have hnot : data.1.contains change.1 = false :=
      Bool.eq_false_iff.2 fun h => hin (contains_iff.1 h)
    rw [if_neg hin, insertChange, insertCount, hnot]
    rfl

/-- Taking over the pending changes of `rhs`. -/
theorem foldl_insertChange {l : List (Change κ)} (hl : (l.map (·.1)).Nodup)
    (hin : ∀ change ∈ data.2, change.1 ∈ data.1.m.keys) (hnodup : (data.2.map (·.1)).Nodup) :
    (l.foldl insertChange data).1.maxSize = data.1.maxSize ∧
      (l.foldl insertChange data).1.m.keys = data.1.m.keys ∪ (l.map (·.1)).toFinset ∧
      ((l.foldl insertChange data).2.map (·.1)).Nodup ∧
      ∀ change, change ∈ (l.foldl insertChange data).2 ↔
        change ∈ data.2 ∨ change ∈ l ∧ change.1 ∉ data.1.m.keys := by
  induction l generalizing data with
  | nil => simpa using hnodup
  | cons x l ih =>
    have hkeys : (insertChange data x).1.m.keys = insert x.1 data.1.m.keys := insertCount_keys _
    have hnotin : x.1 ∉ l.map (·.1) := (nodup_cons.1 hl).1
    have hin' : ∀ change ∈ (insertChange data x).2,
        change.1 ∈ (insertChange data x).1.m.keys := fun change hchange => by
      rw [hkeys, Finset.mem_insert]
      rw [insertChange_snd] at hchange
      split_ifs at hchange
      · exact .inr (hin change hchange)
      · rcases mem_append.1 hchange with hold | hnew
        · exact .inr (hin change hold)
        · exact .inl (by rw [mem_singleton.1 hnew])
    have hstep : ((insertChange data x).2.map (·.1)).Nodup := by
      rw [insertChange_snd]
      split_ifs with hold
      · exact hnodup
      · rw [map_append, nodup_append']
        refine ⟨hnodup, nodup_singleton _, ?_⟩
        intro k hk hx
        obtain ⟨change, hchange, rfl⟩ := mem_map.1 hk
        have hkey : change.1 = x.1 := mem_singleton.1 hx
        exact hold (hkey ▸ hin change hchange)
    obtain ⟨hmax, hall, hnodup', hmem⟩ := ih _ (nodup_cons.1 hl).2 hin' hstep
    refine ⟨hmax, ?_, hnodup', fun change => ?_⟩
    · rw [foldl_cons, hall, hkeys, map_cons, toFinset_cons,
        Finset.insert_union, Finset.union_insert]
    · have hne : change ∈ l → change.1 ≠ x.1 := fun hchange heq =>
        hnotin (heq ▸ mem_map_of_mem hchange)
      rw [foldl_cons, hmem, hkeys, insertChange_snd, Finset.mem_insert, mem_cons]
      split_ifs with hold
      · constructor
        · rintro (hc | ⟨hc, hk⟩)
          · exact .inl hc
          · exact .inr ⟨.inr hc, fun h => hk (.inr h)⟩
        · rintro (hc | ⟨rfl | hc, hk⟩)
          · exact .inl hc
          · exact absurd hold hk
          · exact .inr ⟨hc, fun h => h.elim (hne hc) hk⟩
      · rw [mem_append, mem_singleton]
        constructor
        · rintro ((hc | rfl) | ⟨hc, hk⟩)
          · exact .inl hc
          · exact .inr ⟨.inl rfl, hold⟩
          · exact .inr ⟨.inr hc, fun h => hk (.inr h)⟩
        · rintro (hc | ⟨rfl | hc, hk⟩)
          · exact .inl (.inl hc)
          · exact .inl (.inr rfl)
          · exact .inr ⟨hc, fun h => h.elim (hne hc) hk⟩

/-- The data all shards so far are merged into: `keys` are theirs now and `base` theirs at
the last finalization. -/
structure Merged (keys base : Finset κ) : Prop where
  maxSize : data.1.maxSize = internalMapSize
  keys_eq : data.1.m.keys = keys ∪ base
  changes : Changes data.2 keys base

/-- Which own changes a merge keeps. -/
theorem mem_keptChanges {changes : List (Change κ)}
    {rhs : CountedValueMap κ × List (Change κ)} {change : Change κ} :
    change ∈ keptChanges changes rhs ↔
      change ∈ changes ∧ (change.1 ∉ rhs.1.m.keys ∨ change ∈ rhs.2) := by
  rw [keptChanges, ← contains_iff]
  simp

/-- **One merge**, of a shard whose removals are not pending as additions so far. -/
theorem Merged.merge {data : CountedValueMap κ × List (Change κ)}
    {keys base rkeys rbase : Finset κ} (h : Merged data keys base)
    (rhs : CountedValueMap κ × List (Change κ)) (hmax : rhs.1.maxSize = internalMapSize)
    (hrkeys : rhs.1.m.keys = rkeys) (hrhs : Changes rhs.2 rkeys rbase)
    (hmix : ∀ k ∈ keys, k ∉ base → k ∈ rbase → k ∈ rkeys)
    (hsize : data.1.m.size + rhs.2.length + rhs.1.m.size ≤ internalMapSize) :
    Merged (mergeData data rhs) (keys ∪ rkeys) (base ∪ rbase) ∧
      (mergeData data rhs).1.m.size ≤ data.1.m.size + rhs.2.length + rhs.1.m.size := by
  have hknown : ∀ change ∈ keptChanges data.2 rhs, change.1 ∈ data.1.m.keys := by
    rintro ⟨k, delta⟩ hchange
    replace hchange := (mem_keptChanges.1 hchange).1
    rw [h.keys_eq, Finset.mem_union]
    rcases h.changes.sign _ hchange with rfl | rfl
    · exact .inl ((h.changes.came k).1 hchange).1
    · exact .inr ((h.changes.went k).1 hchange).1
  have hkeptNodup : ((keptChanges data.2 rhs).map (·.1)).Nodup :=
    h.changes.nodup_keys.sublist (filter_sublist.map _)
  obtain ⟨hmax', hkeys, hnodup, hmem⟩ :=
    foldl_insertChange (data.1, keptChanges data.2 rhs) hrhs.nodup_keys hknown hkeptNodup
  have hinserted : (rhs.2.foldl insertChange (data.1, keptChanges data.2 rhs)).1.m.size ≤
      data.1.m.size + rhs.2.length := by
    rw [← card_keys, hkeys, ← card_keys]
    refine (Finset.card_union_le _ _).trans (Nat.add_le_add_left ?_ _)
    exact (toFinset_card_le _).trans (length_map ..).le
  have hmax₁ := hmax'.trans h.maxSize
  obtain ⟨hmerged, hall⟩ := mergeConst_keys (hmax.trans hmax₁.symm)
    (hmax₁ ▸ (Nat.add_le_add_right hinserted _).trans hsize)
  have hchange (change : Change κ) : change ∈ (mergeData data rhs).2 ↔
      (change ∈ data.2 ∧ (change.1 ∉ rkeys ∨ change ∈ rhs.2)) ∨
        (change ∈ rhs.2 ∧ ¬ (change.1 ∈ keys ∨ change.1 ∈ base)) := by
    rw [mergeData, hmem, mem_keptChanges, hrkeys, h.keys_eq, Finset.mem_union]
  refine ⟨⟨hmerged.trans hmax₁, ?_, hnodup, fun change hin => ?_, fun k => ?_, fun k => ?_⟩, ?_⟩
  · ext k
    rw [mergeData, hall, hkeys, h.keys_eq]
    simp only [Finset.mem_union, mem_toFinset, hrhs.mem_keys]
    grind
  · rcases (hchange change).1 hin with hin | hin
    · exact h.changes.sign change hin.1
    · exact hrhs.sign change hin.1
  · rw [hchange, h.changes.came, hrhs.came]
    grind
  · rw [hchange, h.changes.went, hrhs.went]
    grind
  · rw [mergeData, ← card_keys, hall]
    refine (Finset.card_union_le _ _).trans ?_
    rw [card_keys, card_keys]
    exact Nat.add_le_add_right hinserted _

variable [AddCommGroup M]

/-- The data of a place. -/
def dataOf (place : Place n κ M) : CountedValueMap κ × List (Change κ) :=
  (place.seen, place.extraData)

/-- What a list of shards needs to be merged: their pending changes are the difference of
their keys, and no key comes in on one of them and goes away on another. -/
structure Mergeable (l : List (Fin n × Place n κ M)) (keys base : Fin n → Finset κ) : Prop where
  maxSize : ∀ x ∈ l, x.2.seen.maxSize = internalMapSize
  keys_eq : ∀ x ∈ l, x.2.seen.m.keys = keys x.1
  changes : ∀ x ∈ l, Changes x.2.extraData (keys x.1) (base x.1)
  mixed : ∀ x ∈ l, ∀ y ∈ l, ∀ k ∈ keys x.1, k ∉ base x.1 → k ∈ base y.1 → k ∈ keys y.1

/-- Merging a list of shards. -/
theorem Merged.foldl_merge {l : List (Fin n × Place n κ M)} {keys base : Fin n → Finset κ}
    (hl : Mergeable l keys base) {place : Place n κ M} {keys₀ base₀ : Finset κ}
    (h : Merged (dataOf place) keys₀ base₀)
    (hmix : ∀ x ∈ l, ∀ k ∈ keys₀, k ∉ base₀ → k ∈ base x.1 → k ∈ keys x.1)
    (hsize : place.seen.m.size +
      (l.map fun x => x.2.seen.m.size + x.2.extraData.length).sum ≤ internalMapSize) :
    ∃ keys' base', Merged (dataOf (l.foldl (DistinctPlace.merge mergeData) place)) keys' base' ∧
      (∀ k, k ∈ keys' ↔ k ∈ keys₀ ∨ ∃ x ∈ l, k ∈ keys x.1) ∧
      ∀ k, k ∈ base' ↔ k ∈ base₀ ∨ ∃ x ∈ l, k ∈ base x.1 := by
  induction l generalizing place keys₀ base₀ with
  | nil => exact ⟨keys₀, base₀, h, by simp, by simp⟩
  | cons x l ih =>
    have hx := mem_cons_self (a := x) (l := l)
    have hsub {y : Fin n × Place n κ M} (hy : y ∈ l) := mem_cons_of_mem x hy
    simp only [map_cons, sum_cons] at hsize
    have hfits : (dataOf place).1.m.size + (dataOf x.2).2.length + (dataOf x.2).1.m.size ≤
        internalMapSize := by
      simp only [dataOf]
      omega
    obtain ⟨hstep, hgrown⟩ := h.merge (dataOf x.2) (hl.maxSize x hx) (hl.keys_eq x hx)
      (hl.changes x hx) (hmix x hx) hfits
    have hmerged : Merged (dataOf (place.merge mergeData x)) (keys₀ ∪ keys x.1)
      (base₀ ∪ base x.1) := hstep
    have hsize' : (place.merge mergeData x).seen.m.size ≤
      place.seen.m.size + x.2.extraData.length + x.2.seen.m.size := hgrown
    have hmix' : ∀ y ∈ l, ∀ k ∈ keys₀ ∪ keys x.1, k ∉ base₀ ∪ base x.1 →
        k ∈ base y.1 → k ∈ keys y.1 := fun y hy k hk hnot hb => by
      rw [Finset.mem_union, not_or] at hnot
      rcases Finset.mem_union.1 hk with hk | hk
      · exact hmix y (hsub hy) k hk hnot.1 hb
      · exact hl.mixed x hx y (hsub hy) k hk hnot.2 hb
    obtain ⟨keys', base', hall, hkeys, hbase⟩ := ih
      ⟨fun y hy => hl.maxSize y (hsub hy), fun y hy => hl.keys_eq y (hsub hy),
        fun y hy => hl.changes y (hsub hy),
        fun y hy z hz => hl.mixed y (hsub hy) z (hsub hz)⟩ hmerged hmix' (by omega)
    refine ⟨keys', base', hall, fun k => ?_, fun k => ?_⟩
    · rw [hkeys, Finset.mem_union, exists_mem_cons_iff, or_assoc]
    · rw [hbase, Finset.mem_union, exists_mem_cons_iff, or_assoc]

/-- What the pending changes add up to. -/
theorem Changes.sum_contribution {changes : List (Change κ)} {keys base : Finset κ}
    (h : Changes changes keys base) (f : κ → M) :
    (changes.map (contribution f)).sum = ∑ k ∈ keys, f k - ∑ k ∈ base, f k := by
  have hsplit : changes.toFinset =
      (keys \ base).image (·, (1 : ℤ)) ∪ (base \ keys).image (·, (-1 : ℤ)) := by
    ext ⟨k, delta⟩
    simp only [mem_toFinset, Finset.mem_union, Finset.mem_image, Finset.mem_sdiff, Prod.mk.injEq]
    constructor
    · intro hin
      rcases h.sign _ hin with rfl | rfl
      · exact .inl ⟨k, (h.came k).1 hin, rfl, rfl⟩
      · exact .inr ⟨k, (h.went k).1 hin, rfl, rfl⟩
    · rintro (⟨_, hk, rfl, rfl⟩ | ⟨_, hk, rfl, rfl⟩)
      · exact (h.came _).2 hk
      · exact (h.went _).2 hk
  have hdisjoint : Disjoint ((keys \ base).image (·, (1 : ℤ)))
      ((base \ keys).image (·, (-1 : ℤ))) := by
    refine Finset.disjoint_left.2 fun change hcame hwent => ?_
    obtain ⟨k, -, rfl⟩ := Finset.mem_image.1 hcame
    obtain ⟨k', -, hk'⟩ := Finset.mem_image.1 hwent
    simp at hk'
  rw [← sum_toFinset _ (List.Nodup.of_map _ h.nodup_keys), hsplit,
    Finset.sum_union hdisjoint,
    ← Finset.sum_sdiff_sub_sum_sdiff]
  simp [contribution, sub_eq_add_neg]

/-! ### The invariant of a run -/

/-- **The invariant**: every shard counts its live keys, and the nested states together hold
the keys of the last finalization, once each. -/
structure Invariant (f : κ → M) (s : State n κ M) (base : Fin n → Finset κ) : Prop where
  shard : ∀ i, Shard (placeAt newMap s.shards i) (s.live i) (base i)
  nested : nestedTotal s.shards = ∑ k ∈ Finset.univ.biUnion base, f k

variable {f : κ → M} {s : State n κ M} {base : Fin n → Finset κ}

/-- A new place has no keys. -/
theorem shard_create : Shard (.create newMap : Place n κ M) 0 ∅ where
  maxSize := rfl
  find? _ := rfl
  count_lt _ := by simp
  sign _ h := absurd h not_mem_nil
  pending _ := ⟨fun h => absurd h (Finset.notMem_empty _),
    fun h => absurd h (Finset.notMem_empty _),
    fun _ h => absurd h (Multiset.notMem_zero _), fun _ _ => ⟨rfl, zero_le 1⟩⟩

/-- The invariant holds before the first row. -/
theorem invariant_fresh (f : κ → M) : Invariant f (fresh : State n κ M) fun _ => ∅ where
  shard _ := shard_create
  nested := by simp [nestedTotal, fresh, biUnion_empty_family]

/-- Replacing the place of one shard. -/
theorem Invariant.update (h : Invariant f s base) {i : Fin n} {place : Place n κ M}
    {live : Multiset κ} (hshard : Shard place live (base i))
    (hnested : place.nested = (placeAt newMap s.shards i).nested) :
    Invariant f ⟨Function.update s.shards i (some place), Function.update s.live i live⟩
      base where
  shard j := by
    by_cases hj : j = i
    · subst hj
      simpa [placeAt_update] using hshard
    · simpa [placeAt_update, hj] using h.shard j
  nested := by
    have htotal : nestedTotal (Function.update s.shards i (some place)) =
        nestedTotal s.shards := by
      rw [nestedTotal_eq newMap, nestedTotal_eq newMap]
      exact Finset.sum_congr rfl fun j _ =>
        apply_placeAt_update (·.nested) hnested j
    rw [htotal, h.nested]

omit [AddCommGroup M] in
/-- A shard whose changes have been finalized. -/
theorem Shard.settled {place place' : Place n κ M} {live : Multiset κ} {base : Finset κ}
    (h : Shard place live base) (hseen : place'.seen = place.seen)
    (hextra : place'.extraData = []) : Shard place' live live.toFinset where
  maxSize := hseen ▸ h.maxSize
  find? := hseen ▸ h.find?
  count_lt := h.count_lt
  sign change hchange := by simp [hextra] at hchange
  pending k := by
    rw [hextra, Multiset.mem_toFinset]
    exact ⟨fun _ _ => ⟨rfl, rfl⟩, fun hb hn => absurd hb hn, fun hb hn => absurd hn hb,
      fun _ _ => ⟨rfl, zero_le 1⟩⟩

/-- A shard without data has no keys, neither now nor at the last finalization. -/
theorem Shard.eq_empty {live : Multiset κ} {base : Finset κ}
    (h : Shard (.create newMap : Place n κ M) live base) : live.toFinset = ∅ ∧ base = ∅ := by
  have hlive : ∀ k, k ∉ live := fun k hk => by
    rw [← h.mem_keys, SortedMap.mem_keys] at hk
    simp [create, newMap, new] at hk
  refine ⟨Finset.eq_empty_of_forall_notMem fun k hk => hlive k (Multiset.mem_toFinset.1 hk),
    Finset.eq_empty_of_forall_notMem fun k hk => ?_⟩
  have hwent := ((h.pending k).gone hk (hlive k)).2
  simp [create] at hwent

section

variable (h : Invariant f s base)
include h

/-- Without mixed changes, what is pending on a shard is the difference of its keys. -/
theorem Invariant.changes (hmix : NoMixedChanges s.shards) (i : Fin n) :
    Changes (placeAt newMap s.shards i).extraData (s.live i).toFinset (base i) :=
  (h.shard i).changes fun k hk => hmix i i (k, 1) hk

/-- The shards with data can be merged when no key is pending with both signs. -/
theorem Invariant.mergeable (hmix : NoMixedChanges s.shards) :
    Mergeable (nonEmptyData s.shards) (fun i => (s.live i).toFinset) base := by
  have hplace : ∀ x ∈ nonEmptyData s.shards, placeAt newMap s.shards x.1 = x.2 :=
    fun x hx => by rw [placeAt, mem_nonEmptyData.1 hx, Option.getD_some]
  exact
    { maxSize := fun x hx => hplace x hx ▸ (h.shard x.1).maxSize
      keys_eq := fun x hx => by
        ext k
        rw [← hplace x hx, (h.shard x.1).mem_keys, Multiset.mem_toFinset]
      changes := fun x hx => hplace x hx ▸ h.changes hmix x.1
      mixed := fun x hx y hy k hk hnot hb => by
        by_contra hgone
        have hcame := ((h.changes hmix x.1).came k).2 ⟨hk, hnot⟩
        have hwent := ((h.changes hmix y.1).went k).2 ⟨hb, hgone⟩
        exact hmix x.1 y.1 (k, 1) hcame hwent }

/-- The keys of the shards with data are the keys of all shards. -/
theorem Invariant.exists_nonEmptyData (k : κ) :
    ((∃ x ∈ nonEmptyData s.shards, k ∈ (s.live x.1).toFinset) ↔
        k ∈ Finset.univ.biUnion fun i => (s.live i).toFinset) ∧
      ((∃ x ∈ nonEmptyData s.shards, k ∈ base x.1) ↔ k ∈ Finset.univ.biUnion base) := by
  have hdata (i : Fin n) (hne : (s.live i).toFinset ≠ ∅ ∨ base i ≠ ∅) :
      ∃ x ∈ nonEmptyData s.shards, x.1 = i := by
    cases hi : s.shards i with
    | some p => exact ⟨(i, p), mem_nonEmptyData.2 hi, rfl⟩
    | none =>
      have hshard := h.shard i
      rw [placeAt, hi] at hshard
      exact absurd hshard.eq_empty (by tauto)
  have hiff (keys : Fin n → Finset κ)
      (hkeys : ∀ i, keys i ≠ ∅ → (s.live i).toFinset ≠ ∅ ∨ base i ≠ ∅) :
      (∃ x ∈ nonEmptyData s.shards, k ∈ keys x.1) ↔ k ∈ Finset.univ.biUnion keys := by
    rw [Finset.mem_biUnion]
    constructor
    · rintro ⟨x, -, hk⟩
      exact ⟨x.1, Finset.mem_univ _, hk⟩
    · rintro ⟨i, -, hk⟩
      obtain ⟨x, hx, rfl⟩ := hdata i (hkeys i (Finset.ne_empty_of_mem hk))
      exact ⟨x, hx, hk⟩
  exact ⟨hiff _ fun _ => .inl, hiff base fun _ => .inr⟩

/-- The changes that survive the merge of all shards are the difference of their keys. -/
theorem Invariant.mergeAll_changes (hcareful : Careful s .finalize) :
    Changes (mergeAll mergeData newMap s.shards).extraData
      (Finset.univ.biUnion fun i => (s.live i).toFinset) (Finset.univ.biUnion base) := by
  obtain ⟨hmix, hsize⟩ := hcareful
  have hfresh : Merged (dataOf (.create newMap : Place n κ M)) ∅ ∅ :=
    ⟨rfl, rfl, by simp [dataOf, create], by simp [dataOf, create],
      by simp [dataOf, create], by simp [dataOf, create]⟩
  have hsum : ((nonEmptyData s.shards).map fun x =>
      x.2.seen.m.size + x.2.extraData.length).sum = ∑ i,
        ((placeAt newMap s.shards i).seen.m.size +
          (placeAt newMap s.shards i).extraData.length) := by
    rw [sum_nonEmptyData fun p : Place n κ M => p.seen.m.size + p.extraData.length]
    refine Finset.sum_congr rfl fun i _ => ?_
    rw [placeAt]
    cases s.shards i <;> rfl
  obtain ⟨keys, base', hmerged, hkeys, hbase⟩ := hfresh.foldl_merge (h.mergeable hmix)
    (by simp) (by rw [hsum]; simpa [create, newMap, new] using hsize)
  have hkeys' : keys = Finset.univ.biUnion fun i => (s.live i).toFinset := by
    ext k
    rw [hkeys, ← (h.exists_nonEmptyData k).1]
    simp
  have hbase' : base' = Finset.univ.biUnion base := by
    ext k
    rw [hbase, ← (h.exists_nonEmptyData k).2]
    simp
  exact hkeys' ▸ hbase' ▸ hmerged.changes

/-- **A finalization** in a careful state returns the nested function of the live keys, and
the nested states hold it afterwards. -/
theorem Invariant.finalize (hcareful : Careful s .finalize) :
    (finalize f s.shards).1 = expected f s ∧
      Invariant f (step f s .finalize) fun i => (s.live i).toFinset := by
  have hsum : nestedTotal s.shards +
      increment mergeData newMap (contribution f) s.shards =
        ∑ k ∈ Finset.univ.biUnion fun i => (s.live i).toFinset, f k := by
    rw [h.nested, increment, (h.mergeAll_changes hcareful).sum_contribution, add_sub_cancel]
  have hexpected : expected f s = ∑ k ∈ Finset.univ.biUnion fun i => (s.live i).toFinset, f k := by
    rw [expected]
    congr 1
    ext k
    simp [Multiset.mem_sum]
  refine ⟨(finalizeMerged_fst ..).trans (hsum.trans hexpected.symm),
    fun i => ?_, (nestedTotal_finalizeMerged ..).trans hsum⟩
  obtain ⟨hseen, hextra⟩ :
      (placeAt newMap (step f s .finalize).shards i).seen = (placeAt newMap s.shards i).seen ∧
        (placeAt newMap (step f s .finalize).shards i).extraData = [] := by
    have hsnd := finalizeMerged_snd mergeData newMap (contribution f) s.shards i
    simp only [placeAt, DistinctRetract.step, DistinctRetract.finalize, hsnd]
    cases s.shards i <;> exact ⟨rfl, rfl⟩
  exact (h.shard i).settled hseen hextra

/-- Every careful action keeps the invariant. -/
theorem Invariant.step {action : Action n κ}
    (hcareful : Careful s action) : ∃ base', Invariant f (step f s action) base' := by
  cases action with
  | create i =>
    have hupdate := h.update (h.shard i) rfl
    rw [Function.update_eq_self] at hupdate
    exact ⟨base, hupdate⟩
  | add i key => exact ⟨base, h.update ((h.shard i).add hcareful.1 hcareful.2) rfl⟩
  | negate i key => exact ⟨base, h.update ((h.shard i).negate hcareful) rfl⟩
  | finalize => exact ⟨_, (h.finalize hcareful).2⟩

end

/-- **Distinct aggregation under retraction is exact** in careful runs: each finalization
returns the nested function of the keys whose total count is positive, once each. -/
theorem finalize_of_run (f : κ → M)
    (hrun : Relation.ReflTransGen (GuardedRun.Step (DistinctRetract.step f) Careful)
      (fresh : State n κ M) s) (hcareful : Careful s .finalize) :
    (finalize f s.shards).1 = expected f s := by
  obtain ⟨base, h⟩ := GuardedRun.invariant (I := fun s => ∃ base, Invariant f s base)
    (fun s action ⟨base, h⟩ hguard => h.step hguard) ⟨_, invariant_fresh f⟩ hrun
  exact (h.finalize hcareful).1

/-- Two shards that share a key, which then goes away on one of them. -/
def sharedKey : List (Action 2 ℕ) :=
  [.add 0 5, .add 1 5, .add 1 7, .finalize, .negate 0 5, .negate 1 7]

/-- A key of two shards goes away on one of them. -/
theorem finalize_sharedKey :
    (finalize Int.ofNat (sharedKey.foldl (step Int.ofNat) fresh).shards).1 =
      expected Int.ofNat (sharedKey.foldl (step Int.ofNat) fresh) :=
  finalize_of_run Int.ofNat (GuardedRun.Along.reflTransGen (by decide)) (by decide)

/-- A key that comes in and goes away between two finalizations is counted. -/
theorem passing_key_counted :
    (finalize Int.ofNat ([.add 0 5, .negate 0 5].foldl
      (step Int.ofNat) (fresh : State 1 ℕ ℤ)).shards).1 = 5 ∧
    expected Int.ofNat ([.add 0 5, .negate 0 5].foldl
      (step Int.ofNat) (fresh : State 1 ℕ ℤ)) = 0 := by
  decide

end DistinctRetract

end Proton.Streaming
