import Proton.Common.HybridKeyList

/-!
# Batches of the Hybrid Key List

`emplaceKeys` is meant to put a batch in as `emplaceKey` puts in its keys one by one. The loop
that fills the memory runs until the set has reached the capacity, not until the batch ends.
The decision to run it counts the keys of the batch, but the set holds a key once, so with
duplicates the set may stay below the capacity and the loop reads behind the end of the batch.

## Main results

* `HybridKeyList.fillMemory_eq_none_iff`: when the loop leaves the batch.
* `HybridKeyList.fillMemory_foldl`: a loop that stays in the batch does what `emplaceKey` does.
* `HybridKeyList.emplaceKeys_eq_foldl_iff`: batches that are put in like their keys are those
  that surely fit, and those whose distinct keys fill the memory.
-/

open ByteReader

namespace Proton.HybridKeyList

variable {K : Type} [LinearOrder K] (config : HybridKeyListConfig K)

/-- The keys put in one by one, with every reading of the clock `now`. -/
def emplaceEach (now : Millis) (keys : List K) (s : HybridKeyList K) : HybridKeyList K :=
  keys.foldl (fun s key => s.emplaceKey config now key) s

/-- The memory with a whole batch, were there room for it. -/
def withBatch (now : Millis) (keys : List K) (m : SortedMap (KeyWithTimestamp K) Unit) :
    SortedMap (KeyWithTimestamp K) Unit :=
  (keys.map fun key => toLex (now, key)).foldl (fun m e => m.insert e ()) m

/-- The keys `left` of a batch written to a column family. -/
def spill (now : Millis) (left : List K) (disk : SortedMap Bytes Unit) : SortedMap Bytes Unit :=
  (left.map fun key => encodeKey config.codec (toLex (now, key))).foldl
    (fun m data => m.insert data ()) disk

variable {config} {now : Millis} {keys left : List K} {s : HybridKeyList K}
  {m m' : SortedMap (KeyWithTimestamp K) Unit} {maxHotKeyCount : ℕ}

/-- A batch removes no key. -/
theorem size_le_withBatch (now : Millis) (keys : List K)
    (m : SortedMap (KeyWithTimestamp K) Unit) : m.size ≤ (withBatch now keys m).size := by
  refine SortedMap.size_le_of_keys_subset fun e he => ?_
  rw [withBatch, SortedMap.mem_keys_foldl_insert]
  exact .inr he

/-! ### The loop that fills the memory -/

/-- The loop leaves the batch when all of it is not enough to fill the memory. -/
theorem fillMemory_eq_none_iff :
    fillMemory maxHotKeyCount now keys m = none ↔ (withBatch now keys m).size < maxHotKeyCount := by
  induction keys generalizing m with
  | nil =>
    rw [fillMemory]
    by_cases hlt : m.size < maxHotKeyCount <;> simp [withBatch]
  | cons key keys ih =>
    rw [fillMemory]
    by_cases hlt : m.size < maxHotKeyCount
    · rw [if_pos hlt, ih]
      rfl
    · have hle := size_le_withBatch now (key :: keys) m
      rw [if_neg hlt]
      exact iff_of_false (Option.some_ne_none _) (by omega)

/-- A full memory sends every key to the disk. -/
theorem emplaceEach_full (hfull : config.maxHotKeyCount ≤ s.oldestKeys.size) :
    (s.emplaceEach config now keys).oldestKeys = s.oldestKeys ∧
      (s.emplaceEach config now keys).opened = spill config now keys s.opened := by
  induction keys generalizing s with
  | nil => exact ⟨rfl, rfl⟩
  | cons key keys ih =>
    have hstep : s.emplaceKey config now key = { s with
        disk := some (s.opened.insert (encodeKey config.codec (toLex (now, key))) ()) } :=
      if_neg (not_lt.2 hfull)
    rw [emplaceEach, List.foldl_cons, hstep]
    exact ih hfull

/-- A loop that stays in the batch leaves the memory and the keys for the disk that putting the
keys in one by one does. -/
theorem fillMemory_foldl
    (h : fillMemory config.maxHotKeyCount now keys s.oldestKeys = some (m, left)) :
    (s.emplaceEach config now keys).oldestKeys = m ∧
      (s.emplaceEach config now keys).opened = spill config now left s.opened := by
  induction keys generalizing s with
  | nil =>
    rw [fillMemory] at h
    split at h
    next => cases h
    next =>
      obtain ⟨rfl, rfl⟩ := Prod.mk.inj (Option.some.inj h)
      exact ⟨rfl, rfl⟩
  | cons key keys ih =>
    rw [fillMemory] at h
    split at h
    next hlt =>
      have hstep : s.emplaceKey config now key = { s with
          oldestKeys := s.oldestKeys.insert (toLex (now, key)) () } := if_pos hlt
      rw [emplaceEach, List.foldl_cons, hstep]
      exact ih h
    next hfull =>
      obtain ⟨rfl, rfl⟩ := Prod.mk.inj (Option.some.inj h)
      exact emplaceEach_full (not_lt.1 hfull)

/-- A batch that surely fits goes to the memory. -/
theorem emplaceEach_room (hroom : keys.length + s.oldestKeys.size < config.maxHotKeyCount) :
    s.emplaceEach config now keys = { s with oldestKeys := withBatch now keys s.oldestKeys } := by
  induction keys generalizing s with
  | nil => rfl
  | cons key keys ih =>
    rw [List.length_cons] at hroom
    have hinsert := s.oldestKeys.size_insert_le (toLex (now, key)) ()
    have hstep : s.emplaceKey config now key = { s with
        oldestKeys := s.oldestKeys.insert (toLex (now, key)) () } := if_pos (by omega)
    rw [emplaceEach, List.foldl_cons, hstep]
    refine ih ?_
    show keys.length + (s.oldestKeys.insert (toLex (now, key)) ()).size < _
    omega

/-! ### Batches -/

/-- **Batches are put in like their keys**, without reading behind the batch, if and only if the
batch is counted to fit below the capacity, or its keys and those in memory are at least as many
as the capacity when each is counted once. -/
theorem emplaceKeys_eq_foldl_iff (config : HybridKeyListConfig K) (now : Millis) (keys : List K)
    (s : HybridKeyList K) :
    (∃ s', s.emplaceKeys config now keys = some s' ∧
      s'.oldestKeys = (s.emplaceEach config now keys).oldestKeys ∧
      s'.opened = (s.emplaceEach config now keys).opened) ↔
    keys.length + s.oldestKeys.size < config.maxHotKeyCount ∨
      config.maxHotKeyCount ≤ (withBatch now keys s.oldestKeys).size := by
  rw [emplaceKeys]
  by_cases hroom : keys.length + s.oldestKeys.size < config.maxHotKeyCount
  · rw [if_pos hroom, emplaceEach_room hroom]
    exact iff_of_true ⟨_, rfl, rfl, rfl⟩ (.inl hroom)
  · rw [if_neg hroom]
    cases hfill : fillMemory config.maxHotKeyCount now keys s.oldestKeys with
    | none =>
      have hshort := fillMemory_eq_none_iff.1 hfill
      refine iff_of_false ?_ fun h => h.elim hroom (not_le.2 hshort)
      rintro ⟨s', hs', -⟩
      cases hs'
    | some filled =>
      have henough : config.maxHotKeyCount ≤ (withBatch now keys s.oldestKeys).size := by
        refine not_lt.1 fun hshort => ?_
        rw [fillMemory_eq_none_iff.2 hshort] at hfill
        cases hfill
      obtain ⟨hmemory, hdisk⟩ := fillMemory_foldl hfill
      exact iff_of_true ⟨_, rfl, hmemory.symm, hdisk.symm⟩ (.inr henough)

/-- A batch of the same key twice, for a memory of two keys: the second copy leaves the set as
it is, and the loop goes on behind the batch. -/
theorem emplaceKeys_duplicate :
    ({} : HybridKeyList UInt8).emplaceKeys ⟨byteCodec, 2, false⟩ (Millis.ofInt 0) [7, 7] =
      none := by
  decide

end Proton.HybridKeyList
