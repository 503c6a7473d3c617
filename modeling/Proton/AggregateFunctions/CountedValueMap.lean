import Mathlib.Data.List.Sort
import Mathlib.Data.PNat.Basic
import Proton.Lib.SortedMap

/-!
# Counted Value Maps

A `CountedValueMap` counts values and keeps the first keys of its order, up to a capacity.
The order is a parameter: the maximum variant of the source is the map over the dual order.

The module embeds the insertions and the three merges, and compares them with the tally of
all values that went in. Every operation is the first `maxSize` entries of a union
(`CountedValueMap.mergeImpl_fst`, `CountedValueMap.emplace_fst`), and those only depend on the
first entries of the two sides, so a key that was evicted never comes back.

One branch of the merge loses counts: the copying loop gives a key that is new to the target
the count `1`. `CountedValueMap.Build.all_exact_iff` says for which trees of operations every
map built on the way is exact. Whatever is lost, a value that was erased as often as it was
inserted is gone for good (`CountedValueMap.Changelog.eval_live`). That is for keys that compare: a
NaN is equivalent to every key (`CountedValueMap.nan_takes_value`).
-/

open List SortedMap

namespace Proton.Streaming

/-- A map from keys to `uint32_t` counts with a maximum capacity. -/
structure CountedValueMap (α : Type*) [LinearOrder α] where
  /-- The capacity, positive by the constructor's assertion. -/
  maxSize : ℕ+
  /-- The counted keys, in the order of the map. -/
  m : SortedMap α ℕ
deriving DecidableEq

namespace CountedValueMap

variable {α : Type*} [LinearOrder α]

/-! ### The operations of the source -/

/-- A new map with the given capacity. -/
def new (maxSize : ℕ+) : CountedValueMap α := ⟨maxSize, .empty⟩

variable (c : CountedValueMap α)

/-- `atCapacity`. -/
def atCapacity : Bool := c.m.size = c.maxSize

/-- `contains`. -/
def contains (v : α) : Bool := (c.m.find? v).isSome

/-- `less(lastValue(), v)`; the source throws on an empty map, which is never at capacity. -/
def lastBelow (m : SortedMap α ℕ) (v : α) : Bool := m.last?.any (·.1 < v)

/-- `eraseExtraElements`: the last elements are erased until the capacity is met. -/
def eraseExtraElements : CountedValueMap α :=
  { c with m := c.m.take c.maxSize }

/-- `insert(v, count)`: no effect on a key that is already there, and no capacity check. -/
def insertCount (v : α) (count : ℕ) : CountedValueMap α × Bool :=
  ({ c with m := c.m.alter v fun n => n.or (some count) }, !c.contains v)

/-- `emplace(v)`, with the count the returned iterator points to. -/
def emplace (v : α) : CountedValueMap α × Option ℕ :=
  if c.atCapacity && lastBelow c.m v then (c, none)
  else
    match c.m.find? v with
    | some n =>
      ({ c with m := c.m.alter v fun _ => some ((n + 1) % 2 ^ 32) },
        some ((n + 1) % 2 ^ 32))
    | none =>
      let c := ({ c with m := c.m.alter v fun _ => some 1 }).eraseExtraElements
      (c, c.m.find? v)

/-- `--count` on a `uint32_t`. -/
def decremented (count : ℕ) : ℕ := (count + (2 ^ 32 - 1)) % 2 ^ 32

/-- `erase(v)`: one less of the value, and the key goes with its last one. -/
def erase (v : α) : CountedValueMap α × Bool :=
  match c.m.find? v with
  | some n =>
    ({ c with
        m := c.m.alter v fun _ => if decremented n = 0 then none else some (decremented n) },
      true)
  | none => (c, false)

variable (copy : Bool)

/-- The count `doMerge` leaves at a key: a copied key that is new to the target starts at
`1`, whatever its count was. -/
def mergedCount : Option ℕ → ℕ → ℕ
  | some n, count => (n + count) % 2 ^ 32
  | none, count => if copy then 1 else count

/-- `doMerge`. -/
def doMerge (m : SortedMap α ℕ) (e : α × ℕ) : SortedMap α ℕ :=
  m.alter e.1 fun n => some (mergedCount copy n e.2)

/-- The loop of `merge` over the entries of `rhs`. -/
def mergeLoop (copy : Bool) (maxSize : ℕ) (m : SortedMap α ℕ) : List (α × ℕ) → SortedMap α ℕ
  | [] => m
  | e :: rest =>
    if m.size = maxSize && lastBelow m e.1 then m
    else mergeLoop copy maxSize (doMerge copy m e) rest

variable (lhs rhs : CountedValueMap α)

/-- Whether `rhs` replaces `lhs` because both fit one capacity, `rhs` is full, and all of it
comes first. -/
def replaces : Bool :=
  rhs.atCapacity && rhs.maxSize = lhs.maxSize &&
    lhs.m.first?.any fun first => lastBelow rhs.m first.1

/-- `merge<copy>(rhs)`: the two maps afterwards. -/
def mergeImpl (lhs rhs : CountedValueMap α) : CountedValueMap α × CountedValueMap α :=
  if rhs.m.toList = [] then (lhs, rhs)
  else if lhs.m.toList = [] then
    if copy then ({ lhs with m := rhs.m }, rhs) else (rhs, lhs)
  else if lhs.atCapacity && rhs.m.first?.any (fun first => lastBelow lhs.m first.1) then
    (lhs, rhs)
  -- the test is made twice, once for a full `lhs` and once for any
  else if replaces lhs rhs then
    if copy then ({ lhs with m := rhs.m }, rhs) else (rhs, { lhs with m := .empty })
  else
    ({ lhs with m := mergeLoop copy lhs.maxSize lhs.m rhs.m.toList }.eraseExtraElements, rhs)

/-- `merge(const CountedValueMap & rhs)`. -/
def mergeConst : CountedValueMap α :=
  (mergeImpl true lhs rhs).1

/-- `merge(CountedValueMap & rhs)`: `rhs` is empty afterwards. -/
def merge : CountedValueMap α × CountedValueMap α :=
  let merged := mergeImpl false lhs rhs
  (merged.1, { merged.2 with m := .empty })

/-- The static `merge(lhs, rhs)`, which makes the larger map the target. -/
def mergeStatic : CountedValueMap α × CountedValueMap α :=
  if rhs.m.size > lhs.m.size then merge rhs lhs else merge lhs rhs

/-! ### Every operation is a truncated union -/

variable {c lhs rhs : CountedValueMap α} {m : SortedMap α ℕ} {v : α}

/-- The map holds no more than its capacity. -/
def Fits (c : CountedValueMap α) : Prop := c.m.size ≤ c.maxSize

/-- A map that is cut off fits its capacity. -/
theorem fits_take (K : ℕ+) (m : SortedMap α ℕ) : Fits ⟨K, m.take K⟩ := by
  simp [Fits]

/-- If the last key is below a value, all keys are. -/
theorem lt_of_lastBelow (h : lastBelow m v) : ∀ k ∈ m.keys, k < v := by
  intro k hk
  obtain ⟨e, he, hlt⟩ := (Option.any_eq_true _ _).1 h
  exact (m.le_last? he hk).trans_lt (by simpa using hlt)

/-- The loop stops early only when the rest of the entries is beyond the capacity. -/
theorem take_mergeLoop (maxSize : ℕ) (m : SortedMap α ℕ) {l : List (α × ℕ)}
    (h : l.Pairwise fun a b => a.1 < b.1) :
    (mergeLoop copy maxSize m l).take maxSize =
      (m.unionWith (mergedCount copy) ⟨l, h⟩).take maxSize := by
  induction l generalizing m with
  | nil => rfl
  | cons e l ih =>
    obtain ⟨hhead, htail⟩ := pairwise_cons.1 h
    rw [mergeLoop]
    split_ifs with hstop
    · obtain ⟨hsize, hlast⟩ : m.size = maxSize ∧ lastBelow m e.1 := by simpa using hstop
      refine (take_unionWith_of_above hsize.ge fun j hj k hk => ?_).symm
      obtain ⟨x, hx, rfl⟩ : ∃ x ∈ e :: l, x.1 = k := mem_map.1 (mem_toFinset.1 hk)
      rcases mem_cons.1 hx with rfl | hx
      · exact lt_of_lastBelow hlast j hj
      · exact (lt_of_lastBelow hlast j hj).trans (hhead x hx)
    · exact ih (doMerge copy m e) htail

/-- Whether `merge` takes over the entries of `rhs` as they are. -/
def clones (lhs rhs : CountedValueMap α) : Bool :=
  lhs.m.toList = [] || replaces lhs rhs

/-- An empty target takes over all counts. -/
theorem unionWith_empty_left {g : Option ℕ → ℕ → ℕ} (hg : ∀ n, g none n = n) :
    empty.unionWith g m = m :=
  ext_find? fun k => by
    rw [find?_unionWith]
    cases m.find? k <;> simp [hg]

/-- When counts are added on both sides, a union does not depend on its target. -/
theorem unionWith_comm (a b : SortedMap α ℕ) :
    a.unionWith (mergedCount false) b = b.unionWith (mergedCount false) a :=
  ext_find? fun k => by
    rw [find?_unionWith, find?_unionWith]
    cases a.find? k <;> cases b.find? k <;> simp [mergedCount, add_comm]

/-- A map that replaces the target is full, and all of it comes first. -/
theorem lt_of_replaces (h : replaces lhs rhs) :
    rhs.m.size = lhs.maxSize ∧ ∀ j ∈ rhs.m.keys, ∀ k ∈ lhs.m.keys, j < k := by
  simp only [replaces, atCapacity, Bool.and_eq_true, decide_eq_true_eq] at h
  obtain ⟨⟨hfull, hcap⟩, hfirst⟩ := h
  obtain ⟨e, he, hlast⟩ := (Option.any_eq_true _ _).1 hfirst
  exact ⟨hcap ▸ hfull, fun j hj k hk =>
    (lt_of_lastBelow hlast j hj).trans_le (first?_le he hk)⟩

/-- A map that replaces the target is copied with its counts. -/
theorem clones_of_replaces (h : replaces lhs rhs) : clones lhs rhs := by
  rw [clones, h, Bool.or_true]

/-- A map that is taken over is what the union would leave. -/
theorem take_of_clones {copy : Bool} (hcap : rhs.maxSize = lhs.maxSize) (hr : rhs.Fits)
    (h : clones lhs rhs) :
    (lhs.m.unionWith (mergedCount (copy && !clones lhs rhs)) rhs.m).take lhs.maxSize = rhs.m := by
  rw [h, Bool.not_true, Bool.and_false]
  rcases Bool.or_eq_true_iff.1 h with hempty | hreplaces
  · have hnil : lhs.m = .empty := toList_inj.1 (by simpa using hempty)
    rw [hnil, unionWith_empty_left fun _ => rfl, take_of_size_le (hcap ▸ hr)]
  · obtain ⟨hsize, hbelow⟩ := lt_of_replaces hreplaces
    -- what is added from below a full map replaces it
    rw [unionWith_comm, take_unionWith_of_above hsize.ge hbelow, take_of_size_le hsize.le]

/-- **The merge**: the first `maxSize` entries of a union, in which the new keys lose their
counts when the copying loop adds them. -/
theorem mergeImpl_fst (hcap : rhs.maxSize = lhs.maxSize) (hl : lhs.Fits)
    (hr : rhs.Fits) :
    (mergeImpl copy lhs rhs).1 = { lhs with
      m := (lhs.m.unionWith (mergedCount (copy && !clones lhs rhs)) rhs.m).take
        lhs.maxSize } := by
  have hcloned (hclones : clones lhs rhs) : (lhs.m.unionWith
      (mergedCount (copy && !clones lhs rhs)) rhs.m).take lhs.maxSize = rhs.m :=
    take_of_clones hcap hr hclones
  rw [mergeImpl]
  split_ifs with hrhs hlhs hcopy habove hreplaces hcopy
  · -- nothing to merge
    rw [show rhs.m = .empty from toList_inj.1 hrhs]
    exact congrArg (mk lhs.maxSize) (take_of_size_le hl).symm
  · -- an empty target takes the entries over
    rw [hcloned (by simp [clones, hlhs])]
  · rw [hcloned (by simp [clones, hlhs]), ← hcap]
  · -- a full target with all its keys first stays as it is
    obtain ⟨hfull, hfirst⟩ := Bool.and_eq_true_iff.1 habove
    obtain ⟨e, he, hlast⟩ := (Option.any_eq_true _ _).1 hfirst
    rw [take_unionWith_of_above (of_decide_eq_true hfull).ge
      fun j hj k hk => (lt_of_lastBelow hlast j hj).trans_le (first?_le he hk),
      take_of_size_le hl]
  · rw [hcloned (clones_of_replaces hreplaces)]
  · rw [hcloned (clones_of_replaces hreplaces), ← hcap]
  · have hloops : clones lhs rhs = false := by simpa [clones, hlhs] using hreplaces
    rw [eraseExtraElements, take_mergeLoop copy lhs.maxSize lhs.m rhs.m.sorted, hloops,
      Bool.not_false, Bool.and_true]

/-- The map `emplace` leaves before the capacity is looked at. -/
def counted (m : SortedMap α ℕ) (v : α) : SortedMap α ℕ :=
  m.alter v fun n => some (mergedCount false n 1)

/-- What is found after a value was counted. -/
theorem find?_counted {k : α} : (counted m v).find? k =
    if k = v then some (mergedCount false (m.find? v) 1) else m.find? k :=
  find?_alter

/-- Any update that leaves the next count counts the value. -/
theorem alter_eq_counted {f : Option ℕ → Option ℕ}
    (h : f (m.find? v) = some (mergedCount false (m.find? v) 1)) : m.alter v f = counted m v :=
  ext_find? fun k => by rw [find?_counted, find?_alter, h]

/-- `emplace` adds one value. -/
theorem emplace_fst (hc : c.Fits) :
    (c.emplace v).1 = { c with m := (counted c.m v).take c.maxSize } := by
  rw [emplace]
  split_ifs with hreject
  · obtain ⟨hfull, hlast⟩ := Bool.and_eq_true_iff.1 hreject
    have habove : (counted c.m v).take c.maxSize = c.m.take c.maxSize := by
      refine take_unionWith_of_above (b := ⟨[(v, 1)], pairwise_singleton _ _⟩)
        (of_decide_eq_true hfull).ge fun j hj k hk => ?_
      obtain rfl : k = v := by simpa [SortedMap.keys] using hk
      exact lt_of_lastBelow hlast j hj
    rw [habove, take_of_size_le hc]
  · split
    next n hfind =>
      have hkeys : (counted c.m v).keys = c.m.keys := by
        rw [counted, keys_alter_some rfl, Finset.insert_eq_of_mem (mem_keys.2 (by rw [hfind]; rfl))]
      have hsize : (counted c.m v).size ≤ c.maxSize := by
        rw [← card_keys, hkeys, card_keys]
        exact hc
      rw [take_of_size_le hsize, alter_eq_counted (by rw [hfind]; rfl)]
    next hfind =>
      rw [eraseExtraElements, alter_eq_counted (by rw [hfind]; rfl)]

/-! ### Below the capacity -/

/-- Below the capacity, `emplace` counts the value. -/
theorem emplace_of_lt (h : c.m.size < c.maxSize) :
    c.emplace v = ({ c with m := counted c.m v }, (counted c.m v).find? v) := by
  have hsize : (counted c.m v).size ≤ c.maxSize := (size_alter_le rfl).trans h
  have hcapacity : c.atCapacity = false := by simpa [atCapacity] using h.ne
  have hself : (counted c.m v).find? v = some (mergedCount false (c.m.find? v) 1) := by
    rw [find?_counted, if_pos rfl]
  rw [emplace, hcapacity, Bool.false_and, if_neg Bool.false_ne_true]
  split
  next n hfind =>
    rw [alter_eq_counted (by rw [hfind]; rfl), hself, hfind]
    rfl
  next hfind =>
    rw [eraseExtraElements, alter_eq_counted (by rw [hfind]; rfl), take_of_size_le hsize]

/-- What `erase` leaves of a key that is there. -/
theorem erase_of_some {n : ℕ} (h : c.m.find? v = some n) : (c.erase v).1 = { c with
    m := c.m.alter v fun _ => if decremented n = 0 then none else some (decremented n) } := by
  rw [erase, h]

/-- The keys after `insert(v, count)`. -/
theorem insertCount_keys (count : ℕ) : (c.insertCount v count).1.m.keys = insert v c.m.keys :=
  keys_alter_some (by cases c.m.find? v <;> rfl)

/-- A copying merge below the capacity has the keys of both maps. -/
theorem mergeConst_keys (hcap : rhs.maxSize = lhs.maxSize)
    (hsize : lhs.m.size + rhs.m.size ≤ lhs.maxSize) :
    (lhs.mergeConst rhs).maxSize = lhs.maxSize ∧
      (lhs.mergeConst rhs).m.keys = lhs.m.keys ∪ rhs.m.keys := by
  have hl : lhs.Fits := (Nat.le_add_right _ _).trans hsize
  have hr : rhs.Fits := by
    rw [Fits, hcap]
    exact (Nat.le_add_left _ _).trans hsize
  rw [mergeConst, mergeImpl_fst true hcap hl hr, take_of_size_le (size_unionWith_le.trans hsize)]
  exact ⟨rfl, keys_unionWith⟩

/-! ### The tally -/

/-- All values counted, without a capacity. -/
def tally (values : List α) : SortedMap α ℕ := values.foldl counted .empty

/-- One more value is counted in the tally. -/
theorem tally_concat (values : List α) (v : α) :
    tally (values ++ [v]) = counted (tally values) v := by
  rw [tally, foldl_append]
  rfl

/-- The tally holds the multiplicities, in `uint32_t`. -/
theorem find?_tally (values : List α) (k : α) :
    (tally values).find? k = if k ∈ values then some (values.count k % 2 ^ 32) else none := by
  induction values using reverseRecOn with
  | nil => rfl
  | append_singleton values v ih =>
    rw [tally_concat, find?_counted]
    by_cases hk : k = v
    · subst hk
      by_cases hin : k ∈ values
      · simp [ih, hin, mergedCount]
      · simp [ih, hin, mergedCount, count_eq_zero_of_not_mem hin]
    · simp [ih, hk, Ne.symm hk]

/-- The tally of two lists of values is the union of their tallies. -/
theorem tally_append (vs ws : List α) :
    tally (vs ++ ws) = (tally vs).unionWith (mergedCount false) (tally ws) := by
  refine ext_find? fun k => ?_
  rw [find?_unionWith, find?_tally, find?_tally, find?_tally]
  by_cases hv : k ∈ vs <;> by_cases hw : k ∈ ws
  · simp [hv, hw, mergedCount]
  · simp [hw, count_eq_zero_of_not_mem hw]
  · simp [hv, mergedCount, count_eq_zero_of_not_mem hv]
  · simp [hv, hw]

/-- The specification: the first `K` distinct values, each with its multiplicity. -/
def bestKeys (K : ℕ) (values : List α) : List (α × ℕ) :=
  ((values.dedup.insertionSort (· ≤ ·)).take K).map fun k => (k, values.count k)

/-- The tally lists the distinct values in order, with their multiplicities. -/
theorem tally_toList (values : List α) :
    (tally values).toList = (values.dedup.insertionSort (· ≤ ·)).map fun k =>
      (k, values.count k % 2 ^ 32) := by
  have hsorted : ((values.dedup.insertionSort (· ≤ ·)).map fun k =>
      (k, values.count k % 2 ^ 32)).Pairwise fun a b => a.1 < b.1 := by
    have hnodup : (values.dedup.insertionSort (· ≤ ·)).Nodup :=
      (perm_insertionSort _ _).nodup_iff.2 values.nodup_dedup
    exact pairwise_map.2 ((pairwise_insertionSort _ _).imp₂
      (fun _ _ hle hne => lt_of_le_of_ne hle hne) hnodup)
  have heq : tally values = ⟨_, hsorted⟩ := ext_find? fun k => Option.ext fun n => by
    rw [find?_eq_some (m := ⟨_, hsorted⟩), find?_tally]
    simp only [mem_map, mem_insertionSort, mem_dedup, Prod.mk.injEq]
    constructor
    · intro h
      obtain ⟨hk, rfl⟩ : k ∈ values ∧ values.count k % 2 ^ 32 = n := by simpa using h
      exact ⟨k, hk, rfl, rfl⟩
    · rintro ⟨_, hk, rfl, rfl⟩
      rw [if_pos hk]
  rw [heq]

/-- The first entries of the tally are the specified ones while the multiplicities fit the
counter. -/
theorem tally_take_toList_eq_iff (K : ℕ) (values : List α) :
    ((tally values).take K).toList = bestKeys K values ↔
      ∀ k ∈ (values.dedup.insertionSort (· ≤ ·)).take K, values.count k < 2 ^ 32 := by
  rw [toList_take, bestKeys, tally_toList, ← map_take, map_inj_left]
  refine forall₂_congr fun k _ => ?_
  rw [Prod.mk.injEq, and_iff_right rfl]
  exact Nat.mod_eq_iff_lt (by decide)

/-! ### Counts -/

/-- The stored counts are `uint32_t`. -/
def CountsFit (m : SortedMap α ℕ) : Prop := ∀ k n, m.find? k = some n → n < 2 ^ 32

/-- Counts still fit after a merge. -/
theorem CountsFit.take_unionWith {a b : SortedMap α ℕ} {copy : Bool} {n : ℕ} (ha : CountsFit a)
    (hb : CountsFit b) : CountsFit ((a.unionWith (mergedCount copy) b).take n) := by
  intro k c h
  rw [find?_take] at h
  split_ifs at h
  rw [find?_unionWith] at h
  cases hbk : b.find? k with
  | none => exact ha k c (by simpa [hbk] using h)
  | some d =>
    obtain rfl : mergedCount copy (a.find? k) d = c := by simpa [hbk] using h
    cases a.find? k with
    | some n => exact Nat.mod_lt _ (by decide)
    | none =>
      simp only [mergedCount]
      split_ifs
      · decide
      · exact hb k d hbk

/-- A copying merge keeps the counts: it takes `rhs` over, or each key of `rhs` is in the
target already, was counted once, or is beyond the capacity. -/
def CopyKeepsCounts (lhs rhs : CountedValueMap α) : Prop :=
  clones lhs rhs ∨ ∀ e ∈ rhs.m.toList, e.1 ∈ lhs.m.keys ∨ e.2 = 1 ∨
    lhs.maxSize ≤ ((lhs.m.keys ∪ rhs.m.keys).filter (· < e.1)).card

/-- The copying loop agrees with the moving one exactly when it keeps the counts. -/
theorem take_unionWith_copy_iff (a b : SortedMap α ℕ) (n : ℕ) :
    (a.unionWith (mergedCount true) b).take n = (a.unionWith (mergedCount false) b).take n ↔
      ∀ e ∈ b.toList, e.1 ∈ a.keys ∨ e.2 = 1 ∨
        n ≤ ((a.keys ∪ b.keys).filter (· < e.1)).card := by
  have hrank (copy : Bool) (k : α) : (a.unionWith (mergedCount copy) b).rank k =
      ((a.keys ∪ b.keys).filter (· < k)).card := by
    rw [rank, keys_unionWith]
  constructor
  · intro heq e he
    by_contra! hnot
    obtain ⟨hnew, hcount, hlt⟩ := hnot
    have hfind := congrArg (find? · e.1) heq
    simp only [find?_take, hrank, hlt, find?_unionWith,
      find?_eq_none.2 hnew, find?_eq_some.2 he] at hfind
    exact hcount (by simpa [mergedCount] using hfind.symm)
  · intro h
    refine ext_find? fun k => ?_
    rw [find?_take, find?_take, hrank, hrank]
    split_ifs with hlt
    · rw [find?_unionWith, find?_unionWith]
      cases ha : a.find? k with
      | some n => rfl
      | none =>
        cases hb : b.find? k with
        | none => rfl
        | some d =>
          have hkept := h _ (find?_eq_some.1 hb)
          obtain rfl : d = 1 := by
            rcases hkept with hin | hone | hge
            · exact absurd hin (find?_eq_none.1 ha)
            · exact hone
            · exact absurd hlt (by simpa using hge)
          rfl
    · rfl

/-! ### Trees of operations -/

/-- How a map was built: by inserting values and merging maps. -/
inductive Build (α : Type*)
  | new
  | insert (t : Build α) (v : α)
  | mergeConst (lhs rhs : Build α)
  | merge (lhs rhs : Build α)
  | mergeStatic (lhs rhs : Build α)

namespace Build

variable {K : ℕ+} {t : Build α}

/-- The map that is built with the capacity `K`. -/
def eval (K : ℕ+) : Build α → CountedValueMap α
  | new => .new K
  | insert t v => ((t.eval K).emplace v).1
  | mergeConst lhs rhs => (lhs.eval K).mergeConst (rhs.eval K)
  | merge lhs rhs => ((lhs.eval K).merge (rhs.eval K)).1
  | mergeStatic lhs rhs => ((lhs.eval K).mergeStatic (rhs.eval K)).1

/-- The values inserted anywhere in the tree. -/
def values : Build α → List α
  | new => []
  | insert t v => t.values ++ [v]
  | mergeConst lhs rhs => lhs.values ++ rhs.values
  | merge lhs rhs => lhs.values ++ rhs.values
  | mergeStatic lhs rhs => lhs.values ++ rhs.values

/-- A property of a tree and of all trees it was built from. -/
def All (P : Build α → Prop) : Build α → Prop
  | new => P new
  | insert t v => t.All P ∧ P (insert t v)
  | mergeConst lhs rhs => lhs.All P ∧ rhs.All P ∧ P (mergeConst lhs rhs)
  | merge lhs rhs => lhs.All P ∧ rhs.All P ∧ P (merge lhs rhs)
  | mergeStatic lhs rhs => lhs.All P ∧ rhs.All P ∧ P (mergeStatic lhs rhs)

omit [LinearOrder α] in
/-- What holds of all maps built on the way holds of the last one. -/
theorem All.root {P : Build α → Prop} (h : t.All P) : P t := by
  cases t with
  | new => exact h
  | insert => exact h.2
  | mergeConst => exact h.2.2
  | merge => exact h.2.2
  | mergeStatic => exact h.2.2

/-! ### What each operation leaves -/

/-- Every map of a tree has the capacity and keeps to it. -/
theorem eval_fits (K : ℕ+) (t : Build α) : (t.eval K).maxSize = K ∧ (t.eval K).Fits := by
  have hmerge : ∀ (copy : Bool) {a b : CountedValueMap α}, a.maxSize = K ∧ a.Fits →
      b.maxSize = K ∧ b.Fits →
      (mergeImpl copy a b).1.maxSize = K ∧ (mergeImpl copy a b).1.Fits := by
    rintro copy a b ⟨rfl, ha⟩ ⟨hcap, hb⟩
    rw [mergeImpl_fst copy hcap ha hb]
    exact ⟨rfl, fits_take _ _⟩
  induction t with
  | new => exact ⟨rfl, Nat.zero_le _⟩
  | insert t v ih =>
    rw [eval, emplace_fst ih.2]
    exact ⟨ih.1, fits_take _ _⟩
  | mergeConst lhs rhs ihl ihr => exact hmerge true ihl ihr
  | merge lhs rhs ihl ihr => exact hmerge false ihl ihr
  | mergeStatic lhs rhs ihl ihr =>
    rw [eval, CountedValueMap.mergeStatic]
    split_ifs
    · exact hmerge false ihr ihl
    · exact hmerge false ihl ihr

/-- An insertion, as a truncated union. -/
theorem eval_insert_m (K : ℕ+) (t : Build α) (v : α) :
    ((insert t v).eval K).m = (counted (t.eval K).m v).take K := by
  rw [eval, emplace_fst (t.eval_fits K).2, (t.eval_fits K).1]

/-- Either merge, as a truncated union. -/
theorem mergeImpl_eval_m (copy : Bool) (K : ℕ+) (lhs rhs : Build α) :
    (mergeImpl copy (lhs.eval K) (rhs.eval K)).1.m = ((lhs.eval K).m.unionWith
      (mergedCount (copy && !clones (lhs.eval K) (rhs.eval K))) (rhs.eval K).m).take K := by
  obtain ⟨hcap, hl⟩ := lhs.eval_fits K
  obtain ⟨hcap', hr⟩ := rhs.eval_fits K
  rw [mergeImpl_fst copy (hcap'.trans hcap.symm) hl hr, hcap]

/-- The moving merge, as a truncated union. -/
theorem eval_merge_m (K : ℕ+) (lhs rhs : Build α) : ((merge lhs rhs).eval K).m =
    ((lhs.eval K).m.unionWith (mergedCount false) (rhs.eval K).m).take K :=
  mergeImpl_eval_m false K lhs rhs

/-- The static merge is the moving one, in either order. -/
theorem eval_mergeStatic_m (K : ℕ+) (lhs rhs : Build α) : ((mergeStatic lhs rhs).eval K).m =
    ((lhs.eval K).m.unionWith (mergedCount false) (rhs.eval K).m).take K := by
  rw [eval, CountedValueMap.mergeStatic]
  split_ifs
  · rw [unionWith_comm]
    exact eval_merge_m K rhs lhs
  · exact eval_merge_m K lhs rhs

/-- The copying merge, as a truncated union. -/
theorem eval_mergeConst_m (K : ℕ+) (lhs rhs : Build α) : ((mergeConst lhs rhs).eval K).m =
    ((lhs.eval K).m.unionWith (mergedCount (!clones (lhs.eval K) (rhs.eval K)))
      (rhs.eval K).m).take K :=
  mergeImpl_eval_m true K lhs rhs

/-- The stored counts are `uint32_t`. -/
theorem countsFit_eval (K : ℕ+) (t : Build α) : CountsFit (t.eval K).m := by
  induction t with
  | new => exact fun k n h => by cases h
  | insert t v ih =>
    rw [eval_insert_m]
    refine ih.take_unionWith (b := ⟨[(v, 1)], pairwise_singleton _ _⟩) fun k n h => ?_
    obtain ⟨-, rfl⟩ : k = v ∧ n = 1 := by simpa [find?_eq_some] using h
    decide
  | mergeConst lhs rhs ihl ihr => exact eval_mergeConst_m K lhs rhs ▸ ihl.take_unionWith ihr
  | merge lhs rhs ihl ihr => exact eval_merge_m K lhs rhs ▸ ihl.take_unionWith ihr
  | mergeStatic lhs rhs ihl ihr =>
    exact eval_mergeStatic_m K lhs rhs ▸ ihl.take_unionWith ihr

/-! ### Exactness -/

/-- The map holds the first `K` distinct values with their multiplicities. -/
def Exact (K : ℕ+) (t : Build α) : Prop :=
  (t.eval K).m.toList = bestKeys K t.values
deriving Decidable

/-- The multiplicities of the kept values fit the `uint32_t` counter. -/
def MultiplicitiesFit (K : ℕ+) (t : Build α) : Prop :=
  ∀ k ∈ (t.values.dedup.insertionSort (· ≤ ·)).take K, t.values.count k < 2 ^ 32

/-- A copying merge meets `CopyKeepsCounts`. -/
def CopiesKeepCounts (K : ℕ+) : Build α → Prop
  | new => True
  | insert _ _ => True
  | mergeConst lhs rhs => CopyKeepsCounts (lhs.eval K) (rhs.eval K)
  | merge _ _ => True
  | mergeStatic _ _ => True

/-- A map is exact when it is the truncated tally and the multiplicities fit. -/
theorem exact_iff : t.Exact K ↔ (t.eval K).m = (tally t.values).take K ∧ t.MultiplicitiesFit K := by
  rw [← toList_inj]
  constructor
  · intro h
    have hfit : ∀ k ∈ (t.values.dedup.insertionSort (· ≤ ·)).take K,
        t.values.count k < 2 ^ 32 := fun k hk => by
      have hmem : (k, t.values.count k) ∈ (t.eval K).m.toList :=
        h ▸ mem_map_of_mem (f := fun k => (k, t.values.count k)) hk
      exact countsFit_eval K t _ _ (find?_eq_some.2 hmem)
    exact ⟨h.trans ((tally_take_toList_eq_iff K t.values).2 hfit).symm, hfit⟩
  · rintro ⟨heq, hfit⟩
    exact heq.trans ((tally_take_toList_eq_iff K t.values).2 hfit)

/-- An insertion into a map that agrees with its tally. -/
theorem eval_insert_tally {v : α} (h : (t.eval K).m = (tally t.values).take K) :
    ((insert t v).eval K).m = (tally (insert t v).values).take K := by
  have htake := take_unionWith_take (g := mergedCount false) (n := K)
    (a := tally t.values) (b := ⟨[(v, 1)], pairwise_singleton _ _⟩)
  rw [take_of_size_le (m := ⟨[(v, 1)], pairwise_singleton _ _⟩) K.pos] at htake
  rw [eval_insert_m, h, values, tally_concat]
  exact htake

/-- The moving merge of two maps that agree with their tallies. -/
theorem eval_merge_tally {lhs rhs : Build α} (hl : (lhs.eval K).m = (tally lhs.values).take K)
    (hr : (rhs.eval K).m = (tally rhs.values).take K) :
    ((lhs.eval K).m.unionWith (mergedCount false) (rhs.eval K).m).take K =
      (tally (lhs.values ++ rhs.values)).take K := by
  rw [hl, hr, take_unionWith_take, tally_append]

/-- A copying merge of truncated tallies is the truncated tally exactly when it keeps the
counts. -/
theorem eval_mergeConst_tally_iff {lhs rhs : Build α}
    (hl : (lhs.eval K).m = (tally lhs.values).take K)
    (hr : (rhs.eval K).m = (tally rhs.values).take K) :
    ((mergeConst lhs rhs).eval K).m = (tally (mergeConst lhs rhs).values).take K ↔
      CopyKeepsCounts (lhs.eval K) (rhs.eval K) := by
  rw [eval_mergeConst_m, values, ← eval_merge_tally hl hr, CopyKeepsCounts]
  cases clones (lhs.eval K) (rhs.eval K) with
  | true => simp
  | false => simpa [(lhs.eval_fits K).1] using take_unionWith_copy_iff _ _ K

/-- A map that agrees with its tally is exact if the multiplicities fit. -/
theorem exact_iff_of_tally (h : (t.eval K).m = (tally t.values).take K)
    (hcopies : t.CopiesKeepCounts K) :
    t.Exact K ↔ t.MultiplicitiesFit K ∧ t.CopiesKeepCounts K := by
  rw [exact_iff, and_iff_right h, and_iff_left hcopies]

/-- **The first keys, exactly.** Every map of a tree of operations holds the first `K`
distinct values with their multiplicities, if and only if these multiplicities fit the
counter and every copying merge keeps the counts. -/
theorem all_exact_iff (K : ℕ+) (t : Build α) :
    t.All (Exact K) ↔ t.All fun s => s.MultiplicitiesFit K ∧ s.CopiesKeepCounts K := by
  induction t with
  | new => exact exact_iff_of_tally (toList_inj.1 take_nil.symm) trivial
  | insert t v ih =>
    rw [All, ih]
    refine and_congr_right fun ht => exact_iff_of_tally ?_ trivial
    exact eval_insert_tally (exact_iff.1 (ih.2 ht).root).1
  | mergeConst lhs rhs ihl ihr =>
    rw [All, All, ihl, ihr]
    refine and_congr_right fun hl => and_congr_right fun hr => ?_
    rw [exact_iff, eval_mergeConst_tally_iff (exact_iff.1 (ihl.2 hl).root).1
      (exact_iff.1 (ihr.2 hr).root).1, CopiesKeepCounts, and_comm]
  | merge lhs rhs ihl ihr =>
    rw [All, ihl, ihr]
    refine and_congr_right fun hl => and_congr_right fun hr => exact_iff_of_tally ?_ trivial
    exact (eval_merge_m K lhs rhs).trans
      (eval_merge_tally (exact_iff.1 (ihl.2 hl).root).1 (exact_iff.1 (ihr.2 hr).root).1)
  | mergeStatic lhs rhs ihl ihr =>
    rw [All, ihl, ihr]
    refine and_congr_right fun hl => and_congr_right fun hr => exact_iff_of_tally ?_ trivial
    exact (eval_mergeStatic_m K lhs rhs).trans
      (eval_merge_tally (exact_iff.1 (ihl.2 hl).root).1 (exact_iff.1 (ihr.2 hr).root).1)

/-- A key counted twice that is copied into a map without it is counted once. -/
theorem copied_count_lost : ¬ (mergeConst (insert new 1) (insert (insert new 2) 2)).Exact
    (α := ℕ) 2 := by
  decide

end Build

/-! ### Retractions -/

/-- `firstValue`, which `min` and `max` report; `min_k` and `max_k` report the first entries. -/
def firstValue (c : CountedValueMap α) : Option α := c.m.first?.map (·.1)

/-- The counts stand for positive numbers up to a bound, in `uint32_t`. -/
def Bounded (m : SortedMap α ℕ) (bound : α → ℕ) : Prop :=
  ∀ k n, m.find? k = some n → ∃ count, 0 < count ∧ count ≤ bound k ∧ count % 2 ^ 32 = n

namespace Bounded

variable {a b : SortedMap α ℕ} {f g : α → ℕ}

/-- Larger multiplicities bound the same map. -/
theorem mono (h : Bounded a f) (hle : ∀ k, f k ≤ g k) : Bounded a g := by
  intro k n hn
  obtain ⟨count, hpos, hcount, hmod⟩ := h k n hn
  exact ⟨count, hpos, hcount.trans (hle k), hmod⟩

/-- Entries that are cut off do no harm. -/
theorem take (h : Bounded a f) (n : ℕ) : Bounded (a.take n) f := by
  intro k n hn
  rw [find?_take] at hn
  split_ifs at hn
  exact h k n hn

/-- Bounds add up in a union. -/
theorem unionWith (copy : Bool) (ha : Bounded a f) (hb : Bounded b g) :
    Bounded (a.unionWith (mergedCount copy) b) fun k => f k + g k := by
  intro k n hn
  rw [find?_unionWith] at hn
  cases hbk : b.find? k with
  | none => exact ha.mono (fun k => Nat.le_add_right _ (g k)) k n (by simpa [hbk] using hn)
  | some d =>
    obtain ⟨count, hpos, hcount, rfl⟩ := hb k d hbk
    obtain rfl : mergedCount copy (a.find? k) (count % 2 ^ 32) = n := by simpa [hbk] using hn
    cases hak : a.find? k with
    | some e =>
      obtain ⟨count', hpos', hcount', rfl⟩ := ha k e hak
      exact ⟨count' + count, by omega, Nat.add_le_add hcount' hcount, Nat.add_mod _ _ _⟩
    | none =>
      rw [mergedCount]
      split_ifs
      · exact ⟨1, one_pos, (hpos.trans_le hcount).trans_le (Nat.le_add_left _ _), rfl⟩
      · exact ⟨count, hpos, hcount.trans (Nat.le_add_left _ _), rfl⟩

/-- One more of a value. -/
theorem counted (h : Bounded a f) (v : α) :
    Bounded (counted a v) fun k => f k + if k = v then 1 else 0 := by
  refine h.unionWith (b := ⟨[(v, 1)], pairwise_singleton _ _⟩) false fun k n hn => ?_
  obtain ⟨rfl, rfl⟩ : k = v ∧ n = 1 := by simpa [find?_eq_some] using hn
  exact ⟨1, one_pos, (if_pos rfl).ge, rfl⟩

/-- An insertion raises the bound of its value. -/
theorem emplace (h : Bounded c.m f) (v : α) :
    Bounded (c.emplace v).1.m fun k => f k + if k = v then 1 else 0 := by
  rw [CountedValueMap.emplace]
  split_ifs
  · exact h.mono fun k => Nat.le_add_right _ _
  · split
    next n hfind =>
      rw [alter_eq_counted (by rw [hfind]; rfl)]
      exact h.counted v
    next hfind =>
      rw [eraseExtraElements, alter_eq_counted (by rw [hfind]; rfl)]
      exact (h.counted v).take _

/-- An erasure lowers the bound of its value. -/
theorem erase {s : Multiset α} (h : Bounded c.m fun k => s.count k) (v : α) :
    Bounded (c.erase v).1.m fun k => (s.erase v).count k := by
  intro k n hn
  by_cases hk : k = v
  · subst hk
    cases hfind : c.m.find? k with
    | none => simp [CountedValueMap.erase, hfind] at hn
    | some d =>
      obtain ⟨count, hpos, hcount, rfl⟩ := h k d hfind
      rw [erase_of_some hfind, find?_alter, if_pos rfl] at hn
      split_ifs at hn with hzero
      obtain rfl := Option.some.inj hn
      rw [decremented] at hzero ⊢
      refine ⟨count - 1, by omega, ?_, by omega⟩
      simpa only [Multiset.count_erase_self] using Nat.sub_le_sub_right hcount 1
  · have hother : (c.erase v).1.m.find? k = c.m.find? k := by
      cases hfind : c.m.find? v with
      | none => rw [CountedValueMap.erase, hfind]
      | some d => rw [erase_of_some hfind, find?_alter, if_neg hk]
    simp only [Multiset.count_erase_of_ne hk]
    exact h k n (hother ▸ hn)

/-- Bounds add up in a merge. -/
theorem mergeImpl (copy : Bool) (hl : Bounded lhs.m f) (hr : Bounded rhs.m g) :
    Bounded (mergeImpl copy lhs rhs).1.m fun k => f k + g k := by
  have hleft := hl.mono fun k => Nat.le_add_right (f k) (g k)
  have hright := hr.mono fun k => Nat.le_add_left (g k) (f k)
  rw [CountedValueMap.mergeImpl]
  split_ifs
  · exact hleft
  · exact hright
  · exact hright
  · exact hleft
  · exact hright
  · exact hright
  · rw [eraseExtraElements, take_mergeLoop copy lhs.maxSize lhs.m rhs.m.sorted]
    exact (hl.unionWith copy hr).take _

end Bounded

/-- How a map came about: by inserting and erasing values and merging maps. -/
inductive Changelog (α : Type*)
  | new (maxSize : ℕ+)
  | insert (t : Changelog α) (v : α)
  | erase (t : Changelog α) (v : α)
  | mergeConst (lhs rhs : Changelog α)
  | merge (lhs rhs : Changelog α)
  | mergeStatic (lhs rhs : Changelog α)

namespace Changelog

/-- The map that results. -/
def eval : Changelog α → CountedValueMap α
  | new maxSize => .new maxSize
  | insert t v => (t.eval.emplace v).1
  | erase t v => (t.eval.erase v).1
  | mergeConst lhs rhs => lhs.eval.mergeConst rhs.eval
  | merge lhs rhs => (lhs.eval.merge rhs.eval).1
  | mergeStatic lhs rhs => (lhs.eval.mergeStatic rhs.eval).1

/-- The live values, each as often as it was inserted more than it was erased, over all that was
merged. Erasing a value that is not live has no effect. -/
def live : Changelog α → Multiset α
  | new _ => 0
  | insert t v => v ::ₘ t.live
  | erase t v => t.live.erase v
  | mergeConst lhs rhs => lhs.live + rhs.live
  | merge lhs rhs => lhs.live + rhs.live
  | mergeStatic lhs rhs => lhs.live + rhs.live

/-- **Every count is bounded** by the multiplicity, by induction on the changelog. -/
theorem bounded_eval (t : Changelog α) : Bounded t.eval.m fun k => t.live.count k := by
  induction t with
  | new maxSize => exact nofun
  | insert t v ih =>
    simp only [live, Multiset.count_cons]
    exact ih.emplace v
  | erase t v ih => exact ih.erase v
  | mergeConst lhs rhs ihl ihr =>
    simp only [live, Multiset.count_add]
    exact ihl.mergeImpl true ihr
  | merge lhs rhs ihl ihr =>
    simp only [live, Multiset.count_add]
    exact ihl.mergeImpl false ihr
  | mergeStatic lhs rhs ihl ihr =>
    rw [eval, CountedValueMap.mergeStatic]
    simp only [live, Multiset.count_add]
    split_ifs
    · simp only [add_comm (lhs.live.count _)]
      exact ihr.mergeImpl false ihl
    · exact ihl.mergeImpl false ihr

/-- **Retracted values never come back**: every key of a map is live, its count is at most its
multiplicity, and so the first value is live. -/
theorem eval_live (t : Changelog α) :
    (∀ k n, t.eval.m.find? k = some n → k ∈ t.live ∧ n ≤ t.live.count k) ∧
      ∀ v ∈ t.eval.firstValue, v ∈ t.live := by
  have hall : ∀ k n, t.eval.m.find? k = some n → k ∈ t.live ∧ n ≤ t.live.count k := by
    intro k n hn
    obtain ⟨count, hpos, hcount, rfl⟩ := t.bounded_eval k n hn
    exact ⟨Multiset.count_pos.1 (hpos.trans_le hcount), (Nat.mod_le _ _).trans hcount⟩
  refine ⟨hall, fun v hv => ?_⟩
  obtain ⟨e, he, rfl⟩ := Option.map_eq_some_iff.1 hv
  exact (hall e.1 e.2 (find?_eq_some.2 (mem_of_head? he))).1

end Changelog

/-! ### Any comparator -/

section Compare

variable {κ : Type*} (less : κ → κ → Bool) (v : κ)

/-- `find`: the count at the lower bound of `v`, unless `v` comes before it. -/
def findBy : List (κ × ℕ) → Option ℕ
  | [] => none
  | e :: l => if less e.1 v then findBy l else if less v e.1 then none else some e.2

/-- Apply `f` to the count that `find` leads to; a new entry goes to the lower bound. -/
def alterBy (f : Option ℕ → Option ℕ) : List (κ × ℕ) → List (κ × ℕ)
  | [] => ((f none).map (v, ·)).toList
  | e :: l =>
    if less e.1 v then e :: alterBy f l
    else if less v e.1 then ((f none).map (v, ·)).toList ++ e :: l
    else ((f (some e.2)).map (e.1, ·)).toList ++ l

/-- `emplace(v)`, on the entries of a map. -/
def emplaceBy (maxSize : ℕ) (l : List (κ × ℕ)) : List (κ × ℕ) :=
  if l.length = maxSize && l.getLast?.any (less ·.1 v) then l
  else
    match findBy less v l with
    | some n => alterBy less v (fun _ => some ((n + 1) % 2 ^ 32)) l
    | none => (alterBy less v (fun _ => some 1) l).take maxSize

/-- `erase(v)`, on the entries of a map. -/
def eraseBy (l : List (κ × ℕ)) : List (κ × ℕ) :=
  match findBy less v l with
  | some n =>
    alterBy less v (fun _ => if decremented n = 0 then none else some (decremented n)) l
  | none => l

end Compare

/-- With a total order, the lower bound is where the entry belongs. -/
theorem alterBy_lt (v : α) (f : Option ℕ → Option ℕ) (l : List (α × ℕ)) :
    alterBy (· < ·) v f l = alterList v f l := by
  induction l with
  | nil => rfl
  | cons e l ih =>
    rw [alterBy, alterList, ih]
    rcases lt_trichotomy v e.1 with hlt | heq | hgt
    · simp [hlt, hlt.not_gt]
    · simp [heq]
    · simp [hgt, hgt.not_gt, hgt.ne']

/-- With a total order, `find` finds the key itself. -/
theorem findBy_lt (m : SortedMap α ℕ) (v : α) : findBy (· < ·) v m.toList = m.find? v := by
  obtain ⟨l, hl⟩ := m
  induction l with
  | nil => rfl
  | cons e l ih =>
    obtain ⟨hhead, htail⟩ := pairwise_cons.1 hl
    rw [findBy, ih htail, SortedMap.find?, SortedMap.find?]
    rcases lt_trichotomy v e.1 with hlt | heq | hgt
    · have hnone : l.find? (fun x => x.1 = v) = none :=
        find?_eq_none_of_above fun x hx => hlt.trans (hhead x hx)
      simp [hlt, hlt.not_gt, hlt.ne', hnone]
    · simp [heq]
    · simp [hgt, hgt.ne]

/-- **Keys that compare**: with a strict order that is total, the entries are those of the map. -/
theorem toList_emplace (c : CountedValueMap α) (v : α) :
    (c.emplace v).1.m.toList = emplaceBy (· < ·) v c.maxSize c.m.toList := by
  rw [emplaceBy, findBy_lt, emplace]
  simp only [alterBy_lt]
  split_ifs with hreject hreject' hreject'
  · rfl
  · exact absurd hreject hreject'
  · exact absurd hreject' hreject
  · cases c.m.find? v <;> rfl

/-- With a strict order that is total, `erase` is that of the map. -/
theorem toList_erase (c : CountedValueMap α) (v : α) :
    (c.erase v).1.m.toList = eraseBy (· < ·) v c.m.toList := by
  rw [eraseBy, findBy_lt, erase]
  simp only [alterBy_lt]
  cases c.m.find? v <;> rfl

/-- `std::greater<Float64>`, where `none` is a NaN: it is not greater than any value, and no value
is greater than it. -/
def greaterFloat : Option ℤ → Option ℤ → Bool
  | some a, some b => b < a
  | _, _ => false

/-- **A NaN takes the values after it.** A NaN and a 5 are inserted, and the NaN is erased: the map
has the NaN, counted once, which is not live. -/
theorem nan_takes_value :
    eraseBy greaterFloat none (emplaceBy greaterFloat (some 5) 10
      (emplaceBy greaterFloat none 10 [])) = [(none, 1)] ∧
    (none : Option ℤ) ∉ ({none, some 5} : Multiset (Option ℤ)).erase none := by
  decide

end CountedValueMap

end Proton.Streaming
