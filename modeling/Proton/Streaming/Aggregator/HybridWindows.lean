import Proton.Streaming.Aggregator.HybridExecution

/-!
# Updates of a Window over Hybrid Data Variants

This module embeds `mergeAndSpliceAndConvertUpdatesToBlock`: the groups of the gcd buckets of a
window that were updated are merged from all data variants. The keys of the merged groups are those
without the window: a hopping window resets it, and a tumbling window has only one bucket.

The data variants are merged one after the other, and a key is only merged from the first data
variant on in which it was updated. If there are no keys besides the window, a data variant without
updates is left out. The numbers of rows are not merged, so that a merged group seems to have none.

## Main results

* `find?_mergeVariants`: the merged groups.
* `windowUpdates_exact_iff`: when the rows of a window are exact.
* `windowUpdates_lose_part`: a part that is missing.
-/

open List SortedMap

namespace Proton.Streaming.HybridAggregator

variable {n : ℕ} {K A S V : Type} [LinearOrder K]

/-- The hash tables of a data variant of a window aggregation, by their time bucket. -/
structure WindowVariants (K S : Type) [LinearOrder K] where
  /-- The groups. -/
  table : SortedMap ℤ (SortedMap K (Group S))
  /-- The keys that were updated. -/
  updates : SortedMap ℤ (SortedMap K Unit)

section Model

variable [AddCommMonoid S] (params : HybridParams A S V) (scan : Scan K) (onlyHasWindowKeys : Bool)
  (buckets : List ℤ)

variable (v : WindowVariants K S)

/-- `bucketTables`. -/
def WindowVariants.bucketTables : List (ℤ × SortedMap K (Group S)) :=
  v.table.toList.filter (·.1 ∈ buckets)

/-- `mergeAggregateStates`, into a group. The number of rows is left as it is. -/
def addStates (dst src : Group S) : Group S := (dst.1, dst.2 + src.2)

/-- `doMergeGCDBuckets`. -/
def doMergeGCDBuckets (tables : List (ℤ × SortedMap K (Group S))) (dst : SortedMap K (Group S)) :
    SortedMap K (Group S) :=
  tables.foldl (fun dst t => (scan.entries t.2).foldl (fun dst e =>
    dst.alter e.1 fun g => some (addStates (g.getD 0) e.2)) dst) dst

/-- The keys that `doMergeGCDBucketsForUpdates` collects. -/
def WindowVariants.updatedKeys : List K :=
  (v.updates.toList.filter fun u => u.1 ∈ (v.bucketTables buckets).map (·.1)).flatMap fun u =>
    (scan.entries u.2).map (·.1)

/-- `doMergeGCDBucketsForUpdates`. Without other keys than the window, an update of any bucket takes
all of them. -/
def doMergeGCDBucketsForUpdates (dst : SortedMap K (Group S)) (v : WindowVariants K S) :
    SortedMap K (Group S) :=
  let tables := v.bucketTables buckets
  if onlyHasWindowKeys then
    if tables.any fun t => (v.updates.find? t.1).any (·.size ≠ 0) then
      doMergeGCDBuckets scan tables dst
    else dst
  else
    tables.foldl (fun dst t => (scan.entries t.2).foldl (fun dst e =>
      dst.alter e.1 (Option.map fun g => addStates g e.2)) dst)
      (emplaceKeys (v.updatedKeys scan buckets) dst)

/-- `doSpliceAndConvertToBlock`. -/
def doSpliceAndConvertToBlock : Except HybridError (List (K × V)) :=
  match v.bucketTables buckets with
  | [] => throw .nullPointer
  | [t] =>
    match v.updates.find? t.1 with
    | none => throw .nullPointer
    | some updates => do
      let blocks ← convertToBlocksForUpdates params scan t.2 updates
      pure blocks.flatten
  | _ =>
    pure (convertToBlocksForAll params scan
      (doMergeGCDBucketsForUpdates scan onlyHasWindowKeys buckets .empty v)).flatten

/-- The data variants are merged one after the other. -/
def mergeVariants (variants : List (WindowVariants K S)) : SortedMap K (Group S) :=
  variants.foldl (doMergeGCDBucketsForUpdates scan onlyHasWindowKeys buckets) .empty

/-- `mergeAndSpliceAndConvertUpdatesToBlock`. -/
def mergeAndSpliceAndConvertUpdatesToBlock (variants : Fin n → WindowVariants K S) :
    Except HybridError (List (K × V)) :=
  if h : n = 1 then
    doSpliceAndConvertToBlock params scan onlyHasWindowKeys buckets (variants ⟨0, pos_of_eq_one h⟩)
  else
    pure (convertToBlocksForAll params scan
      (mergeVariants scan onlyHasWindowKeys buckets (ofFn variants))).flatten

end Model

/-! ### The merged groups -/

section Merge

variable [AddCommMonoid S] {scan : Scan K} {onlyHasWindowKeys : Bool} {buckets : List ℤ}
  {v : WindowVariants K S} {k : K}

variable (tables : List (ℤ × SortedMap K (Group S)))

/-- The states of a key in some tables. -/
def statesIn (k : K) : S :=
  (tables.map fun t => ((t.2.find? k).getD 0).2).sum

/-- The states of a key in the buckets of a window. -/
def WindowVariants.states (buckets : List ℤ) (v : WindowVariants K S) (k : K) : S :=
  statesIn (v.bucketTables buckets) k

/-- The key was updated in a bucket of a window. -/
def WindowVariants.updated (buckets : List ℤ) (v : WindowVariants K S) (k : K) : Bool :=
  (v.bucketTables buckets).any fun t => (v.updates.find? t.1).any fun u => (u.find? k).isSome

/-- The groups of some tables are merged. -/
theorem find?_doMergeGCDBuckets (dst : SortedMap K (Group S)) :
    (doMergeGCDBuckets scan tables dst).find? k =
      if ∃ t ∈ tables, (t.2.find? k).isSome then
        some (((dst.find? k).getD 0).1, ((dst.find? k).getD 0).2 + statesIn tables k)
      else dst.find? k := by
  rw [doMergeGCDBuckets]
  induction tables generalizing dst with
  | nil => simp
  | cons t tables ih =>
    rw [foldl_cons, ih, find?_foldl_alter_listing (listing_entries scan t.2)
      (fun e g => some (addStates (g.getD 0) e.2)), statesIn, statesIn, map_cons, sum_cons,
      ← add_assoc]
    simp only [exists_mem_cons_iff]
    cases t.2.find? k with
    | none =>
      simp only [Option.isSome_none, Bool.false_eq_true, Option.elim_none, false_or,
        Option.getD_none, Prod.snd_zero, add_zero]
    | some g =>
      simp only [Option.isSome_some, true_or, Option.elim_some, Option.getD_some, addStates]
      split_ifs with hin
      · rfl
      · have hzero : (tables.map fun t => ((t.2.find? k).getD 0).2).sum = 0 := by
          refine sum_eq_zero fun x hx => ?_
          obtain ⟨t', ht', rfl⟩ := mem_map.1 hx
          rw [Option.not_isSome_iff_eq_none.1 fun hsome => hin ⟨t', ht', hsome⟩]
          rfl
        rw [hzero, add_zero]

/-- The groups of some tables are merged into those that are there. -/
theorem find?_foldl_addStates (dst : SortedMap K (Group S)) :
    (tables.foldl (fun dst t => (scan.entries t.2).foldl (fun dst e =>
      dst.alter e.1 (Option.map fun g => addStates g e.2)) dst) dst).find? k =
      (dst.find? k).map fun g => (g.1, g.2 + statesIn tables k) := by
  induction tables generalizing dst with
  | nil => simp [statesIn]
  | cons t tables ih =>
    rw [foldl_cons, ih, find?_foldl_alter_listing (listing_entries scan t.2)
      (fun e => Option.map fun g => addStates g e.2), statesIn, statesIn, map_cons]
    cases t.2.find? k <;> simp [addStates, Function.comp_def, add_assoc]

omit [AddCommMonoid S] in
/-- The keys that are visited are the updated ones. -/
theorem mem_updatedKeys : k ∈ v.updatedKeys scan buckets ↔ v.updated buckets k := by
  rw [WindowVariants.updatedKeys, WindowVariants.updated, any_eq_true, mem_flatMap]
  constructor
  · rintro ⟨u, hu, hk⟩
    obtain ⟨hu, hbucket⟩ := mem_filter.1 hu
    obtain ⟨t, ht, hbucket⟩ := mem_map.1 (of_decide_eq_true hbucket)
    refine ⟨t, ht, ?_⟩
    rw [hbucket, SortedMap.find?_eq_some.2 hu, Option.any_some, ← SortedMap.mem_keys,
      ← mem_map_entries scan]
    exact hk
  · rintro ⟨t, ht, hk⟩
    cases hu : v.updates.find? t.1 with
    | none => simp [hu] at hk
    | some u =>
      rw [hu, Option.any_some, ← SortedMap.mem_keys, ← mem_map_entries scan] at hk
      exact ⟨(t.1, u), mem_filter.2 ⟨find?_eq_some.1 hu, decide_eq_true (mem_map_of_mem ht)⟩, hk⟩

/-- Every key that was updated has a group. -/
def WindowVariants.Grouped (v : WindowVariants K S) : Prop :=
  ∀ u ∈ v.updates.toList, ∀ e ∈ u.2.toList, ∃ table ∈ v.table.find? u.1, (table.find? e.1).isSome
deriving Decidable

omit [AddCommMonoid S] in
/-- The group of a key that was updated in a bucket of a window. -/
theorem WindowVariants.Grouped.isSome (h : v.Grouped) {t : ℤ × SortedMap K (Group S)}
    (ht : t ∈ v.bucketTables buckets) {updates : SortedMap K Unit}
    (hu : v.updates.find? t.1 = some updates) (hk : k ∈ updates.keys) : (t.2.find? k).isSome := by
  obtain ⟨u, huk⟩ := Option.isSome_iff_exists.1 (mem_keys.1 hk)
  obtain ⟨table, htable, hin⟩ := h _ (find?_eq_some.1 hu) _ (find?_eq_some.1 huk)
  rw [find?_eq_some.2 (mem_filter.1 ht).1] at htable
  cases htable
  exact hin

/-- What a data variant adds to the group of a key that is merged: whether the key was updated
there, and its states. -/
def mergePart (onlyHasWindowKeys : Bool) (merged : Option (Group S)) (part : Bool × S) :
    Option (Group S) :=
  if part.1 || (!onlyHasWindowKeys && merged.isSome) then
    some ((merged.getD 0).1, (merged.getD 0).2 + part.2)
  else merged

/-- A key of a data variant. -/
def WindowVariants.part (buckets : List ℤ) (k : K) (v : WindowVariants K S) : Bool × S :=
  (v.updated buckets k, v.states buckets k)

/-- **The group of a key after a data variant.** -/
theorem find?_doMergeGCDBucketsForUpdates (honly : onlyHasWindowKeys → ∀ a b : K, a = b)
    (hgrouped : v.Grouped) (dst : SortedMap K (Group S)) :
    (doMergeGCDBucketsForUpdates scan onlyHasWindowKeys buckets dst v).find? k =
      mergePart onlyHasWindowKeys (dst.find? k) (v.part buckets k) := by
  rw [doMergeGCDBucketsForUpdates, mergePart, WindowVariants.part]
  cases onlyHasWindowKeys with
  | true =>
    have hsame : ∀ a : K, a = k := fun a => honly rfl a k
    have hany : ((v.bucketTables buckets).any fun t => (v.updates.find? t.1).any (·.size ≠ 0)) =
        v.updated buckets k := by
      congr 1
      funext t
      congr 1
      funext u
      rw [Bool.eq_iff_iff, decide_eq_true_eq, ← SortedMap.mem_keys, Ne,
        size_eq_zero_iff, not_forall_not]
      exact ⟨fun ⟨a, ha⟩ => hsame a ▸ ha, fun ha => ⟨k, ha⟩⟩
    simp only [if_true, hany, Bool.not_true, Bool.false_and, Bool.or_false]
    split_ifs with hupdated
    · rw [find?_doMergeGCDBuckets, if_pos]
      · rfl
      · obtain ⟨t, ht, hk⟩ := any_eq_true.1 hupdated
        refine ⟨t, ht, ?_⟩
        cases hu : v.updates.find? t.1 with
        | none => simp [hu] at hk
        | some u =>
          rw [hu, Option.any_some, ← SortedMap.mem_keys] at hk
          exact hgrouped.isSome ht hu hk
    · rfl
  | false =>
    simp only [Bool.false_eq_true, if_false, find?_foldl_addStates]
    rw [find?_emplaceKeys]
    simp only [mem_updatedKeys]
    rw [WindowVariants.states]
    cases v.updated buckets k with
    | true => cases dst.find? k <;> simp
    | false => cases dst.find? k <;> simp

variable (scan buckets k) in
/-- **The group of a key after all data variants.** -/
theorem find?_mergeVariants (honly : onlyHasWindowKeys → ∀ a b : K, a = b)
    {variants : List (WindowVariants K S)} (hgrouped : ∀ v ∈ variants, v.Grouped) :
    (mergeVariants scan onlyHasWindowKeys buckets variants).find? k =
      (variants.map (·.part buckets k)).foldl (mergePart onlyHasWindowKeys) none := by
  rw [foldl_map]
  have hloop : ∀ (l : List (WindowVariants K S)) (dst : SortedMap K (Group S)),
      (∀ v ∈ l, v.Grouped) →
      (l.foldl (doMergeGCDBucketsForUpdates scan onlyHasWindowKeys buckets) dst).find? k =
        l.foldl (fun merged v => mergePart onlyHasWindowKeys merged (v.part buckets k))
          (dst.find? k) := by
    intro l
    induction l with
    | nil => exact fun _ _ => rfl
    | cons v l ih =>
      intro dst hl
      rw [foldl_cons, foldl_cons, ih _ fun w hw => hl w (mem_cons_of_mem _ hw),
        find?_doMergeGCDBucketsForUpdates honly (hl v mem_cons_self)]
  exact hloop variants .empty hgrouped

/-- The states of a key that are merged: those of the data variants from the first one on in which
it was updated, or only of those in which it was updated. -/
def mergedStates (onlyHasWindowKeys : Bool) (parts : List (Bool × S)) : S :=
  ((if onlyHasWindowKeys then parts.filter (·.1) else parts.dropWhile (!·.1)).map (·.2)).sum

/-- With only window keys, the parts that were updated are merged. -/
theorem foldl_mergePart_updated (l : List (Bool × S)) (o : Option (Group S)) :
    l.foldl (mergePart true) o =
      if l.any (·.1) then some ((o.getD 0).1, (o.getD 0).2 + ((l.filter (·.1)).map (·.2)).sum)
      else o := by
  induction l generalizing o with
  | nil => simp
  | cons part l ih =>
    obtain ⟨updated, states⟩ := part
    rw [foldl_cons, ih, any_cons, filter_cons]
    cases updated with
    | true =>
      simp only [mergePart, Bool.true_or, if_true, Option.getD_some, add_assoc]
      split_ifs with hany
      · rfl
      · have hnil : l.filter (·.1) = [] := by
          rw [filter_eq_nil_iff]
          intro part hpart hupdated
          exact hany (any_eq_true.2 ⟨part, hpart, hupdated⟩)
        rw [hnil]
        simp
    | false => simp only [mergePart, Bool.not_true, Bool.false_and,
        Bool.false_eq_true, if_false, Bool.false_or]

/-- A key that is in the table takes the states of all further parts. -/
theorem foldl_mergePart_some (l : List (Bool × S)) (g : Group S) :
    l.foldl (mergePart false) (some g) = some (g.1, g.2 + (l.map (·.2)).sum) := by
  induction l generalizing g with
  | nil => simp
  | cons part l ih =>
    rw [foldl_cons, mergePart]
    simp [ih, add_assoc]

/-- The group that is merged has no rows. -/
theorem foldl_mergePart (onlyHasWindowKeys : Bool) (parts : List (Bool × S)) :
    parts.foldl (mergePart onlyHasWindowKeys) none =
      if parts.any (·.1) then some (0, mergedStates onlyHasWindowKeys parts) else none := by
  cases onlyHasWindowKeys with
  | true =>
    rw [foldl_mergePart_updated, mergedStates]
    simp
  | false =>
    -- parts before the first update leave the table without the key
    induction parts with
    | nil => rfl
    | cons part l ih =>
      obtain ⟨updated, states⟩ := part
      cases updated with
      | true => simp [mergePart, foldl_mergePart_some, mergedStates]
      | false => exact ih

end Merge

/-! ### The rows of a window -/

section Rows

variable [AddCommMonoid S] (params : HybridParams A S V) (onlyHasWindowKeys : Bool)
  (buckets : List ℤ)

variable (variants : Fin n → WindowVariants K S)

/-- The row of a key that was updated in some data variant: the aggregate over all of them. -/
def windowRow (k : K) : Option V :=
  if ∃ i, (variants i).updated buckets k then
    some (params.result (∑ i, (variants i).states buckets k))
  else none

/-- The states of a key that are merged from all data variants. -/
def windowStates (k : K) : S :=
  mergedStates onlyHasWindowKeys ((ofFn variants).map (·.part buckets k))

/-- One data variant has a bucket of the window, and updates if it has only one. If it has several,
no key was updated or the rows are not counted. -/
def OneWindowGuard (v : WindowVariants K S) : Prop :=
  match v.bucketTables buckets with
  | [] => False
  | [t] => (v.updates.find? t.1).isSome
  | _ => ∀ k, v.updated buckets k → ¬params.trackingStateCount

/-- For every key that was updated, the states that are merged have the result of all its states,
and the rows are not counted. -/
def WindowGuard : Prop :=
  if h : n = 1 then OneWindowGuard params buckets (variants ⟨0, pos_of_eq_one h⟩)
  else ∀ k, (∃ i, (variants i).updated buckets k) →
    params.result (windowStates onlyHasWindowKeys buckets variants k) =
        params.result (∑ i, (variants i).states buckets k) ∧
      ¬params.trackingStateCount

variable {params onlyHasWindowKeys buckets} {scan : Scan K}

variable (params buckets scan) in
/-- The rows of the groups that were merged. -/
theorem listing_mergeVariants (honly : onlyHasWindowKeys → ∀ a b : K, a = b)
    {variants : Fin n → WindowVariants K S} (hgrouped : ∀ i, (variants i).Grouped) :
    Listing (fun k => if ∃ i, (variants i).updated buckets k then
        shownRow params (0, windowStates onlyHasWindowKeys buckets variants k) else none)
      (convertToBlocksForAll params scan
        (mergeVariants scan onlyHasWindowKeys buckets (ofFn variants))).flatten := by
  refine (listing_convertToBlocksForAll params scan _).congr fun k => ?_
  have hgroup := find?_mergeVariants scan buckets k honly (forall_mem_ofFn_iff.2 hgrouped)
  have hany : ((ofFn variants).map (·.part buckets k)).any (·.1) = true ↔
      ∃ i, (variants i).updated buckets k := by
    simp [WindowVariants.part]
  rw [foldl_mergePart] at hgroup
  simp only [hany] at hgroup
  rw [hgroup]
  split_ifs <;> rfl

variable (params) in
/-- The rows of the keys that were updated in a table. -/
theorem listing_convertToBlocksForUpdates (scan : Scan K) (table : SortedMap K (Group S))
    (updates : SortedMap K Unit) (h : ∀ k ∈ updates.keys, (table.find? k).isSome) :
    ∃ blocks, convertToBlocksForUpdates params scan table updates = .ok blocks ∧
      Listing (fun k => if k ∈ updates.keys then
        some (params.result ((table.find? k).getD 0).2) else none) blocks.flatten := by
  let row := fun k => (k, params.result ((table.find? k).getD 0).2)
  let step := fun (s : List (K × V) × List (List (K × V))) k =>
    if min params.maxBlockSize scan.approximateCount + 1 ≤ (s.1 ++ [row k]).length then
      ([], s.2 ++ [s.1 ++ [row k]])
    else (s.1 ++ [row k], s.2)
  have hloop := ExceptRel.foldlM_eq_ok (f := insertUpdate params
    (min params.maxBlockSize scan.approximateCount + 1) table) (g := step)
    (l := (scan.entries updates).map (·.1)) (fun k hk s => by
      obtain ⟨g, hg⟩ := Option.isSome_iff_exists.1 (h k ((mem_map_entries scan).1 hk))
      simp only [insertUpdate, hg, step, row]
      rfl) ([], [])
  have hrows : ∀ (l : List K) (s : List (K × V) × List (List (K × V))),
      ((l.foldl step s).2 ++ [(l.foldl step s).1]).flatten =
        (s.2 ++ [s.1]).flatten ++ l.map row := by
    intro l
    induction l with
    | nil => simp
    | cons k l ih =>
      intro s
      rw [foldl_cons, ih]
      simp only [step]
      split_ifs <;> simp
  refine ⟨_, by rw [convertToBlocksForUpdates]; simp only [hloop]; rfl, ?_⟩
  have hflat : ∀ s : List (K × V) × List (List (K × V)),
      (if s.1.isEmpty then s.2 else s.2 ++ [s.1]).flatten = (s.2 ++ [s.1]).flatten := by
    intro s
    split_ifs with hnil
    · simp [isEmpty_iff.1 hnil]
    · rfl
  rw [hflat, hrows, map_map]
  exact listing_map_entries scan updates _

/-- The rows of a window of one data variant. -/
theorem windowUpdates_one (honly : onlyHasWindowKeys → ∀ a b : K, a = b)
    (variants : Fin 1 → WindowVariants K S) (hgrouped : ∀ i, (variants i).Grouped) :
    (∃ rows, doSpliceAndConvertToBlock params scan onlyHasWindowKeys buckets (variants 0) =
        .ok rows ∧ Listing (windowRow params buckets variants) rows) ↔
      OneWindowGuard params buckets (variants 0) := by
  have hrow : windowRow params buckets variants = fun k => if (variants 0).updated buckets k then
      some (params.result ((variants 0).states buckets k)) else none := by
    funext k
    simp only [windowRow, Fin.exists_fin_one, Fin.sum_univ_one]
  rw [hrow, doSpliceAndConvertToBlock, OneWindowGuard]
  split
  · exact iff_of_false (fun ⟨_, heq, _⟩ => nomatch heq) not_false
  · rename_i t htables
    cases hu : (variants 0).updates.find? t.1 with
    | none => exact iff_of_false (fun ⟨_, heq, _⟩ => nomatch heq) Bool.false_ne_true
    | some updates =>
      refine iff_of_true ?_ rfl
      have ht : t ∈ (variants 0).bucketTables buckets := htables ▸ List.mem_singleton_self t
      obtain ⟨blocks, hblocks, hlist⟩ := listing_convertToBlocksForUpdates params scan t.2 updates
        fun k hk => (hgrouped 0).isSome ht hu hk
      refine ⟨blocks.flatten, by simp only [hblocks]; rfl, hlist.congr fun k => ?_⟩
      simp only [WindowVariants.updated, WindowVariants.states, statesIn, htables,
        SortedMap.mem_keys,
        List.any_cons, List.any_nil, Bool.or_false, hu, Option.any_some, List.map_cons,
        List.map_nil,
        List.sum_cons, List.sum_nil, add_zero]
  · have hlist := listing_mergeVariants params buckets scan honly hgrouped
    have hstates : ∀ k, (variants 0).updated buckets k →
        windowStates onlyHasWindowKeys buckets variants k = (variants 0).states buckets k := by
      intro k hk
      cases onlyHasWindowKeys <;> simp [windowStates, mergedStates, WindowVariants.part, hk]
    simp only [Fin.exists_fin_one] at hlist
    constructor
    · rintro ⟨rows, heq, hrows⟩ k hk htrack
      cases heq
      have hrow := hlist.congr_iff.1 hrows k
      rw [if_pos hk, if_pos hk, shownRow, if_pos ⟨htrack, rfl⟩] at hrow
      cases hrow
    · intro hguard
      refine ⟨_, rfl, hlist.congr fun k => ?_⟩
      split_ifs with hk
      · rw [hstates k hk, shownRow, if_neg fun hand => hguard k hk hand.1]
      · rfl

/-- **The rows of a window** are exact if and only if the condition holds. -/
theorem windowUpdates_exact_iff (honly : onlyHasWindowKeys → ∀ a b : K, a = b)
    (variants : Fin n → WindowVariants K S) (hgrouped : ∀ i, (variants i).Grouped) :
    (∃ rows, mergeAndSpliceAndConvertUpdatesToBlock params scan onlyHasWindowKeys buckets variants =
        .ok rows ∧ Listing (windowRow params buckets variants) rows) ↔
      WindowGuard params onlyHasWindowKeys buckets variants := by
  rw [mergeAndSpliceAndConvertUpdatesToBlock, WindowGuard]
  by_cases hn : n = 1
  · subst hn
    exact windowUpdates_one honly variants hgrouped
  · rw [dif_neg hn, dif_neg hn]
    have hlist := listing_mergeVariants params buckets scan honly hgrouped
    constructor
    · rintro ⟨rows, heq, hrows⟩ k hk
      cases heq
      have hrow := hlist.congr_iff.1 hrows k
      rw [windowRow, shownRow] at hrow
      split_ifs at hrow with hand
      exact ⟨Option.some.inj hrow, fun htrack => hand ⟨htrack, rfl⟩⟩
    · intro hguard
      refine ⟨_, rfl, hlist.congr fun k => ?_⟩
      rw [windowRow]
      split_ifs with hk
      · obtain ⟨hresult, hcount⟩ := hguard k hk
        rw [shownRow, if_neg fun hand => hcount hand.1, hresult]
      · rfl

/-- A data variant with a group in one bucket, and whether it was updated. -/
def oneGroup (states : ℤ) (updated : Bool) : WindowVariants (Fin 1) ℤ where
  table := .insert .empty 0 (.insert .empty (Fin.last 0) (0, states))
  updates := if updated then .insert .empty 0 (.insert .empty (Fin.last 0) ()) else .empty

/-- The keys in their order, in memory. -/
def keyScan : Scan (Fin 1) := ⟨⟨id, List.Perm.refl⟩, List.length, 0⟩

/-- The states of a data variant are missing if the group is only updated in a later one, and not if
it is updated in an earlier one. -/
theorem windowUpdates_lose_part :
    mergeAndSpliceAndConvertUpdatesToBlock (sumParams .updates) keyScan false [0]
        ![oneGroup 5 false, oneGroup 6 true] = .ok [(0, 6)] ∧
      mergeAndSpliceAndConvertUpdatesToBlock (sumParams .updates) keyScan false [0]
        ![oneGroup 6 true, oneGroup 5 false] = .ok [(0, 11)] := by
  constructor
  · decide +kernel
  · decide +kernel

/-- The condition holds if the group is updated in the first data variant. -/
theorem windowUpdates_exact_first : ∃ rows,
    mergeAndSpliceAndConvertUpdatesToBlock (sumParams .updates) keyScan false [0]
        ![oneGroup 6 true, oneGroup 5 false] = .ok rows ∧
      Listing (windowRow (sumParams .updates) [0] ![oneGroup 6 true, oneGroup 5 false]) rows := by
  refine (windowUpdates_exact_iff (fun h => by cases h) _ (by decide +kernel)).2 ?_
  rw [WindowGuard, dif_neg (by decide)]
  decide +kernel

end Rows

end Proton.Streaming.HybridAggregator
