import Proton.Lib.Greatest
import Proton.Storages.MergeTree.SequenceInfo

/-!
# Merging the Sequence Numbers of Parts

When parts are merged, `mergeSequenceInfo` merges their sequence ranges and their idempotent keys.
The parts of one block point to one list of keys. A merge moves the keys out of the lists of its
parts, and a key that was moved is left with an empty string.

A part that is not merged keeps its keys if and only if no merged part shares them, and if no two of
the merged parts share keys, every merge has the newest keys of its parts (`mergeAll_exact`). A part
whose sibling was merged before has lost its keys (`mergeAll_shared`).
-/

open List

namespace Proton.SequenceInfo

/-- The lists of idempotent keys, by address. -/
abbrev KeyLists := ℕ → List IdempotentKey

/-- `std::set<IdempotentKey>`, by sequence number, then by key. -/
abbrev KeySet := SortedMap (ℤ ×ₗ String) Unit

/-- The `SequenceInfo` of a part, with the address of its keys. -/
structure PartInfo where
  /-- `sequence_ranges`. -/
  sequenceRanges : List SequenceRange
  /-- `idempotent_keys`. -/
  idempotentKeys : Option ℕ

/-- Keys are moved into the set, unless they are there already. What is left of them comes first. -/
def moveKeys : List IdempotentKey → KeySet → List IdempotentKey × KeySet
  | [], found => ([], found)
  | key :: keys, found =>
    let (rest, found') := moveKeys keys (found.insert (toLex key) ())
    ((if (found.find? (toLex key)).isSome then key else (key.1, "")) :: rest, found')

/-- The keys of a part are moved into the set. -/
def collectKeys (s : KeyLists × KeySet) (part : PartInfo) : KeyLists × KeySet :=
  match part.idempotentKeys with
  | none => s
  | some address =>
    let (rest, found) := moveKeys (s.1 address) s.2
    (Function.update s.1 address rest, found)

/-- `mergeSequenceRanges`. -/
def mergeSequenceRanges (ranges : List SequenceRange) (committedSN : ℤ) : List SequenceRange :=
  let merged := (sortRanges ranges).filter (committedSN < ·.endSN)
  -- the last range is kept for its sequence number
  if merged = [] then (sortRanges ranges).getLast?.toList else merged

/-- `mergeIdempotentKeys`. -/
def mergeIdempotentKeys (found : KeySet) (maxIdempotentKeys : ℕ) : Option (List IdempotentKey) :=
  if found.size = 0 then none
  else some ((found.toList.map fun e => ofLex e.1).drop (found.size - maxIdempotentKeys))

/-- A call of `mergeSequenceInfo`. -/
structure Merge where
  /-- `sequences`. -/
  parts : List PartInfo
  /-- `committed_sn`. -/
  committedSN : ℤ
  /-- `max_idempotent_keys`. -/
  maxIdempotentKeys : ℕ

/-- `mergeSequenceInfo`: what the lists are after it, and the ranges and keys of the merged part. -/
def mergeSequenceInfo (lists : KeyLists) (merge : Merge) :
    KeyLists × Option (List SequenceRange × Option (List IdempotentKey)) :=
  if merge.parts.isEmpty then (lists, none)
  else
    let (lists', found) := merge.parts.foldl collectKeys (lists, .empty)
    let ranges := merge.parts.flatMap (·.sequenceRanges)
    (lists', some (mergeSequenceRanges ranges merge.committedSN,
      mergeIdempotentKeys found merge.maxIdempotentKeys))

/-- Merges one after the other. -/
def mergeAll (lists : KeyLists) : List Merge →
    KeyLists × List (Option (List SequenceRange × Option (List IdempotentKey)))
  | [] => (lists, [])
  | merge :: merges =>
    let (lists', merged) := mergeSequenceInfo lists merge
    let (lists'', rest) := mergeAll lists' merges
    (lists'', merged :: rest)

/-- The addresses of the keys of some parts. -/
def addresses (parts : List PartInfo) : List ℕ := parts.filterMap (·.idempotentKeys)

/-- **A merged part** has the ranges beyond what is committed, or the last one, and the newest of
the keys that the lists of its parts had. -/
def Merge.Exact (lists : KeyLists) (merge : Merge) :
    Option (List SequenceRange × Option (List IdempotentKey)) → Prop
  | none => merge.parts = []
  | some (ranges, keys) =>
    let all := merge.parts.flatMap (·.sequenceRanges)
    let new := all.filter (merge.committedSN < ·.endSN)
    (if new = [] then ranges = (sortRanges all).getLast?.toList else ranges.Perm new) ∧
      ∃ union : List IdempotentKey, union.Nodup ∧
        (∀ key, key ∈ union ↔ ∃ a ∈ addresses merge.parts, key ∈ lists a) ∧
        Greatest (fun a b => toLex a < toLex b) merge.maxIdempotentKeys union (keys.getD [])

/-- Every key of a list gets into the set. -/
theorem snd_moveKeys (keys : List IdempotentKey) (found : KeySet) :
    (moveKeys keys found).2 = (keys.map toLex).foldl (fun m key => m.insert key ()) found := by
  induction keys generalizing found with
  | nil => rfl
  | cons key keys ih => exact ih _

/-- The lists of one more part. -/
theorem addresses_cons (part : PartInfo) (parts : List PartInfo) :
    addresses (part :: parts) = part.idempotentKeys.toList ++ addresses parts := by
  rw [addresses, filterMap_cons]
  cases part.idempotentKeys <;> rfl

/-! ### What merges find, and what they leave alone -/

variable {lists created : KeyLists} {s : KeyLists × KeySet} {parts : List PartInfo}
  {merges : List Merge} {a : ℕ}

/-- A list of no part, or without keys, is left alone. -/
theorem fst_foldl_collectKeys (h : a ∉ addresses parts ∨ s.1 a = []) :
    (parts.foldl collectKeys s).1 a = s.1 a := by
  induction parts generalizing s with
  | nil => rfl
  | cons part parts ih =>
    rw [addresses_cons, mem_append, not_or] at h
    have hpart : (collectKeys s part).1 a = s.1 a := by
      rw [collectKeys]
      cases hkeys : part.idempotentKeys with
      | none => rfl
      | some address =>
        rw [hkeys] at h
        dsimp only
        by_cases ha : a = address
        · subst ha
          have hnil : s.1 a = [] := h.resolve_left fun hnot => hnot.1 (mem_singleton_self a)
          rw [Function.update_self, hnil, moveKeys]
        · exact Function.update_of_ne ha _ _
    rw [foldl_cons, ih (h.imp And.right hpart.trans), hpart]

/-- A merge leaves the lists of other parts, and empty ones. -/
theorem fst_mergeSequenceInfo {merge : Merge} (h : a ∉ addresses merge.parts ∨ lists a = []) :
    (mergeSequenceInfo lists merge).1 a = lists a := by
  rw [mergeSequenceInfo]
  split_ifs
  · rfl
  · exact fst_foldl_collectKeys (s := (lists, .empty)) h

/-- All merges leave the lists of other parts, and empty ones. -/
theorem fst_mergeAll (h : a ∉ addresses (merges.flatMap (·.parts)) ∨ lists a = []) :
    (mergeAll lists merges).1 a = lists a := by
  induction merges generalizing lists with
  | nil => rfl
  | cons merge merges ih =>
    rw [addresses, flatMap_cons, filterMap_append, mem_append, not_or] at h
    have hmerge := fst_mergeSequenceInfo (h.imp_left And.left)
    exact (ih (h.imp And.right hmerge.trans)).trans hmerge

/-- A list that has keys is that of one part only. -/
def Unshared (lists : KeyLists) (parts : List PartInfo) : Prop :=
  ∀ a, lists a ≠ [] → (addresses parts).count a ≤ 1

/-- Of two groups of parts that share no keys, the second one does not see what becomes of the keys
of the first one. -/
theorem Unshared.kept {rest : List PartInfo} {lists' : KeyLists}
    (h : Unshared lists (parts ++ rest))
    (hframe : ∀ a, a ∉ addresses parts ∨ lists a = [] → lists' a = lists a) :
    (∀ a ∈ addresses rest, lists' a = lists a) ∧ Unshared lists' rest := by
  have hcount : ∀ a, lists a ≠ [] → (addresses parts).count a + (addresses rest).count a ≤ 1 := by
    intro a hne
    rw [← count_append, addresses, addresses, ← filterMap_append]
    exact h a hne
  have hkept : ∀ a ∈ addresses rest, lists' a = lists a := by
    refine fun a ha => hframe a (or_iff_not_imp_right.2 fun hne hmem => ?_)
    have hle := hcount a hne
    have hpos := count_pos_iff.2 ha
    have hpos' := count_pos_iff.2 hmem
    omega
  refine ⟨hkept, fun a hne => ?_⟩
  by_cases ha : a ∈ addresses rest
  · rw [hkept a ha] at hne
    exact le_trans (Nat.le_add_left _ _) (hcount a hne)
  · rw [count_eq_zero_of_not_mem ha]
    exact Nat.zero_le 1

/-- The keys of parts that share none are collected. -/
theorem mem_foldl_collectKeys (h : Unshared s.1 parts) (key : IdempotentKey) :
    toLex key ∈ (parts.foldl collectKeys s).2.keys ↔
      toLex key ∈ s.2.keys ∨ ∃ a ∈ addresses parts, key ∈ s.1 a := by
  induction parts generalizing s with
  | nil => simp [addresses]
  | cons part parts ih =>
    obtain ⟨hkept, hrest⟩ := Unshared.kept (show Unshared s.1 ([part] ++ parts) from h) fun a ha =>
      show (collectKeys s part).1 a = s.1 a from fst_foldl_collectKeys ha
    have hpart : toLex key ∈ (collectKeys s part).2.keys ↔
        toLex key ∈ s.2.keys ∨ ∃ a ∈ part.idempotentKeys, key ∈ s.1 a := by
      rw [collectKeys]
      cases part.idempotentKeys with
      | none => simp
      | some address =>
        simp only [snd_moveKeys, SortedMap.mem_keys_foldl_insert,
          mem_map_of_injective toLex.injective, Option.mem_def, Option.some.injEq, exists_eq_left',
          or_comm]
    rw [foldl_cons, ih hrest, hpart, addresses_cons, or_assoc]
    simp only [mem_append, Option.mem_toList, or_and_right, exists_or]
    refine or_congr_right (or_congr_right (exists_congr fun a => and_congr_right fun ha => ?_))
    rw [hkept a ha]

/-! ### What is left of keys that are moved -/

/-- No key is left with its string. -/
def Emptied (keys : List IdempotentKey) : Prop := ∀ key ∈ keys, key.2 = ""

/-- Every key has a string, and is in one list, once. -/
structure DistinctKeys (lists : KeyLists) : Prop where
  nodup : ∀ a, (lists a).Nodup
  ne_empty : ∀ a, ∀ key ∈ lists a, key.2 ≠ ""
  unique : ∀ {a b key}, key ∈ lists a → key ∈ lists b → a = b

/-- A list whose keys are new to the set is emptied. -/
theorem emptied_moveKeys {keys : List IdempotentKey} {found : KeySet} (hnodup : keys.Nodup)
    (hnew : ∀ key ∈ keys, toLex key ∈ found.keys → key.2 = "") :
    Emptied (moveKeys keys found).1 := by
  induction keys generalizing found with
  | nil => simp [moveKeys, Emptied]
  | cons key keys ih =>
    obtain ⟨hnot, hnodup⟩ := nodup_cons.1 hnodup
    refine forall_mem_cons.2 ⟨?_, ih hnodup fun key' hkey' hfound => ?_⟩
    · split_ifs with hfind
      · exact hnew key mem_cons_self (SortedMap.mem_keys.2 hfind)
      · rfl
    · refine hnew key' (mem_cons_of_mem _ hkey')
        ((SortedMap.mem_keys_insert.1 hfound).resolve_left ?_)
      exact toLex.injective.ne (ne_of_mem_of_not_mem hkey' hnot)

/-- An emptied list stays so. -/
theorem Emptied.moveKeys {keys : List IdempotentKey} (h : Emptied keys) (found : KeySet) :
    Emptied (moveKeys keys found).1 := by
  induction keys generalizing found with
  | nil => exact h
  | cons key keys ih =>
    obtain ⟨hkey, hkeys⟩ := forall_mem_cons.1 h
    refine forall_mem_cons.2 ⟨?_, ih hkeys _⟩
    split_ifs
    · exact hkey
    · rfl

/-- While parts are merged, every list is as it was created or has lost its keys, as those that were
seen have, and the keys that were found are of lists that have lost them. -/
structure Collected (created : KeyLists) (seen : List ℕ) (s : KeyLists × KeySet) : Prop where
  seen : ∀ a ∈ seen, Emptied (s.1 a)
  same : ∀ a, s.1 a = created a ∨ Emptied (s.1 a)
  found : ∀ key, toLex key ∈ s.2.keys → key.2 = "" ∨ ∃ a, key ∈ created a ∧ Emptied (s.1 a)

section Collected

variable {seen : List ℕ} (hkeys : DistinctKeys created)
include hkeys

/-- The keys of one more part are collected. -/
theorem Collected.collectKeys (h : Collected created seen s) (part : PartInfo) :
    Collected created (seen ++ part.idempotentKeys.toList) (collectKeys s part) := by
  rw [SequenceInfo.collectKeys]
  cases part.idempotentKeys with
  | none => simpa using h
  | some address =>
    have hmoved : Emptied (moveKeys (s.1 address) s.2).1 := by
      rcases h.same address with hsame | hempty
      · rw [hsame]
        refine emptied_moveKeys (hkeys.nodup address) fun key hkey hfound => ?_
        obtain hempty | ⟨a, ha, hempty⟩ := h.found key hfound
        · exact hempty
        · obtain rfl := hkeys.unique ha hkey
          exact hempty key (hsame ▸ hkey)
      · exact hempty.moveKeys s.2
    have hupdate : ∀ a, a = address ∨ Emptied (s.1 a) →
        Emptied (Function.update s.1 address (moveKeys (s.1 address) s.2).1 a) := by
      intro a ha
      by_cases heq : a = address
      · rwa [heq, Function.update_self]
      · rw [Function.update_of_ne heq]
        exact ha.resolve_left heq
    refine ⟨fun a ha => ?_, fun a => ?_, fun key hfound => ?_⟩
    · exact hupdate a ((mem_append.1 ha).symm.imp mem_singleton.1 (h.seen a))
    · by_cases heq : a = address
      · exact .inr (hupdate a (.inl heq))
      · dsimp only
        rw [Function.update_of_ne heq]
        exact h.same a
    · dsimp only at hfound
      rw [snd_moveKeys, SortedMap.mem_keys_foldl_insert,
        mem_map_of_injective toLex.injective] at hfound
      rcases hfound with hkey | hfound
      · rcases h.same address with hsame | hempty
        · exact .inr ⟨address, hsame ▸ hkey, hupdate address (.inl rfl)⟩
        · exact .inl (hempty key hkey)
      · exact (h.found key hfound).imp_right fun ⟨a, ha, hempty⟩ => ⟨a, ha, hupdate a (.inr hempty)⟩

/-- The keys of all parts of a merge are collected. -/
theorem Collected.foldl (h : Collected created seen s) (parts : List PartInfo) :
    Collected created (seen ++ addresses parts) (parts.foldl SequenceInfo.collectKeys s) := by
  induction parts generalizing seen s with
  | nil => simpa [addresses] using h
  | cons part parts ih =>
    have hparts := ih (h.collectKeys hkeys part)
    rwa [append_assoc, ← addresses_cons] at hparts

/-- **The lists of all merged parts** have lost their keys. -/
theorem Collected.mergeAll (h : Collected created seen (lists, .empty))
    (merges : List Merge) :
    ∀ a ∈ seen ++ addresses (merges.flatMap (·.parts)), Emptied ((mergeAll lists merges).1 a) := by
  induction merges generalizing seen lists with
  | nil => exact fun a ha => h.seen a (by simpa [addresses] using ha)
  | cons merge merges ih =>
    have hmerge : Collected created (seen ++ addresses merge.parts)
        ((mergeSequenceInfo lists merge).1, .empty) := by
      obtain ⟨hseen, hsame, -⟩ := h.foldl hkeys merge.parts
      rw [mergeSequenceInfo]
      split_ifs with hnil
      · rw [isEmpty_iff.1 hnil]
        simpa [addresses] using h
      · exact ⟨hseen, hsame, fun key hkey => absurd hkey (Finset.notMem_empty _)⟩
    have hrest := ih hmerge
    rwa [append_assoc, addresses, addresses, ← filterMap_append, ← flatMap_cons] at hrest

end Collected

/-- The ranges of a merged part are those of its parts that are not committed, or the last one. -/
theorem mergeSequenceRanges_exact (ranges : List SequenceRange) (committedSN : ℤ) :
    if ranges.filter (committedSN < ·.endSN) = [] then
      mergeSequenceRanges ranges committedSN = (sortRanges ranges).getLast?.toList
    else (mergeSequenceRanges ranges committedSN).Perm
      (ranges.filter (committedSN < ·.endSN)) := by
  have hperm : ((sortRanges ranges).filter (committedSN < ·.endSN)).Perm
      (ranges.filter (committedSN < ·.endSN)) := (perm_insertionSort _ _).filter _
  rw [mergeSequenceRanges]
  split_ifs with hnew hmerged hmerged
  · rfl
  · exact absurd (hnew ▸ hperm).eq_nil hmerged
  · exact absurd (hmerged ▸ hperm).symm.eq_nil hnew
  · exact hperm

/-- No key is collected twice. -/
theorem nodup_union (found : KeySet) : (found.toList.map fun e => ofLex e.1).Nodup :=
  pairwise_map.2 (found.sorted.imp fun hlt => ofLex.injective.ne hlt.ne)

/-- The collected keys are those of the set. -/
theorem mem_union {found : KeySet} {key : IdempotentKey} :
    key ∈ found.toList.map (fun e => ofLex e.1) ↔ toLex key ∈ found.keys := by
  rw [SortedMap.mem_keys_iff_mem_map]
  rfl

/-- The keys of a merged part are the newest ones of the set. -/
theorem mergeIdempotentKeys_exact (found : KeySet) (maxIdempotentKeys : ℕ) :
    Greatest (fun a b => toLex a < toLex b) maxIdempotentKeys
      (found.toList.map fun e => ofLex e.1)
      ((mergeIdempotentKeys found maxIdempotentKeys).getD []) := by
  have hsorted : (found.toList.map fun e => ofLex e.1).Pairwise fun a b => toLex a < toLex b :=
    pairwise_map.2 found.sorted
  have hlength : (found.toList.map fun e => ofLex e.1).length = found.size := length_map _
  rw [mergeIdempotentKeys]
  split_ifs with hsize
  · rw [length_eq_zero_iff.1 (hlength.trans hsize)]
    exact .nil _ _
  · rw [← hlength]
    exact .drop hsorted (nodup_union found) _

/-- **One merge**, of lists that are as they were created. -/
theorem mergeSequenceInfo_exact {merge : Merge} (h : Unshared lists merge.parts)
    (hsame : ∀ a ∈ addresses merge.parts, lists a = created a) :
    merge.Exact created (mergeSequenceInfo lists merge).2 := by
  rw [mergeSequenceInfo]
  split_ifs with hnil
  · exact isEmpty_iff.1 hnil
  · refine ⟨mergeSequenceRanges_exact _ _, _, nodup_union _, fun key => ?_,
      mergeIdempotentKeys_exact _ _⟩
    have hempty : toLex key ∉ (SortedMap.empty : KeySet).keys := Finset.notMem_empty _
    rw [mem_union, mem_foldl_collectKeys h, or_iff_right hempty]
    exact exists_congr fun a => and_congr_right fun ha => by rw [← hsame a ha]

/-- Merges one after the other, of lists that are as they were created. -/
theorem mergeAll_exact_of_same (h : Unshared lists (merges.flatMap (·.parts)))
    (hsame : ∀ a ∈ addresses (merges.flatMap (·.parts)), lists a = created a) :
    Forall₂ (fun merge => merge.Exact created) merges (mergeAll lists merges).2 := by
  induction merges generalizing lists with
  | nil => exact .nil
  | cons merge merges ih =>
    rw [flatMap_cons] at h
    rw [addresses, flatMap_cons, filterMap_append] at hsame
    -- the other merges still see their lists as they were created
    obtain ⟨hkept, hrest⟩ := h.kept fun a => fst_mergeSequenceInfo
    refine .cons (mergeSequenceInfo_exact (fun a hne => ?_) fun a ha =>
      hsame a (mem_append_left _ ha)) (ih hrest fun a ha =>
        (hkept a ha).trans (hsame a (mem_append_right _ ha)))
    have hcount := h a hne
    rw [addresses, filterMap_append, count_append] at hcount
    exact le_trans (Nat.le_add_right _ _) hcount

/-- The keys of a part. -/
def PartInfo.keys (lists : KeyLists) (part : PartInfo) : Option (List IdempotentKey) :=
  part.idempotentKeys.map lists

/-- **Merges of parts.** A part that is not merged keeps its keys if and only if it shares none with
a merged part, and if no two of the merged parts share keys, every merge has the newest keys that
its parts were created with. -/
theorem mergeAll_exact {lists : KeyLists} (hkeys : DistinctKeys lists) (merges : List Merge) :
    (∀ part : PartInfo, part.keys (mergeAll lists merges).1 = part.keys lists ↔
      ∀ a ∈ part.idempotentKeys, a ∈ addresses (merges.flatMap (·.parts)) → lists a = []) ∧
    (Unshared lists (merges.flatMap (·.parts)) →
      Forall₂ (fun merge => merge.Exact lists) merges (mergeAll lists merges).2) := by
  refine ⟨fun part => ?_, fun h => mergeAll_exact_of_same h fun _ _ => rfl⟩
  have hcollected : Collected lists [] (lists, .empty) :=
    ⟨fun _ ha => absurd ha not_mem_nil, fun _ => .inl rfl,
      fun _ hkey => absurd hkey (Finset.notMem_empty _)⟩
  rw [PartInfo.keys, PartInfo.keys]
  cases hpart : part.idempotentKeys with
  | none => simp
  | some address =>
    simp only [Option.map_some, Option.some.injEq, Option.mem_def, forall_eq']
    refine ⟨fun hsame hmem => eq_nil_iff_forall_not_mem.2 fun key hkey => ?_, fun hshared => ?_⟩
    · have hempty := hcollected.mergeAll hkeys merges address hmem
      exact hkeys.ne_empty address key hkey (hempty key (hsame ▸ hkey))
    · exact fst_mergeAll (or_iff_not_imp_left.2 fun hmem => hshared (not_not.1 hmem))

/-- Every block has a key. -/
def blockKeys : KeyLists := fun sn => [(sn, "key")]

/-- The keys of the two blocks are distinct. -/
theorem distinctKeys_blockKeys : DistinctKeys blockKeys where
  nodup _ := nodup_singleton _
  ne_empty a key hkey := by
    rw [mem_singleton.1 hkey]
    exact (by decide : "key" ≠ "")
  unique ha hb := by
    have hkey := (mem_singleton.1 ha).symm.trans (mem_singleton.1 hb)
    exact_mod_cast (Prod.mk.inj hkey).1

/-- The parts of the first two blocks are merged, and then the part of the third one. -/
def blockMerges : List Merge :=
  [⟨[⟨[⟨0, 0, 0, 1⟩], some 0⟩, ⟨[⟨1, 1, 0, 1⟩], some 1⟩], 0, 1⟩, ⟨[⟨[⟨2, 2, 0, 1⟩], some 2⟩], 2, 1⟩]

/-- The merged parts have the newest keys, and the part of a fourth block has its own. -/
theorem mergeAll_exact_two :
    PartInfo.keys (mergeAll blockKeys blockMerges).1 ⟨[⟨3, 3, 0, 1⟩], some 3⟩ = some [(3, "key")] ∧
    Forall₂ (Merge.Exact blockKeys) blockMerges
      [some ([⟨1, 1, 0, 1⟩], some [(1, "key")]), some ([⟨2, 2, 0, 1⟩], some [(2, "key")])] := by
  obtain ⟨hkeys, hexact⟩ := mergeAll_exact distinctKeys_blockKeys blockMerges
  refine ⟨(hkeys _).2 fun a ha hmem => ?_, hexact fun a _ => ?_⟩
  · obtain rfl := Option.some.inj ha
    exact absurd hmem (by decide)
  · exact nodup_iff_count_le_one.1 (by decide) a

/-- The two parts of a block share its keys. When the first part is merged, the list of the second
one is left with an empty key, and a merge of the second part has that key. -/
theorem mergeAll_shared :
    (mergeAll (fun _ => [(1, "key")]) [⟨[⟨[⟨1, 1, 0, 2⟩], some 0⟩], 0, 10⟩]).1 0 = [(1, "")] ∧
      (mergeAll (fun _ => [(1, "key")]) [⟨[⟨[⟨1, 1, 0, 2⟩], some 0⟩], 0, 10⟩,
        ⟨[⟨[⟨1, 1, 1, 2⟩], some 0⟩], 0, 10⟩]).2 =
        [some ([⟨1, 1, 0, 2⟩], some [(1, "key")]), some ([⟨1, 1, 1, 2⟩], some [(1, "")])] := by
  decide

end Proton.SequenceInfo
