import Mathlib.Data.Finset.Card
import Mathlib.Data.List.Pairwise

/-!
# Ordered Maps

An ordered map is a list of entries whose keys strictly increase, and the structure carries
that fact. Every change of one key is an instance of `alter`, and every map is determined by
its lookups (`SortedMap.ext_find?`), so that the operations are compared key by key.

The first `n` entries of a map (`SortedMap.take`) are the keys of rank below `n`, where the
rank of a key is the number of smaller keys in the map.

## Main results

* `SortedMap.find?_alter`, `SortedMap.find?_unionWith`, `SortedMap.find?_take`: what the
  operations do to a lookup.
* `SortedMap.take_unionWith_take`: the first `n` entries of a union only depend on the first
  `n` entries of the two maps. A key that was dropped can never come back.
-/

/-- A finite map whose entries are listed by strictly increasing key. -/
structure SortedMap (α β : Type*) [LinearOrder α] where
  /-- The entries, in the order of the keys. -/
  toList : List (α × β)
  /-- The keys strictly increase. -/
  sorted : toList.Pairwise fun a b => a.1 < b.1
deriving DecidableEq

open List

namespace SortedMap

variable {α β : Type*} [LinearOrder α] {m a b : SortedMap α β} {j k : α}

/-- The map without entries. -/
def empty : SortedMap α β := ⟨[], .nil⟩

/-- What the map holds at `k`. -/
def find? (m : SortedMap α β) (k : α) : Option β :=
  (m.toList.find? fun e => e.1 = k).map (·.2)

/-- The number of entries. -/
def size (m : SortedMap α β) : ℕ := m.toList.length

/-- The keys of the map. -/
def keys (m : SortedMap α β) : Finset α := (m.toList.map (·.1)).toFinset

/-- The number of keys of the map below `k`. -/
def rank (m : SortedMap α β) (k : α) : ℕ := (m.keys.filter (· < k)).card

/-- Maps with the same entries are equal. -/
theorem toList_inj : a.toList = b.toList ↔ a = b := by
  cases a
  cases b
  simp

@[simp] theorem toList_empty : (empty : SortedMap α β).toList = [] := rfl

@[simp] theorem find?_empty : (empty : SortedMap α β).find? k = none := rfl

@[simp] theorem size_empty : (empty : SortedMap α β).size = 0 := rfl

/-- No key has two entries. -/
theorem nodup_keys (m : SortedMap α β) : (m.toList.map (·.1)).Nodup :=
  pairwise_map.2 (m.sorted.imp fun h => h.ne)

/-- There are as many keys as entries. -/
@[simp] theorem card_keys (m : SortedMap α β) : m.keys.card = m.size := by
  rw [keys, toFinset_card_of_nodup m.nodup_keys, length_map, size]

/-! ### Lookups -/

variable {v : β}

/-- A lookup finds exactly the entries of the map. -/
theorem find?_eq_some : m.find? k = some v ↔ (k, v) ∈ m.toList := by
  obtain ⟨l, hl⟩ := m
  simp only [find?]
  induction l with
  | nil => simp
  | cons e l ih =>
    obtain ⟨hhead, htail⟩ := pairwise_cons.1 hl
    by_cases he : e.1 = k
    · have hnot : (k, v) ∉ l := fun hmem => (he ▸ hhead _ hmem).ne rfl
      simp only [find?_cons, he, decide_true, Option.map_some, Option.some.injEq,
        mem_cons, hnot, or_false]
      exact ⟨fun h => by rw [← he, ← h], fun h => by rw [← h]⟩
    · have hne : (k, v) ≠ e := fun h => he (by rw [← h])
      simp only [find?_cons, he, mem_cons, hne, false_or]
      exact ih htail

/-- A key is found if it is one of the map. -/
theorem mem_keys : k ∈ m.keys ↔ (m.find? k).isSome := by
  simp only [keys, mem_toFinset, mem_map, Option.isSome_iff_exists, find?_eq_some,
    Prod.exists, exists_and_right, exists_eq_right]

/-- A key that is not one of the map is not found. -/
theorem find?_eq_none : m.find? k = none ↔ k ∉ m.keys := by
  rw [mem_keys, Option.not_isSome_iff_eq_none]

variable {e : α × β}

/-- The key of an entry is one of the map. -/
theorem mem_keys_of_mem (h : e ∈ m.toList) : e.1 ∈ m.keys :=
  mem_keys.2 (by rw [find?_eq_some.2 h]; rfl)

/-- Maps with the same lookups are equal. -/
theorem ext_find? (h : ∀ k, a.find? k = b.find? k) : a = b := by
  have hmem : ∀ e, e ∈ a.toList ↔ e ∈ b.toList := fun e => by
    rw [← find?_eq_some, ← find?_eq_some, h]
  have hperm : a.toList.Perm b.toList :=
    (perm_ext_iff_of_nodup (List.Nodup.of_map _ a.nodup_keys)
      (List.Nodup.of_map _ b.nodup_keys)).2 hmem
  exact toList_inj.1 (hperm.eq_of_pairwise
    (fun x y _ _ hxy hyx => absurd hxy hyx.not_gt) a.sorted b.sorted)

/-! ### Changing one key -/

/-- Apply `f` to what the entries hold at `k`, where `none` stands for no entry. -/
def alterList (k : α) (f : Option β → Option β) : List (α × β) → List (α × β)
  | [] => ((f none).map (k, ·)).toList
  | e :: l =>
    if k < e.1 then ((f none).map (k, ·)).toList ++ e :: l
    else if k = e.1 then ((f (some e.2)).map (k, ·)).toList ++ l
    else e :: alterList k f l

variable {f : Option β → Option β} {l : List (α × β)}

/-- Only the entry of the key is altered. -/
theorem mem_alterList (h : e ∈ alterList k f l) : e.1 = k ∨ e ∈ l := by
  induction l with
  | nil =>
    simp only [alterList, Option.mem_toList, Option.map_eq_some_iff] at h
    obtain ⟨v, -, rfl⟩ := h
    exact .inl rfl
  | cons x l ih =>
    simp only [alterList] at h
    split_ifs at h with hlt heq
    · rcases mem_append.1 h with h | h
      · obtain ⟨v, -, rfl⟩ := Option.map_eq_some_iff.1 (Option.mem_toList.1 h)
        exact .inl rfl
      · exact .inr h
    · rcases mem_append.1 h with h | h
      · obtain ⟨v, -, rfl⟩ := Option.map_eq_some_iff.1 (Option.mem_toList.1 h)
        exact .inl rfl
      · exact .inr (mem_cons_of_mem _ h)
    · rcases mem_cons.1 h with rfl | h
      · exact .inr mem_cons_self
      · exact (ih h).imp_right (mem_cons_of_mem _)

/-- An entry put in front of a sorted list whose keys are all above it. -/
theorem pairwise_option_append {v : Option β} (hl : l.Pairwise fun a b => a.1 < b.1)
    (hk : ∀ e ∈ l, k < e.1) : ((v.map (k, ·)).toList ++ l).Pairwise fun a b => a.1 < b.1 := by
  cases v with
  | none => exact hl
  | some v => exact pairwise_cons.2 ⟨hk, hl⟩

/-- An altered list is sorted. -/
theorem sorted_alterList (h : l.Pairwise fun a b => a.1 < b.1) :
    (alterList k f l).Pairwise fun a b => a.1 < b.1 := by
  induction l with
  | nil =>
    have hnil := pairwise_option_append (k := k) (v := f none) .nil (by simp)
    rwa [append_nil] at hnil
  | cons e l ih =>
    obtain ⟨hhead, htail⟩ := pairwise_cons.1 h
    simp only [alterList]
    split_ifs with hlt heq
    · refine pairwise_option_append h fun x hx => ?_
      rcases mem_cons.1 hx with rfl | hx
      · exact hlt
      · exact hlt.trans (hhead x hx)
    · exact pairwise_option_append htail fun x hx => heq ▸ hhead x hx
    · refine pairwise_cons.2 ⟨fun x hx => ?_, ih htail⟩
      rcases mem_alterList hx with hk | hx
      · exact hk ▸ lt_of_le_of_ne (not_lt.1 hlt) (Ne.symm heq)
      · exact hhead x hx

/-- Apply `f` to what the map holds at `k`: `none` before means that the key is inserted,
`none` after that it is erased. -/
def alter (m : SortedMap α β) (k : α) (f : Option β → Option β) : SortedMap α β :=
  ⟨alterList k f m.toList, sorted_alterList m.sorted⟩

/-- A list whose keys are all above `k` holds nothing at `k`. -/
theorem find?_eq_none_of_above (hk : ∀ e ∈ l, k < e.1) : (l.find? fun e => e.1 = k) = none :=
  List.find?_eq_none.2 fun e he => by simpa using (hk e he).ne'

/-- An entry put in front of a list whose keys are all above it is what a lookup of its key
finds there. -/
theorem find?_option_append {v : Option β} (hk : ∀ e ∈ l, k < e.1) :
    (((v.map (k, ·)).toList ++ l).find? fun e => e.1 = j).map (·.2) =
      if j = k then v else (l.find? fun e => e.1 = j).map (·.2) := by
  by_cases hj : j = k
  · subst hj
    cases v <;> simp [find?_eq_none_of_above hk]
  · cases v <;> simp [hj, Ne.symm hj]

/-- **Changing one key.** -/
theorem find?_alter : (m.alter k f).find? j = if j = k then f (m.find? k) else m.find? j := by
  obtain ⟨l, hl⟩ := m
  simp only [alter, find?]
  induction l with
  | nil =>
    have hnil := find?_option_append (k := k) (j := j) (v := f none) (l := []) (by simp)
    rwa [append_nil] at hnil
  | cons e l ih =>
    obtain ⟨hhead, htail⟩ := pairwise_cons.1 hl
    rcases lt_trichotomy k e.1 with hlt | heq | hgt
    · have habove : ∀ x ∈ e :: l, k < x.1 := fun x hx => by
        rcases mem_cons.1 hx with rfl | hx
        · exact hlt
        · exact hlt.trans (hhead x hx)
      rw [alterList, if_pos hlt, find?_option_append habove, find?_eq_none_of_above habove]
      rfl
    · have habove : ∀ x ∈ l, k < x.1 := fun x hx => heq ▸ hhead x hx
      rw [alterList, if_neg heq.not_lt, if_pos heq, find?_option_append habove]
      by_cases hj : j = k
      · simp [hj, heq]
      · have hne : e.1 ≠ j := fun h => hj (h ▸ heq.symm)
        simp [hj, hne]
    · rw [alterList, if_neg hgt.not_gt, if_neg hgt.ne']
      by_cases hj : e.1 = j
      · have hne : j ≠ k := fun h => hgt.ne (hj.trans h)
        simp [hj, hne]
      · simpa [hj, hgt.ne] using ih htail

/-- Changing a key that keeps its entry keeps the other keys. -/
theorem keys_alter_some (h : (f (m.find? k)).isSome) : (m.alter k f).keys = insert k m.keys := by
  ext j
  by_cases hj : j = k
  · simp [mem_keys, find?_alter, hj, h]
  · simp [mem_keys, find?_alter, hj]

/-- One entry is added at most. -/
theorem size_alter_le (h : (f (m.find? k)).isSome) : (m.alter k f).size ≤ m.size + 1 := by
  rw [← card_keys, ← card_keys, keys_alter_some h]
  exact Finset.card_insert_le _ _

/-! ### Union -/

/-- Add the entries of `b` to `a`: the new value of a key of `b` is computed from what `a`
holds at the key and from the value in `b`. -/
def unionWith (g : Option β → β → β) (a b : SortedMap α β) : SortedMap α β :=
  b.toList.foldl (fun m e => m.alter e.1 fun v => some (g v e.2)) a

variable {g : Option β → β → β}

/-- **Changes one after the other, key by key**: a key sees its own changes. -/
theorem find?_foldl_alter_key {γ : Type*} (key : γ → α) (f : γ → Option β → Option β) (l : List γ)
    (m : SortedMap α β) (k : α) :
    (l.foldl (fun m c => m.alter (key c) (f c)) m).find? k =
      (l.filter fun c => key c = k).foldl (fun v c => f c v) (m.find? k) := by
  induction l generalizing m with
  | nil => rfl
  | cons c l ih =>
    rw [foldl_cons, ih, find?_alter]
    by_cases hk : key c = k
    · simp [hk]
    · simp [hk, Ne.symm hk]

/-- A change that does nothing more when it is repeated, at each of some keys. -/
theorem find?_foldl_alter_idem {f : α → Option β → Option β} (hf : ∀ k v, f k (f k v) = f k v)
    (l : List α) (m : SortedMap α β) (k : α) :
    (l.foldl (fun m k => m.alter k (f k)) m).find? k =
      if k ∈ l then f k (m.find? k) else m.find? k := by
  induction l generalizing m with
  | nil => rfl
  | cons key l ih =>
    rw [foldl_cons, ih, find?_alter]
    by_cases hk : k = key
    · subst hk
      simp [hf]
    · simp [hk]

/-- Each of some keys is changed once. -/
theorem find?_foldl_alter_self {f : α → Option β → Option β} {l : List α} (h : l.Nodup)
    (m : SortedMap α β) (k : α) :
    (l.foldl (fun m k => m.alter k (f k)) m).find? k =
      if k ∈ l then f k (m.find? k) else m.find? k := by
  have hfilter : (l.filter fun c => c = k) = if k ∈ l then [k] else [] := by
    rw [filter_eq, h.count]
    split_ifs <;> rfl
  rw [find?_foldl_alter_key (fun c => c) f l m k, hfilter]
  split_ifs <;> rfl

/-- The only entry with a key. -/
theorem filter_eq_find? {γ : Type*} {l : List (α × γ)} (h : (l.map (·.1)).Nodup) (k : α) :
    (l.filter fun e => e.1 = k) = (l.find? fun e => e.1 = k).toList := by
  induction l with
  | nil => rfl
  | cons e l ih =>
    obtain ⟨hhead, htail⟩ := nodup_cons.1 h
    by_cases hk : e.1 = k
    · have hnone : (l.filter fun e => e.1 = k) = [] := by
        rw [filter_eq_nil_iff]
        intro e' he'
        simp only [decide_eq_true_eq]
        exact fun hk' => hhead (mem_map.mpr ⟨e', he', hk'.trans hk.symm⟩)
      simp [hk, hnone]
    · simp [hk, ih htail]

/-- **A union, key by key.** -/
theorem find?_unionWith :
    (a.unionWith g b).find? k = ((b.find? k).map (g (a.find? k))).or (a.find? k) := by
  rw [unionWith, find?_foldl_alter_key (fun e : α × β => e.1) (fun e v => some (g v e.2)),
    filter_eq_find? b.nodup_keys]
  simp only [find?]
  cases b.toList.find? fun e => e.1 = k <;> rfl

/-- The keys of a union. -/
@[simp] theorem keys_unionWith : (a.unionWith g b).keys = a.keys ∪ b.keys := by
  ext k
  simp only [Finset.mem_union, mem_keys, find?_unionWith]
  cases a.find? k <;> cases b.find? k <;> simp

/-- A union has at most the entries of both maps. -/
theorem size_unionWith_le : (a.unionWith g b).size ≤ a.size + b.size := by
  rw [← card_keys, ← card_keys, ← card_keys, keys_unionWith]
  exact Finset.card_union_le _ _

/-! ### The first entries -/

/-- The first `n` entries. -/
def take (m : SortedMap α β) (n : ℕ) : SortedMap α β :=
  ⟨m.toList.take n, m.sorted.sublist (take_sublist n _)⟩

variable {n : ℕ}

@[simp] theorem toList_take : (m.take n).toList = m.toList.take n := rfl

/-- The number of entries up to a capacity. -/
@[simp] theorem size_take : (m.take n).size = min n m.size := length_take

/-- No key is added by a capacity. -/
theorem keys_take_subset (n : ℕ) : (m.take n).keys ⊆ m.keys := fun k hk => by
  simp only [keys, mem_toFinset, take] at hk ⊢
  exact ((take_sublist n _).map _).subset hk

/-- The keys below an entry of the map are those of the entries before it. -/
theorem rank_getElem (m : SortedMap α β) {i : ℕ} (hi : i < m.toList.length) :
    m.rank m.toList[i].1 = i := by
  have hsub : m.keys.filter (· < m.toList[i].1) = (m.take i).keys := by
    ext k
    simp only [Finset.mem_filter, keys, take, mem_toFinset, mem_map, mem_take_iff_getElem]
    constructor
    · rintro ⟨⟨e, he, rfl⟩, hlt⟩
      obtain ⟨p, hp, rfl⟩ := getElem_of_mem he
      have hpi : p < i := by
        by_contra hle
        rcases (not_lt.1 hle).lt_or_eq with h | rfl
        · exact hlt.not_gt (pairwise_iff_getElem.1 m.sorted i p hi hp h)
        · exact hlt.ne rfl
      exact ⟨_, ⟨p, by omega, rfl⟩, rfl⟩
    · rintro ⟨e, ⟨p, hp, rfl⟩, rfl⟩
      exact ⟨⟨_, getElem_mem _, rfl⟩, pairwise_iff_getElem.1 m.sorted p i (by omega) hi (by omega)⟩
  rw [rank, hsub, card_keys, size_take, size, Nat.min_eq_left (by omega)]

/-- **The first entries, key by key**: the keys of rank below `n`. -/
theorem find?_take : (m.take n).find? k = if m.rank k < n then m.find? k else none := by
  have hmem : ∀ v, (m.take n).find? k = some v ↔ m.rank k < n ∧ m.find? k = some v := by
    intro v
    simp only [find?_eq_some, take, mem_take_iff_getElem]
    constructor
    · rintro ⟨i, hi, heq⟩
      have hrank : m.rank k = i := by simpa [heq] using m.rank_getElem (i := i) (by omega)
      exact ⟨by omega, heq ▸ getElem_mem _⟩
    · rintro ⟨hlt, hin⟩
      obtain ⟨i, hi, heq⟩ := getElem_of_mem hin
      have hrank : m.rank k = i := by simpa [heq] using m.rank_getElem hi
      exact ⟨i, by omega, heq⟩
  split_ifs with hlt
  · exact Option.ext fun v => by simp [hmem, hlt]
  · exact Option.eq_none_iff_forall_ne_some.2 fun v hv => hlt ((hmem v).1 hv).1

/-- The keys up to a capacity are those of a smaller rank. -/
theorem mem_keys_take : k ∈ (m.take n).keys ↔ k ∈ m.keys ∧ m.rank k < n := by
  rw [mem_keys, mem_keys, find?_take]
  split_ifs with h <;> simp [h]

/-- More keys do not lower a rank. -/
theorem rank_mono (h : a.keys ⊆ b.keys) : a.rank k ≤ b.rank k :=
  Finset.card_le_card (Finset.filter_subset_filter _ h)

/-- A map with at most `n` entries is its own first `n` entries. -/
theorem take_of_size_le (h : m.size ≤ n) : m.take n = m :=
  toList_inj.1 (take_of_length_le h)

/-- If the first `n` keys of a map are also in a second map with no other keys, then the
ranks below `n` agree. -/
theorem rank_lt_iff (hsub : a.keys ⊆ b.keys) (hfirst : (b.take n).keys ⊆ a.keys) :
    a.rank k < n ↔ b.rank k < n := by
  refine ⟨fun h => ?_, (rank_mono hsub).trans_lt⟩
  by_contra hge
  -- all of the first `n` keys of `b` are below `k`
  have hbelow : (b.take n).keys ⊆ a.keys.filter (· < k) := fun j hj => by
    refine Finset.mem_filter.2 ⟨hfirst hj, ?_⟩
    obtain ⟨-, hrank⟩ := mem_keys_take.1 hj
    by_contra hle
    exact hge (lt_of_le_of_lt (Finset.card_le_card fun x hx => by
      obtain ⟨hx, hlt⟩ := Finset.mem_filter.1 hx
      exact Finset.mem_filter.2 ⟨hx, hlt.trans_le (not_lt.1 hle)⟩) hrank)
  have hcard := Finset.card_le_card hbelow
  have hsize : b.rank k ≤ b.size := card_keys b ▸ Finset.card_filter_le _ _
  rw [card_keys, size_take] at hcard
  exact absurd h (by rw [rank]; omega)

/-- **What was dropped stays dropped**: the first `n` entries of a union only depend on the
first `n` entries of the two maps. -/
theorem take_unionWith_take :
    ((a.take n).unionWith g (b.take n)).take n = (a.unionWith g b).take n := by
  have hsub : ((a.take n).unionWith g (b.take n)).keys ⊆ (a.unionWith g b).keys := by
    simpa using Finset.union_subset_union (keys_take_subset n) (keys_take_subset n)
  have hrank : ∀ {k}, (a.unionWith g b).rank k < n → a.rank k < n ∧ b.rank k < n :=
    fun h => ⟨(rank_mono (by simp)).trans_lt h, (rank_mono (by simp)).trans_lt h⟩
  have hfirst : ((a.unionWith g b).take n).keys ⊆
      ((a.take n).unionWith g (b.take n)).keys := fun k hk => by
    obtain ⟨hin, hlt⟩ := mem_keys_take.1 hk
    simp only [keys_unionWith, Finset.mem_union, mem_keys_take, hrank hlt, and_true] at hin ⊢
    exact hin
  refine ext_find? fun k => ?_
  rw [find?_take, find?_take]
  simp only [rank_lt_iff hsub hfirst]
  split_ifs with hlt
  · simp [find?_unionWith, find?_take, hrank hlt]
  · rfl

/-- Adding keys above a map that already has `n` entries leaves its first `n` entries. -/
theorem take_unionWith_of_above (hsize : n ≤ a.size) (h : ∀ j ∈ a.keys, ∀ k ∈ b.keys, j < k) :
    (a.unionWith g b).take n = a.take n := by
  have hsub : a.keys ⊆ (a.unionWith g b).keys := by simp
  -- a key of `b` has all of `a` below it, so its rank is at least `n`
  have hfirst : ((a.unionWith g b).take n).keys ⊆ a.keys := fun k hk => by
    obtain ⟨hin, hlt⟩ := mem_keys_take.1 hk
    by_contra hnot
    have hb : k ∈ b.keys := by simpa [hnot] using hin
    have hall : a.keys ⊆ (a.unionWith g b).keys.filter (· < k) := fun j hj =>
      Finset.mem_filter.2 ⟨hsub hj, h j hj k hb⟩
    have hcard := Finset.card_le_card hall
    rw [card_keys] at hcard
    exact absurd hlt (by rw [rank]; omega)
  refine ext_find? fun k => ?_
  rw [find?_take, find?_take]
  simp only [← rank_lt_iff hsub hfirst]
  split_ifs with hlt
  · have hb : b.find? k = none := find?_eq_none.2 fun hb => by
      have hall : a.keys ⊆ a.keys.filter (· < k) := fun j hj =>
        Finset.mem_filter.2 ⟨hj, h j hj k hb⟩
      have hcard := Finset.card_le_card hall
      rw [card_keys] at hcard
      exact absurd hlt (by rw [rank]; omega)
    simp [find?_unionWith, hb]
  · rfl

/-! ### Inserting and erasing -/

/-- The map with `v` at `k`. -/
def insert (m : SortedMap α β) (k : α) (v : β) : SortedMap α β := m.alter k fun _ => some v

/-- The map without `k`. -/
def erase (m : SortedMap α β) (k : α) : SortedMap α β := m.alter k fun _ => none

/-- What is found after an insertion. -/
theorem find?_insert : (m.insert k v).find? j = if j = k then some v else m.find? j :=
  find?_alter

/-- What is found after an erasure. -/
theorem find?_erase : (m.erase k).find? j = if j = k then none else m.find? j := find?_alter

/-- The keys after an insertion. -/
@[simp] theorem mem_keys_insert : j ∈ (m.insert k v).keys ↔ j = k ∨ j ∈ m.keys := by
  rw [insert, keys_alter_some rfl, Finset.mem_insert]

/-- The keys after an erasure. -/
@[simp] theorem mem_keys_erase : j ∈ (m.erase k).keys ↔ j ≠ k ∧ j ∈ m.keys := by
  rw [mem_keys, mem_keys, erase, find?_alter]
  by_cases hj : j = k <;> simp [hj]

/-- The keys after several insertions. -/
theorem mem_keys_foldl_insert {l : List α} :
    j ∈ (l.foldl (fun m k => m.insert k v) m).keys ↔ j ∈ l ∨ j ∈ m.keys := by
  induction l generalizing m with
  | nil => simp
  | cons k l ih =>
    rw [foldl_cons, ih, mem_keys_insert, mem_cons]
    tauto

/-- What is found after several erasures. -/
theorem find?_foldl_erase {l : List α} :
    (l.foldl erase m).find? k = if k ∈ l then none else m.find? k := by
  exact find?_foldl_alter_idem (f := fun _ _ => none) (fun _ _ => rfl) l m k

/-- The keys after several erasures. -/
theorem mem_keys_foldl_erase {l : List α} : j ∈ (l.foldl erase m).keys ↔ j ∉ l ∧ j ∈ m.keys := by
  rw [mem_keys, mem_keys, find?_foldl_erase]
  by_cases hj : j ∈ l <;> simp [hj]

/-- The keys are the first components of the entries. -/
theorem mem_keys_iff_mem_map : k ∈ m.keys ↔ k ∈ m.toList.map (·.1) := mem_toFinset

/-- A map with fewer keys is not larger. -/
theorem size_le_of_keys_subset {γ : Type*} {m' : SortedMap α γ} (h : m.keys ⊆ m'.keys) :
    m.size ≤ m'.size := by
  rw [← card_keys, ← card_keys]
  exact Finset.card_le_card h

/-- An insertion adds one entry at most. -/
theorem size_insert_le (m : SortedMap α β) (k : α) (v : β) : (m.insert k v).size ≤ m.size + 1 := by
  rw [← card_keys, ← card_keys, insert, keys_alter_some rfl]
  exact Finset.card_insert_le k m.keys

/-- Several insertions add one entry each at most. -/
theorem size_foldl_insert_le (l : List α) (m : SortedMap α β) :
    (l.foldl (fun m k => m.insert k v) m).size ≤ m.size + l.length := by
  induction l generalizing m with
  | nil => exact le_rfl
  | cons k l ih =>
    have hinsert := m.size_insert_le k v
    have hrest := ih (m.insert k v)
    rw [foldl_cons, length_cons]
    omega

/-- A map without keys has no entries. -/
theorem size_eq_zero_iff : m.size = 0 ↔ ∀ k, k ∉ m.keys := by
  rw [← card_keys, Finset.card_eq_zero, Finset.eq_empty_iff_forall_notMem]

/-! ### The ends of a map -/

/-- The entry with the smallest key. -/
def first? (m : SortedMap α β) : Option (α × β) := m.toList.head?

/-- The entry with the greatest key. -/
def last? (m : SortedMap α β) : Option (α × β) := m.toList.getLast?

/-- The first key is the least. -/
theorem first?_le (h : m.first? = some e) (hk : k ∈ m.keys) : e.1 ≤ k := by
  obtain ⟨y, hy, rfl⟩ := mem_map.1 (mem_toFinset.1 hk)
  obtain ⟨l, hl⟩ := m
  obtain ⟨rest, rfl⟩ := head?_eq_some_iff.1 h
  exact (hl.imp le_of_lt).rel_head_of_rel_head_head hy le_rfl

/-- The last key is the greatest. -/
theorem le_last? (h : m.last? = some e) (hk : k ∈ m.keys) : k ≤ e.1 := by
  obtain ⟨y, hy, rfl⟩ := mem_map.1 (mem_toFinset.1 hk)
  obtain ⟨l, hl⟩ := m
  obtain ⟨init, rfl⟩ := getLast?_eq_some_iff.1 h
  have hle := (hl.imp le_of_lt).rel_getLast_of_rel_getLast_getLast hy le_rfl
  rwa [getLast_concat] at hle

/-- The greatest key. -/
theorem last?_map_fst_eq_some : m.last?.map (·.1) = some k ↔ k ∈ m.keys ∧ ∀ j ∈ m.keys, j ≤ k := by
  constructor
  · intro h
    obtain ⟨e, he, rfl⟩ := Option.map_eq_some_iff.mp h
    exact ⟨mem_keys_of_mem (mem_of_getLast? he), fun j hj => le_last? he hj⟩
  · rintro ⟨hk, hle⟩
    cases hlast : m.last? with
    | none =>
      rw [last?, getLast?_eq_none_iff] at hlast
      simp [keys, hlast] at hk
    | some e =>
      have hmem : e.1 ∈ m.keys := mem_keys_of_mem (mem_of_getLast? hlast)
      exact congrArg some (le_antisymm (hle e.1 hmem) (le_last? hlast hk))

/-! ### The entries up to their order -/

/-- A list of the entries in any order. -/
theorem perm_toList_iff (hl : (l.map (·.1)).Nodup) :
    m.toList.Perm l ↔ ∀ k v, m.find? k = some v ↔ (k, v) ∈ l := by
  have hnodup : m.toList.Nodup := m.nodup_keys.of_map _
  constructor
  · intro h k v
    rw [find?_eq_some, h.mem_iff]
  · intro h
    refine (perm_ext_iff_of_nodup hnodup (hl.of_map _)).mpr fun e => ?_
    rw [← h e.1 e.2, find?_eq_some]

/-- An entry and the others. -/
theorem perm_cons_erase (h : m.find? k = some v) :
    m.toList.Perm ((k, v) :: (m.erase k).toList) := by
  have hfind : ∀ j, (m.erase k).find? j = if j = k then none else m.find? j := fun j => find?_alter
  refine (perm_toList_iff ?_).mpr fun j w => ?_
  · rw [map_cons, nodup_cons]
    refine ⟨fun hin => ?_, nodup_keys _⟩
    rw [← mem_keys_iff_mem_map, mem_keys_erase] at hin
    exact hin.1 rfl
  · rw [mem_cons, ← find?_eq_some, hfind]
    by_cases hj : j = k
    · subst hj
      rw [h]
      simp [eq_comm]
    · simp [hj]

/-- A new entry, or a new value of an entry. -/
theorem perm_toList_insert (m : SortedMap α β) (k : α) (v : β) :
    (m.insert k v).toList.Perm ((k, v) :: (m.erase k).toList) := by
  have hinsert : (m.insert k v).find? k = some v := by
    rw [insert, find?_alter, if_pos rfl]
  have herase : (m.insert k v).erase k = m.erase k := by
    refine ext_find? fun j => ?_
    rw [erase, erase, insert, find?_alter, find?_alter, find?_alter]
    split_ifs <;> rfl
  have hperm := perm_cons_erase hinsert
  rwa [herase] at hperm

/-- A key that is not there is erased without effect. -/
theorem erase_of_find?_eq_none (h : m.find? k = none) : m.erase k = m := by
  refine ext_find? fun j => ?_
  rw [erase, find?_alter]
  split_ifs with hj
  · rw [hj, h]
  · rfl

end SortedMap
