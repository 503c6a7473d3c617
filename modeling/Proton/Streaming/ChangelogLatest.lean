import Proton.Lib.SignedRows
import Proton.Streaming.ChangelogConvert

/-!
# The Changelog Has the Latest Rows

Between chunks the index of `ChangelogConvertTransform` has a reference to the latest row of every
key. A loop invariant follows the rows of one chunk: what the filter keeps, together with the rows
that were there before the chunk, is what is there now, together with what is retracted. The
references stay good since a chunk is erased only when its last reference is dropped, and a row of
the last chunk that is still to come counts as one.

## Main results

* `Loop.indexRow`, `Loop.foldlM_indexRow`: the loop invariant, for one row and for all of them.
* `ChangelogConvertTransform.Valid.work`: a chunk outputs the change of the rows of the index.
* `ChangelogConvertTransform.output_latest`: the output of a run is the latest row of every key.
-/

open List SortedMap SignedRows

namespace Proton.Streaming

variable {R K W O : Type} [LinearOrder W]

/-! ### The latest row -/

namespace ChangelogConvertConfig

variable {cfg : ChangelogConvertConfig R K W O} {rows : List R} {k : K} {row : R}

/-- A row takes the place of an earlier one of its key: always without a version column, and
otherwise if its version is higher, or the same when late rows override. -/
def Overrides (cfg : ChangelogConvertConfig R K W O) (prev current : R) : Prop :=
  match cfg.versionColumn with
  | none => True
  | some version => version prev < version current ∨
      cfg.lateInsertOverrides ∧ version current = version prev

instance (prev current : R) : Decidable (cfg.Overrides prev current) :=
  match h : cfg.versionColumn with
  | none => isTrue (by rw [Overrides, h]; trivial)
  | some version => decidable_of_iff (version prev < version current ∨
      cfg.lateInsertOverrides ∧ version current = version prev) (by rw [Overrides, h])

/-- The row is the latest of its key: it takes the place of every row before it, and no row after
it takes its place. -/
def Latest (cfg : ChangelogConvertConfig R K W O) (rows : List R) (k : K) (row : R) : Prop :=
  ∃ before after, rows = before ++ row :: after ∧ cfg.keyColumns row = k ∧
    (∀ other ∈ before, cfg.keyColumns other = k → cfg.Overrides other row) ∧
    ∀ other ∈ after, cfg.keyColumns other = k → ¬ cfg.Overrides row other

/-- A row overrides what an overridden row does. -/
theorem Overrides.trans {a b c : R} (h : cfg.Overrides a b) (h' : cfg.Overrides b c) :
    cfg.Overrides a c := by
  rw [Overrides] at *
  split at h
  · trivial
  · rename_i version hversion
    rw [hversion] at h'
    rcases h with hlt | ⟨hlate, heq⟩
    · rcases h' with hlt' | ⟨-, heq'⟩
      · exact .inl (hlt.trans hlt')
      · exact .inl (heq' ▸ hlt)
    · rcases h' with hlt' | ⟨-, heq'⟩
      · exact .inl (heq ▸ hlt')
      · exact .inr ⟨hlate, heq'.trans heq⟩

/-- What takes the place of a row takes that of a row that does not. -/
theorem Overrides.of_not {a b c : R} (h : ¬ cfg.Overrides b a) (h' : cfg.Overrides b c) :
    cfg.Overrides a c := by
  rw [Overrides] at *
  split at h
  · trivial
  · rename_i version hversion
    rw [hversion] at h'
    obtain ⟨hle, hne⟩ := not_or.mp h
    rcases h' with hlt' | ⟨hlate, heq'⟩
    · exact .inl ((not_lt.mp hle).trans_lt hlt')
    · exact .inl (lt_of_le_of_ne (heq'.symm ▸ not_lt.mp hle) fun heq =>
        hne ⟨hlate, heq.trans heq'⟩)

/-- The latest row of a key has this key. -/
theorem Latest.key_eq (h : cfg.Latest rows k row) : cfg.keyColumns row = k := by
  obtain ⟨before, after, -, hkey, -⟩ := h
  exact hkey

/-- A row that does not take the place of the latest one, or has another key. -/
theorem Latest.concat (h : cfg.Latest rows k row) {new : R}
    (hnot : cfg.keyColumns new = k → ¬ cfg.Overrides row new) :
    cfg.Latest (rows ++ [new]) k row := by
  obtain ⟨before, after, rfl, hkey, hbefore, hafter⟩ := h
  refine ⟨before, after ++ [new], by simp, hkey, hbefore, fun other hother heq => ?_⟩
  rcases mem_append.mp hother with hother | hother
  · exact hafter other hother heq
  · rw [mem_singleton.mp hother] at heq ⊢
    exact hnot heq

/-- A row that takes the place of the latest one. -/
theorem Latest.concat_of_overrides (h : cfg.Latest rows k row) {new : R}
    (hkey : cfg.keyColumns new = k) (hoverrides : cfg.Overrides row new) :
    cfg.Latest (rows ++ [new]) k new := by
  obtain ⟨before, after, rfl, hrow, hbefore, hafter⟩ := h
  refine ⟨before ++ row :: after, [], by simp, hkey, fun other hother heq => ?_, nofun⟩
  rcases mem_append.mp hother with hother | hother
  · exact (hbefore other hother heq).trans hoverrides
  · rcases mem_cons.mp hother with rfl | hother
    · exact hoverrides
    · exact .of_not (hafter other hother heq) hoverrides

end ChangelogConvertConfig

/-! ### The filter -/

section Filter

/-- The element at a position splits a list. -/
theorem exists_split {α : Type*} {l : List α} {i : ℕ} {a : α} (h : l[i]? = some a) :
    ∃ front back, l = front ++ a :: back ∧ front.length = i := by
  obtain ⟨hi, rfl⟩ := List.getElem?_eq_some_iff.mp h
  exact ⟨l.take i, l.drop (i + 1), by rw [getElem_cons_drop, take_append_drop],
    length_take_of_le hi.le⟩

/-- Rows are kept in either half. -/
theorem keepRows_append {rows : List R} {filter : List Bool} (h : rows.length = filter.length)
    (rows' : List R) (filter' : List Bool) :
    keepRows (rows ++ rows') (filter ++ filter') =
      keepRows rows filter ++ keepRows rows' filter' := by
  rw [keepRows, zip_append h, filter_append, map_append]
  rfl

/-- One more row is kept or not. -/
theorem keepRows_take_succ {rows : List R} {filter : List Bool} {i : ℕ} {row : R} {keep : Bool}
    (hrow : rows[i]? = some row) (hkeep : filter[i]? = some keep) :
    keepRows (rows.take (i + 1)) filter =
      keepRows (rows.take i) filter ++ if keep then [row] else [] := by
  obtain ⟨front, back, rfl, rfl⟩ := exists_split hrow
  obtain ⟨front', back', rfl, hlength⟩ := exists_split hkeep
  rw [take_left, take_append, take_of_length_le (Nat.le_succ _), keepRows_append hlength.symm]
  have hfront := keepRows_append hlength.symm [] (keep :: back')
  rw [append_nil] at hfront
  rw [hfront]
  cases keep <;> simp [keepRows]

/-- A row that is no longer kept. -/
theorem keepRows_set {rows : List R} {filter : List Bool} {i : ℕ} {row : R}
    (hrow : rows[i]? = some row) (hkeep : filter[i]? = some true) :
    (keepRows rows filter).Perm (row :: keepRows rows (filter.set i false)) := by
  obtain ⟨front, back, rfl, rfl⟩ := exists_split hrow
  obtain ⟨front', back', rfl, hlength⟩ := exists_split hkeep
  rw [← hlength, set_append_right _ _ le_rfl, Nat.sub_self,
    keepRows_append hlength.symm, keepRows_append hlength.symm]
  exact perm_middle

/-- A row beyond the others. -/
theorem keepRows_set_of_length_le {rows : List R} {filter : List Bool} {i : ℕ}
    (h : rows.length ≤ i) (keep : Bool) :
    keepRows rows (filter.set i keep) = keepRows rows filter := by
  induction rows generalizing filter i with
  | nil => rfl
  | cons first rows ih =>
    cases filter with
    | nil => rfl
    | cons keepFirst filter =>
      obtain ⟨i, rfl⟩ : ∃ i', i = i' + 1 := ⟨i - 1, by simp at h; omega⟩
      have hrest : keepRows rows (filter.set i keep) = keepRows rows filter := ih (by simpa using h)
      simp only [keepRows] at hrest ⊢
      cases keepFirst <;> simp [hrest]

end Filter

/-! ### The rows of the index -/

variable [LinearOrder K]

section Contents

variable {chunks chunks' : RefCountDataBlockList R} {index : SortedMap K RowRefWithRefCount}
  {k : K} {ref ref' : RowRefWithRefCount} {row prev : R}

/-- The references of an index. -/
def refs (index : SortedMap K RowRefWithRefCount) : List RowRefWithRefCount :=
  index.toList.map (·.2)

/-- The rows of an index. -/
def contents (chunks : RefCountDataBlockList R) (index : SortedMap K RowRefWithRefCount) : List R :=
  (refs index).filterMap chunks.get

/-- What is found is a reference of the index. -/
theorem mem_refs {j : K} (h : index.find? j = some ref) : ref ∈ refs index :=
  mem_map.mpr ⟨(j, ref), find?_eq_some.mp h, rfl⟩

/-- A new reference replaces that of its key. -/
theorem refs_insert (index : SortedMap K RowRefWithRefCount) (k : K) (ref : RowRefWithRefCount) :
    (refs (index.insert k ref)).Perm (ref :: refs (index.erase k)) :=
  (perm_toList_insert index k ref).map Prod.snd

/-- An erased reference is one of the index. -/
theorem refs_erase (h : index.find? k = some ref) :
    (refs index).Perm (ref :: refs (index.erase k)) :=
  (perm_cons_erase h).map Prod.snd

/-- The row of an erased reference is gone. -/
theorem contents_erase (h : index.find? k = some ref) (hget : chunks.get ref = some row) :
    (contents chunks index).Perm (row :: contents chunks (index.erase k)) := by
  have hperm := (refs_erase h).filterMap chunks.get
  rwa [filterMap_cons_some hget] at hperm

/-- The rows are those that the references refer to. -/
theorem contents_congr (h : ∀ ref ∈ refs index, chunks'.get ref = chunks.get ref) :
    contents chunks' index = contents chunks index :=
  filterMap_congr h

end Contents

/-! ### The loop -/

/-- The loop after the first rows of a chunk: `before` are the rows of the chunks before it, and
`old` the rows of the index before it. -/
structure Loop (cfg : ChangelogConvertConfig R K W O) (before chunk old : List R) (last i : ℕ)
    [DecidableEq O] (s : RetractState R K O) : Prop where
  holds : s.sourceChunks.Holds (refs s.index) last (chunk.length - i)
  lastIter : s.sourceChunks.lastDataBlockIter = some last
  get : ∀ j, s.sourceChunks.get ⟨last, j⟩ = chunk[j]?
  latest : ∀ k ref, s.index.find? k = some ref →
    ∃ row, s.sourceChunks.get ref = some row ∧ cfg.Latest (before ++ chunk.take i) k row
  keys : ∀ k, k ∈ s.index.keys ↔ ∃ row ∈ before ++ chunk.take i, cfg.keyColumns row = k
  /-- A key of the chunk: its last kept row. -/
  retracted : ∀ k j, s.retracted.find? k = some j →
    j < i ∧ s.index.find? k = some ⟨last, j⟩ ∧ s.filter[j]? = some true
  rest : ∀ j, i ≤ j → j < chunk.length → s.filter[j]? = some true
  length : s.filter.length = chunk.length
  /-- What was kept and was there before is there now or was retracted. -/
  count : ∀ o, ((keepRows (chunk.take i) s.filter).map cfg.outputColumns).count o +
      (old.map cfg.outputColumns).count o =
    ((contents s.sourceChunks s.index).map cfg.outputColumns).count o + s.retractChunk.count o

namespace Loop

variable [DecidableEq O] {cfg : ChangelogConvertConfig R K W O} {before chunk old : List R}
  {last i : ℕ} {s : RetractState R K O} {row : R}

/-- One more row of the chunk was seen. -/
theorem take_succ (hi : chunk[i]? = some row) :
    before ++ chunk.take (i + 1) = before ++ chunk.take i ++ [row] := by
  rw [take_add_one, hi, append_assoc]
  rfl

section

variable (h : Loop cfg before chunk old last i s) (hi : chunk[i]? = some row)
include h hi

/-- The index has the keys of all rows that were seen. -/
theorem keys_succ (ref : RowRefWithRefCount) (k : K) :
    k ∈ (s.index.insert (cfg.keyColumns row) ref).keys ↔
      ∃ other ∈ before ++ chunk.take (i + 1), cfg.keyColumns other = k := by
  rw [mem_keys_insert, h.keys, take_succ hi]
  constructor
  · rintro (rfl | ⟨other, hother, heq⟩)
    · exact ⟨row, mem_append_right _ mem_cons_self, rfl⟩
    · exact ⟨other, mem_append_left _ hother, heq⟩
  · rintro ⟨other, hother, heq⟩
    rcases mem_append.mp hother with hother | hother
    · exact .inr ⟨other, hother, heq⟩
    · rw [mem_singleton.mp hother] at heq
      exact .inl heq.symm

/-- A late row. -/
theorem late
    {mapped : RowRefWithRefCount} (hmapped : s.index.find? (cfg.keyColumns row) = some mapped)
    {prev : R} (hprev : s.sourceChunks.get mapped = some prev) (hlate : ¬ cfg.Overrides prev row) :
    Loop cfg before chunk old last (i + 1)
      { s with filter := s.filter.set i false, lateRows := s.lateRows + 1 } := by
  have hlt : i < chunk.length := (List.getElem?_eq_some_iff.mp hi).1
  have hother : ∀ j, j ≠ i → (s.filter.set i false)[j]? = s.filter[j]? :=
    fun j hj => getElem?_set_ne hj.symm
  refine ⟨h.holds.mono (by omega), h.lastIter, h.get, fun k ref hfind => ?_, fun k => ?_,
    fun k j hj => ?_, fun j hj hj' => ?_, by simpa using h.length, fun o => ?_⟩
  · obtain ⟨found, hfound, hlatest⟩ := h.latest k ref hfind
    refine ⟨found, hfound, ?_⟩
    rw [take_succ hi]
    refine hlatest.concat fun hkey => ?_
    -- the index has one row of the key
    rw [← hkey, hmapped] at hfind
    cases hfind
    rw [hprev] at hfound
    cases hfound
    exact hlate
  · rw [← h.keys_succ hi mapped, mem_keys_insert, or_iff_right_of_imp]
    rintro rfl
    rw [SortedMap.mem_keys, hmapped]
    rfl
  · obtain ⟨hji, hindex, hfilter⟩ := h.retracted k j hj
    exact ⟨by omega, hindex, (hother j (by omega)).trans hfilter⟩
  · exact (hother j (by omega)).trans (h.rest j (by omega) hj')
  · have hset : (s.filter.set i false)[i]? = some false :=
      getElem?_set_self (by rw [h.length]; exact hlt)
    rw [keepRows_take_succ hi hset, if_neg Bool.false_ne_true, append_nil,
      keepRows_set_of_length_le (by simp)]
    exact h.count o

/-- The row takes the place of what the index has for its key. -/
theorem store {sourceChunks : RefCountDataBlockList R}
    (hholds : sourceChunks.Holds (refs (s.index.erase (cfg.keyColumns row))) last
      (chunk.length - i)) (hlast : sourceChunks.lastDataBlockIter = some last)
    (hgetLast : ∀ j, sourceChunks.get ⟨last, j⟩ = s.sourceChunks.get ⟨last, j⟩)
    (hget : ∀ ref ∈ refs (s.index.erase (cfg.keyColumns row)),
      sourceChunks.get ref = s.sourceChunks.get ref)
    (hlatest : cfg.Latest (before ++ chunk.take i ++ [row]) (cfg.keyColumns row) row)
    (filter : List Bool) (retractChunk : List O) (hlength : filter.length = chunk.length)
    (hfilter : ∀ j, s.filter[j]? = some true →
      s.retracted.find? (cfg.keyColumns row) ≠ some j → filter[j]? = some true)
    (hcount : ∀ o, ((keepRows (chunk.take i) filter).map cfg.outputColumns).count o +
        (old.map cfg.outputColumns).count o =
      ((contents s.sourceChunks (s.index.erase (cfg.keyColumns row))).map
        cfg.outputColumns).count o + retractChunk.count o) :
    Loop cfg before chunk old last (i + 1)
      { s with
        sourceChunks, filter, retractChunk
        index := s.index.insert (cfg.keyColumns row) ⟨last, i⟩
        retracted := s.retracted.insert (cfg.keyColumns row) i } := by
  have hlt : i < chunk.length := (List.getElem?_eq_some_iff.mp hi).1
  have hnew : sourceChunks.get ⟨last, i⟩ = some row := (hgetLast i).trans ((h.get i).trans hi)
  have hunseen : s.retracted.find? (cfg.keyColumns row) ≠ some i := fun hseen =>
    lt_irrefl i (h.retracted _ i hseen).1
  have hkeep : filter[i]? = some true := hfilter i (h.rest i le_rfl hlt) hunseen
  refine ⟨?_, hlast, fun j => (hgetLast j).trans (h.get j), fun k ref hfind => ?_,
    h.keys_succ hi _, fun k j hj => ?_, fun j hj hj' => ?_, hlength, fun o => ?_⟩
  · rw [show chunk.length - i = chunk.length - (i + 1) + 1 by omega] at hholds
    exact (hholds.acquire i (by rw [hnew]; rfl)).perm (refs_insert _ _ _).symm
  · rw [find?_insert] at hfind
    rw [take_succ hi]
    split_ifs at hfind with hk
    · cases hfind
      exact ⟨row, hnew, hk ▸ hlatest⟩
    · obtain ⟨found, hfound, hlatest⟩ := h.latest k ref hfind
      refine ⟨found, ?_, hlatest.concat fun hkey => absurd hkey.symm hk⟩
      rw [hget ref (mem_refs (j := k) ?_), hfound]
      rwa [find?_erase, if_neg hk]
  · rw [find?_insert] at hj ⊢
    split_ifs at hj ⊢ with hk
    · cases hj
      exact ⟨Nat.lt_succ_self i, rfl, hkeep⟩
    · obtain ⟨hji, hindex, hkept⟩ := h.retracted k j hj
      refine ⟨by omega, hindex, hfilter j hkept fun hseen => hk ?_⟩
      -- the row of two keys would be the same
      obtain ⟨found, hfound, hlatest⟩ := h.latest k _ hindex
      obtain ⟨found', hfound', hlatest'⟩ := h.latest _ _ (h.retracted _ j hseen).2.1
      rw [hfound] at hfound'
      cases hfound'
      exact hlatest.key_eq.symm.trans hlatest'.key_eq
  · refine hfilter j (h.rest j (by omega) hj') fun hseen => ?_
    have := (h.retracted _ j hseen).1
    omega
  · have hperm := (refs_insert s.index (cfg.keyColumns row) ⟨last, i⟩).filterMap sourceChunks.get
    rw [filterMap_cons_some hnew, ← contents, ← contents, contents_congr hget] at hperm
    dsimp only
    rw [((hperm.map cfg.outputColumns).count_eq o), keepRows_take_succ hi hkeep, if_pos rfl,
      map_append, count_append, map_cons, count_cons, map_cons,
      map_nil, count_cons, count_nil]
    have := hcount o
    omega

/-- A row of a new key. -/
theorem new (hnew : s.index.find? (cfg.keyColumns row) = none) :
    Loop cfg before chunk old last (i + 1)
      { s with
        index := s.index.insert (cfg.keyColumns row) ⟨last, i⟩
        retracted := s.retracted.alter (cfg.keyColumns row) fun seen => some (seen.getD i) } := by
  have herase := erase_of_find?_eq_none hnew
  have hunseen : s.retracted.find? (cfg.keyColumns row) = none := by
    cases hseen : s.retracted.find? (cfg.keyColumns row) with
    | none => rfl
    | some j => cases hnew ▸ (h.retracted _ j hseen).2.1
  have hretracted : s.retracted.alter (cfg.keyColumns row) (fun seen => some (seen.getD i)) =
      s.retracted.insert (cfg.keyColumns row) i := by
    refine ext_find? fun k => ?_
    rw [find?_alter, find?_insert, hunseen]
    rfl
  have hlatest : cfg.Latest (before ++ chunk.take i ++ [row]) (cfg.keyColumns row) row := by
    -- the first row of a key
    refine ⟨_, [], rfl, rfl, fun other hother heq => ?_, nofun⟩
    have hin := (h.keys (cfg.keyColumns row)).mpr ⟨other, hother, heq⟩
    rw [SortedMap.mem_keys, hnew] at hin
    cases hin
  rw [hretracted]
  refine h.store hi ?_ h.lastIter (fun _ => rfl) (fun _ _ => rfl) hlatest s.filter s.retractChunk
    h.length (fun j hj _ => hj) ?_
  · rw [herase]
    exact h.holds
  · rw [herase]
    exact h.count

/-- A row that takes the place of another one, which is no longer kept or is retracted. -/
theorem retractAndUpdate {mapped : RowRefWithRefCount}
    (hmapped : s.index.find? (cfg.keyColumns row) = some mapped) {prev : R}
    (hprev : s.sourceChunks.get mapped = some prev) (hoverrides : cfg.Overrides prev row) :
    ∃ s', s.retractAndUpdate cfg (cfg.keyColumns row) mapped i = some s' ∧
      Loop cfg before chunk old last (i + 1) s' := by
  have hlt : i < chunk.length := (List.getElem?_eq_some_iff.mp hi).1
  obtain ⟨sourceChunks, hderef, hholds, hget, hpending⟩ := (h.holds.perm (refs_erase hmapped)).deref
  obtain ⟨hgetLast, hlastIter⟩ := hpending (by omega)
  have hlast := hlastIter h.lastIter
  have hlatest : cfg.Latest (before ++ chunk.take i ++ [row]) (cfg.keyColumns row) row := by
    obtain ⟨found, hfound, hlatest⟩ := h.latest _ _ hmapped
    rw [hprev] at hfound
    cases hfound
    exact hlatest.concat_of_overrides rfl hoverrides
  have hstore := h.store hi hholds hlast hgetLast hget hlatest
  have hcount : ∀ o, ((keepRows (chunk.take i) s.filter).map cfg.outputColumns).count o +
      (old.map cfg.outputColumns).count o =
      ((contents s.sourceChunks (s.index.erase (cfg.keyColumns row))).map
        cfg.outputColumns).count o + (if cfg.outputColumns prev == o then 1 else 0) +
      s.retractChunk.count o := by
    intro o
    rw [h.count o, ((contents_erase hmapped hprev).map cfg.outputColumns).count_eq o,
      map_cons, count_cons]
  rw [RetractState.retractAndUpdate]
  cases hseen : s.retracted.find? (cfg.keyColumns row) with
  | none =>
    refine ⟨_, ?_, hstore s.filter (s.retractChunk ++ [cfg.outputColumns prev]) h.length
      (fun j hj _ => hj) fun o => ?_⟩
    · simp only [hprev, bind, pure, Option.bind_some, hderef, hlast]
    · rw [hcount o, count_append, count_cons, count_nil]
      omega
  | some seen =>
    obtain ⟨hlt, hindex, hkept⟩ := h.retracted _ seen hseen
    -- what it takes the place of is a row of the chunk
    have hrow : (chunk.take i)[seen]? = some prev := by
      rw [hmapped] at hindex
      cases hindex
      rw [getElem?_take_of_lt hlt, ← h.get, hprev]
    have hfilter : ∀ j, s.filter[j]? = some true →
        s.retracted.find? (cfg.keyColumns row) ≠ some j →
        (s.filter.set seen false)[j]? = some true := by
      intro j hj hne
      have hother : seen ≠ j := by
        rintro rfl
        exact hne hseen
      rw [getElem?_set_ne hother]
      exact hj
    refine ⟨_, ?_, hstore (s.filter.set seen false) s.retractChunk (by simpa using h.length)
      hfilter fun o => ?_⟩
    · simp only [bind, pure, Option.bind_some, hderef, hlast]
    · have hall := hcount o
      rw [((keepRows_set hrow hkept).map cfg.outputColumns).count_eq o, map_cons,
        count_cons] at hall
      omega

/-- **One row.** -/
theorem indexRow :
    ∃ s', s.indexRow cfg last (cfg.keyColumns row, i) = some s' ∧
      Loop cfg before chunk old last (i + 1) s' := by
  rw [RetractState.indexRow]
  cases hmapped : s.index.find? (cfg.keyColumns row) with
  | none =>
    refine ⟨_, ?_, h.new hi hmapped⟩
    simp only [h.lastIter]
    rfl
  | some mapped =>
    obtain ⟨prev, hprev, -⟩ := h.latest _ _ hmapped
    have hlate : s.isLate cfg last mapped i = some (decide (¬ cfg.Overrides prev row)) := by
      have hcurrent : s.sourceChunks.get ⟨last, i⟩ = some row := (h.get i).trans hi
      rw [RetractState.isLate]
      split
      · rename_i hversion
        have htrue : cfg.Overrides prev row := by
          rw [ChangelogConvertConfig.Overrides, hversion]
          trivial
        simp [htrue]
      · rename_i version hversion
        rw [hprev, hcurrent]
        refine congrArg some (decide_eq_decide.mpr (not_congr ?_))
        rw [ChangelogConvertConfig.Overrides, hversion]
    dsimp only
    rw [hlate]
    by_cases hoverrides : cfg.Overrides prev row
    · obtain ⟨s', heq, hloop⟩ := h.retractAndUpdate hi hmapped hprev hoverrides
      refine ⟨s', ?_, hloop⟩
      simp only [hoverrides]
      exact heq
    · refine ⟨_, ?_, h.late hi hmapped hprev hoverrides⟩
      simp only [hoverrides]
      rfl

end

/-- **All rows.** -/
theorem foldlM_indexRow (h : Loop cfg before chunk old last i s) (hi : i ≤ chunk.length) :
    ∃ s', (((chunk.drop i).map cfg.keyColumns).zipIdx i).foldlM
        (RetractState.indexRow cfg last) s = some s' ∧
      Loop cfg before chunk old last chunk.length s' := by
  induction hrest : chunk.drop i generalizing i s with
  | nil =>
    have hlength : i = chunk.length := le_antisymm hi (drop_eq_nil_iff.mp hrest)
    exact ⟨s, rfl, hlength ▸ h⟩
  | cons row rest ih =>
    obtain ⟨hrow, hdrop⟩ := getElem?_of_drop_eq_cons hrest
    obtain ⟨s', hstep, hloop⟩ := h.indexRow hrow
    obtain ⟨s'', hfold, hloop'⟩ := ih hloop (List.getElem?_eq_some_iff.mp hrow).1 hdrop
    refine ⟨s'', ?_, hloop'⟩
    rw [map_cons, zipIdx_cons, foldlM_cons, hstep]
    exact hfold

/-- All rows, when each has a new key. -/
theorem foldl_insert (h : Loop cfg before chunk old last i s) (hi : i ≤ chunk.length)
    (hnodup : ((chunk.drop i).map cfg.keyColumns).Nodup)
    (hnew : ∀ row ∈ chunk.drop i, cfg.keyColumns row ∉ s.index.keys) :
    ∃ s' : RetractState R K O, Loop cfg before chunk old last chunk.length s' ∧
      s'.index = ((chunk.drop i).zipIdx i).foldl
        (fun index row => index.insert (cfg.keyColumns row.1) ⟨last, row.2⟩) s.index ∧
      s'.sourceChunks = s.sourceChunks ∧ s'.filter = s.filter ∧
      s'.retractChunk = s.retractChunk := by
  induction hrest : chunk.drop i generalizing i s with
  | nil =>
    have hlength : i = chunk.length := le_antisymm hi (drop_eq_nil_iff.mp hrest)
    exact ⟨s, hlength ▸ h, rfl, rfl, rfl, rfl⟩
  | cons row rest ih =>
    obtain ⟨hrow, hdrop⟩ := getElem?_of_drop_eq_cons hrest
    rw [hrest, map_cons, nodup_cons] at hnodup
    rw [hrest] at hnew
    have hfirst := find?_eq_none.mpr (hnew row mem_cons_self)
    refine ih (h.new hrow hfirst) (List.getElem?_eq_some_iff.mp hrow).1 (hdrop ▸ hnodup.2)
      (fun other hother => ?_) hdrop
    rw [hdrop] at hother
    rw [mem_keys_insert, not_or]
    refine ⟨fun heq => hnodup.1 ?_, hnew other (mem_cons_of_mem _ hother)⟩
    exact mem_map.mpr ⟨other, hother, heq⟩

end Loop

/-! ### A chunk -/

/-- As many rows are kept as the filter says. -/
theorem length_keepRows {rows : List R} {filter : List Bool} (h : filter.length = rows.length) :
    (keepRows rows filter).length = filter.count true := by
  induction rows generalizing filter with
  | nil => rw [length_eq_zero_iff.mp h]; rfl
  | cons row rows ih =>
    cases filter with
    | nil => cases h
    | cons keep filter =>
      have hrest := ih (Nat.succ.inj h)
      simp only [keepRows] at hrest ⊢
      cases keep <;> simp [hrest]

/-- The rows that are kept stay in order. -/
theorem keepRows_sublist (rows : List R) (filter : List Bool) :
    (keepRows rows filter).Sublist rows := by
  induction rows generalizing filter with
  | nil => exact .slnil
  | cons row rows ih =>
    cases filter with
    | nil => exact nil_sublist _
    | cons keep filter =>
      cases keep with
      | false => exact (ih filter).cons row
      | true => exact (ih filter).cons_cons row

namespace ChangelogConvertTransform

variable [DecidableEq O] {cfg : ChangelogConvertConfig R K W O} {before : List R}

/-- The rows of output chunks. -/
def outputRows (chunks : List (OutputChunk O)) : List (O × ℤ) := chunks.flatMap (·.rows)

omit [LinearOrder W] [DecidableEq O] in
/-- The retractions, and then the insertions. -/
theorem outputRows_resultChunks {rows : List R} {s : RetractState R K O}
    (hlength : s.filter.length = rows.length) :
    outputRows (resultChunks cfg rows s) = withDelta (-1) s.retractChunk ++
      withDelta 1 ((keepRows rows s.filter).map cfg.outputColumns) := by
  have hkept := length_keepRows hlength
  have hresult : (if s.filter.count true = rows.length then
        (⟨withDelta 1 (rows.map cfg.outputColumns), false⟩ : OutputChunk O)
      else if s.filter.count true ≠ 0 then
        ⟨withDelta 1 ((keepRows rows s.filter).map cfg.outputColumns), false⟩
      else ⟨[], false⟩).rows = withDelta 1 ((keepRows rows s.filter).map cfg.outputColumns) := by
    split_ifs with hall hnone
    · rw [(keepRows_sublist rows s.filter).eq_of_length (hkept.trans hall)]
    · rfl
    · rw [length_eq_zero_iff.mp (hkept.trans (not_not.mp hnone))]
      rfl
  have hretract : outputRows (if s.retractChunk = [] then []
      else [(⟨withDelta (-1) s.retractChunk, true⟩ : OutputChunk O)]) =
        withDelta (-1) s.retractChunk := by
    split_ifs with hempty
    · rw [hempty]
      rfl
    · exact append_nil _
  rw [resultChunks, outputRows, flatMap_append, ← outputRows, hretract, flatMap_cons,
    flatMap_nil, append_nil, hresult]

variable (cfg)

/-- What holds between chunks, after the rows `before`. -/
structure Valid (before : List R) (s : ChangelogConvertTransform R K) : Prop where
  holds : ∃ target, s.sourceChunks.Holds (refs s.index) target 0
  latest : ∀ k ref, s.index.find? k = some ref →
    ∃ row, s.sourceChunks.get ref = some row ∧ cfg.Latest before k row
  keys : ∀ k, k ∈ s.index.keys ↔ ∃ row ∈ before, cfg.keyColumns row = k

/-- The rows of a chunk have new keys, if they are taken for that. -/
def NewKeys (s : ChangelogConvertTransform R K) (chunk : InputChunk R) : Prop :=
  s.backfillingNewKeys cfg = true → (chunk.rows.map cfg.keyColumns).Nodup ∧
    ∀ row ∈ chunk.rows, cfg.keyColumns row ∉ s.index.keys

/-- What is output for a chunk is the change of the rows of the index, retractions first. -/
structure Exact (s s' : ChangelogConvertTransform R K) (output : List (OutputChunk O)) : Prop where
  retractionsFirst : ∃ retracted inserted : List O,
    outputRows output = withDelta (-1) retracted ++ withDelta 1 inserted
  weight : ∀ o, weight (outputRows output) o =
    ((contents s'.sourceChunks s'.index).map cfg.outputColumns).count o -
      ((contents s.sourceChunks s.index).map cfg.outputColumns).count o

variable {cfg}

section Chunk

variable {s : ChangelogConvertTransform R K} {rows : List R}

/-- The start of the loop. -/
theorem Valid.loop (h : s.Valid cfg before) (rows : List R) :
    Loop cfg before rows (contents s.sourceChunks s.index) s.sourceChunks.created 0
      { sourceChunks := s.sourceChunks.pushBack rows, index := s.index, lateRows := s.lateRows,
        filter := replicate rows.length true } := by
  obtain ⟨target, hholds⟩ := h.holds
  obtain ⟨hlast, hholds', hget, hrows⟩ := hholds.pushBack rows
  refine ⟨hholds', hlast, hrows, fun k ref hfind => ?_, fun k => ?_, nofun, fun j _ hj => ?_,
    length_replicate, fun o => ?_⟩
  · obtain ⟨row, hrow, hlatest⟩ := h.latest k ref hfind
    refine ⟨row, (hget ref (mem_refs hfind)).trans hrow, ?_⟩
    rwa [take_zero, append_nil]
  · rw [take_zero, append_nil]
    exact h.keys k
  · simp [hj]
  · rw [contents_congr hget]
    exact Nat.add_comm _ _

/-- **A chunk.** -/
theorem Valid.retractAndIndex (h : s.Valid cfg before) {chunk : InputChunk R}
    (hnew : s.NewKeys cfg chunk) :
    ∃ s' output, s.retractAndIndex cfg chunk.rows = some (s', output) ∧
      s'.Valid cfg (before ++ chunk.rows) ∧ Exact cfg s s' output := by
  have hstart := h.loop chunk.rows
  -- the end of the loop
  have hend : ∀ (loop : RetractState R K O) (s' : ChangelogConvertTransform R K),
      Loop cfg before chunk.rows (contents s.sourceChunks s.index) s.sourceChunks.created
        chunk.rows.length loop →
      s'.sourceChunks = loop.sourceChunks → s'.index = loop.index →
      s'.Valid cfg (before ++ chunk.rows) ∧ ∀ output, outputRows output =
          withDelta (-1) loop.retractChunk ++
            withDelta 1 ((keepRows chunk.rows loop.filter).map cfg.outputColumns) →
        Exact cfg s s' output := by
    intro loop s' hloop hchunks hindex
    refine ⟨⟨⟨s.sourceChunks.created, ?_⟩, ?_, ?_⟩,
      fun output houtput => ⟨⟨_, _, houtput⟩, fun o => ?_⟩⟩
    · rw [hchunks, hindex]
      exact hloop.holds.mono (Nat.zero_le _)
    · rw [hchunks, hindex]
      simpa only [take_length] using hloop.latest
    · rw [hindex]
      simpa only [take_length] using hloop.keys
    · have hcount := hloop.count o
      rw [take_length] at hcount
      rw [houtput, weight_append, withDelta, withDelta, weight_map, weight_map, hchunks, hindex]
      omega
  rw [ChangelogConvertTransform.retractAndIndex]
  simp only [hstart.lastIter, bind, pure, Option.bind_some]
  split_ifs with hbackfill
  · obtain ⟨hnodup, hunseen⟩ := hnew hbackfill
    obtain ⟨loop, hloop, hindex, hchunks, hfilter, hretract⟩ :=
      hstart.foldl_insert (Nat.zero_le _) hnodup hunseen
    obtain ⟨hvalid, hexact⟩ := hend loop
      { s with
        sourceChunks := s.sourceChunks.pushBack chunk.rows
        index := indexNewKeys cfg s.sourceChunks.created chunk.rows s.index } hloop hchunks.symm
      hindex.symm
    refine ⟨_, _, rfl, hvalid, hexact _ ?_⟩
    have hkept : keepRows chunk.rows loop.filter = chunk.rows := by
      rw [hfilter]
      refine (keepRows_sublist _ _).eq_of_length ?_
      rw [length_keepRows length_replicate, count_replicate_self]
    rw [hretract, hkept]
    exact append_nil _
  · obtain ⟨loop, hfold, hloop⟩ := hstart.foldlM_indexRow (Nat.zero_le _)
    rw [drop_zero] at hfold
    have hblock : ∃ block, loop.sourceChunks.blocks.find? s.sourceChunks.created = some block ∧
        block.rows = chunk.rows := by
      obtain ⟨block, hblock⟩ := Option.isSome_iff_exists.mp (mem_keys.mp
        (RefCountDataBlockList.lastDataBlockIter_eq_some.mp hloop.lastIter).1)
      refine ⟨block, hblock, ext_getElem? fun j => ?_⟩
      rw [← hloop.get j, RefCountDataBlockList.get, hblock]
      rfl
    obtain ⟨block, hblock, hrows⟩ := hblock
    obtain ⟨hvalid, hexact⟩ := hend loop
      { s with
        sourceChunks := loop.sourceChunks, index := loop.index, lateRows := loop.lateRows }
      hloop rfl rfl
    refine ⟨_, resultChunks cfg chunk.rows loop, ?_, hvalid, hexact _ ?_⟩
    · rw [hfold, Option.bind_some, hblock, Option.bind_some, hrows]
    · exact outputRows_resultChunks hloop.length

/-- **`work` keeps the index valid and outputs its change.** -/
theorem Valid.work (h : s.Valid cfg before) {chunk : InputChunk R} (hnew : s.NewKeys cfg chunk) :
    ∃ s' output, s.work cfg chunk = some (s', output) ∧
      s'.Valid cfg (before ++ chunk.rows) ∧ Exact cfg s s' output := by
  rw [ChangelogConvertTransform.work]
  split_ifs with hempty
  · have hsame : ∃ started done, s.transformEmptyChunk chunk =
        ({ s with backfillStarted := started, backfillDone := done },
          [(⟨[], false⟩ : OutputChunk O)]) := by
      simp only [transformEmptyChunk]
      split_ifs <;> exact ⟨_, _, rfl⟩
    obtain ⟨started, done, hsame⟩ := hsame
    rw [hsame, hempty, append_nil]
    exact ⟨_, _, rfl, ⟨h.holds, h.latest, h.keys⟩, ⟨[], [], rfl⟩, fun o => (sub_self _).symm⟩
  · exact h.retractAndIndex hnew

end Chunk

/-! ### Runs -/

/-- Every chunk of a run that is taken for one of new keys is one. Without a backfill of unique
keys, none is. -/
def NewKeysAlong (cfg : ChangelogConvertConfig R K W O) :
    List (InputChunk R) → ChangelogConvertTransform R K → Prop
  | [], _ => True
  | chunk :: chunks, s => s.NewKeys cfg chunk ∧
      ∀ s' output, s.work cfg chunk = some (s', output) → NewKeysAlong cfg chunks s'

omit [DecidableEq O] in
/-- Unless the keys of a backfill are unique, nothing is taken for new. -/
theorem newKeysAlong_of_eq_false (h : cfg.backfillKeyUnique = false)
    (chunks : List (InputChunk R)) (s : ChangelogConvertTransform R K) :
    NewKeysAlong cfg chunks s := by
  induction chunks generalizing s with
  | nil => trivial
  | cons chunk chunks ih =>
    refine ⟨fun hbackfill => ?_, fun s' _ _ => ih s'⟩
    rw [backfillingNewKeys, h] at hbackfill
    cases hbackfill

omit [DecidableEq O] in
/-- The rows of a valid index, one for each key. -/
theorem Valid.map_contents {s : ChangelogConvertTransform R K} (h : s.Valid cfg before) :
    (contents s.sourceChunks s.index).map cfg.keyColumns = s.index.toList.map (·.1) := by
  have hall : ∀ l : List (K × RowRefWithRefCount),
      (∀ e ∈ l, ∃ row, s.sourceChunks.get e.2 = some row ∧ cfg.keyColumns row = e.1) →
      ((l.map (·.2)).filterMap s.sourceChunks.get).map cfg.keyColumns = l.map (·.1) := by
    intro l hl
    induction l with
    | nil => rfl
    | cons e l ih =>
      obtain ⟨row, hget, hkey⟩ := hl e mem_cons_self
      rw [map_cons, filterMap_cons_some hget, map_cons, hkey,
        ih fun e' he' => hl e' (mem_cons_of_mem _ he'), map_cons]
  refine hall _ fun e he => ?_
  obtain ⟨row, hget, hlatest⟩ := h.latest e.1 e.2 (find?_eq_some.mpr he)
  exact ⟨row, hget, hlatest.key_eq⟩

/-- **Every run** emits the change of the latest rows, by induction on the chunks. -/
theorem Valid.run {chunks : List (InputChunk R)} {s : ChangelogConvertTransform R K}
    (h : s.Valid cfg before) (hnew : NewKeysAlong cfg chunks s) :
    ∃ s' outputs, run cfg chunks s = some (s', outputs) ∧
      s'.Valid cfg (before ++ chunks.flatMap (·.rows)) ∧
      (∀ output ∈ outputs, ∃ retracted inserted : List O,
        outputRows output = withDelta (-1) retracted ++ withDelta 1 inserted) ∧
      ∀ o, weight (outputs.flatMap outputRows) o =
        ((contents s'.sourceChunks s'.index).map cfg.outputColumns).count o -
          ((contents s.sourceChunks s.index).map cfg.outputColumns).count o := by
  induction chunks generalizing s before with
  | nil =>
    refine ⟨s, [], rfl, ?_, nofun, fun o => (sub_self _).symm⟩
    rwa [flatMap_nil, append_nil]
  | cons chunk chunks ih =>
    obtain ⟨s', output, hwork, hvalid, hexact⟩ := h.work hnew.1
    obtain ⟨s'', outputs, hrun, hvalid', hfirst, hweight⟩ := ih hvalid (hnew.2 s' output hwork)
    refine ⟨s'', output :: outputs, ?_, ?_, fun out hout => ?_, fun o => ?_⟩
    · simp only [ChangelogConvertTransform.run, hwork, hrun, bind, pure, Option.bind_some]
    · rwa [flatMap_cons, ← append_assoc]
    · rcases mem_cons.mp hout with rfl | hout
      · exact hexact.retractionsFirst
      · exact hfirst out hout
    · rw [flatMap_cons, weight_append, hexact.weight, hweight]
      ring

/-- **The changelog has the latest row of every key**, and of each chunk the retractions are output
before the insertions. -/
theorem output_latest {chunks : List (InputChunk R)}
    (hnew : NewKeysAlong cfg chunks ({} : ChangelogConvertTransform R K)) :
    ∃ s outputs, run cfg chunks {} = some (s, outputs) ∧
      (∀ output ∈ outputs, ∃ retracted inserted : List O,
        outputRows output = withDelta (-1) retracted ++ withDelta 1 inserted) ∧
      ∃ kept : List R, (kept.map cfg.keyColumns).Nodup ∧
        (∀ k, k ∈ kept.map cfg.keyColumns ↔
          k ∈ (chunks.flatMap (·.rows)).map cfg.keyColumns) ∧
        (∀ row ∈ kept, cfg.Latest (chunks.flatMap (·.rows)) (cfg.keyColumns row) row) ∧
        ∀ o, weight (outputs.flatMap outputRows) o =
          (kept.map cfg.outputColumns).count o := by
  have hempty : ({} : ChangelogConvertTransform R K).Valid cfg [] :=
    ⟨⟨0, RefCountDataBlockList.holds_empty 0 0⟩, nofun, by simp [SortedMap.keys]⟩
  obtain ⟨s, outputs, hrun, hvalid, hfirst, hweight⟩ := hempty.run hnew
  rw [nil_append] at hvalid
  refine ⟨s, outputs, hrun, hfirst, contents s.sourceChunks s.index, ?_, fun k => ?_,
    fun row hrow => ?_, fun o => ?_⟩
  · rw [hvalid.map_contents]
    exact s.index.nodup_keys
  · rw [hvalid.map_contents, ← mem_keys_iff_mem_map, hvalid.keys, mem_map]
  · obtain ⟨ref, href, hget⟩ := mem_filterMap.mp hrow
    obtain ⟨e, he, rfl⟩ := mem_map.mp href
    obtain ⟨row', hget', hlatest⟩ := hvalid.latest e.1 e.2 (find?_eq_some.mpr he)
    rw [hget] at hget'
    cases hget'
    rwa [hlatest.key_eq]
  · rw [hweight o]
    exact sub_zero _

/-- Rows of a key, a version and a value that is output. -/
def versioned : ChangelogConvertConfig (ℕ × ℕ × ℕ) ℕ ℕ ℕ :=
  { keyColumns := (·.1), versionColumn := some (·.2.1), outputColumns := (·.2.2) }

/-- Key 1 has three rows in the first chunk, the last two of one version, and then a late one. -/
theorem output_latest_versioned :
    ∃ s outputs, run versioned
        [⟨[(1, 1, 10), (2, 1, 20), (1, 2, 11), (1, 2, 12)], false, false⟩,
          ⟨[(1, 1, 13), (2, 3, 21)], false, false⟩] {} = some (s, outputs) ∧
      (∀ output ∈ outputs, ∃ retracted inserted : List ℕ,
        outputRows output = withDelta (-1) retracted ++ withDelta 1 inserted) ∧
      ∃ kept : List (ℕ × ℕ × ℕ), (kept.map (·.1)).Nodup ∧
        (∀ k, k ∈ kept.map (·.1) ↔ k ∈ [1, 2, 1, 1, 1, 2]) ∧
        (∀ row ∈ kept, versioned.Latest
          [(1, 1, 10), (2, 1, 20), (1, 2, 11), (1, 2, 12), (1, 1, 13), (2, 3, 21)] row.1 row) ∧
        ∀ o, weight (outputs.flatMap outputRows) o = (kept.map (·.2.2)).count o :=
  output_latest (newKeysAlong_of_eq_false (show versioned.backfillKeyUnique = false from rfl) _ _)

end ChangelogConvertTransform

end Proton.Streaming
