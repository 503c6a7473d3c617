import Proton.Lib.EquiJoin
import Proton.Lib.SignedRows
import Proton.Streaming.HashJoin.RowRefListMultiple

/-!
# Changelog Joins

A bidirectional join with `Multiple` strictness that emits a changelog, of two streams whose blocks
insert rows or retract live ones. The joined rows with their deltas are to add up to the join of the
rows that are live on both sides, after every block.

## Main results

* `ChangelogJoin.inner_output`: an inner join does so.
* `ChangelogJoin.left_output`: a left join does so as long as no key of a live left row loses its
  last right row; once a key has lost it, the code neither emits the left rows without a match
  nor finds them again when the key returns.
-/

open Multiset EquiJoin SignedRows

namespace Proton.Streaming

open MemoryHashJoin

/-- A stream of a join. -/
structure JoinStream (K A C : Type) where
  /-- The columns of a row without those for time and sequence numbers: `compareEqual` skips them.
  -/
  columns : A → C
  /-- The join key. -/
  key : C → K
  /-- `delete_key` of `doEraseExistingKeys`: the storage is a changelog-kv one. -/
  deleteKey : Bool
  /-- `data_block_size`. -/
  dataBlockSize : ℕ

/-- A block of a stream: all insertions or all retractions. -/
inductive Change (A : Type) where
  | insert (rows : List A)
  | retract (rows : List A)
  deriving DecidableEq, Repr

/-- The rows with `_tp_delta`. -/
def Change.toBlock {A : Type} : Change A → DeltaBlock A
  | .insert rows => rows.map (·, 1)
  | .retract rows => rows.map (·, -1)

/-- What a stream has had. -/
structure Side (C : Type) where
  /-- The live rows. -/
  rows : Multiset C := 0
  /-- All rows so far. -/
  inserted : Multiset C := 0

namespace JoinStream

variable {K A B C D : Type} [LinearOrder K] [DecidableEq C] [DecidableEq D]
  (own : JoinStream K A C) (other : JoinStream K B D)

/-- The key of a row. -/
def keyOf (row : A) : K := own.key (own.columns row)

/-- `compareEqual`. -/
def same (row row' : A) : Bool := own.columns row = own.columns row'

/-- The hash table. -/
def table : HashTable (RefTable K A) A B :=
  RefTable.table own.keyOf other.keyOf own.same own.deleteKey

/-- No blocks yet. -/
def empty : RefTable K A := { blocks := { dataBlockSize := own.dataBlockSize } }

/-- The columns of some rows. -/
def columnsOf (rows : List A) : Multiset C := rows.map own.columns

/-- The stream after another block. -/
def apply (change : Change A) (side : Side C) : Side C :=
  match change with
  | .insert rows =>
    { rows := side.rows + own.columnsOf rows, inserted := side.inserted + own.columnsOf rows }
  | .retract rows => { side with rows := side.rows - own.columnsOf rows }

/-- Only live rows are retracted. -/
def Valid (change : Change A) (side : Side C) : Prop :=
  match change with
  | .insert _ => True
  | .retract rows => own.columnsOf rows ≤ side.rows

instance (change : Change A) (side : Side C) : Decidable (own.Valid change side) :=
  match change with
  | .insert _ => isTrue trivial
  | .retract rows => inferInstanceAs (Decidable (own.columnsOf rows ≤ side.rows))

end JoinStream

/-! ### The hash table of a stream -/

namespace JoinStream

variable {K A B C D : Type} [LinearOrder K] [DecidableEq C] [DecidableEq D]
  {own : JoinStream K A C} {other : JoinStream K B D} {t : SortedMap K (List A)}
  {t' : SortedMap K (List B)} {side : Side C} {side' : Side D}

/-- The hash table has the live rows under their keys. -/
structure Stores (own : JoinStream K A C) (t : SortedMap K (List A)) (side : Side C) : Prop where
  rows : ∀ k, own.columnsOf ((t.find? k).getD []) = side.rows.filter fun c => own.key c = k
  empty : ∀ k, t.find? k = some [] → own.deleteKey = false ∧ k ∈ side.inserted.map own.key
  le_inserted : side.rows ≤ side.inserted

omit [DecidableEq C] in
/-- An empty table stores an empty side. -/
theorem stores_empty (own : JoinStream K A C) : own.Stores .empty {} :=
  ⟨fun _ => rfl, fun k h => by simp at h, le_rfl⟩

omit [LinearOrder K] [DecidableEq C] in
/-- The columns of two lists of rows. -/
theorem columnsOf_append (rows rows' : List A) :
    own.columnsOf (rows ++ rows') = own.columnsOf rows + own.columnsOf rows' := by
  rw [columnsOf, List.map_append]
  rfl

omit [LinearOrder K] [DecidableEq C] in
/-- The columns of one more row. -/
theorem columnsOf_cons (row : A) (rows : List A) :
    own.columnsOf (row :: rows) = own.columns row ::ₘ own.columnsOf rows := rfl

omit [LinearOrder K] [DecidableEq C] in
/-- Only an empty list has no columns. -/
theorem columnsOf_eq_zero {rows : List A} : own.columnsOf rows = 0 ↔ rows = [] := by
  rw [columnsOf, coe_eq_zero, List.map_eq_nil_iff]

omit [DecidableEq C] in
/-- The list of a key is empty if no live row has the key. -/
theorem Stores.eq_nil_iff (h : own.Stores t side) (k : K) :
    (t.find? k).getD [] = [] ↔ k ∉ side.rows.map own.key := by
  rw [← own.columnsOf_eq_zero, h.rows, filter_eq_nil, mem_map]
  push Not
  exact Iff.rfl

/-- The hash table with one more row. -/
def insertRow (own : JoinStream K A C) (t : SortedMap K (List A)) (row : A) :
    SortedMap K (List A) :=
  t.insert (own.keyOf row) ((t.find? (own.keyOf row)).getD [] ++ [row])

omit [DecidableEq C] in
/-- A row is added to those of its key. -/
theorem find?_insertRow (row : A) (k : K) :
    (own.insertRow t row).find? k =
      if k = own.keyOf row then some ((t.find? k).getD [] ++ [row]) else t.find? k := by
  rw [insertRow, SortedMap.insert, SortedMap.find?_alter]
  split_ifs with h
  · rw [h]
  · rfl

omit [DecidableEq C] in
/-- A key without rows has none after a row of another key. -/
theorem find?_insertRow_eq_none {row : A} {k : K} :
    (own.insertRow t row).find? k = none ↔ k ≠ own.keyOf row ∧ t.find? k = none := by
  rw [find?_insertRow]
  split_ifs with h <;> simp [h]

/-- The table stores the side with the new row. -/
theorem Stores.insertRow (h : own.Stores t side) (row : A) :
    own.Stores (own.insertRow t row) (own.apply (.insert [row]) side) := by
  refine ⟨fun k => ?_, fun k hempty => ?_, add_le_add_left h.le_inserted _⟩
  · rw [find?_insertRow]
    change _ = (side.rows + {own.columns row}).filter _
    rw [filter_add, ← h.rows k, filter_singleton]
    split_ifs with hk hk' hk'
    · rw [Option.getD_some, columnsOf_append]
      rfl
    · exact absurd hk.symm hk'
    · exact absurd hk'.symm hk
    · rw [empty_eq_zero, add_zero]
  · rw [find?_insertRow] at hempty
    split_ifs at hempty with hk
    · simp at hempty
    · obtain ⟨hdelete, hmem⟩ := h.empty k hempty
      refine ⟨hdelete, ?_⟩
      change k ∈ (side.inserted + {own.columns row}).map _
      rw [map_add]
      exact mem_add.mpr (.inl hmem)

/-- All rows of a block. -/
theorem Stores.foldl_insertRow (h : own.Stores t side) (rows : List A) :
    own.Stores (rows.foldl own.insertRow t) (own.apply (.insert rows) side) := by
  induction rows generalizing t side with
  | nil => simpa [apply, columnsOf] using h
  | cons row rows ih =>
    have hrest := ih (h.insertRow row)
    simp only [apply, add_assoc] at hrest
    exact hrest

/-- The rows that `new_keys_filter` marks: the first ones of new keys. -/
def newRows (own : JoinStream K A C) : SortedMap K (List A) → List A → List A
  | _, [] => []
  | t, row :: rows =>
    if (t.find? (own.keyOf row)).isNone then row :: newRows own (own.insertRow t row) rows
    else newRows own (own.insertRow t row) rows

/-- The hash table with the rows in place of the references to them. -/
abbrev rowTable (own : JoinStream K A C) (other : JoinStream K B D) :
    HashTable (SortedMap K (List A)) A B :=
  RefTable.rowTable own.keyOf other.keyOf own.same own.deleteKey

omit [DecidableEq D] in
/-- The insertion of a block marks the new rows. -/
theorem insertFromBlock_eq (own : JoinStream K A C) (other : JoinStream K B D)
    (t : SortedMap K (List A)) (rows : List A) :
    ∃ newKeysFilter, (own.rowTable other).insertFromBlock rows t =
        .ok (rows.foldl own.insertRow t, newKeysFilter) ∧
      ((rows.zip newKeysFilter).filter (·.2)).map (·.1) = own.newRows t rows := by
  have hfold : ∀ filter, ∃ newKeysFilter,
      rows.foldl (Streaming.insertRow (MappedType.multiple (B := B) own.same own.deleteKey)
        fun row => some (own.keyOf row)) (t, filter) =
        (rows.foldl own.insertRow t, filter ++ newKeysFilter) ∧
      ((rows.zip newKeysFilter).filter (·.2)).map (·.1) = own.newRows t rows := by
    induction rows generalizing t with
    | nil => exact fun filter => ⟨[], by simp, rfl⟩
    | cons row rows ih =>
      intro filter
      obtain ⟨newKeysFilter, hfold, hnew⟩ :=
        ih (own.insertRow t row) (filter ++ [(t.find? (own.keyOf row)).isNone])
      refine ⟨(t.find? (own.keyOf row)).isNone :: newKeysFilter, ?_, ?_⟩
      · refine hfold.trans ?_
        rw [List.append_assoc]
        rfl
      · rw [List.zip_cons_cons, List.filter_cons, newRows]
        split_ifs
        · rw [List.map_cons, hnew]
        · exact hnew
  obtain ⟨newKeysFilter, hfold, hnew⟩ := hfold []
  exact ⟨newKeysFilter, congrArg Except.ok hfold, hnew⟩

omit [DecidableEq D] [DecidableEq C] in
/-- The rows of the other stream that are looked up for new keys. -/
theorem bind_newRows (live : Multiset D) (t : SortedMap K (List A)) (rows : List A) :
    (own.columnsOf (own.newRows t rows)).bind
        (fun c => live.filter fun d => other.key d = own.key c) =
      live.filter fun d => other.key d ∈ (own.columnsOf rows).map own.key ∧
        t.find? (other.key d) = none := by
  induction rows generalizing t with
  | nil => simp [newRows, columnsOf]
  | cons row rows ih =>
    have hrest := ih (own.insertRow t row)
    simp only [find?_insertRow_eq_none] at hrest
    rw [newRows]
    by_cases hnew : t.find? (own.keyOf row) = none
    · have htwice : live.filter (fun d => other.key d = own.key (own.columns row) ∧
          other.key d ∈ (own.columnsOf rows).map own.key ∧ other.key d ≠ own.keyOf row ∧
            t.find? (other.key d) = none) = 0 :=
        filter_eq_nil.mpr fun d _ ⟨hd, _, hne, _⟩ => hne hd
      rw [hnew, Option.isNone_none, if_pos rfl, columnsOf_cons, cons_bind, hrest,
        filter_add_filter, htwice, add_zero]
      refine filter_congr fun d _ => ?_
      rw [columnsOf_cons, map_cons, mem_cons]
      constructor
      · rintro (hd | ⟨hmem, -, hnone⟩)
        · exact ⟨.inl hd, hd ▸ hnew⟩
        · exact ⟨.inr hmem, hnone⟩
      · rintro ⟨hmem, hnone⟩
        by_cases hd : other.key d = own.key (own.columns row)
        · exact .inl hd
        · exact .inr ⟨hmem.resolve_left hd, hd, hnone⟩
    · rw [if_neg (by rwa [Option.isNone_iff_eq_none]), hrest]
      refine filter_congr fun d _ => ?_
      rw [columnsOf_cons, map_cons, mem_cons]
      constructor
      · exact fun ⟨hmem, _, hnone⟩ => ⟨.inr hmem, hnone⟩
      · rintro ⟨hmem, hnone⟩
        have hd : other.key d ≠ own.keyOf row := fun hd => hnew (hd ▸ hnone)
        exact ⟨hmem.resolve_left hd, hd, hnone⟩

omit [LinearOrder K] in
/-- The first row with the same columns is erased. -/
theorem columnsOf_eraseP (row : A) (rows : List A) :
    own.columnsOf (rows.eraseP (own.same row)) = (own.columnsOf rows).erase (own.columns row) := by
  rw [columnsOf, columnsOf, coe_erase, List.erase_eq_eraseP, List.eraseP_map]
  rfl

/-- One row less. -/
theorem Stores.eraseRow (h : own.Stores t side) {row : A} (hrow : own.columns row ∈ side.rows) :
    ∃ s, Streaming.eraseRow (MappedType.multiple (B := B) own.same own.deleteKey)
        (fun row => some (own.keyOf row)) t row = .ok s ∧
      own.Stores s { side with rows := side.rows.erase (own.columns row) } := by
  have hlive := h.rows (own.keyOf row)
  have hmem : own.columns row ∈ own.columnsOf ((t.find? (own.keyOf row)).getD []) := by
    rw [hlive]
    exact mem_filter.mpr ⟨hrow, rfl⟩
  rw [RefTable.rowTable_eraseRow]
  cases hfind : t.find? (own.keyOf row) with
  | none => simp [hfind, columnsOf] at hmem
  | some rows =>
    rw [hfind, Option.getD_some] at hlive hmem
    obtain ⟨found, hfound, hsame⟩ := List.mem_map.mp (mem_coe.mp hmem)
    have hsome : (rows.find? (own.same row)).isSome :=
      List.find?_isSome.mpr ⟨found, hfound, decide_eq_true hsame.symm⟩
    obtain ⟨first, hfirst⟩ := Option.isSome_iff_exists.mp hsome
    dsimp only
    rw [hfirst]
    obtain ⟨rest, hrest⟩ := exists_cons_of_mem hrow
    have herase : own.columnsOf (rows.eraseP (own.same row)) =
        rest.filter fun c => own.key c = own.keyOf row := by
      rw [columnsOf_eraseP, hlive, hrest,
        filter_cons_of_pos (p := fun c => own.key c = own.keyOf row) _ rfl,
        erase_cons_head]
    refine ⟨_, rfl, fun k => ?_, fun k hk => ?_, (erase_le _ _).trans h.le_inserted⟩
    · rw [SortedMap.find?_alter, hrest, erase_cons_head]
      split_ifs with hk hdelete
      · rw [Option.getD_none, hk, ← herase, hdelete.1]
      · rw [Option.getD_some, hk, herase]
      · rw [h.rows, hrest, filter_cons_of_neg (p := fun c => own.key c = k)]
        exact fun h => hk h.symm
    · rw [SortedMap.find?_alter] at hk
      split_ifs at hk with heq hdelete
      · have hnil := Option.some.inj hk
        refine ⟨Bool.eq_false_iff.mpr fun hd => hdelete ⟨hnil, hd⟩, ?_⟩
        exact mem_map.mpr ⟨own.columns row, mem_of_le h.le_inserted hrow, heq.symm⟩
      · exact h.empty k hk

omit [DecidableEq D] in
/-- The retraction of a block of live rows. -/
theorem Stores.doEraseExistingKeys (h : own.Stores t side) (other : JoinStream K B D)
    {rows : List A} (hrows : own.columnsOf rows ≤ side.rows) :
    ∃ s, (own.rowTable other).doEraseExistingKeys rows t = .ok s ∧
      own.Stores s (own.apply (.retract rows) side) := by
  induction rows generalizing t side with
  | nil => exact ⟨t, rfl, by simpa [apply, columnsOf] using h⟩
  | cons row rows ih =>
    rw [columnsOf_cons] at hrows
    obtain ⟨s, hrow, hs⟩ := h.eraseRow (B := B) (mem_of_le hrows (mem_cons_self _ _))
    have hle : own.columnsOf rows ≤ side.rows.erase (own.columns row) := by
      rw [← erase_cons_head (own.columns row) (own.columnsOf rows)]
      exact erase_le_erase _ hrows
    obtain ⟨s', hrest, hs'⟩ := ih hs hle
    refine ⟨s', ?_, ?_⟩
    · change List.foldlM _ _ _ = _
      rw [List.foldlM_cons, hrow]
      exact hrest
    · simpa only [apply, columnsOf_cons, sub_cons] using hs'

/-- What `joinColumns` adds for the rows of a list. -/
def joinFound (kind : Kind) (found : List B) : List (Option B) :=
  if found = [] then if kind = .left ∨ kind = .full then [none] else [] else found.map some

/-- The joined rows of a block. -/
def joinRows (own : JoinStream K A C) (kind : Kind) (t' : SortedMap K (List B)) (rows : List A) :
    List (Option A × Option B) :=
  rows.flatMap fun row =>
    (joinFound kind ((t'.find? (own.keyOf row)).getD [])).map fun b => (some row, b)

omit [DecidableEq C] in
/-- A block is joined row by row, with its delta. -/
theorem doJoin_eq (own : JoinStream K A C) (other : JoinStream K B D) (kind : Kind)
    (t' : SortedMap K (List B)) (rows : List A) (delta : ℤ) :
    doJoinBlockWithHashTable kind .multiple (other.rowTable own) (rows.map (·, delta)) t' =
      .ok ((own.joinRows kind t' rows).map (·, delta)) := by
  have hrow : ∀ row : A × ℤ, (do
      let lookup ← (other.rowTable own).findKey t' row.1
      let found ← joinColumns kind .multiple lookup
      pure (found.map fun b => ((some row.1, b), row.2)) :
        Except JoinError (JoinedBlock A B)) =
      pure ((joinFound kind ((t'.find? (own.keyOf row.1)).getD [])).map
        fun b => ((some row.1, b), row.2)) := by
    intro row
    rw [RefTable.rowTable_findKey]
    cases t'.find? (own.keyOf row.1) <;> rfl
  rw [doJoinBlockWithHashTable]
  simp only [hrow, List.mapM_pure]
  rw [joinRows, List.map_flatMap]
  simp only [List.map_map]
  rfl

/-- The columns of a joined row. -/
def joinedColumns (own : JoinStream K A C) (other : JoinStream K B D)
    (row : Option A × Option B) : Option C × Option D :=
  (row.1.map own.columns, row.2.map other.columns)

/-- The join of some rows with the live rows of the other stream. -/
def joinOf (own : JoinStream K A C) (other : JoinStream K B D) (kind : Kind) (rows : Multiset C)
    (live : Multiset D) : Multiset (Option C × Option D) :=
  if kind = .left ∨ kind = .full then leftOuter own.key other.key rows live
  else inner own.key other.key rows live

omit [DecidableEq D] in
/-- What is joined with a key: its live rows, or the default row of an outer join. -/
theorem coe_joinFound (h : other.Stores t' side') (kind : Kind) (k : K) :
    (((joinFound kind ((t'.find? k).getD [])).map (Option.map other.columns) : List (Option D)) :
        Multiset (Option D)) =
      (side'.rows.filter fun d => other.key d = k).map some +
        if (kind = .left ∨ kind = .full) ∧ k ∉ side'.rows.map other.key then {none} else 0 := by
  have hnil := h.eq_nil_iff k
  rw [← h.rows k, joinFound]
  generalize (t'.find? k).getD [] = found at hnil ⊢
  by_cases hfound : found = []
  · simp only [hfound, hnil.mp hfound, not_false_eq_true, and_true]
    split_ifs <;> rfl
  · rw [if_neg hfound, if_neg fun h => hfound (hnil.mpr h.2), add_zero, List.map_map, columnsOf,
      map_coe, List.map_map]
    rfl

omit [DecidableEq C] [DecidableEq D] in
/-- A block is joined as the two sides are. -/
theorem coe_joinRows (own : JoinStream K A C) (h : other.Stores t' side') (kind : Kind)
    (rows : List A) :
    (((own.joinRows kind t' rows).map (own.joinedColumns other) : List (Option C × Option D)) :
        Multiset (Option C × Option D)) =
      own.joinOf other kind (own.columnsOf rows) side'.rows := by
  have hrow : ∀ row : A, ((((joinFound kind ((t'.find? (own.keyOf row)).getD [])).map
        fun b => (some row, b)).map (own.joinedColumns other) : List (Option C × Option D)) :
        Multiset (Option C × Option D)) =
      ((side'.rows.filter fun d => other.key d = own.keyOf row).map
          fun d => (some (own.columns row), some d)) +
        if (kind = .left ∨ kind = .full) ∧ own.keyOf row ∉ side'.rows.map other.key
        then {(some (own.columns row), none)} else 0 := by
    intro row
    have hfound := congrArg (map (Prod.mk (some (own.columns row))))
      (coe_joinFound h kind (own.keyOf row))
    rw [map_add, map_map, map_coe, List.map_map, apply_ite (map _)] at hfound
    rw [List.map_map]
    exact hfound
  rw [joinRows, List.map_flatMap, ← coe_bind, columnsOf, ← map_coe, joinOf]
  simp only [hrow]
  split_ifs with hkind
  · rw [leftOuter_eq_bind, bind_map]
    simp only [hkind, true_and]
    rfl
  · rw [inner_eq_bind, bind_map]
    simp only [hkind, false_and, if_false, add_zero]
    rfl

/-- **The joined rows of a block.** -/
theorem weight_joinRows (h : other.Stores t' side') (kind : Kind) (rows : List A) (delta : ℤ)
    (row : Option C × Option D) :
    weight (((own.joinRows kind t' rows).map (·, delta)).map
        fun row => (own.joinedColumns other row.1, row.2)) row =
      delta * (own.joinOf other kind (own.columnsOf rows) side'.rows).count row := by
  rw [← coe_joinRows own h, coe_count, ← weight_map, List.map_map, List.map_map]
  rfl

/-- The columns of joined rows, with their deltas. -/
def joinedBlock (own : JoinStream K A C) (other : JoinStream K B D) (block : JoinedBlock A B) :
    List ((Option C × Option D) × ℤ) :=
  block.map fun row => (own.joinedColumns other row.1, row.2)

/-- The rows of the other stream that had no match before the rows of a block, by the new keys. -/
def rematched (own : JoinStream K A C) (other : JoinStream K B D) (t : SortedMap K (List A))
    (rows : List A) (live : Multiset D) : Multiset D :=
  live.filter fun d => other.key d ∈ (own.columnsOf rows).map own.key ∧
    t.find? (other.key d) = none

/-- The rows of the other side that were joined with a default row are retracted. -/
theorem retractNewKeys_eq (h' : other.Stores t' side') (rows : List A) {newKeysFilter : List Bool}
    (hnew : ((rows.zip newKeysFilter).filter (·.2)).map (·.1) = own.newRows t rows) :
    ∃ retracted, retractNewKeys .multiple (other.rowTable own) (Change.insert rows).toBlock
        newKeysFilter t' = .ok retracted ∧
      ∀ row, weight (own.joinedBlock other retracted) row =
        -(((own.rematched other t rows side'.rows).map fun d =>
          ((none : Option C), some d)).count row : ℤ) := by
  have hblock : (((Change.insert rows).toBlock.zip newKeysFilter).filter (·.2)).map
      (fun row => (row.1.1, (-1 : ℤ))) = (own.newRows t rows).map (·, -1) := by
    rw [← hnew, Change.toBlock, List.zip_map_left, List.filter_map, List.map_map, List.map_map]
    rfl
  have hrows : (((own.joinRows .inner t' (own.newRows t rows)).map fun row =>
        ((none : Option C), row.2.map other.columns) : List (Option C × Option D)) :
        Multiset (Option C × Option D)) =
      (own.rematched other t rows side'.rows).map fun d => (none, some d) := by
    have hjoin := congrArg (map fun p : Option C × Option D => ((none : Option C), p.2))
      (coe_joinRows own h' .inner (own.newRows t rows))
    rw [joinOf, if_neg (by decide), inner_eq_bind, map_bind, map_coe, List.map_map] at hjoin
    simp only [map_map] at hjoin
    rw [rematched, ← bind_newRows, map_bind]
    exact hjoin
  refine ⟨((own.joinRows .inner t' (own.newRows t rows)).map (·, (-1 : ℤ))).map fun row =>
    ((none, row.1.2), row.2), ?_, fun row => ?_⟩
  · rw [retractNewKeys, hblock, doJoin_eq]
    rfl
  · have hweight := weight_map ((own.joinRows .inner t' (own.newRows t rows)).map
      fun row => ((none : Option C), row.2.map other.columns)) (-1) row
    rw [neg_one_mul] at hweight
    rw [← hrows, coe_count, ← hweight, joinedBlock, List.map_map, List.map_map, List.map_map]
    rfl

/-- A block of insertions. -/
theorem Stores.insert (h : own.Stores t side) (h' : other.Stores t' side') (cfg : JoinConfig)
    (hcfg : cfg.strictness = .multiple ∧ cfg.emitChangelog = true) (kind : Kind) (rows : List A) :
    ∃ s retracted joined, insertBlockAndJoin cfg kind true (own.rowTable other)
        (other.rowTable own) (Change.insert rows).toBlock t t' = .ok (s, retracted, joined) ∧
      own.Stores s (own.apply (.insert rows) side) ∧
      (∀ row, weight (own.joinedBlock other retracted) row =
        -(if kind = .right ∨ kind = .full then ((own.rematched other t rows side'.rows).map
          fun d => ((none : Option C), some d)).count row else 0 : ℕ)) ∧
      ∀ row, weight (own.joinedBlock other joined) row =
        (own.joinOf other kind (own.columnsOf rows) side'.rows).count row := by
  have hinsert : ¬ isRetractBlock true (Change.insert rows).toBlock = true := by
    cases rows with
    | nil => simp [isRetractBlock, Change.toBlock]
    | cons row rows => simp [isRetractBlock, Change.toBlock]
  have hmap : (Change.insert rows).toBlock.map (·.1) = rows := by
    simp [Change.toBlock, Function.comp_def]
  have hjoined : ∀ row, weight (own.joinedBlock other
      ((own.joinRows kind t' rows).map (·, 1))) row =
        (own.joinOf other kind (own.columnsOf rows) side'.rows).count row := fun row => by
    rw [joinedBlock, weight_joinRows h', one_mul]
  obtain ⟨newKeysFilter, hrows, hnew⟩ := insertFromBlock_eq own other t rows
  obtain ⟨retracted, hretracted, hweight⟩ := retractNewKeys_eq h' rows hnew
  rw [insertBlockAndJoin, if_neg hinsert, hcfg.1, hcfg.2, hmap, hrows]
  by_cases hkind : kind = .right ∨ kind = .full
  · refine ⟨rows.foldl own.insertRow t, retracted, (own.joinRows kind t' rows).map (·, 1), ?_,
      h.foldl_insertRow rows, fun row => ?_, hjoined⟩
    · simp only [hkind, Bind.bind, Except.bind, hretracted]
      rw [Change.toBlock, doJoin_eq]
      rfl
    · rw [if_pos hkind, hweight]
  · refine ⟨rows.foldl own.insertRow t, [], (own.joinRows kind t' rows).map (·, 1), ?_,
      h.foldl_insertRow rows, fun row => ?_, hjoined⟩
    · simp only [hkind]
      rw [Change.toBlock, doJoin_eq]
      rfl
    · rw [if_neg hkind]
      rfl

/-- A block of retractions. -/
theorem Stores.retract (h : own.Stores t side) (h' : other.Stores t' side') (cfg : JoinConfig)
    (hcfg : cfg.strictness = .multiple ∧ cfg.emitChangelog = true) (kind : Kind) {rows : List A}
    (hrows : own.columnsOf rows ≤ side.rows) (hne : rows ≠ []) :
    ∃ s retracted, insertBlockAndJoin cfg kind true (own.rowTable other)
        (other.rowTable own) (Change.retract rows).toBlock t t' = .ok (s, retracted, []) ∧
      own.Stores s (own.apply (.retract rows) side) ∧
      ∀ row, weight (own.joinedBlock other retracted) row =
        -((own.joinOf other kind (own.columnsOf rows) side'.rows).count row : ℤ) := by
  have hretract : isRetractBlock true (Change.retract rows).toBlock = true := by
    obtain ⟨row, rest, rfl⟩ := List.exists_cons_of_ne_nil hne
    rfl
  obtain ⟨s, herase, hs⟩ := h.doEraseExistingKeys other hrows
  have hmap : (Change.retract rows).toBlock.map (·.1) = rows := by
    simp [Change.toBlock, Function.comp_def]
  refine ⟨s, (own.joinRows kind t' rows).map (·, -1), ?_, hs, fun row => ?_⟩
  · rw [insertBlockAndJoin, if_pos hretract, hcfg.1, hcfg.2]
    rw [eraseExistingKeys, hmap, herase, Change.toBlock, doJoin_eq]
    rfl
  · rw [joinedBlock, weight_joinRows h', neg_one_mul]

end JoinStream

namespace ChangelogJoin

variable {K L R C D : Type} [LinearOrder K] [DecidableEq C] [DecidableEq D]
  (left : JoinStream K L C) (right : JoinStream K R D)

/-- Both streams. -/
structure Sides (C D : Type) where
  left : Side C := {}
  right : Side D := {}

/-- The streams after a block of one of them. -/
def apply (change : Change L ⊕ Change R) (sides : Sides C D) : Sides C D :=
  match change with
  | .inl change => { sides with left := left.apply change sides.left }
  | .inr change => { sides with right := right.apply change sides.right }

/-- Only live rows are retracted. -/
def Valid (change : Change L ⊕ Change R) (sides : Sides C D) : Prop :=
  match change with
  | .inl change => left.Valid change sides.left
  | .inr change => right.Valid change sides.right

/-- A condition on every block and what the streams have had before it. -/
def Along (condition : Change L ⊕ Change R → Sides C D → Prop) :
    List (Change L ⊕ Change R) → Sides C D → Prop
  | [], _ => True
  | change :: changes, sides =>
    condition change sides ∧ Along condition changes (apply left right change sides)

/-- The streams after all blocks. -/
def history (changes : List (Change L ⊕ Change R)) : Sides C D :=
  changes.foldl (fun sides change => apply left right change sides) {}

/-- A changelog join of the streams. -/
def config (kind : Kind) : JoinConfig := ⟨kind, .multiple, true, true, true⟩

/-- All blocks, from the start. -/
def run (kind : Kind) (changes : List (Change L ⊕ Change R)) :
    Except JoinError (MemoryHashJoin (RefTable K L) (RefTable K R) ×
      List (JoinedBlock L R × JoinedBlock L R)) :=
  MemoryHashJoin.run (config kind) (left.table right) (right.table left)
    (changes.map (Sum.map Change.toBlock Change.toBlock)) ⟨left.empty, right.empty⟩

/-- All output rows: the returned blocks of retractions and the joined blocks. -/
def emitted (outputs : List (JoinedBlock L R × JoinedBlock L R)) :
    List ((Option C × Option D) × ℤ) :=
  outputs.flatMap fun output => left.joinedBlock right (output.1 ++ output.2)

/-- The join of the live rows. -/
def join (kind : Kind) (sides : Sides C D) : Multiset (Option C × Option D) :=
  left.joinOf right kind sides.left.rows sides.right.rows

variable (change : Change L ⊕ Change R)

/-- What a left join needs of the right stream: a key of a live left row does not lose its last
right row; and unless keys are deleted, it does not get a right row after all earlier ones were
retracted. -/
def Careful (sides : Sides C D) : Prop :=
  match change with
  | .inl _ => True
  | .inr (.insert rows) => right.deleteKey = true ∨ ∀ d ∈ right.columnsOf rows,
      right.key d ∈ sides.right.inserted.map right.key →
        right.key d ∈ sides.right.rows.map right.key ∨ right.key d ∉ sides.left.rows.map left.key
  | .inr (.retract rows) => ∀ d ∈ right.columnsOf rows,
      right.key d ∈ (sides.right.rows - right.columnsOf rows).map right.key ∨
        right.key d ∉ sides.left.rows.map left.key

instance (sides : Sides C D) :
    Decidable (Valid left right change sides) :=
  match change with
  | .inl change => inferInstanceAs (Decidable (left.Valid change sides.left))
  | .inr change => inferInstanceAs (Decidable (right.Valid change sides.right))

instance (sides : Sides C D) :
    Decidable (Careful left right change sides) :=
  match change with
  | .inl _ => isTrue trivial
  | .inr (.insert _) => inferInstanceAs (Decidable (_ ∨ ∀ d ∈ _, _ → _ ∨ _))
  | .inr (.retract _) => inferInstanceAs (Decidable (∀ d ∈ _, _ ∨ _))

instance instDecidableAlong (condition : Change L ⊕ Change R → Sides C D → Prop)
    [∀ change sides, Decidable (condition change sides)] :
    (changes : List (Change L ⊕ Change R)) → (sides : Sides C D) →
      Decidable (Along left right condition changes sides)
  | [], _ => isTrue trivial
  | change :: changes, sides =>
    have := instDecidableAlong condition changes (apply left right change sides)
    inferInstanceAs (Decidable (_ ∧ _))

/-! ### One block -/

variable {left right} {s : MemoryHashJoin (SortedMap K (List L)) (SortedMap K (List R))}
  {sides : Sides C D}

/-- Both hash tables have the live rows. -/
structure Holds (left : JoinStream K L C) (right : JoinStream K R D)
    (s : MemoryHashJoin (SortedMap K (List L)) (SortedMap K (List R))) (sides : Sides C D) :
    Prop where
  left : left.Stores s.left sides.left
  right : right.Stores s.right sides.right

omit [DecidableEq C] [DecidableEq D] in
variable (left right) in
/-- A join of more rows is the sum of the joins. -/
theorem joinOf_add_left (kind : Kind) (rows rows' : Multiset C) (live : Multiset D) :
    left.joinOf right kind (rows + rows') live =
      left.joinOf right kind rows live + left.joinOf right kind rows' live := by
  rw [JoinStream.joinOf, JoinStream.joinOf, JoinStream.joinOf]
  split_ifs
  · exact leftOuter_add_left ..
  · exact inner_add_left ..

omit [LinearOrder K] [DecidableEq C] [DecidableEq D] in
/-- The columns of two joined blocks. -/
theorem joinedBlock_append (block block' : JoinedBlock L R) :
    left.joinedBlock right (block ++ block') =
      left.joinedBlock right block ++ left.joinedBlock right block' :=
  List.map_append

omit [LinearOrder K] in
/-- The columns of the left stream come first. -/
theorem weight_transformToOutputBlock (block : JoinedBlock R L) (row : Option C × Option D) :
    weight (left.joinedBlock right (transformToOutputBlock block)) row =
      weight (right.joinedBlock left block) row.swap := by
  have hswap := weight_map_injective Prod.swap_injective (right.joinedBlock left block) row.swap
  rw [← hswap, JoinStream.joinedBlock, JoinStream.joinedBlock,
    transformToOutputBlock, List.map_map, List.map_map]
  rfl

/-- The inner join is symmetric. -/
theorem count_inner_swap (rows : Multiset D) (live : Multiset C) (row : Option C × Option D) :
    (inner right.key left.key rows live).count row.swap =
      (inner left.key right.key live rows).count row := by
  rw [← inner_swap left.key right.key live rows, ← Prod.swap_swap row,
    count_map_eq_count' _ _ Prod.swap_injective, Prod.swap_swap]

omit [DecidableEq C] [DecidableEq D] in
/-- The join of the two sides is an inner one. -/
theorem join_inner (sides : Sides C D) :
    join left right .inner sides = inner left.key right.key sides.left.rows sides.right.rows := rfl

omit [DecidableEq C] [DecidableEq D] in
/-- The join of the two sides is a left outer one. -/
theorem join_left (sides : Sides C D) :
    join left right .left sides = leftOuter left.key right.key sides.left.rows sides.right.rows :=
  rfl

variable {kind : Kind}

omit [DecidableEq C] in
/-- A left row has a match for the first time. -/
theorem unmatched_insert (h : right.Stores s.right sides.right) {rows : List R}
    (hcareful : Careful left right (.inr (.insert rows)) sides) :
    unmatched left.key right.key sides.left.rows sides.right.rows =
      unmatched left.key right.key sides.left.rows
          (sides.right.rows + right.columnsOf rows) +
        right.rematched left s.right rows sides.left.rows := by
  rw [unmatched, unmatched, JoinStream.rematched, map_add,
    filter_add_filter, filter_eq_nil (p := fun c => _ ∧ _).mpr, add_zero]
  · refine filter_congr fun c hc => ?_
    rw [mem_add, not_or, ← h.eq_nil_iff]
    constructor
    · intro hnil
      by_cases hmem : left.key c ∈ (right.columnsOf rows).map right.key
      · -- an empty list of a live left row is ruled out
        refine .inr ⟨hmem, Option.eq_none_iff_forall_not_mem.mpr fun found hfound => ?_⟩
        have hempty : s.right.find? (left.key c) = some [] := by
          rw [Option.mem_def.mp hfound] at hnil ⊢
          exact congrArg some hnil
        obtain ⟨hdelete, hinserted⟩ := h.empty _ hempty
        obtain ⟨d, hd, hkey⟩ := mem_map.mp hmem
        rcases hcareful with hdelete' | hcareful
        · rw [hdelete] at hdelete'
          exact Bool.false_ne_true hdelete'
        · rw [← hkey] at hinserted hnil
          rcases hcareful d hd hinserted with hlive | hleft
          · exact (h.eq_nil_iff _).mp hnil hlive
          · exact hleft (hkey ▸ mem_map_of_mem _ hc)
      · exact .inl ⟨hnil, hmem⟩
    · rintro (⟨hnil, -⟩ | ⟨-, hnone⟩)
      · exact hnil
      · rw [hnone]
        rfl
  · rintro c - ⟨hnot, hmem, -⟩
    exact hnot (mem_add.mpr (.inr hmem))

omit [DecidableEq C] in
/-- No left row loses its last match. -/
theorem unmatched_retract {rows : List R}
    (hcareful : Careful left right (.inr (.retract rows)) sides) :
    unmatched left.key right.key sides.left.rows
        (sides.right.rows - right.columnsOf rows) =
      unmatched left.key right.key sides.left.rows sides.right.rows := by
  refine filter_congr fun c hc => not_congr ⟨fun hmem => ?_, fun hmem => ?_⟩
  · exact Multiset.mem_of_le (Multiset.map_le_map (Multiset.sub_le_self _ _)) hmem
  · obtain ⟨d, hd, hkey⟩ := mem_map.mp hmem
    by_cases hrow : d ∈ right.columnsOf rows
    · have hleft := hcareful d hrow
      rw [hkey] at hleft
      exact hleft.resolve_right fun h => h (mem_map_of_mem _ hc)
    · refine mem_map.mpr ⟨d, ?_, hkey⟩
      rw [mem_sub, count_eq_zero_of_notMem hrow]
      exact count_pos.mpr hd

/-- A block is joined: the tables hold its rows, and what is returned adds the change of the
join. -/
def Joins (left : JoinStream K L C) (right : JoinStream K R D) (kind : Kind)
    (s : MemoryHashJoin (SortedMap K (List L)) (SortedMap K (List R))) (sides : Sides C D)
    (change : Change L ⊕ Change R) : Prop :=
  ∃ s' output, insertAndJoin (config kind) (left.rowTable right)
      (right.rowTable left) (change.map Change.toBlock Change.toBlock) s = .ok (s', output) ∧
    Holds left right s' (apply left right change sides) ∧
    ∀ row, weight (left.joinedBlock right (output.1 ++ output.2)) row +
        (join left right kind sides).count row =
      (join left right kind (apply left right change sides)).count row

/-- Retractions in the left stream. -/
theorem Holds.left_retract (kind : Kind) (h : Holds left right s sides) {rows : List L}
    (hrows : left.columnsOf rows ≤ sides.left.rows) (hne : rows ≠ []) :
    Joins left right kind s sides (.inl (.retract rows)) := by
  obtain ⟨t, retracted, hstep, hstores, hretracted⟩ :=
    h.left.retract h.right (config kind) ⟨rfl, rfl⟩ kind hrows hne
  refine ⟨⟨t, s.right⟩, (retracted, []), ?_, ⟨hstores, h.right⟩, fun row => ?_⟩
  · rw [config] at hstep ⊢
    rw [Sum.map_inl, insertAndJoin, insertLeftBlockAndJoin, hstep]
    rfl
  · have hlive := joinOf_add_left left right kind
      (sides.left.rows - left.columnsOf rows) (left.columnsOf rows) sides.right.rows
    rw [tsub_add_cancel_of_le hrows] at hlive
    rw [List.append_nil, hretracted]
    simp only [join, apply, JoinStream.apply, hlive, count_add]
    push_cast
    ring

/-- What a block needs. -/
def Condition (left : JoinStream K L C) (right : JoinStream K R D) (kind : Kind)
    (change : Change L ⊕ Change R) (sides : Sides C D) : Prop :=
  Valid left right change sides ∧ (kind = .left → Careful left right change sides)

omit [LinearOrder K] in
/-- A block of retractions without rows is one of insertions. -/
theorem apply_retract_nil {A C : Type} [DecidableEq C] (own : JoinStream K A C) (side : Side C) :
    own.apply (.retract []) side = own.apply (.insert []) side := by
  simp [JoinStream.apply, JoinStream.columnsOf]

section

variable (hkind : kind = .inner ∨ kind = .left)
include hkind

omit [DecidableEq C] [DecidableEq D] in
/-- A right row is joined with the left rows that match. -/
theorem joinOf_flipKind (rows : Multiset D)
    (live : Multiset C) :
    right.joinOf left (flipKind kind) rows live = inner right.key left.key rows live := by
  rcases hkind with rfl | rfl <;> rfl

section

variable (h : Holds left right s sides)
include h

/-- Insertions in the left stream. -/
theorem Holds.left_insert
    (rows : List L) : Joins left right kind s sides (.inl (.insert rows)) := by
  obtain ⟨t, retracted, joined, hstep, hstores, hretracted, hjoined⟩ :=
    h.left.insert h.right (config kind) ⟨rfl, rfl⟩ kind rows
  refine ⟨⟨t, s.right⟩, (retracted, joined), ?_, ⟨hstores, h.right⟩, fun row => ?_⟩
  · rw [config] at hstep ⊢
    rw [Sum.map_inl, insertAndJoin, insertLeftBlockAndJoin, hstep]
    rfl
  · have hnot : ¬ (kind = .right ∨ kind = .full) := by
      rcases hkind with rfl | rfl <;> decide
    rw [joinedBlock_append, weight_append, hretracted, hjoined, if_neg hnot]
    simp only [join, apply, JoinStream.apply, joinOf_add_left, count_add]
    push_cast
    ring

/-- Insertions in the right stream. -/
theorem Holds.right_insert
    (rows : List R) (hcareful : kind = .left → Careful left right (.inr (.insert rows)) sides) :
    Joins left right kind s sides (.inr (.insert rows)) := by
  obtain ⟨t, retracted, joined, hstep, hstores, hretracted, hjoined⟩ :=
    h.right.insert h.left (config kind) ⟨rfl, rfl⟩ (flipKind kind) rows
  refine ⟨⟨s.left, t⟩, (transformToOutputBlock retracted,
    transformToOutputBlock joined), ?_, ⟨h.left, hstores⟩, fun row => ?_⟩
  · rw [config] at hstep ⊢
    rw [Sum.map_inr, insertAndJoin, insertRightBlockAndJoin, hstep]
    rfl
  · rw [joinedBlock_append, weight_append, weight_transformToOutputBlock,
      weight_transformToOutputBlock, hretracted, hjoined, joinOf_flipKind hkind,
      count_inner_swap]
    rcases hkind with rfl | rfl
    · rw [if_neg (by decide), join_inner, join_inner]
      simp only [apply, JoinStream.apply, EquiJoin.inner_add_right, Multiset.count_add]
      push_cast
      ring
    · have hretracted : (((right.rematched left s.right rows sides.left.rows).map fun c =>
            ((none : Option D), some c)).count row.swap : ℕ) =
          ((right.rematched left s.right rows sides.left.rows).map fun c =>
            (some c, (none : Option D))).count row := by
        rw [← count_map_eq_count' Prod.swap _ Prod.swap_injective, map_map]
        rfl
      rw [if_pos (by decide), join_left, join_left, hretracted]
      simp only [apply, JoinStream.apply, EquiJoin.leftOuter, EquiJoin.inner_add_right,
        unmatched_insert h.right (hcareful rfl), Multiset.map_add, Multiset.count_add]
      push_cast
      ring

/-- Retractions in the right stream. -/
theorem Holds.right_retract
    {rows : List R} (hrows : right.columnsOf rows ≤ sides.right.rows) (hne : rows ≠ [])
    (hcareful : kind = .left → Careful left right (.inr (.retract rows)) sides) :
    Joins left right kind s sides (.inr (.retract rows)) := by
  obtain ⟨t, retracted, hstep, hstores, hretracted⟩ :=
    h.right.retract h.left (config kind) ⟨rfl, rfl⟩ (flipKind kind) hrows hne
  refine ⟨⟨s.left, t⟩, (transformToOutputBlock retracted, []), ?_, ⟨h.left, hstores⟩, fun row => ?_⟩
  · rw [config] at hstep ⊢
    rw [Sum.map_inr, insertAndJoin, insertRightBlockAndJoin, hstep]
    rfl
  · have hlive := inner_add_right left.key right.key sides.left.rows
      (sides.right.rows - right.columnsOf rows) (right.columnsOf rows)
    rw [tsub_add_cancel_of_le hrows] at hlive
    rw [List.append_nil, weight_transformToOutputBlock, hretracted, joinOf_flipKind hkind,
      count_inner_swap]
    rcases hkind with rfl | rfl
    · rw [join_inner, join_inner]
      simp only [apply, JoinStream.apply, hlive, count_add]
      push_cast
      ring
    · rw [join_left, join_left]
      simp only [apply, JoinStream.apply, leftOuter, hlive,
        unmatched_retract (hcareful rfl), count_add]
      push_cast
      ring

/-- **A block adds the change of the join.** -/
theorem Holds.insertAndJoin
    {change : Change L ⊕ Change R} (hchange : Condition left right kind change sides) :
    Joins left right kind s sides change := by
  obtain ⟨hvalid, hcareful⟩ := hchange
  rcases change with (rows | rows) | (rows | rows)
  · exact h.left_insert hkind rows
  · by_cases hne : rows = []
    · subst hne
      rw [Joins, apply, apply_retract_nil]
      exact h.left_insert hkind []
    · exact h.left_retract kind hvalid hne
  · exact h.right_insert hkind rows hcareful
  · by_cases hne : rows = []
    · subst hne
      rw [Joins, apply, apply_retract_nil]
      exact h.right_insert hkind [] fun _ => .inr fun d hd => by simp [JoinStream.columnsOf] at hd
    · exact h.right_retract hkind hvalid hne hcareful

end

end

/-! ### All blocks -/

variable {changes : List (Change L ⊕ Change R)}

/-- **Every run** emits the change of the join, by induction on the changes. -/
theorem Holds.run (hkind : kind = .inner ∨ kind = .left) (h : Holds left right s sides)
    (hchanges : Along left right (Condition left right kind) changes sides) :
    ∃ s' outputs, MemoryHashJoin.run (config kind) (left.rowTable right) (right.rowTable left)
        (changes.map (Sum.map Change.toBlock Change.toBlock)) s = .ok (s', outputs) ∧
      ∀ row, weight (emitted left right outputs) row +
          (join left right kind sides).count row =
        (join left right kind (changes.foldl (fun sides change => apply left right change sides)
          sides)).count row := by
  induction changes generalizing s sides with
  | nil => exact ⟨s, [], rfl, fun row => zero_add _⟩
  | cons change changes ih =>
    obtain ⟨s', output, hstep, hs', hweight⟩ := h.insertAndJoin hkind hchanges.1
    obtain ⟨s'', outputs, hrun, hweights⟩ := ih hs' hchanges.2
    refine ⟨s'', output :: outputs, ?_, fun row => ?_⟩
    · rw [List.map_cons, MemoryHashJoin.run, hstep]
      simp only [Bind.bind, Except.bind, hrun]
      rfl
    · rw [emitted, List.flatMap_cons, weight_append, ← emitted, List.foldl_cons,
        ← hweights, ← hweight]
      ring

variable (left right) in
/-- **The output adds up to the join of the live rows.** -/
theorem output_eq_join (hkind : kind = .inner ∨ kind = .left)
    (hchanges : Along left right (Condition left right kind) changes {}) :
    ∃ s outputs, run left right kind changes = .ok (s, outputs) ∧
      ∀ row, weight (emitted left right outputs) row =
        (join left right kind (history left right changes)).count row := by
  have hstart : Holds left right ⟨.empty, .empty⟩ {} := ⟨left.stores_empty, right.stores_empty⟩
  obtain ⟨s, outputs, hrun, hweight⟩ := hstart.run hkind hchanges
  have hsimulates := HashTable.Simulates.run
    (RefTable.simulates left.keyOf right.keyOf left.same left.deleteKey)
    (RefTable.simulates right.keyOf left.keyOf right.same right.deleteKey) (config kind)
    (changes.map (Sum.map Change.toBlock Change.toBlock)) ⟨left.empty, right.empty⟩
    ⟨.empty, .empty⟩ (RefTable.refines_empty left.dataBlockSize)
    (RefTable.refines_empty right.dataBlockSize)
  rw [hrun] at hsimulates
  obtain ⟨⟨s', outputs'⟩, hrun', -, heq⟩ := hsimulates.exists_ok
  refine ⟨s', outputs', hrun', fun row => ?_⟩
  rw [show outputs' = outputs from heq, history, ← hweight]
  rcases hkind with rfl | rfl <;> exact (add_zero _).symm

omit [LinearOrder K] in
/-- A weaker condition holds along the same changes. -/
theorem Along.mono {condition condition' : Change L ⊕ Change R → Sides C D → Prop}
    (himp : ∀ change sides, condition change sides → condition' change sides)
    (h : Along left right condition changes sides) : Along left right condition' changes sides := by
  induction changes generalizing sides with
  | nil => trivial
  | cons change changes ih => exact ⟨himp _ _ h.1, ih h.2⟩

variable (left right) in
/-- **An inner changelog join is exact**: whatever the sizes of the data blocks, the output rows
with their deltas add up to the inner join of the live rows. -/
theorem inner_output {changes : List (Change L ⊕ Change R)}
    (hvalid : Along left right (Valid left right) changes {}) :
    ∃ s outputs, run left right .inner changes = .ok (s, outputs) ∧
      ∀ row, weight (emitted left right outputs) row =
        (inner left.key right.key (history left right changes).left.rows
          (history left right changes).right.rows).count row :=
  output_eq_join left right (.inl rfl)
    (hvalid.mono fun _ _ h => ⟨h, fun hkind => by cases hkind⟩)

variable (left right) in
/-- **A left changelog join is exact** as long as no key of a live left row loses its last right
row, or gets one again without a new key. -/
theorem left_output {changes : List (Change L ⊕ Change R)} (hvalid : Along left right
      (fun change sides => Valid left right change sides ∧ Careful left right change sides)
      changes {}) :
    ∃ s outputs, run left right .left changes = .ok (s, outputs) ∧
      ∀ row, weight (emitted left right outputs) row =
        (leftOuter left.key right.key (history left right changes).left.rows
          (history left right changes).right.rows).count row :=
  output_eq_join left right (.inr rfl) (hvalid.mono fun _ _ h => ⟨h.1, fun _ => h.2⟩)

/-- Rows of a key, a value and a time, in data blocks of two rows. -/
def timedRows (deleteKey : Bool) : JoinStream ℕ (ℕ × ℕ × ℕ) (ℕ × ℕ) :=
  ⟨fun row => (row.1, row.2.1), Prod.fst, deleteKey, 2⟩

/-- Rows come and go on both sides; times are not compared. -/
def comings : List (Change (ℕ × ℕ × ℕ) ⊕ Change (ℕ × ℕ × ℕ)) :=
  [.inl (.insert [(1, 10, 0), (1, 11, 1), (2, 12, 2)]), .inr (.insert [(1, 20, 3), (1, 21, 4)]),
    .inl (.retract [(1, 10, 5)]), .inr (.retract [(1, 20, 6)]), .inr (.insert [(2, 22, 7)])]

/-- Rows that come and go on both sides of an inner join. -/
theorem inner_output_comings :
    Along (timedRows true) (timedRows false) (Valid (timedRows true) (timedRows false)) comings {} ∧
    ∃ s outputs, run (timedRows true) (timedRows false) .inner comings = .ok (s, outputs) ∧
      ∀ row, weight (emitted (timedRows true) (timedRows false) outputs) row =
        (inner (timedRows true).key (timedRows false).key
          (history (timedRows true) (timedRows false) comings).left.rows
          (history (timedRows true) (timedRows false) comings).right.rows).count row :=
  ⟨by decide, inner_output (timedRows true) (timedRows false) (by decide)⟩

/-- Rows that come and go on both sides of a left join. -/
theorem left_output_comings :
    Along (timedRows true) (timedRows false) (fun change sides =>
      Valid (timedRows true) (timedRows false) change sides ∧
        Careful (timedRows true) (timedRows false) change sides) comings {} ∧
    ∃ s outputs, run (timedRows true) (timedRows false) .left comings = .ok (s, outputs) ∧
      ∀ row, weight (emitted (timedRows true) (timedRows false) outputs) row =
        (leftOuter (timedRows true).key (timedRows false).key
          (history (timedRows true) (timedRows false) comings).left.rows
          (history (timedRows true) (timedRows false) comings).right.rows).count row :=
  ⟨by decide, left_output (timedRows true) (timedRows false) (by decide)⟩

/-- A left row, and a right row of its key that comes and goes. -/
def lastMatchGoes : List (Change (ℕ × ℕ × ℕ) ⊕ Change (ℕ × ℕ × ℕ)) :=
  [.inl (.insert [(1, 10, 0)]), .inr (.insert [(1, 20, 1)]), .inr (.retract [(1, 20, 1)])]

/-- The left row without a match was retracted for the right row, and is not emitted again when the
right row is retracted: the output has neither. -/
theorem unmatched_row_lost :
    Along (timedRows true) (timedRows true) (Valid (timedRows true) (timedRows true))
      lastMatchGoes {} ∧
    ((run (timedRows true) (timedRows true) .left lastMatchGoes).map fun result =>
      weight (emitted (timedRows true) (timedRows true) result.2)
        (some (1, 10), none)) = .ok 0 ∧
    (leftOuter (timedRows true).key (timedRows true).key
      (history (timedRows true) (timedRows true) lastMatchGoes).left.rows
      (history (timedRows true) (timedRows true) lastMatchGoes).right.rows).count
        (some (1, 10), none) = 1 :=
  ⟨by decide, by rfl, by decide⟩

end ChangelogJoin

end Proton.Streaming
