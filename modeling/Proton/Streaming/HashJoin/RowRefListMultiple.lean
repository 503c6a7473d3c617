import Proton.Lib.ExceptRel
import Proton.Streaming.HashJoin.MappedType
import Proton.Streaming.HashJoin.RefCountDataBlockList

/-!
# Lists of Row References

This module embeds the hash table of a `Multiple` join as the source has it: `HashBlocks`, in which
a key is mapped to a `RowRefListMultiple` of references to the rows of reference-counted blocks.
The rows of a block may be added to the last block; the references to them are by their positions
there. The keys are not null.

## Main results

* `RefTable.simulates`: the references always refer to their rows, and the hash table does the same
  as that of the lists of the rows themselves.
-/

open List SortedMap

namespace Proton.Streaming

/-- `HashBlocks` with `MapsMultiple`. -/
structure RefTable (K A : Type) [LinearOrder K] where
  /-- `blocks`. -/
  blocks : RefCountDataBlockList A := {}
  /-- `maps`. -/
  map : SortedMap K (List RowRefWithRefCount) := .empty

namespace RefTable

variable {K A B : Type} [LinearOrder K] (key : A → K) (probe : B → K) (same : A → A → Bool)
  (deleteKey : Bool)

/-- `insertMultiple`: the row is at this position of the last block. -/
def insertMultiple (s : RefTable K A × List Bool) (row : K × ℕ) :
    Except JoinError (RefTable K A × List Bool) :=
  match s.1.blocks.lastDataBlockIter with
  | none => throw .dangling
  | some last =>
    let refs := s.1.map.find? row.1
    pure ({ s.1 with map := s.1.map.insert row.1 (refs.getD [] ++ [⟨last, row.2⟩]) },
      s.2 ++ [refs.isNone])

/-- `doInsertBlock`. -/
def insertFromBlock (rows : List A) (s : RefTable K A) :
    Except JoinError (RefTable K A × List Bool) :=
  let (startRow, blocks) := s.blocks.pushBackOrConcat rows
  ((rows.map key).zipIdx startRow).foldlM insertMultiple ({ s with blocks }, [])

/-- The rows of a list. -/
def appendFromBlock (blocks : RefCountDataBlockList A) (refs : List RowRefWithRefCount) :
    Except JoinError (List A) :=
  refs.mapM fun ref =>
    match blocks.get ref with
    | none => throw .dangling
    | some row => pure row

/-- `findKey`, and the rows that are read. -/
def findKey (s : RefTable K A) (row : B) : Except JoinError (Lookup A) :=
  match s.map.find? (probe row) with
  | none => pure .missing
  | some refs => do
    let rows ← appendFromBlock s.blocks refs
    pure (.found rows)

/-- The loop over the value list: the reference to the first equal row, and the others. -/
def findEqual (blocks : RefCountDataBlockList A) (row : A) :
    List RowRefWithRefCount →
      Except JoinError (Option (RowRefWithRefCount × List RowRefWithRefCount))
  | [] => pure none
  | ref :: refs =>
    match blocks.get ref with
    | none => throw .dangling
    | some indexed =>
      if same row indexed then pure (some (ref, refs))
      else do
        let found ← findEqual blocks row refs
        pure (found.map fun found => (found.1, ref :: found.2))

/-- One row of `doEraseExistingKeys`. -/
def eraseRow (s : RefTable K A) (row : A) : Except JoinError (RefTable K A) :=
  match s.map.find? (key row) with
  | none => throw (.exception "Existing key is not found in joined hash table")
  | some refs => do
    match ← findEqual same s.blocks row refs with
    | none => throw (.exception "Existing value is not found in joined hash table")
    | some (ref, rest) =>
      match s.blocks.deref ref with
      | none => throw .dangling
      | some blocks =>
        pure { s with
          blocks
          map := s.map.alter (key row) fun _ =>
            if rest = [] ∧ deleteKey then none else some rest }

/-- The operations. -/
def table : HashTable (RefTable K A) A B where
  insertFromBlock := insertFromBlock key
  findKey := findKey probe
  doEraseExistingKeys rows s := rows.foldlM (eraseRow key same deleteKey) s

/-! ### The references and the rows -/

variable {key probe same deleteKey} {s : RefTable K A} {t : SortedMap K (List A)}
  {map : SortedMap K (List RowRefWithRefCount)} {blocks blocks' : RefCountDataBlockList A}
  {refs : List RowRefWithRefCount} {rows : List A}

variable (map)

/-- All references of a hash table. -/
def refsOf : List RowRefWithRefCount :=
  map.toList.flatMap (·.2)

/-- The references are those to the rows. -/
def RowsOf (blocks : RefCountDataBlockList A) (refs : List RowRefWithRefCount) (rows : List A) :
    Prop :=
  List.Forall₂ (fun ref row => blocks.get ref = some row) refs rows

/-- The hash table with the rows in place of the references. -/
structure Refines (s : RefTable K A) (t : SortedMap K (List A)) : Prop where
  holds : ∃ target, s.blocks.Holds (refsOf s.map) target 0
  rows : ∀ k, Option.Rel (RowsOf s.blocks) (s.map.find? k) (t.find? k)

/-- Empty tables correspond. -/
theorem refines_empty (size : ℕ) :
    Refines ({ blocks := { dataBlockSize := size } } : RefTable K A) .empty :=
  ⟨⟨0, RefCountDataBlockList.holds_empty size 0⟩, fun _ => .none⟩

/-- The references of a key, and those of the others. -/
theorem refsOf_perm (k : K) :
    (refsOf map).Perm ((map.find? k).getD [] ++ refsOf (map.erase k)) := by
  cases hfind : map.find? k with
  | none =>
    rw [erase_of_find?_eq_none hfind]
    exact .refl _
  | some refs => exact (perm_cons_erase hfind).flatMap_right _

/-- The references after those of a key were replaced. -/
theorem refsOf_alter (k : K) (refs : Option (List RowRefWithRefCount)) :
    (refsOf (map.alter k fun _ => refs)).Perm (refs.getD [] ++ refsOf (map.erase k)) := by
  have hperm := refsOf_perm (map.alter k fun _ => refs) k
  have herase : (map.alter k fun _ => refs).erase k = map.erase k := by
    refine ext_find? fun j => ?_
    rw [erase, erase, find?_alter, find?_alter, find?_alter]
    split_ifs <;> rfl
  rwa [find?_alter, if_pos rfl, herase] at hperm

variable {map}

/-- The references of a key are among all of them. -/
theorem mem_refsOf {k : K} (hfind : map.find? k = some refs) {ref : RowRefWithRefCount}
    (href : ref ∈ refs) : ref ∈ refsOf map :=
  mem_flatMap.mpr ⟨(k, refs), find?_eq_some.mp hfind, href⟩

/-- The rows are those that the references refer to. -/
theorem RowsOf.congr (h : RowsOf blocks refs rows)
    (hget : ∀ ref ∈ refs, blocks'.get ref = blocks.get ref) : RowsOf blocks' refs rows := by
  induction h with
  | nil => exact .nil
  | cons hhead _ ih =>
    exact .cons ((hget _ mem_cons_self).trans hhead)
      (ih fun ref href => hget ref (mem_cons_of_mem _ href))

/-- The rows of a key are appended without an error. -/
theorem RowsOf.appendFromBlock (h : RowsOf blocks refs rows) :
    appendFromBlock blocks refs = .ok rows := by
  induction h with
  | nil => rfl
  | cons hhead _ ih =>
    rw [RefTable.appendFromBlock, mapM_cons, hhead, ← RefTable.appendFromBlock, ih]
    rfl

/-- Blocks in which the references refer to the same rows. -/
theorem rel_congr {k : K} {found : Option (List A)}
    (h : Option.Rel (RowsOf blocks) (map.find? k) found)
    (hget : ∀ refs, map.find? k = some refs → ∀ ref ∈ refs, blocks'.get ref = blocks.get ref) :
    Option.Rel (RowsOf blocks') (map.find? k) found := by
  generalize map.find? k = refs at h hget ⊢
  cases h with
  | none => exact .none
  | some h => exact .some (h.congr (hget _ rfl))

/-- The loop over the value list finds the first equal row. -/
theorem RowsOf.findEqual (h : RowsOf blocks refs rows) (row : A) :
    (rows.find? (same row) = none ∧ findEqual same blocks row refs = .ok none) ∨
      ∃ ref rest, (rows.find? (same row)).isSome ∧
        findEqual same blocks row refs = .ok (some (ref, rest)) ∧
        RowsOf blocks rest (rows.eraseP (same row)) ∧ refs.Perm (ref :: rest) := by
  induction h with
  | nil => exact .inl ⟨rfl, rfl⟩
  | @cons ref first refs rows hhead htail ih =>
    rw [RefTable.findEqual, hhead]
    dsimp only
    by_cases hsame : same row first
    · rw [if_pos hsame]
      refine .inr ⟨ref, refs, ?_, rfl, ?_, .refl _⟩
      · rw [find?_cons_of_pos hsame]
        rfl
      · rwa [eraseP_cons_of_pos hsame]
    · rw [if_neg hsame, find?_cons_of_neg hsame, eraseP_cons_of_neg hsame]
      rcases ih with ⟨hnone, heq⟩ | ⟨found, rest, hsome, heq, hrest, hperm⟩
      · rw [heq]
        exact .inl ⟨hnone, rfl⟩
      · rw [heq]
        exact .inr ⟨found, ref :: rest, hsome, rfl, .cons hhead hrest,
          (hperm.cons ref).trans (.swap _ _ _)⟩

/-! ### The operations -/

/-- The mapped type of the rows themselves. -/
abbrev rowTable (key : A → K) (probe : B → K) (same : A → A → Bool) (deleteKey : Bool) :
    HashTable (SortedMap K (List A)) A B :=
  (MappedType.multiple same deleteKey).table (fun row => some (key row))
    fun row => some (probe row)

/-- What the table of rows finds for a key. -/
theorem rowTable_findKey (t : SortedMap K (List A)) (row : B) :
    (rowTable key probe same deleteKey).findKey t row =
      match t.find? (probe row) with
      | none => .ok .missing
      | some rows => .ok (.found rows) := by
  simp only [MappedType.table]
  cases t.find? (probe row) <;> rfl

/-- What the table of rows erases, and its errors. -/
theorem rowTable_eraseRow (t : SortedMap K (List A)) (row : A) :
    Streaming.eraseRow (MappedType.multiple (B := B) same deleteKey)
        (fun row => some (key row)) t row =
      match t.find? (key row) with
      | none => .error (.exception "Existing key is not found in joined hash table")
      | some rows =>
        match rows.find? (same row) with
        | none => .error (.exception "Existing value is not found in joined hash table")
        | some _ => .ok (t.alter (key row) fun _ =>
          if rows.eraseP (same row) = [] ∧ deleteKey then none
          else some (rows.eraseP (same row))) := by
  simp only [Streaming.eraseRow]
  cases t.find? (key row) with
  | none => rfl
  | some rows =>
    dsimp only
    cases rows.find? (same row) with
    | none => rfl
    | some found => rfl

/-- Both tables find the same rows. -/
theorem Refines.findKey (h : Refines s t) (row : B) :
    (table key probe same deleteKey).findKey s row =
      (rowTable key probe same deleteKey).findKey t row := by
  have hrows := h.rows (probe row)
  rw [rowTable_findKey]
  simp only [table, RefTable.findKey]
  generalize s.map.find? (probe row) = refs at hrows ⊢
  generalize t.find? (probe row) = rows at hrows ⊢
  cases hrows with
  | none => rfl
  | some hrows =>
    dsimp only
    rw [hrows.appendFromBlock]
    rfl

/-- The insertion of the rows of a block, of which the first ones were inserted. -/
structure Inserting (s : RefTable K A) (t : SortedMap K (List A)) (rows : List A)
    (last startRow i : ℕ) : Prop where
  holds : s.blocks.Holds (refsOf s.map) last (rows.length - i)
  lastIter : s.blocks.lastDataBlockIter = some last
  get : ∀ j, s.blocks.get ⟨last, startRow + j⟩ = rows[j]?
  rows : ∀ k, Option.Rel (RowsOf s.blocks) (s.map.find? k) (t.find? k)

variable (key) in
/-- One row. -/
theorem Inserting.insertMultiple {last startRow i : ℕ} {row : A}
    (h : Inserting s t rows last startRow i) (hi : rows[i]? = some row) (filter : List Bool) :
    ∃ s', RefTable.insertMultiple (s, filter) (key row, startRow + i) =
        .ok (s', filter ++ [(t.find? (key row)).isNone]) ∧ s'.blocks = s.blocks ∧
      Inserting s' (t.insert (key row) ((t.find? (key row)).getD [] ++ [row])) rows last startRow
        (i + 1) := by
  have hlt : i < rows.length := (List.getElem?_eq_some_iff.mp hi).1
  have hget : s.blocks.get ⟨last, startRow + i⟩ = some row := (h.get i).trans hi
  have hrows := h.rows (key row)
  have hrel : RowsOf s.blocks ((s.map.find? (key row)).getD [] ++ [⟨last, startRow + i⟩])
        ((t.find? (key row)).getD [] ++ [row]) ∧
      (s.map.find? (key row)).isNone = (t.find? (key row)).isNone := by
    generalize s.map.find? (key row) = refs at hrows ⊢
    generalize t.find? (key row) = found at hrows ⊢
    cases hrows with
    | none => exact ⟨.cons hget .nil, rfl⟩
    | some hrows => exact ⟨rel_append hrows (.cons hget .nil), rfl⟩
  refine ⟨⟨s.blocks, s.map.insert (key row)
    ((s.map.find? (key row)).getD [] ++ [⟨last, startRow + i⟩])⟩, ?_, rfl, ?_, h.lastIter,
    h.get, fun k => ?_⟩
  · rw [RefTable.insertMultiple, h.lastIter, ← hrel.2]
    rfl
  · have hholds := h.holds
    rw [show rows.length - i = rows.length - (i + 1) + 1 by omega] at hholds
    refine (hholds.acquire (startRow + i) (by rw [hget]; rfl)).perm ?_
    refine ((refsOf_perm s.map (key row)).cons _).trans (.trans ?_ (refsOf_alter _ _ _).symm)
    rw [Option.getD_some, append_assoc]
    exact perm_middle.symm
  · rw [SortedMap.insert, SortedMap.insert, find?_alter, find?_alter]
    split_ifs
    · exact .some hrel.1
    · exact h.rows k

variable (key same deleteKey) in
/-- All rows that are not left out. -/
theorem Inserting.foldlM {last startRow i : ℕ} (h : Inserting s t rows last startRow i)
    (hi : i ≤ rows.length) (inserts : A → Bool) (filter : List Bool) :
    ∃ s' x, ((rows.drop i).filter inserts).foldl
        (insertRow (MappedType.multiple (B := B) same deleteKey) fun row => some (key row))
        (t, filter) = x ∧
      ((((rows.drop i).zipIdx (startRow + i)).filter (inserts ·.1)).map (.map key id)).foldlM
        RefTable.insertMultiple (s, filter) = .ok (s', x.2) ∧ s'.blocks = s.blocks ∧
      Inserting s' x.1 rows last startRow rows.length := by
  induction hrest : rows.drop i generalizing i s t filter with
  | nil =>
    have hlength : i = rows.length := le_antisymm hi (drop_eq_nil_iff.mp hrest)
    exact ⟨s, _, rfl, rfl, rfl, hlength ▸ h⟩
  | cons row rest ih =>
    obtain ⟨hrow, hdrop⟩ := getElem?_of_drop_eq_cons hrest
    have hlt := (List.getElem?_eq_some_iff.mp hrow).1
    rw [zipIdx_cons, filter_cons, filter_cons]
    split_ifs
    · obtain ⟨s', hstep, hblocks, hinserting⟩ := h.insertMultiple key hrow filter
      obtain ⟨s'', x, hx, hfold, hblocks', hdone⟩ := ih hinserting hlt _ hdrop
      refine ⟨s'', x, hx, ?_, hblocks'.trans hblocks, hdone⟩
      rw [map_cons, foldlM_cons, Prod.map_apply, id, hstep]
      exact hfold
    · -- nothing will refer to the row
      exact ih ⟨h.holds.mono (by omega), h.lastIter, h.get, h.rows⟩ hlt filter hdrop

variable (key same deleteKey) in
/-- The rows of a block that are not left out. -/
theorem Refines.foldlM_insertMultiple (h : Refines s t) (rows : List A) (inserts : A → Bool) :
    ∃ s' x, (rows.filter inserts).foldl
        (insertRow (MappedType.multiple (B := B) same deleteKey) fun row => some (key row))
        (t, []) = x ∧
      (((rows.zipIdx (s.blocks.pushBackOrConcat rows).1).filter (inserts ·.1)).map
        (.map key id)).foldlM insertMultiple
          ({ s with blocks := (s.blocks.pushBackOrConcat rows).2 }, []) = .ok (s', x.2) ∧
      s'.blocks = (s.blocks.pushBackOrConcat rows).2 ∧ Refines s' x.1 := by
  obtain ⟨target, hholds⟩ := h.holds
  obtain ⟨last, hlast, hholds', hget, hrows⟩ := hholds.pushBackOrConcat rows
  have hstart : Inserting { s with blocks := (s.blocks.pushBackOrConcat rows).2 } t rows last
      (s.blocks.pushBackOrConcat rows).1 0 := by
    refine ⟨hholds', hlast, hrows, fun k => rel_congr (h.rows k) fun refs hfind ref href => ?_⟩
    exact hget ref (mem_refsOf hfind href)
  obtain ⟨s', x, hx, hfold, hblocks, hdone⟩ :=
    hstart.foldlM key same deleteKey (B := B) (Nat.zero_le _) inserts []
  rw [drop_zero] at hx hfold
  exact ⟨s', x, hx, hfold, hblocks, ⟨last, hdone.holds.mono (Nat.zero_le _)⟩, hdone.rows⟩

/-- A block. -/
theorem Refines.insertFromBlock (h : Refines s t) (rows : List A) :
    ExceptRel Eq (fun x y => Refines x.1 y.1 ∧ x.2 = y.2)
      ((table key probe same deleteKey).insertFromBlock rows s)
      ((rowTable key probe same deleteKey).insertFromBlock rows t) := by
  obtain ⟨s', x, rfl, hfold, -, hrefines⟩ :=
    h.foldlM_insertMultiple key same deleteKey (B := B) rows fun _ => true
  rw [filter_true, ← zipIdx_map] at hfold
  rw [filter_true] at hfold hrefines
  simp only [table, RefTable.insertFromBlock]
  rw [hfold]
  exact .ok ⟨hrefines, rfl⟩

/-- One row less. -/
theorem Refines.eraseRow (h : Refines s t) (row : A) :
    ExceptRel Eq Refines (RefTable.eraseRow key same deleteKey s row)
      (Streaming.eraseRow (MappedType.multiple (B := B) same deleteKey)
        (fun row => some (key row)) t row) := by
  rw [rowTable_eraseRow, RefTable.eraseRow]
  have hrows := h.rows (key row)
  have hkeys := refsOf_perm s.map (key row)
  cases hfind : s.map.find? (key row) with
  | none =>
    rw [hfind] at hrows
    generalize t.find? (key row) = found at hrows ⊢
    cases hrows
    exact .error rfl
  | some refs =>
    rw [hfind] at hrows hkeys
    generalize t.find? (key row) = found at hrows ⊢
    cases hrows with
    | @some _ rows hrows =>
      dsimp only
      rcases hrows.findEqual row with ⟨hnone, heq⟩ | ⟨ref, rest, hsome, heq, hrest, hperm⟩
      · rw [heq, hnone]
        exact .error rfl
      · obtain ⟨found, hfound⟩ := Option.isSome_iff_exists.mp hsome
        obtain ⟨target, hholds⟩ := h.holds
        have hlive : (refsOf s.map).Perm (ref :: (rest ++ refsOf (s.map.erase (key row)))) :=
          hkeys.trans (hperm.append_right _)
        obtain ⟨blocks, hderef, hholds', hget, -⟩ := (hholds.perm hlive).deref
        have hempty : rest = [] ↔ rows.eraseP (same row) = [] := by
          rw [← length_eq_zero_iff, ← length_eq_zero_iff, hrest.length_eq]
        rw [heq, hfound]
        simp only [bind, Except.bind, hderef]
        refine .ok ⟨⟨target, hholds'.perm ?_⟩, fun k => ?_⟩
        · refine List.Perm.symm ((refsOf_alter _ _ _).trans ?_)
          split_ifs with hdelete
          · rw [hdelete.1]
            exact .refl _
          · exact .refl _
        · rw [find?_alter, find?_alter]
          simp only [hempty]
          split_ifs with hk hdelete
          · exact .none
          · exact .some (hrest.congr fun r hr => hget r (mem_append_left _ hr))
          · refine rel_congr (h.rows k) fun refs' hfind' r hr => hget r ?_
            refine mem_append_right _ (mem_refsOf (k := k) ?_ hr)
            rwa [erase, find?_alter, if_neg hk]

end RefTable

/-! ### Joins -/

section Simulation

variable {S S' T T' A B : Type} {rel : S → S' → Prop} {rel' : T → T' → Prop}

/-- One hash table does the same as another one. -/
structure HashTable.Simulates (rel : S → S' → Prop) (own : HashTable S A B)
    (own' : HashTable S' A B) : Prop where
  insertFromBlock : ∀ {s s'}, rel s s' → ∀ rows,
    ExceptRel Eq (fun x y => rel x.1 y.1 ∧ x.2 = y.2) (own.insertFromBlock rows s)
      (own'.insertFromBlock rows s')
  findKey : ∀ {s s'}, rel s s' → ∀ row, own.findKey s row = own'.findKey s' row
  doEraseExistingKeys : ∀ {s s'}, rel s s' → ∀ rows,
    ExceptRel Eq rel (own.doEraseExistingKeys rows s) (own'.doEraseExistingKeys rows s')

/-- **The hash table of references does the same as that of the rows.** -/
theorem RefTable.simulates {K : Type} [LinearOrder K] (key : A → K) (probe : B → K)
    (same : A → A → Bool) (deleteKey : Bool) :
    (RefTable.table key probe same deleteKey).Simulates RefTable.Refines
      (RefTable.rowTable key probe same deleteKey) :=
  ⟨fun h => h.insertFromBlock, fun h => h.findKey, fun h _ =>
    ExceptRel.foldlM (fun _ _ row _ hab => hab.eraseRow row) h⟩

variable {own : HashTable S A B} {own' : HashTable S' A B} {other : HashTable T B A}
  {other' : HashTable T' B A}

/-- Erasing the rows of a block keeps the tables in correspondence. -/
theorem HashTable.Simulates.eraseExistingKeys (h : own.Simulates rel own') {joining : S}
    {joining' : S'} (hrel : rel joining joining') (strictness : Strictness) (block : DeltaBlock A) :
    ExceptRel Eq rel (eraseExistingKeys strictness own block joining)
      (eraseExistingKeys strictness own' block joining') := by
  cases strictness with
  | asof | latest | anti => exact .ok hrel
  | all | multiple => exact h.doEraseExistingKeys hrel _

/-- A block of one of the streams. -/
theorem HashTable.Simulates.insertBlockAndJoin (h : own.Simulates rel own')
    (h' : other.Simulates rel' other') {joining : S} {joining' : S'} (hrel : rel joining joining')
    {joined : T} {joined' : T'} (hrel' : rel' joined joined') (cfg : JoinConfig) (kind : Kind)
    (hasDelta : Bool) (block : DeltaBlock A) :
    ExceptRel Eq (fun x y => rel x.1 y.1 ∧ x.2 = y.2)
      (insertBlockAndJoin cfg kind hasDelta own other block joining joined)
      (insertBlockAndJoin cfg kind hasDelta own' other' block joining' joined') := by
  simp only [Streaming.insertBlockAndJoin, retractNewKeys, doJoinBlockWithHashTable,
    h'.findKey hrel']
  split_ifs
  · refine (h.eraseExistingKeys hrel cfg.strictness block).bind fun s s' hs => ?_
    exact (ExceptRel.refl_eq _).bind fun _ _ heq => .ok ⟨hs, by rw [heq]⟩
  · refine (h.eraseExistingKeys hrel cfg.strictness block).bind fun s s' hs => ?_
    exact .ok ⟨hs, rfl⟩
  · refine (h.insertFromBlock hrel (block.map (·.1))).bind fun x y hxy => ?_
    rw [hxy.2]
    refine (ExceptRel.refl_eq _).bind fun retracted _ hretracted => ?_
    exact (ExceptRel.refl_eq _).bind fun _ _ heq => .ok ⟨hxy.1, by rw [hretracted, heq]⟩
  · refine (h.insertFromBlock hrel (block.map (·.1))).bind fun x y hxy => ?_
    refine (ExceptRel.refl_eq (pure [])).bind fun retracted _ hretracted => ?_
    exact (ExceptRel.refl_eq _).bind fun _ _ heq => .ok ⟨hxy.1, by rw [hretracted, heq]⟩

/-- **Joins with hash tables that do the same return the same blocks.** -/
theorem HashTable.Simulates.run {leftTable : HashTable S A B} {leftTable' : HashTable S' A B}
    {rightTable : HashTable T B A} {rightTable' : HashTable T' B A}
    (h : leftTable.Simulates rel leftTable') (h' : rightTable.Simulates rel' rightTable')
    (cfg : JoinConfig) (blocks : List (DeltaBlock A ⊕ DeltaBlock B)) (s : MemoryHashJoin S T)
    (s' : MemoryHashJoin S' T') (hleft : rel s.left s'.left) (hright : rel' s.right s'.right) :
    ExceptRel Eq (fun x y => (rel x.1.left y.1.left ∧ rel' x.1.right y.1.right) ∧ x.2 = y.2)
      (MemoryHashJoin.run cfg leftTable rightTable blocks s)
      (MemoryHashJoin.run cfg leftTable' rightTable' blocks s') := by
  induction blocks generalizing s s' with
  | nil => exact .ok ⟨⟨hleft, hright⟩, rfl⟩
  | cons block blocks ih =>
    have hstep : ExceptRel Eq
        (fun x y => (rel x.1.left y.1.left ∧ rel' x.1.right y.1.right) ∧ x.2 = y.2)
        (MemoryHashJoin.insertAndJoin cfg leftTable rightTable block s)
        (MemoryHashJoin.insertAndJoin cfg leftTable' rightTable' block s') := by
      cases block with
      | inl block =>
        exact (h.insertBlockAndJoin h' hleft hright ..).bind fun x y hxy =>
          .ok ⟨⟨hxy.1, hright⟩, hxy.2⟩
      | inr block =>
        exact (h'.insertBlockAndJoin h hright hleft ..).bind fun x y hxy =>
          .ok ⟨⟨hleft, hxy.1⟩, by simp only [hxy.2]⟩
    refine hstep.bind fun x y hxy => ?_
    refine (ih _ _ hxy.1.1 hxy.1.2).bind fun x' y' hxy' => ?_
    exact .ok ⟨hxy'.1, by rw [hxy.2, hxy'.2]⟩

end Simulation

end Proton.Streaming
