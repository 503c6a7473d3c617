import Proton.Streaming.HashJoin.RowRefListMultiple

/-!
# Inserting Blocks with Nullable Keys

This module embeds `doInsertBlock` for nullable key columns. The rows of a block are stored at the
end of the last block or as a block of their own, and the loop of `insertFromBlockImplTypeCase`
runs over their positions in the stored block. Keys are read at the positions in the added block,
but the null map, which belongs to the added block too, is read at those in the stored block.

## Main results

* `RefTable.insertBlocks_exact_iff`: when the references of each key are those to its rows.
* `RefTable.merged_block_reads_behind_null_map`: blocks for which they are not.
-/

open List

namespace Proton.Streaming

section NullMap

variable {A : Type} (hasNullMap : Bool) (isNull : A → Bool)

/-- `has_null_map && (*null_map)[i]`; `none` is a read behind the end of the null map. -/
def readNull (block : List A) (i : ℕ) : Option Bool :=
  if hasNullMap then (block.map isNull)[i]? else some false

/-- The rows that the loop inserts, with their positions in the stored block. -/
def indexedRows (block : List A) : List (A × ℕ) → Option (List (A × ℕ))
  | [] => some []
  | (row, i) :: rest => do
    let null ← readNull hasNullMap isNull block i
    let rows ← indexedRows block rest
    some (if null then rows else (row, i) :: rows)

/-- The row has a key. -/
def hasKey (row : A) : Bool := !(hasNullMap && isNull row)

variable {hasNullMap isNull} {block : List A}

/-- Where the null map is read at the place of the row, the rows with a key are inserted. -/
theorem indexedRows_eq {rows : List (A × ℕ)}
    (h : hasNullMap → ∀ e ∈ rows, block[e.2]? = some e.1) :
    indexedRows hasNullMap isNull block rows =
      some (rows.filter (hasKey hasNullMap isNull ·.1)) := by
  induction rows with
  | nil => rfl
  | cons e rows ih =>
    have hread : readNull hasNullMap isNull block e.2 = some (!hasKey hasNullMap isNull e.1) := by
      rw [readNull]
      split_ifs with hnull
      · rw [getElem?_map, h hnull e mem_cons_self]
        simp [hasKey, hnull]
      · simp [hasKey, hnull]
    rw [indexedRows, ih fun hnull e he => h hnull e (mem_cons_of_mem _ he)]
    simp only [hread, Option.bind_eq_bind, Option.bind_some, filter_cons]
    cases hasKey hasNullMap isNull e.1 <;> rfl

/-- A row whose place is behind the end of the null map is read there. -/
theorem indexedRows_eq_none {rows : List (A × ℕ)} {e : A × ℕ} (he : e ∈ rows)
    (hend : block.length ≤ e.2) : indexedRows true isNull block rows = none := by
  induction rows with
  | nil => cases he
  | cons e' rows ih =>
    rw [indexedRows, readNull, if_pos rfl]
    rcases mem_cons.1 he with rfl | he
    · rw [getElem?_eq_none (by rwa [length_map])]
      rfl
    · rw [ih he]
      cases (block.map isNull)[e'.2]? <;> rfl

/-- No block that has rows is stored behind other rows. -/
def StartsBlocks (l : RefCountDataBlockList A) : List (List A) → Prop
  | [] => True
  | block :: blocks =>
    (block = [] ∨ (l.pushBackOrConcat block).1 = 0) ∧
      StartsBlocks (l.pushBackOrConcat block).2 blocks

variable {l : RefCountDataBlockList A}

/-- What the loop inserts if the block starts a stored one. -/
theorem indexedRows_pushBackOrConcat
    (h : hasNullMap → block = [] ∨ (l.pushBackOrConcat block).1 = 0) :
    indexedRows hasNullMap isNull block (block.zipIdx (l.pushBackOrConcat block).1) =
      some ((block.zipIdx (l.pushBackOrConcat block).1).filter
        (hasKey hasNullMap isNull ·.1)) := by
  refine indexedRows_eq fun hnull e he => ?_
  rcases h hnull with rfl | hstart
  · cases he
  · rw [hstart] at he
    exact mem_zipIdx_iff_getElem?.1 he

/-- The last row of another block is read behind the end of the null map. -/
theorem indexedRows_behind (hne : block ≠ []) (hstart : (l.pushBackOrConcat block).1 ≠ 0) :
    indexedRows true isNull block (block.zipIdx (l.pushBackOrConcat block).1) = none := by
  have hlength := length_pos_of_ne_nil hne
  refine indexedRows_eq_none (e := (block.getLast hne,
    (l.pushBackOrConcat block).1 + (block.length - 1))) ?_ (by omega)
  rw [mk_mem_zipIdx_iff_le_and_getElem?_sub, Nat.add_sub_cancel_left,
    ← getLast?_eq_getElem?, getLast?_eq_some_getLast hne]
  exact ⟨Nat.le_add_right _ _, rfl⟩

end NullMap

namespace RefTable

variable {K A : Type} [LinearOrder K] (hasNullMap : Bool) (isNull : A → Bool) (key : A → K)

/-- `doInsertBlock`, of a block with nullable keys. -/
def doInsertBlock (s : RefTable K A) (block : List A) : Option (RefTable K A) := do
  let (startRow, blocks) := s.blocks.pushBackOrConcat block
  let rows ← indexedRows hasNullMap isNull block (block.zipIdx startRow)
  let (s, _) ← ((rows.map (.map key id)).foldlM insertMultiple ({ s with blocks }, [])).toOption
  some s

/-- The blocks of a stream. -/
def insertBlocks (blocks : List (List A)) (s : RefTable K A) : Option (RefTable K A) :=
  blocks.foldlM (doInsertBlock hasNullMap isNull key) s

variable {hasNullMap isNull key} {s : RefTable K A} {t : SortedMap K (List A)}

/-- The rows that are inserted go to the ends of the lists of their keys. -/
theorem find?_foldl_insertRow (rows : List A) (filter : List Bool) (k : K) :
    ((rows.foldl (insertRow (.multiple (B := A) (fun _ _ => true) false) fun row => some (key row))
      (t, filter)).1.find? k).getD [] = (t.find? k).getD [] ++ rows.filter (key · = k) := by
  induction rows generalizing t filter with
  | nil => simp
  | cons row rows ih =>
    rw [foldl_cons, insertRow, ih, SortedMap.find?_insert]
    by_cases hk : key row = k
    · simp [hk]
    · simp [hk, Ne.symm hk]

variable (isNull key) in
/-- The references of a key are those to the rows of the block, behind those that were there. -/
theorem Refines.doInsertBlock (h : Refines s t) {block : List A}
    (hnull : hasNullMap → block = [] ∨ (s.blocks.pushBackOrConcat block).1 = 0) :
    ∃ s' t', s.doInsertBlock hasNullMap isNull key block = some s' ∧
      s'.blocks = (s.blocks.pushBackOrConcat block).2 ∧ Refines s' t' ∧
      ∀ k, (t'.find? k).getD [] = (t.find? k).getD [] ++
        block.filter fun row => key row = k && hasKey hasNullMap isNull row := by
  obtain ⟨s', x, rfl, hfold, hblocks, hrefines⟩ := h.foldlM_insertMultiple key (fun _ _ => true)
    false (B := A) block (hasKey hasNullMap isNull)
  refine ⟨s', _, ?_, hblocks, hrefines, fun k => ?_⟩
  · rw [RefTable.doInsertBlock]
    simp only [indexedRows_pushBackOrConcat hnull, Option.bind_eq_bind, Option.bind_some, hfold]
    rfl
  · rw [find?_foldl_insertRow, filter_filter]

/-- All blocks of a stream. -/
theorem Refines.insertBlocks (h : Refines s t) {blocks : List (List A)}
    (hnull : hasNullMap → StartsBlocks s.blocks blocks) :
    ∃ s' t', insertBlocks hasNullMap isNull key blocks s = some s' ∧ Refines s' t' ∧
      ∀ k, (t'.find? k).getD [] = (t.find? k).getD [] ++
        blocks.flatten.filter fun row => key row = k && hasKey hasNullMap isNull row := by
  induction blocks generalizing s t with
  | nil => exact ⟨s, t, rfl, h, fun k => by simp⟩
  | cons block blocks ih =>
    obtain ⟨s', t', hstep, hblocks, hrefines, hrows⟩ :=
      h.doInsertBlock isNull key fun h => (hnull h).1
    obtain ⟨s'', t'', hrest, hdone, hrows'⟩ := ih hrefines fun h => hblocks ▸ (hnull h).2
    refine ⟨s'', t'', ?_, hdone, fun k => ?_⟩
    · rw [RefTable.insertBlocks, foldlM_cons, hstep]
      exact hrest
    · rw [hrows', hrows, flatten_cons, filter_append, append_assoc]

/-- A block with rows that is stored behind other rows stops the stream. -/
theorem Refines.insertBlocks_none (h : Refines s t) {blocks : List (List A)}
    (hnull : ¬StartsBlocks s.blocks blocks) :
    RefTable.insertBlocks true isNull key blocks s = none := by
  induction blocks generalizing s t with
  | nil => exact absurd trivial hnull
  | cons block blocks ih =>
    rw [RefTable.insertBlocks, foldlM_cons]
    by_cases hstart : block = [] ∨ (s.blocks.pushBackOrConcat block).1 = 0
    · obtain ⟨s', t', hstep, hblocks, hrefines, -⟩ :=
        h.doInsertBlock isNull key fun _ : true => hstart
      rw [hstep]
      exact ih hrefines fun hrest => hnull ⟨hstart, hblocks ▸ hrest⟩
    · rw [not_or] at hstart
      rw [RefTable.doInsertBlock]
      simp only [indexedRows_behind hstart.1 hstart.2]
      rfl

/-- **The references of each key**: the loops return, and the references of a key are those to its
rows, one for each, if and only if there is no null map or no block that has rows is stored behind
other rows. -/
theorem insertBlocks_exact_iff (hasNullMap : Bool) (isNull : A → Bool) (key : A → K) (size : ℕ)
    (blocks : List (List A)) :
    (∃ s, insertBlocks hasNullMap isNull key blocks { blocks := { dataBlockSize := size } } =
        some s ∧
      ∀ k, RowsOf s.blocks ((s.map.find? k).getD [])
        (blocks.flatten.filter fun row => key row = k && hasKey hasNullMap isNull row)) ↔
      (hasNullMap → StartsBlocks { dataBlockSize := size } blocks) := by
  have hempty := refines_empty (K := K) (A := A) size
  constructor
  · rintro ⟨s, hs, -⟩ rfl
    by_contra hnull
    rw [hempty.insertBlocks_none hnull] at hs
    cases hs
  · intro hnull
    obtain ⟨s, t, hs, hrefines, ht⟩ := hempty.insertBlocks hnull
    refine ⟨s, hs, fun k => ?_⟩
    have hrows := hrefines.rows k
    rw [show blocks.flatten.filter _ = (t.find? k).getD [] from (ht k).symm]
    generalize s.map.find? k = refs at hrows ⊢
    generalize t.find? k = rows at hrows ⊢
    cases hrows with
    | none => exact .nil
    | some h => exact h

/-- Two rows with the keys 1 and null, merged into one block: the null map of the second block, of
one row, is read at position 1. -/
theorem merged_block_reads_behind_null_map :
    insertBlocks true (· = 0) id [[1], [0]] ({ blocks := { dataBlockSize := 2 } } : RefTable ℕ ℕ) =
      none := by
  decide

end RefTable

end Proton.Streaming
