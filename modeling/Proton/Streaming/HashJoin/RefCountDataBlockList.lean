import Proton.Lib.SortedMap

/-!
# Reference-Counted Data Blocks

This module embeds `RefCountDataBlock.h`, `RefCountDataBlockList.h` and `RowRefWithRefCount` of
`RowRefs.h`, under `Interpreters/Streaming/HashJoin/MemoryHashJoin`: the blocks of rows that a hash
table refers to. A block starts with a count of all of its rows, before any of them is referred to.
A reference that is dropped takes one from the count, and at zero the block is erased.

An iterator of the list is the number of the block, which is new for each block that is created;
the blocks are listed by number. A dereference of an erased block has no result. Counts and row
numbers are `uint32_t` in the source and natural numbers here: a block has fewer than `2 ^ 32` rows.

## Main results

* `RefCountDataBlockList.Holds.pushBackOrConcat`: after a block is added, every reference still
  refers to its row.
* `RefCountDataBlockList.Holds.deref`: after a reference is dropped, every other reference still
  refers to its row.
-/

open SortedMap List

namespace Proton.Streaming

/-- The row that a loop over the rows of a block takes next. -/
theorem getElem?_of_drop_eq_cons {α : Type*} {l rest : List α} {i : ℕ} {a : α}
    (h : l.drop i = a :: rest) : l[i]? = some a ∧ l.drop (i + 1) = rest := by
  rw [← head?_drop, ← tail_drop, h]
  exact ⟨rfl, rfl⟩

/-- `RefCountDataBlock`. -/
structure RefCountDataBlock (R : Type) where
  /-- `block`: its rows. -/
  rows : List R
  /-- `refcnt`. -/
  refcnt : ℕ
  deriving DecidableEq, Repr

/-- `RefCountDataBlock::concat`. -/
def RefCountDataBlock.concat {R : Type} (block : RefCountDataBlock R) (rows : List R) :
    RefCountDataBlock R :=
  ⟨block.rows ++ rows, block.refcnt + rows.length⟩

/-- `RowRefWithRefCount`. -/
structure RowRefWithRefCount where
  /-- `block_iter`. -/
  block : ℕ
  /-- `row_num`. -/
  rowNum : ℕ
  deriving DecidableEq, Repr

/-- `RefCountDataBlockList`. -/
structure RefCountDataBlockList (R : Type) where
  /-- `data_block_size`: how many rows may be merged into a block; 0 is not to merge. -/
  dataBlockSize : ℕ := 0
  /-- `blocks`. -/
  blocks : SortedMap ℕ (RefCountDataBlock R) := .empty
  /-- How many blocks were created. -/
  created : ℕ := 0

namespace RefCountDataBlockList

variable {R : Type}

variable (l : RefCountDataBlockList R)

/-- `lastDataBlockIter`. -/
def lastDataBlockIter : Option ℕ := l.blocks.last?.map (·.1)

/-- The row of a reference. -/
def get (ref : RowRefWithRefCount) : Option R :=
  (l.blocks.find? ref.block).bind (·.rows[ref.rowNum]?)

/-- `pushBack`. -/
def pushBack (rows : List R) (l : RefCountDataBlockList R) : RefCountDataBlockList R :=
  { l with
    blocks := l.blocks.insert l.created ⟨rows, rows.length⟩
    created := l.created + 1 }

/-- `pushBackOrConcat`: also the position of the first added row in its block. -/
def pushBackOrConcat (rows : List R) (l : RefCountDataBlockList R) : ℕ × RefCountDataBlockList R :=
  match l.blocks.last? with
  | some (id, last) =>
    if l.dataBlockSize ≠ 0 ∧ last.rows.length + rows.length ≤ l.dataBlockSize then
      (last.rows.length, { l with blocks := l.blocks.insert id (last.concat rows) })
    else (0, l.pushBack rows)
  | none => (0, l.pushBack rows)

/-- The destructor of a reference. -/
def deref (ref : RowRefWithRefCount) (l : RefCountDataBlockList R) :
    Option (RefCountDataBlockList R) :=
  match l.blocks.find? ref.block with
  | some ⟨rows, n + 2⟩ => some { l with blocks := l.blocks.insert ref.block ⟨rows, n + 1⟩ }
  | some ⟨_, 1⟩ => some { l with blocks := l.blocks.erase ref.block }
  | _ => none

/-! ### The references -/

/-- What the references to the rows of the blocks rely on. Of block `target`, a number of rows are
still to be referred to for the first time. -/
structure Holds (live : List RowRefWithRefCount)
    (target pending : ℕ) : Prop where
  isSome_get : ∀ ref ∈ live, (l.get ref).isSome
  counted : ∀ id block, l.blocks.find? id = some block →
    live.countP (·.block = id) + (if id = target then pending else 0) ≤ block.refcnt
  lt_created : ∀ id ∈ l.blocks.keys, id < l.created

variable {l l' : RefCountDataBlockList R} {live : List RowRefWithRefCount} {target pending : ℕ}
  {ref : RowRefWithRefCount} {rows : List R}

/-- Without blocks there are no references. -/
theorem holds_empty (size target : ℕ) :
    Holds ({ dataBlockSize := size } : RefCountDataBlockList R) [] target 0 :=
  ⟨nofun, nofun, by simp [SortedMap.keys]⟩

/-- The order of the references does not matter. -/
theorem Holds.perm (h : l.Holds live target pending) {live' : List RowRefWithRefCount}
    (hperm : live.Perm live') : l.Holds live' target pending :=
  ⟨fun ref hin => h.isSome_get ref (hperm.mem_iff.mpr hin),
    fun id block hfind => (hperm.countP_eq _) ▸ h.counted id block hfind, h.lt_created⟩

/-- Rows that nothing will refer to. -/
theorem Holds.mono (h : l.Holds live target pending) {pending' : ℕ} (hle : pending' ≤ pending) :
    l.Holds live target pending' := by
  refine ⟨h.isSome_get, fun id block hfind => ?_, h.lt_created⟩
  have hcounted := h.counted id block hfind
  split_ifs at hcounted ⊢ <;> omega

/-- A first reference to a row. -/
theorem Holds.acquire (h : l.Holds live target (pending + 1)) (rowNum : ℕ)
    (hget : (l.get ⟨target, rowNum⟩).isSome) :
    l.Holds (⟨target, rowNum⟩ :: live) target pending := by
  refine ⟨fun ref hin => ?_, fun id block hfind => ?_, h.lt_created⟩
  · rcases mem_cons.mp hin with rfl | hin
    · exact hget
    · exact h.isSome_get ref hin
  · have hcounted := h.counted id block hfind
    rw [countP_cons]
    by_cases hid : id = target
    · subst hid
      simp only [decide_true, if_true] at hcounted ⊢
      omega
    · simp only [hid, Ne.symm hid, decide_false, Bool.false_eq_true, if_false] at hcounted ⊢
      omega

/-- The last block has the greatest number. -/
theorem lastDataBlockIter_eq_some {id : ℕ} : l.lastDataBlockIter = some id ↔
    id ∈ l.blocks.keys ∧ ∀ other ∈ l.blocks.keys, other ≤ id :=
  last?_map_fst_eq_some

/-- A block that is found is one of the list. -/
theorem mem_keys_of_find? {id : ℕ} {block : RefCountDataBlock R}
    (h : l.blocks.find? id = some block) : id ∈ l.blocks.keys :=
  mem_keys.mpr (by rw [h]; rfl)

/-- The block of a reference that refers to a row. -/
theorem exists_block (h : (l.get ref).isSome) : ∃ block, l.blocks.find? ref.block = some block := by
  obtain ⟨row, hrow⟩ := Option.isSome_iff_exists.mp h
  obtain ⟨block, hfind, -⟩ := Option.bind_eq_some_iff.mp hrow
  exact ⟨block, hfind⟩

/-! ### Dropping a reference -/

/-- What the destructor of a reference does. -/
theorem deref_spec {block : RefCountDataBlock R} (hfind : l.blocks.find? ref.block = some block)
    (hpos : 0 < block.refcnt) :
    ∃ l', l.deref ref = some l' ∧ l'.created = l.created ∧ l'.dataBlockSize = l.dataBlockSize ∧
      ∀ id, l'.blocks.find? id =
        if id = ref.block then
          if block.refcnt = 1 then none else some ⟨block.rows, block.refcnt - 1⟩
        else l.blocks.find? id := by
  obtain ⟨rows, refcnt⟩ := block
  rw [RefCountDataBlockList.deref, hfind]
  match refcnt with
  | 0 => exact absurd hpos (lt_irrefl 0)
  | 1 => exact ⟨_, rfl, rfl, rfl, fun id => find?_erase⟩
  | n + 2 => exact ⟨_, rfl, rfl, rfl, fun id => find?_insert⟩

/-- **A reference is dropped**: the other references still refer to their rows, and so do the
references to come. -/
theorem Holds.deref (h : l.Holds (ref :: live) target pending) :
    ∃ l', l.deref ref = some l' ∧ l'.Holds live target pending ∧
      (∀ other ∈ live, l'.get other = l.get other) ∧
      (0 < pending → (∀ rowNum, l'.get ⟨target, rowNum⟩ = l.get ⟨target, rowNum⟩) ∧
        (l.lastDataBlockIter = some target → l'.lastDataBlockIter = some target)) := by
  obtain ⟨block, hfind⟩ := exists_block (h.isSome_get ref List.mem_cons_self)
  have hcounted := h.counted _ _ hfind
  simp only [List.countP_cons, decide_true, if_true] at hcounted
  obtain ⟨l', hderef, hcreated, -, hfind'⟩ := deref_spec hfind (by omega)
  -- a block that other references count on stays
  have hstays : ∀ id, id ≠ ref.block ∨ block.refcnt ≠ 1 →
      (∀ rowNum, l'.get ⟨id, rowNum⟩ = l.get ⟨id, rowNum⟩) ∧
        (id ∈ l.blocks.keys → id ∈ l'.blocks.keys) := by
    intro id hid
    simp only [get, SortedMap.mem_keys, hfind']
    split_ifs with heq hone
    · exact absurd hone (hid.resolve_left (not_not_intro heq))
    · simp [heq, hfind]
    · exact ⟨fun _ => rfl, fun hid => hid⟩
  have hkeys : ∀ id ∈ l'.blocks.keys, id ∈ l.blocks.keys := by
    intro id hid
    rw [SortedMap.mem_keys, hfind'] at hid
    by_cases heq : id = ref.block
    · exact heq ▸ mem_keys_of_find? hfind
    · rw [if_neg heq] at hid
      exact SortedMap.mem_keys.mpr hid
  have hget : ∀ other ∈ live, l'.get other = l.get other := by
    refine fun other hother => (hstays other.block ?_).1 other.rowNum
    refine or_iff_not_imp_left.mpr fun heq => ?_
    have hpos : 0 < live.countP (·.block = ref.block) :=
      List.countP_pos_iff.mpr ⟨other, hother, by simpa using heq⟩
    omega
  refine ⟨l', hderef, ⟨fun other hother => ?_, fun id block' hblock => ?_, fun id hid => ?_⟩, hget,
    fun hpending => ?_⟩
  · rw [hget other hother]
    exact h.isSome_get other (List.mem_cons_of_mem _ hother)
  · rw [hfind'] at hblock
    split_ifs at hblock with heq hone
    · cases hblock
      simp only [heq] at hcounted ⊢
      omega
    · have hother := h.counted id block' hblock
      rwa [List.countP_cons_of_neg (by simpa using Ne.symm heq)] at hother
  · exact hcreated ▸ h.lt_created id (hkeys id hid)
  · obtain ⟨hrows, hkey⟩ := hstays target <| or_iff_not_imp_left.mpr fun heq => by
      rw [if_pos (not_not.mp heq).symm] at hcounted
      omega
    refine ⟨hrows, fun hlast => ?_⟩
    obtain ⟨hin, hle⟩ := lastDataBlockIter_eq_some.mp hlast
    exact lastDataBlockIter_eq_some.mpr
      ⟨hkey hin, fun other hother => hle other (hkeys other hother)⟩

/-! ### Adding a block -/

/-- The rows were added to block `id`, which was the last one, or is new and was empty. -/
structure Extends (l : RefCountDataBlockList R) (rows : List R) (id : ℕ)
    (old : RefCountDataBlock R) (l' : RefCountDataBlockList R) : Prop where
  find? : ∀ other, l'.blocks.find? other =
    if other = id then some (old.concat rows) else l.blocks.find? other
  old : l.blocks.find? id = some old ∨ l.blocks.find? id = none ∧ old = ⟨[], 0⟩
  le_id : ∀ other ∈ l.blocks.keys, other ≤ id
  created : l.created ≤ l'.created ∧ id < l'.created
  dataBlockSize : l'.dataBlockSize = l.dataBlockSize

theorem extends_pushBack (h : ∀ id ∈ l.blocks.keys, id < l.created) (rows : List R) :
    l.Extends rows l.created ⟨[], 0⟩ (l.pushBack rows) where
  find? other := find?_insert.trans (by simp [RefCountDataBlock.concat])
  old := .inr ⟨find?_eq_none.mpr fun hin => lt_irrefl _ (h _ hin), rfl⟩
  le_id other hother := (h other hother).le
  created := ⟨Nat.le_succ _, Nat.lt_succ_self _⟩
  dataBlockSize := rfl

/-- Rows are added to the last block or to a new one. -/
theorem extends_pushBackOrConcat (h : ∀ id ∈ l.blocks.keys, id < l.created) (rows : List R) :
    ∃ id old, l.Extends rows id old (l.pushBackOrConcat rows).2 ∧
      (l.pushBackOrConcat rows).1 = old.rows.length := by
  rw [RefCountDataBlockList.pushBackOrConcat]
  split
  · rename_i id last hlast
    have hfind : l.blocks.find? id = some last := find?_eq_some.mpr (mem_of_getLast? hlast)
    split_ifs
    · exact ⟨id, last, ⟨fun _ => find?_insert, .inl hfind,
        fun other hother => le_last? hlast hother,
        ⟨le_rfl, h id (mem_keys_of_find? hfind)⟩, rfl⟩, rfl⟩
    · exact ⟨_, _, extends_pushBack h rows, rfl⟩
  · exact ⟨_, _, extends_pushBack h rows, rfl⟩

/-- **Rows are added**: the references still refer to their rows, and there are as many rows to
be referred to as were added. -/
theorem Holds.extend (h : l.Holds live target 0) {id : ℕ} {old : RefCountDataBlock R}
    (hext : l.Extends rows id old l') :
    l'.lastDataBlockIter = some id ∧ l'.Holds live id rows.length ∧
      (∀ ref ∈ live, l'.get ref = l.get ref) ∧
      (∀ i, l'.get ⟨id, old.rows.length + i⟩ = rows[i]?) := by
  have hkeys : ∀ other, other ∈ l'.blocks.keys ↔ other = id ∨ other ∈ l.blocks.keys := by
    intro other
    rw [SortedMap.mem_keys, SortedMap.mem_keys, hext.find?]
    split_ifs with heq <;> simp [heq]
  -- the rows that were there stay where they were
  have hget : ∀ ref ∈ live, l'.get ref = l.get ref := by
    intro ref href
    have hsome := h.isSome_get ref href
    obtain ⟨block, hfind⟩ := exists_block hsome
    rw [get, hfind, Option.bind_some] at hsome
    rw [get, get, hext.find?]
    split_ifs with heq
    · rcases hext.old with hold | ⟨hnone, -⟩
      · cases (heq ▸ hfind).symm.trans hold
        rw [hfind]
        exact getElem?_append_left (by simpa using hsome)
      · cases (heq ▸ hfind).symm.trans hnone
    · rfl
  refine ⟨lastDataBlockIter_eq_some.mpr ⟨(hkeys id).mpr (.inl rfl), fun other hother => ?_⟩,
    ⟨fun ref href => ?_, fun other block hblock => ?_, fun other hother => ?_⟩, hget, fun i => ?_⟩
  · exact ((hkeys other).mp hother).elim Eq.le (hext.le_id other)
  · rw [hget ref href]
    exact h.isSome_get ref href
  · rw [hext.find?] at hblock
    split_ifs at hblock ⊢ with heq
    · cases hblock
      subst heq
      rcases hext.old with hold | ⟨hnone, rfl⟩
      · have hcounted := h.counted other old hold
        simp only [RefCountDataBlock.concat]
        omega
      · have hzero : live.countP (·.block = other) = 0 := by
          refine countP_eq_zero.mpr fun ref href heq => ?_
          obtain ⟨block, hfind⟩ := exists_block (h.isSome_get ref href)
          rw [of_decide_eq_true heq, hnone] at hfind
          cases hfind
        rw [hzero]
        exact le_rfl
    · exact (Nat.le_add_right _ _).trans (h.counted other block hblock)
  · rcases (hkeys other).mp hother with rfl | hother
    · exact hext.created.2
    · exact (h.lt_created other hother).trans_le hext.created.1
  · rw [get, hext.find?, if_pos rfl, Option.bind_some, RefCountDataBlock.concat,
      getElem?_append_right (Nat.le_add_right _ _), Nat.add_sub_cancel_left]

/-- After a block is added, every reference still refers to its row. -/
theorem Holds.pushBack (h : l.Holds live target 0) (rows : List R) :
    (l.pushBack rows).lastDataBlockIter = some l.created ∧
      (l.pushBack rows).Holds live l.created rows.length ∧
      (∀ ref ∈ live, (l.pushBack rows).get ref = l.get ref) ∧
      (∀ i, (l.pushBack rows).get ⟨l.created, i⟩ = rows[i]?) := by
  simpa using h.extend (extends_pushBack h.lt_created rows)

/-- The same for a block that may be merged. -/
theorem Holds.pushBackOrConcat (h : l.Holds live target 0) (rows : List R) :
    ∃ id, (l.pushBackOrConcat rows).2.lastDataBlockIter = some id ∧
      (l.pushBackOrConcat rows).2.Holds live id rows.length ∧
      (∀ ref ∈ live, (l.pushBackOrConcat rows).2.get ref = l.get ref) ∧
      (∀ i, (l.pushBackOrConcat rows).2.get ⟨id, (l.pushBackOrConcat rows).1 + i⟩ = rows[i]?) := by
  obtain ⟨id, old, hext, hstart⟩ := extends_pushBackOrConcat h.lt_created rows
  exact ⟨id, hstart ▸ h.extend hext⟩

end RefCountDataBlockList

end Proton.Streaming
