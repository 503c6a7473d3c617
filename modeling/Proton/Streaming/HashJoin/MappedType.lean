import Proton.Lib.SortedMap
import Proton.Streaming.HashJoin.MemoryHashJoin
import Proton.Streaming.HashJoin.RangeAsofJoinContext

/-!
# Hash Tables of Rows

The hash tables of a join, for a mapped type of `MemoryHashJoin.h`: a mapped value has rows, and
says what becomes of it when a row is inserted or erased, and which of its rows a row of the other
stream finds. Here the rows themselves are mapped, not references to them. Lists of rows
(`MapsMultiple`) are such a type; the versions of a key in `MapsAsof` are modelled by themselves.
-/

namespace Proton.Streaming

/-- A mapped type: the `Inserter`, the body of `doEraseExistingKeys` and what `joinColumns` reads.
-/
structure MappedType (A B : Type) where
  /-- `Map::mapped_type`. -/
  Mapped : Type
  /-- Another row of the key; a new key if there is no mapped value. -/
  insert : Option Mapped → A → Mapped
  /-- Whether new keys are marked in `new_keys_filter`. -/
  marksNewKeys : Bool
  /-- A row of the key less; the key is erased if there is no mapped value left. Only lists of rows
  can have a row less. -/
  erase : Option (Mapped → A → Except JoinError (Option Mapped))
  /-- The rows that a row of the other stream finds. -/
  found : Mapped → B → List A

namespace MappedType

variable {A B : Type}

/-- `MapsMultiple`: a list of rows. `same` is `compareEqual`, and `deleteKey` is set for a
changelog-kv stream. -/
@[reducible]
def multiple (same : A → A → Bool) (deleteKey : Bool) : MappedType A B where
  Mapped := List A
  insert mapped row := mapped.getD [] ++ [row]
  marksNewKeys := true
  erase := some fun mapped row =>
    match mapped.find? (same row) with
    | none => throw (.exception "Existing value is not found in joined hash table")
    | some _ =>
      let rows := mapped.eraseP (same row)
      pure (if rows = [] ∧ deleteKey then none else some rows)
  found mapped _ := mapped

section Asof

variable {T : Type} [LinearOrder T] (inequality : ASOFJoinInequality) (value : A → T)

/-- The order of a `SortedLookupContainer`. -/
def ascending : Bool := inequality = .less ∨ inequality = .lessOrEquals

/-- `less` or `greater`. -/
def comesBefore (a b : T) : Bool := if ascending inequality then a < b else b < a

/-- `SortedLookupContainer::insert`, with `eraseIfExceedingMaxSize`. -/
def insertSorted (maxSize : ℕ) (array : List A) (row : A) : List A :=
  let before := fun a => comesBefore inequality (value a) (value row)
  let array :=
    if ascending inequality then
      if array.getLast?.all (value · < value row) then array ++ [row]
      else array.takeWhile before ++ row :: array.dropWhile before
    else
      if array.head?.all (value · < value row) then row :: array
      else array.takeWhile before ++ row :: array.dropWhile before
  if maxSize < array.length then
    if ascending inequality then array.tail else array.dropLast
  else array

/-- `AsofRowRefs::findAsof`: `upperBound` if the inequality is strict, else `lowerBound`. -/
def findAsof (array : List A) (k : T) : Option A :=
  if inequality = .less ∨ inequality = .greater then
    array.find? fun a => comesBefore inequality k (value a)
  else array.find? fun a => !comesBefore inequality (value a) k

end Asof

end MappedType

section Table

variable {K A B : Type} [LinearOrder K] (mapped : MappedType A B) (key : A → Option K)
  (probe : B → Option K)

/-- One row of `insertFromBlockImplTypeCase`; a row with a null key is left out. -/
def insertRow (s : SortedMap K mapped.Mapped × List Bool) (row : A) :
    SortedMap K mapped.Mapped × List Bool :=
  match key row with
  | none => (s.1, s.2 ++ [false])
  | some k =>
    (s.1.insert k (mapped.insert (s.1.find? k) row),
      s.2 ++ [mapped.marksNewKeys && (s.1.find? k).isNone])

/-- One row of `doEraseExistingKeys`. -/
def eraseRow (s : SortedMap K mapped.Mapped) (row : A) :
    Except JoinError (SortedMap K mapped.Mapped) :=
  match key row, mapped.erase with
  | none, _ => pure s
  | some _, none =>
    throw (.exception "Internal error. Expecting hash value to point to multiple values")
  | some k, some erase =>
    match s.find? k with
    | none => throw (.exception "Existing key is not found in joined hash table")
    | some rows => do
      let rows ← erase rows row
      pure (s.alter k fun _ => rows)

/-- The hash table of a mapped type. -/
def MappedType.table : HashTable (SortedMap K mapped.Mapped) A B where
  insertFromBlock rows s := pure (rows.foldl (insertRow mapped key) (s, []))
  findKey s row :=
    match probe row with
    | none => pure .null
    | some k =>
      match s.find? k with
      | none => pure .missing
      | some rows => pure (.found (mapped.found rows row))
  doEraseExistingKeys rows s := rows.foldlM (eraseRow mapped key) s

end Table

end Proton.Streaming
