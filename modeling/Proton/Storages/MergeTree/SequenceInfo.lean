import Mathlib.Data.Prod.Lex
import Mathlib.Data.List.Sort
import Mathlib.Data.String.Basic
import Proton.Lib.SortedMap

/-!
# The Sequence Numbers of a Part

This module embeds `Storages/MergeTree/SequenceInfo.cpp`. A block that was committed is split into
parts by partition; each part has the sequence range of the block, the index of the part and the
number of parts, and the idempotent keys of the block. After a restart, the ranges of the parts on
disk tell which ranges have to be read from the log again.

Sequence numbers are `Int64` and part indexes `Int32` in the source, and integers here: no sequence
number is the last one of its type.
-/

namespace Proton

/-- `SequenceRange`: a range of sequence numbers, and which part of how many it belongs to. A range
whose parts are not known has part index and number of parts `-1`. -/
structure SequenceRange where
  /-- `start_sn`. -/
  startSN : ℤ
  /-- `end_sn`. -/
  endSN : ℤ
  /-- `part_index`. -/
  partIndex : ℤ := -1
  /-- `parts`. -/
  parts : ℤ := -1
  deriving DecidableEq, Repr

namespace SequenceRange

/-- `operator<`: by the start, then by the part index. -/
def lt (a b : SequenceRange) : Prop :=
  a.startSN < b.startSN ∨ (a.startSN = b.startSN ∧ a.partIndex < b.partIndex)

instance : DecidableRel lt := fun _ _ => inferInstanceAs (Decidable (_ ∨ (_ ∧ _)))

end SequenceRange

/-- `IdempotentKey`: the sequence number of a record, and its key. -/
abbrev IdempotentKey := ℤ × String

namespace SequenceInfo

/-- `std::sort` of sequence ranges. -/
def sortRanges (ranges : List SequenceRange) : List SequenceRange :=
  ranges.insertionSort fun a b => ¬ b.lt a

/-! ### Missing ranges -/

/-- `collectMissingSequenceRangeBefore`: what is missing before the first range. -/
def collectMissingSequenceRangeBefore (prev : SequenceRange) (prevIndex : ℕ) (nextExpectingSN : ℤ) :
    List SequenceRange :=
  if prevIndex ≠ 0 then []
  else if prev.startSN ≠ nextExpectingSN then [⟨nextExpectingSN, prev.startSN - 1, -1, -1⟩]
  else []

/-- `collectMissingSequenceRangeBetween`: what is missing between two ranges. -/
def collectMissingSequenceRangeBetween (prev cur : SequenceRange) : List SequenceRange :=
  if prev.startSN ≠ cur.startSN ∧ prev.endSN + 1 ≠ cur.startSN then
    [⟨prev.endSN + 1, cur.startSN - 1, -1, -1⟩]
  else []

/-- The parts of a range from one part index to another. -/
def partsFrom (range : SequenceRange) (first last : ℤ) : List SequenceRange :=
  (List.range (last - first).toNat).map fun (i : ℕ) => { range with partIndex := first + i }

/-- The loop of `collectMissingPartsSequenceRange` over the parts that are there, with the part
index that is expected after it. -/
def collectMissingParts (range : SequenceRange) :
    List SequenceRange → ℤ → List SequenceRange × ℤ
  | [], nextExpectingPartIndex => ([], nextExpectingPartIndex)
  | r :: group, nextExpectingPartIndex =>
    if r.partIndex ≠ nextExpectingPartIndex then
      let (missing, next) := collectMissingParts range group (r.partIndex + 1)
      (partsFrom range nextExpectingPartIndex r.partIndex ++ missing, next)
    else collectMissingParts range group (nextExpectingPartIndex + 1)

/-- `collectMissingPartsSequenceRange`. -/
def collectMissingPartsSequenceRange (prev : SequenceRange) (group : List SequenceRange) :
    List SequenceRange :=
  let (missing, next) := collectMissingParts prev group 0
  missing ++ partsFrom prev next prev.parts

/-- `collectMissingSequenceRanges`, for the ranges `group` from `prev_index` to `cur_index`, the
first of which is `prev`. -/
def collectMissingSequenceRanges (prev : SequenceRange) (group : List SequenceRange)
    (cur : SequenceRange) (prevIndex : ℕ) (parts nextExpectingSN : ℤ) :
    List SequenceRange × ℤ :=
  if prev.parts = parts then
    -- all parts are committed
    if prev.startSN = nextExpectingSN then
      (collectMissingSequenceRangeBetween prev cur, prev.endSN + 1)
    else
      (collectMissingSequenceRangeBefore prev prevIndex nextExpectingSN ++
        collectMissingSequenceRangeBetween prev cur, nextExpectingSN)
  else
    (collectMissingSequenceRangeBefore prev prevIndex nextExpectingSN ++
      collectMissingPartsSequenceRange prev group ++
      collectMissingSequenceRangeBetween prev cur, nextExpectingSN)

/-- The loop of `missingSequenceRanges`, over the ranges from `cur_index` on. The ranges from
`prev_index` to `cur_index` are `group`, the first of which is `prev` and the last of which is
`last`. -/
def missingLoop (prev last : SequenceRange) (group : List SequenceRange) (prevIndex curIndex : ℕ)
    (parts nextExpectingSN : ℤ) : List SequenceRange → List SequenceRange × ℤ
  | [] => collectMissingSequenceRanges prev group last prevIndex parts nextExpectingSN
  | cur :: rest =>
    if prev.startSN = cur.startSN then
      missingLoop prev cur (group ++ [cur]) prevIndex (curIndex + 1) (parts + 1)
        nextExpectingSN rest
    else
      let (missing, nextExpectingSN) :=
        collectMissingSequenceRanges prev group cur prevIndex parts nextExpectingSN
      let (missing', nextExpectingSN) :=
        missingLoop cur cur [cur] curIndex (curIndex + 1) 1 nextExpectingSN rest
      (missing ++ missing', nextExpectingSN)

/-- `missingSequenceRanges`: the missing ranges, the next sequence number that is expected, and the
one after the greatest that was committed. -/
def missingSequenceRanges (ranges : List SequenceRange) (committed : ℤ) :
    List SequenceRange × ℤ × ℤ :=
  match sortRanges ranges with
  | [] => ([], committed + 1, committed + 1)
  | first :: rest =>
    let (missing, nextExpectingSN) := missingLoop first first [first] 0 1 1 (committed + 1) rest
    (missing, nextExpectingSN, (rest.getLast?.getD first).endSN + 1)

end SequenceInfo

end Proton
