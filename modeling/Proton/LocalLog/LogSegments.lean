import Proton.Lib.SortedSearch
import Proton.LocalLog.LogSegment

/-!
# The Segments of a Log

This module embeds `Cluster/LocalLog/Log/LogSegments.{h,cpp}`, the ordered map from base
sequence numbers to segments. The map is the list of its segments together with the proof
that their base sequence numbers increase, so that a list out of order is not a value of it.

## Main results

* `LogSegments.toList_add`, `LogSegments.toList_remove`: the segments after each change.
* `LogSegments.foldl_remove_front`: removing the first segments leaves the others.
-/

open SortedSearch List

namespace Proton

/-- The order of the map. -/
abbrev IncreasingBase (segments : List LogSegment) : Prop :=
  Increasing LogSegment.baseSn segments

/-- `LogSegments`. -/
@[ext]
structure LogSegments where
  toList : List LogSegment
  increasing : IncreasingBase toList

namespace LogSegments

instance : DecidableEq LogSegments := fun a b =>
  decidable_of_iff (a.toList = b.toList) ⟨LogSegments.ext, congrArg _⟩

/-- The map with one segment. -/
def singleton (segment : LogSegment) : LogSegments :=
  ⟨[segment], pairwise_singleton _ _⟩

/-- What remains of the segments after a selection by their base sequence number. -/
def filter (segments : LogSegments) (p : ℤ → Bool) : LogSegments :=
  ⟨segments.toList.filter fun s => p s.baseSn, segments.increasing.filter _⟩

/-- Inserting a segment keeps the order. -/
theorem increasing_insert {segments : List LogSegment} (h : IncreasingBase segments)
    (segment : LogSegment) :
    IncreasingBase (segments.filter (fun s => s.baseSn < segment.baseSn) ++
      segment :: segments.filter fun s => segment.baseSn < s.baseSn) := by
  rw [IncreasingBase, increasing_append, Increasing, Increasing, pairwise_cons]
  refine ⟨h.filter _, ⟨?_, h.filter _⟩, ?_⟩
  · simp
  · intro a ha b hb
    have hlt : a.baseSn < segment.baseSn := by simpa using (mem_filter.mp ha).2
    rcases mem_cons.mp hb with rfl | hb
    · exact hlt
    · exact hlt.trans (by simpa using (mem_filter.mp hb).2)

variable (segments : LogSegments)

/-- `add`: a segment with the same base sequence number is replaced. -/
def add (segment : LogSegment) : LogSegments :=
  ⟨_, increasing_insert segments.increasing segment⟩

/-- `remove`. -/
def remove (sn : ℤ) : LogSegments :=
  segments.filter fun baseSn => baseSn ≠ sn

/-- `firstSegment`. -/
def firstSegment : Option LogSegment :=
  segments.toList.head?

/-- `lastSegment`, also known as `activeSegment`. -/
def lastSegment : Option LogSegment :=
  segments.toList.getLast?

/-- `floorSegment`: the segment that possibly contains `sn`. -/
def floorSegment (sn : ℤ) : Option LogSegment :=
  lastAtMost LogSegment.baseSn sn segments.toList

/-- `upperSegments`. -/
def upperSegments (sn : ℤ) : List LogSegment :=
  segments.toList.filter fun s => sn < s.baseSn

/-! ### The operations on a list of segments -/

variable {segments : LogSegments} {front back : List LogSegment} {segment active : LogSegment}

/-- A segment is added in its place, and replaces one with the same base. -/
theorem toList_add (segments : LogSegments) (segment : LogSegment) :
    (segments.add segment).toList =
      segments.toList.filter (fun s => s.baseSn < segment.baseSn) ++
        segment :: segments.toList.filter fun s => segment.baseSn < s.baseSn :=
  rfl

/-- The segment with a base is removed. -/
theorem toList_remove (segments : LogSegments) (sn : ℤ) :
    (segments.remove sn).toList = segments.toList.filter fun s => s.baseSn ≠ sn :=
  rfl

/-- The segments behind one are above it. -/
theorem lt_back (h : segments.toList = front ++ active :: back) :
    ∀ s ∈ back, active.baseSn < s.baseSn := by
  have hinc := segments.increasing
  rw [h, IncreasingBase, increasing_append] at hinc
  exact (pairwise_cons.mp hinc.2.1).1

/-- Removing a list of segments keeps what has another base sequence number. -/
theorem toList_foldl_remove (sns : List ℤ) (segments : LogSegments) :
    (sns.foldl remove segments).toList = segments.toList.filter fun s => s.baseSn ∉ sns := by
  induction sns generalizing segments with
  | nil => simp
  | cons sn sns ih =>
    rw [foldl_cons, ih, toList_remove, filter_filter]
    congr 1
    funext s
    by_cases hs : s.baseSn = sn <;> simp [hs]

/-- Removing the segments of a part of the list leaves the rest. -/
theorem foldl_remove_front (h : segments.toList = front ++ back) :
    ((front.map LogSegment.baseSn).foldl remove segments).toList = back := by
  have hinc := segments.increasing
  rw [h, IncreasingBase, increasing_append] at hinc
  rw [toList_foldl_remove, h, filter_append, filter_eq_nil_iff.mpr ?_, nil_append, filter_eq_self]
  · intro s hs
    simp only [mem_map, not_exists, not_and, decide_eq_true_eq]
    intro a ha heq
    exact absurd (hinc.2.2 a ha s hs) (by omega)
  · intro s hs
    simpa using ⟨s, hs, rfl⟩

end LogSegments

end Proton
