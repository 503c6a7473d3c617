import Mathlib.Data.Multiset.Bind

/-!
# Equi-Joins of Multisets

The rows of two multisets are joined on equal keys. A joined row has the two rows, and in an outer
join no right row for a left row without a match.

## Main results

* `EquiJoin.inner_add_left`, `EquiJoin.inner_add_right`, `EquiJoin.inner_swap`: an inner join is
  bilinear, and the same from both sides.
* `EquiJoin.inner_eq_bind`, `EquiJoin.leftOuter_eq_bind`: the joins row by row.
-/

open Multiset

namespace EquiJoin

variable {K C D : Type*} [DecidableEq K] (key : C → K) (key' : D → K)

/-- The inner join: one row for each matching pair. -/
def inner (left : Multiset C) (right : Multiset D) : Multiset (Option C × Option D) :=
  ((left ×ˢ right).filter fun p => key p.1 = key' p.2).map fun p => (some p.1, some p.2)

/-- The left rows whose key no right row has. -/
def unmatched (left : Multiset C) (right : Multiset D) : Multiset C :=
  left.filter fun c => key c ∉ right.map key'

/-- The left outer join: the inner join, and one row for each left row without a match. -/
def leftOuter (left : Multiset C) (right : Multiset D) : Multiset (Option C × Option D) :=
  inner key key' left right + (unmatched key key' left right).map fun c => (some c, none)

variable (left left' : Multiset C) (right right' : Multiset D)

/-- The inner join of more rows on the left. -/
theorem inner_add_left :
    inner key key' (left + left') right =
      inner key key' left right + inner key key' left' right := by
  rw [inner, add_product, filter_add, map_add, ← inner, ← inner]

/-- The inner join of more rows on the right. -/
theorem inner_add_right :
    inner key key' left (right + right') =
      inner key key' left right + inner key key' left right' := by
  rw [inner, product_add, filter_add, map_add, ← inner, ← inner]

/-- The left outer join of more rows on the left. -/
theorem leftOuter_add_left :
    leftOuter key key' (left + left') right =
      leftOuter key key' left right + leftOuter key key' left' right := by
  rw [leftOuter, inner_add_left, unmatched, filter_add, map_add, leftOuter, leftOuter, unmatched,
    unmatched, add_add_add_comm]

/-- The inner join row by row. -/
theorem inner_eq_bind :
    inner key key' left right =
      left.bind fun c => (right.filter fun d => key' d = key c).map fun d => (some c, some d) := by
  change ((left.bind fun c => right.map (Prod.mk c)).filter _).map _ = _
  rw [filter_bind, map_bind]
  refine bind_congr fun c _ => ?_
  rw [filter_map, map_map]
  refine congrArg _ (filter_congr fun d _ => ?_)
  exact eq_comm

/-- From the other side. -/
theorem inner_swap : (inner key' key right left).map Prod.swap = inner key key' left right := by
  simp only [inner_eq_bind, ← bind_singleton, bind_filter]
  rw [bind_bind]
  simp only [bind_assoc]
  refine bind_congr fun c _ => bind_congr fun d _ => ?_
  by_cases h : key c = key' d
  · rw [if_pos h, if_pos h.symm]
    rfl
  · rw [if_neg h, if_neg fun h' => h h'.symm]
    rfl

/-- The left outer join row by row: the right rows with the key, or no right row. -/
theorem leftOuter_eq_bind :
    leftOuter key key' left right =
      left.bind fun c => ((right.filter fun d => key' d = key c).map fun d => (some c, some d)) +
        if key c ∉ right.map key' then {(some c, none)} else 0 := by
  rw [bind_add, ← inner_eq_bind, ← bind_filter, bind_singleton]
  rfl

end EquiJoin
