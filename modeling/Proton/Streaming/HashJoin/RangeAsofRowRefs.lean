import Proton.Lib.SortedMultimap
import Proton.Streaming.HashJoin.RangeAsofJoinContext

/-!
# The Range Lookup

This module embeds `RangeAsofRowRefs::findRange` of `MemoryHashJoin/RowRefs.cpp`; the lookup of the
hybrid join, `RangeAsofRows::findRange` of `HybridHashJoin/Rows.cpp`, has the same text. The rows of
one join key stand in an ordered multimap under their time, and the lookup cuts the rows in range
out of it by two searches and a loop between two iterators.

An iterator is a position. The arithmetic on times is that of the column's type.

## Main results

* `RangeAsofRowRefs.Parts.findBetween_eq`: what the lookup finds, in terms of the rows before the
  range, in it, at its end and behind it.
* `RangeAsofRowRefs.findRange_exact_iff`: when the lookup returns the rows in range.
* `RangeAsofRowRefs.range_ends_missed`: two rows at the end of a range, and a row at an end that
  does not belong to it.
-/

open List Word SortedMultimap

namespace Proton.Streaming

/-- `RangeAsofRowRefs`: the rows of one join key under their time, in an ordered multimap. -/
structure RangeAsofRowRefs (R : Type) where
  /-- `lookups`. -/
  lookups : SortedMultimap ℤ R := .empty

namespace RangeAsofRowRefs

variable {R : Type}

/-- `insert`. -/
def insert (key : ℤ) (row : R) (refs : RangeAsofRowRefs R) : RangeAsofRowRefs R :=
  ⟨refs.lookups.insert key row⟩

/-! ### The lookup -/

section FindBetween

variable (m : SortedMultimap ℤ R) (start : ℤ) (isStartStrict : Bool) (stop : ℤ)
  (isStopStrict : Bool)

/-- `lower_iter`: the first row behind the start of the range. -/
def lowerIter : ℕ := if isStartStrict then m.upperBound start else m.lowerBound start

/-- `upper_iter`: one step back from the first row at or behind the end of the range, unless
that row is at the end and belongs to the range. There is no step back from the first row. -/
def upperIter : Option ℕ :=
  let iter := m.lowerBound stop
  if isStopStrict || m.toList[iter]?.all (stop < ·.1) then
    if iter = 0 then none else some (iter - 1)
  else some iter

/-- What the two lookups share. A loop that passes its last iterator has no outcome. -/
def findBetween : Option (List R) :=
  let iter := lowerIter m start isStartStrict
  match m.toList[iter]? with
  | none => some []
  | some first =>
    if stop < first.1 then some []
    else if isStopStrict && m.lowerBound stop == 0 then some []
    else
      (upperIter m stop isStopStrict).bind fun last =>
        (walk (m.toList.drop iter) iter last).map (·.map (·.2))

end FindBetween

variable (w : Word) (ctx : RangeAsofJoinContext) (key : ℤ) (refs : RangeAsofRowRefs R)

/-- `call_for_left_block`: the rows of the right stream for a row of the left one. The column's
type is `w`. -/
def callForLeftBlock : Option (List R) :=
  findBetween refs.lookups
    (w.wrap (key - w.wrap ctx.upperBound)) (ctx.rightInequality = .less)
    (w.wrap (key - w.wrap ctx.lowerBound)) (ctx.leftInequality = .greater)

/-- `call_for_right_block`: the rows of the left stream for a row of the right one. -/
def callForRightBlock : Option (List R) :=
  findBetween refs.lookups
    (w.wrap (key + w.wrap ctx.lowerBound)) (ctx.leftInequality = .greater)
    (w.wrap (key + w.wrap ctx.upperBound)) (ctx.rightInequality = .less)

/-- `findRange`. -/
def findRange (isLeftBlock : Bool) : Option (List R) :=
  if isLeftBlock then callForLeftBlock w ctx key refs else callForRightBlock w ctx key refs

/-! ### The parts of the multimap -/

section Parts

variable {m : SortedMultimap ℤ R} {start stop : ℤ} {isStartStrict isStopStrict : Bool}

/-- The row comes before the range. -/
def Before (start : ℤ) (isStartStrict : Bool) (t : ℤ) : Prop :=
  if isStartStrict then t ≤ start else t < start
deriving Decidable

/-- The row belongs to the range. -/
def Within (start : ℤ) (isStartStrict : Bool) (stop : ℤ) (isStopStrict : Bool) (t : ℤ) : Prop :=
  ¬ Before start isStartStrict t ∧ if isStopStrict then t < stop else t ≤ stop
deriving Decidable

/-- The rows before the range, those in it before its end, those at its end and those behind
it. -/
structure Parts (m : SortedMultimap ℤ R) (start : ℤ) (isStartStrict : Bool) (stop : ℤ)
    (before inside atStop behind : List (ℤ × R)) : Prop where
  toList : m.toList = before ++ (inside ++ (atStop ++ behind))
  before : ∀ e ∈ before, Before start isStartStrict e.1 ∧ e.1 < stop
  inside : ∀ e ∈ inside, ¬ Before start isStartStrict e.1 ∧ e.1 < stop
  atStop : ∀ e ∈ atStop, ¬ Before start isStartStrict e.1 ∧ e.1 = stop
  behind : ∀ e ∈ behind, ¬ Before start isStartStrict e.1 ∧ stop < e.1

/-- What is earlier is before the range as well. -/
theorem Before.of_le {t t' : ℤ} (h : Before start isStartStrict t') (hle : t ≤ t') :
    Before start isStartStrict t := by
  cases isStartStrict <;> simp only [Before, if_true, if_false, Bool.false_eq_true] at h ⊢ <;> omega

/-- What is before the range is before its end. -/
theorem Before.lt_of_lt {t : ℤ} (h : Before start isStartStrict t) (hlt : start < stop) :
    t < stop := by
  cases isStartStrict <;> simp only [Before, if_true, if_false, Bool.false_eq_true] at h <;> omega

/-- A sorted list falls into these parts. -/
theorem exists_parts (m : SortedMultimap ℤ R) (isStartStrict : Bool) (h : start < stop) :
    ∃ before inside atStop behind,
      Parts m start isStartStrict stop before inside atStop behind := by
  obtain ⟨before, rest, heq, hbefore, hrest⟩ := exists_split m.sorted
    (q := Before start isStartStrict) fun a b hab hb => hb.of_le hab
  have hsorted := m.sorted
  rw [heq] at hsorted
  obtain ⟨inside, rest', rfl, hinside, hrest'⟩ := exists_split
    (pairwise_append.mp hsorted).2.1 (q := (· < stop)) fun a b hab hb => hab.trans_lt hb
  obtain ⟨atStop, behind, rfl, hatStop, hbehind⟩ := exists_split
    (pairwise_append.mp (pairwise_append.mp hsorted).2.1).2.1
    (q := (· ≤ stop)) fun a b hab hb => hab.trans hb
  simp only [mem_append] at hrest hrest'
  refine ⟨before, inside, atStop, behind, heq, fun e he => ?_, fun e he => ?_, fun e he => ?_,
    fun e he => ?_⟩
  · exact ⟨hbefore e he, (hbefore e he).lt_of_lt h⟩
  · exact ⟨hrest e (.inl he), hinside e he⟩
  · exact ⟨hrest e (.inr (.inl he)), le_antisymm (hatStop e he) (not_lt.mp (hrest' e (.inl he)))⟩
  · exact ⟨hrest e (.inr (.inr he)), not_le.mp (hbehind e he)⟩

variable {before inside atStop behind : List (ℤ × R)}

/-- A condition that holds of the rows of one part only. -/
theorem length_filter_append {l r : List (ℤ × R)} {p : ℤ × R → Bool} (hl : ∀ e ∈ l, p e = true)
    (hr : ∀ e ∈ r, ¬ p e = true) : ((l ++ r).filter p).length = l.length := by
  rw [filter_append, filter_eq_self.mpr hl, filter_eq_nil_iff.mpr hr, append_nil]

variable (h : Parts m start isStartStrict stop before inside atStop behind)
include h

/-- The search starts at the first row of the range. -/
theorem Parts.lowerIter_eq : lowerIter m start isStartStrict = before.length := by
  have hback : ∀ e ∈ inside ++ (atStop ++ behind), ¬ Before start isStartStrict e.1 := by
    intro e he
    simp only [mem_append] at he
    rcases he with he | he | he
    · exact (h.inside e he).1
    · exact (h.atStop e he).1
    · exact (h.behind e he).1
  have hfront : ∀ e ∈ before, Before start isStartStrict e.1 := fun e he => (h.before e he).1
  rw [lowerIter]
  cases isStartStrict with
  | true =>
    rw [upperBound_eq, h.toList]
    exact length_filter_append (by simpa [Before] using hfront) (by simpa [Before] using hback)
  | false =>
    rw [lowerBound_eq, h.toList]
    exact length_filter_append (by simpa [Before] using hfront) (by simpa [Before] using hback)

/-- The lower bound of the end is behind the rows inside. -/
theorem Parts.lowerBound_eq : m.lowerBound stop = before.length + inside.length := by
  rw [SortedMultimap.lowerBound_eq, h.toList, ← append_assoc, ← length_append]
  refine length_filter_append (fun e he => decide_eq_true ?_) fun e he => ?_
  · rcases mem_append.mp he with he | he
    · exact (h.before e he).2
    · exact (h.inside e he).2
  · rw [decide_eq_true_iff, not_lt]
    rcases mem_append.mp he with he | he
    · exact (h.atStop e he).2.ge
    · exact (h.behind e he).2.le

/-- The rows of the range. -/
theorem Parts.filter_within :
    m.toList.filter (Within start isStartStrict stop isStopStrict ·.1) =
      inside ++ if isStopStrict then [] else atStop := by
  have hbefore : before.filter (Within start isStartStrict stop isStopStrict ·.1) = [] :=
    filter_eq_nil_iff.mpr fun e he hin => (of_decide_eq_true hin).1 (h.before e he).1
  have hinside : inside.filter (Within start isStartStrict stop isStopStrict ·.1) = inside := by
    refine filter_eq_self.mpr fun e he => decide_eq_true ⟨(h.inside e he).1, ?_⟩
    have hlt := (h.inside e he).2
    split_ifs
    · exact hlt
    · exact hlt.le
  have hatStop : atStop.filter (Within start isStartStrict stop isStopStrict ·.1) =
      if isStopStrict then [] else atStop := by
    split_ifs with hstrict
    · refine filter_eq_nil_iff.mpr fun e he hin => ?_
      have hlt := (of_decide_eq_true hin).2
      rw [if_pos hstrict] at hlt
      exact absurd (h.atStop e he).2 hlt.ne
    · refine filter_eq_self.mpr fun e he => decide_eq_true ⟨(h.atStop e he).1, ?_⟩
      rw [if_neg hstrict]
      exact (h.atStop e he).2.le
  have hbehind : behind.filter (Within start isStartStrict stop isStopStrict ·.1) = [] := by
    refine filter_eq_nil_iff.mpr fun e he hin => ?_
    have hle := (of_decide_eq_true hin).2
    have hgt := (h.behind e he).2
    split_ifs at hle <;> omega
  rw [h.toList, filter_append, filter_append, filter_append, hbefore, hinside,
    hatStop, hbehind, append_nil, nil_append]

omit h

/-- A walk over the rows before the end of the range. -/
theorem walk_inside {back : List (ℤ × R)} (hne : inside ≠ []) (i : ℕ) :
    walk (inside ++ back) i (i + inside.length - 1) = some inside := by
  obtain ⟨init, e, rfl⟩ := eq_nil_or_concat' inside |>.resolve_left hne
  rw [append_assoc, length_append, length_singleton, ← Nat.add_assoc]
  exact walk_append_cons init e back i

include h

/-- The rows from the start of the range on. -/
theorem Parts.drop_eq : m.toList.drop before.length = inside ++ (atStop ++ behind) := by
  rw [h.toList, drop_left]

/-- `upper_iter` goes a step back unless the row at the end of the range belongs to it. -/
theorem Parts.upperIter_eq :
    upperIter m stop isStopStrict =
      if isStopStrict || atStop.isEmpty then
        if before.length + inside.length = 0 then none
        else some (before.length + inside.length - 1)
      else some (before.length + inside.length) := by
  have hget : m.toList[before.length + inside.length]? = (atStop ++ behind).head? := by
    rw [← head?_drop, ← drop_drop, h.drop_eq, drop_left]
  have hall : (m.toList[before.length + inside.length]?.all (stop < ·.1)) = atStop.isEmpty := by
    rw [hget]
    cases hatStop : atStop with
    | nil =>
      cases hbehind : behind with
      | nil => rfl
      | cons e behind =>
        have hlt := (h.behind e (by rw [hbehind]; exact mem_cons_self)).2
        simpa using hlt
    | cons e atStop =>
      have heq := (h.atStop e (by rw [hatStop]; exact mem_cons_self)).2
      simp [heq]
  rw [upperIter, h.lowerBound_eq, hall]

/-- The lookup when rows of the range lie before its end. -/
theorem Parts.findBetween_of_ne_nil (hne : inside ≠ []) :
    findBetween m start isStartStrict stop isStopStrict =
      some ((inside ++ if isStopStrict then [] else atStop.take 1).map (·.2)) := by
  obtain ⟨first, rest, hcons⟩ := exists_cons_of_ne_nil hne
  have hfirst : m.toList[before.length]? = some first := by
    rw [← head?_drop, h.drop_eq, hcons]
    rfl
  have hlt : ¬ stop < first.1 :=
    not_lt.mpr (h.inside first (by rw [hcons]; exact mem_cons_self)).2.le
  have hpos : 0 < inside.length := length_pos_iff.mpr hne
  have hiter : ¬ (before.length + inside.length = 0) := by omega
  rw [findBetween, h.lowerIter_eq, hfirst, h.upperIter_eq, h.drop_eq, h.lowerBound_eq,
    beq_false_of_ne hiter, if_neg hiter]
  dsimp only
  rw [if_neg hlt, Bool.and_false, if_neg Bool.false_ne_true]
  cases isStopStrict with
  | true => rw [Bool.true_or, if_pos rfl, if_pos rfl, Option.bind_some, walk_inside hne,
      Option.map_some, append_nil]
  | false =>
    cases atStop with
    | nil => simp [walk_inside hne]
    | cons e atStop =>
      simp [walk_append_cons]

omit h

/-- The lookup when no row of the range lies before its end. -/
theorem Parts.findBetween_of_nil (h : Parts m start isStartStrict stop before [] atStop behind) :
    findBetween m start isStartStrict stop isStopStrict =
      if isStopStrict then
        if atStop ≠ [] ∧ before ≠ [] then none else some []
      else some ((atStop.take 1).map (·.2)) := by
  have hfirst : m.toList[before.length]? = (atStop ++ behind).head? := by
    rw [← head?_drop, h.drop_eq, nil_append]
  rw [findBetween, h.lowerIter_eq, hfirst, h.upperIter_eq, h.drop_eq, h.lowerBound_eq, length_nil]
  cases hatStop : atStop with
  | nil =>
    cases hbehind : behind with
    | nil => cases isStopStrict <;> rfl
    | cons e behind =>
      have hlt := (h.behind e (by rw [hbehind]; exact mem_cons_self)).2
      cases isStopStrict <;> simp [hlt]
  | cons e atStop =>
    have heq := (h.atStop e (by rw [hatStop]; exact mem_cons_self)).2
    have hlt : ¬ stop < e.1 := by omega
    cases isStopStrict with
    | true =>
      cases hbefore : before with
      | nil => simp [hlt]
      | cons b before =>
        simp [hlt, walk_eq_none]
    | false => simp [hlt, walk]

/-- The end of the range does no harm: when it belongs to the range, no more than one row is at
it; when it does not, and a row is at it and another before it, some row is in the range. -/
def EndClear (m : SortedMultimap ℤ R) (start : ℤ) (isStartStrict : Bool) (stop : ℤ)
    (isStopStrict : Bool) : Prop :=
  if isStopStrict then
    (∃ e ∈ m.toList, e.1 = stop) → (∃ e ∈ m.toList, e.1 < stop) →
      ∃ e ∈ m.toList, Within start isStartStrict stop isStopStrict e.1
  else (m.toList.filter (·.1 = stop)).length ≤ 1

include h

/-- The rows at the end of the range. -/
theorem Parts.filter_stop : m.toList.filter (·.1 = stop) = atStop := by
  have hbefore : before.filter (·.1 = stop) = [] := filter_eq_nil_iff.mpr fun e he hin =>
    absurd (of_decide_eq_true hin) (h.before e he).2.ne
  have hinside : inside.filter (·.1 = stop) = [] := filter_eq_nil_iff.mpr fun e he hin =>
    absurd (of_decide_eq_true hin) (h.inside e he).2.ne
  have hatStop : atStop.filter (·.1 = stop) = atStop := filter_eq_self.mpr fun e he =>
    decide_eq_true (h.atStop e he).2
  have hbehind : behind.filter (·.1 = stop) = [] := filter_eq_nil_iff.mpr fun e he hin =>
    absurd (of_decide_eq_true hin) (h.behind e he).2.ne'
  rw [h.toList, filter_append, filter_append, filter_append, hbefore, hinside,
    hatStop, hbehind, append_nil, nil_append, nil_append]

/-- The condition in terms of the parts: the loop runs past the last row when the row at an
exclusive end is the first one behind the start. -/
theorem Parts.endClear_iff :
    EndClear m start isStartStrict stop isStopStrict ↔
      if isStopStrict then ¬ (inside = [] ∧ atStop ≠ [] ∧ before ≠ []) else atStop.length ≤ 1 := by
  have hexists : ∀ p : ℤ × R → Bool,
      (∃ e ∈ m.toList, p e = true) ↔ m.toList.filter p ≠ [] := by
    simp [filter_eq_nil_iff]
  rw [EndClear]
  cases isStopStrict with
  | false => rw [if_neg Bool.false_ne_true, if_neg Bool.false_ne_true, h.filter_stop]
  | true =>
    have hat := hexists (·.1 = stop)
    have hwithin := hexists (Within start isStartStrict stop true ·.1)
    have hbelow : (∃ e ∈ m.toList, e.1 < stop) ↔ before ≠ [] ∨ inside ≠ [] := by
      have hlength := hexists (·.1 < stop)
      rw [← length_pos_iff, ← SortedMultimap.lowerBound_eq, h.lowerBound_eq] at hlength
      simp only [decide_eq_true_iff] at hlength
      rw [hlength, ← length_pos_iff, ← length_pos_iff]
      omega
    rw [h.filter_stop] at hat
    rw [h.filter_within, if_pos rfl, append_nil] at hwithin
    simp only [decide_eq_true_iff] at hat hwithin
    rw [if_pos rfl, if_pos rfl, hat, hbelow, hwithin]
    tauto

/-- **What the lookup finds.** -/
theorem Parts.findBetween_eq :
    findBetween m start isStartStrict stop isStopStrict =
      if isStopStrict ∧ inside = [] ∧ atStop ≠ [] ∧ before ≠ [] then none
      else some ((inside ++ if isStopStrict then [] else atStop.take 1).map (·.2)) := by
  by_cases hne : inside = []
  · subst hne
    rw [h.findBetween_of_nil]
    cases isStopStrict <;> simp
  · rw [h.findBetween_of_ne_nil hne]
    exact (if_neg fun hwalk => hne hwalk.2.1).symm

omit h

/-- **When the lookup between two times is exact.** -/
theorem findBetween_exact_iff (hlt : start < stop) :
    (∃ rows, findBetween m start isStartStrict stop isStopStrict = some rows ∧
      rows.Perm ((m.toList.filter (Within start isStartStrict stop isStopStrict ·.1)).map (·.2))) ↔
    EndClear m start isStartStrict stop isStopStrict := by
  obtain ⟨before, inside, atStop, behind, h⟩ := exists_parts m isStartStrict hlt
  rw [h.endClear_iff, h.filter_within, h.findBetween_eq]
  cases isStopStrict with
  | true =>
    by_cases hwalk : inside = [] ∧ atStop ≠ [] ∧ before ≠ []
    · simp [hwalk]
    · rw [if_neg fun h => hwalk h.2]
      exact iff_of_true ⟨_, rfl, .refl _⟩ hwalk
  | false =>
    rw [if_neg fun h => Bool.false_ne_true h.1]
    simp only [Bool.false_eq_true, if_false, Option.some.injEq, exists_eq_left']
    constructor
    · intro hperm
      have hlength := hperm.length_eq
      simp only [length_map, length_append, length_take] at hlength
      omega
    · intro hle
      rw [take_of_length_le hle]

end Parts

/-! ### Exactness -/

/-- No sum of the lookup overflows the column's type. -/
structure Fits (w : Word) (ctx : RangeAsofJoinContext) (key : ℤ) (isLeftBlock : Bool) : Prop where
  lower : w.Mem (if isLeftBlock then key - ctx.lowerBound else key + ctx.lowerBound)
  upper : w.Mem (if isLeftBlock then key - ctx.upperBound else key + ctx.upperBound)

/-- The row under time `t` is in range of the row that is looked up. -/
def Joins (ctx : RangeAsofJoinContext) (isLeftBlock : Bool) (key t : ℤ) : Prop :=
  if isLeftBlock then ctx.InRange key t else ctx.InRange t key
deriving Decidable

/-- The condition on the rows that are stored under the key. -/
def Clear (ctx : RangeAsofJoinContext) (isLeftBlock : Bool) (key : ℤ) (refs : RangeAsofRowRefs R) :
    Prop :=
  if isLeftBlock then
    EndClear refs.lookups (key - ctx.upperBound) (ctx.rightInequality = .less)
      (key - ctx.lowerBound) (ctx.leftInequality = .greater)
  else
    EndClear refs.lookups (key + ctx.lowerBound) (ctx.leftInequality = .greater)
      (key + ctx.upperBound) (ctx.rightInequality = .less)

variable {w ctx key refs}

/-- The range for a row of the left side. -/
theorem within_left_iff {t : ℤ} :
    Within (key - ctx.upperBound) (ctx.rightInequality = .less) (key - ctx.lowerBound)
      (ctx.leftInequality = .greater) t ↔ Joins ctx true key t := by
  simp only [Within, Before, Joins, RangeAsofJoinContext.InRange, decide_eq_true_eq]
  split_ifs <;> omega

/-- The range for a row of the right side. -/
theorem within_right_iff {t : ℤ} :
    Within (key + ctx.lowerBound) (ctx.leftInequality = .greater) (key + ctx.upperBound)
      (ctx.rightInequality = .less) t ↔ Joins ctx false key t := by
  simp only [Within, Before, Joins, RangeAsofJoinContext.InRange, decide_eq_true_eq,
    Bool.false_eq_true, if_false]
  split_ifs <;> omega

/-- **When a lookup returns the rows in range**, each once, and ends. -/
theorem findRange_exact_iff {isLeftBlock : Bool} (hctx : ctx.Accepted)
    (hfit : Fits w ctx key isLeftBlock) :
    (∃ rows, refs.findRange w ctx key isLeftBlock = some rows ∧
      rows.Perm ((refs.lookups.toList.filter (Joins ctx isLeftBlock key ·.1)).map (·.2))) ↔
    refs.Clear ctx isLeftBlock key := by
  have hlt := hctx.lowerBound_lt
  obtain ⟨hlower, hupper⟩ := hfit
  cases isLeftBlock with
  | true =>
    rw [if_pos rfl] at hlower hupper
    rw [findRange, if_pos rfl, callForLeftBlock, Clear, if_pos rfl, wrap_sub_wrap,
      wrap_sub_wrap, wrap_of_mem hlower, wrap_of_mem hupper,
      ← findBetween_exact_iff (by omega)]
    simp only [within_left_iff]
  | false =>
    rw [if_neg Bool.false_ne_true] at hlower hupper
    rw [findRange, if_neg Bool.false_ne_true, callForRightBlock, Clear,
      if_neg Bool.false_ne_true, wrap_add_wrap, wrap_add_wrap,
      wrap_of_mem hlower, wrap_of_mem hupper, ← findBetween_exact_iff (by omega)]
    simp only [within_right_iff]

/-- `-10 <= left - right <= 10`. -/
def withinTen : RangeAsofJoinContext :=
  { lowerBound := -10, upperBound := 10, type := .integer }

/-- Three rows within ten of a hundred. -/
theorem findRange_at_hundred :
    ∃ rows, ((RangeAsofRowRefs.mk .empty).insert 95 1 |>.insert 95 2 |>.insert 110 3).findRange
        .int64 withinTen 100 true = some rows ∧ rows.Perm [1, 2, 3] := by
  have hctx : withinTen.Accepted := ⟨by decide, by decide, by decide, .inr rfl, .inr rfl⟩
  have hfit : Fits .int64 withinTen 100 true := ⟨by decide, by decide⟩
  refine (findRange_exact_iff hctx hfit).mpr ?_
  rw [Clear, if_pos rfl, EndClear]
  decide

/-- Of two rows at the end of the range the second is not found, and a row at an end that does
not belong to the range sends the loop past the last row. -/
theorem range_ends_missed :
    ((RangeAsofRowRefs.mk .empty).insert 110 1 |>.insert 110 2).findRange .int64 withinTen
      100 true =
      some [1] ∧
    Joins withinTen true 100 110 ∧
    ((RangeAsofRowRefs.mk .empty).insert 50 1 |>.insert 110 2).findRange .int64
      { withinTen with leftInequality := .greater, rightInequality := .less } 100 true = none := by
  decide

end RangeAsofRowRefs

end Proton.Streaming
