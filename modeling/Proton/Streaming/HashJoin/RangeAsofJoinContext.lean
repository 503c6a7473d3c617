import Proton.Lib.MachineWord

/-!
# The Context of a Range Join

This module embeds `Interpreters/Streaming/HashJoin/RangeAsofJoinContext.h` and
`RangeAsofJoinContext.cpp`: the bounds on `left.column - right.column` under which two rows are
joined, and the check that accepts them.
-/

namespace Proton.Streaming

/-- `ASOFJoinInequality` of `Core/Joins.h`. -/
inductive ASOFJoinInequality where
  | none
  | less
  | greater
  | lessOrEquals
  | greaterOrEquals
  | rangeBetween
  deriving DecidableEq, Repr

/-- `RangeType`. -/
inductive RangeType where
  | none
  | interval
  | integer
  deriving DecidableEq, Repr

/-- `RangeAsofJoinContext`. -/
structure RangeAsofJoinContext where
  /-- The comparison with the lower bound. -/
  leftInequality : ASOFJoinInequality := .greaterOrEquals
  /-- The comparison with the upper bound. -/
  rightInequality : ASOFJoinInequality := .lessOrEquals
  /-- `lower_bound`. -/
  lowerBound : ℤ := 0
  /-- `upper_bound`. -/
  upperBound : ℤ := 0
  /-- `max_buckets`: how many buckets a stream keeps; 0 is no limit. -/
  maxBuckets : ℕ := 0
  /-- What the bounds count. -/
  type : RangeType := .none
  deriving DecidableEq, Repr

namespace RangeAsofJoinContext

/-- The error codes that `validate` throws. -/
inductive ErrorCode where
  | logicalError
  | syntaxError
  deriving DecidableEq, Repr

variable (ctx : RangeAsofJoinContext)

/-- `validate`: the code and text of the exception. -/
def validate (maxRange : ℤ) : Except (ErrorCode × String) Unit :=
  if ctx.type = .none then .error (.logicalError, "Range join is not correctly setup")
  else if 0 < ctx.lowerBound then
    .error (.syntaxError, "Range join requires left bound of the range is less than or equal to " ++
      "zero, but got lower_bound=" ++ toString ctx.lowerBound)
  else if ctx.upperBound < 0 then
    .error (.syntaxError, "Range join requires right bound of the range is greater than or " ++
      "equal to zero, but got upper_bound=" ++ toString ctx.upperBound)
  else if ctx.upperBound ≤ ctx.lowerBound then
    .error (.syntaxError, "Range join requires upper bound of the range is bigger than the " ++
      "lower bound, but got lower_bound=" ++ toString ctx.lowerBound ++ ", upper_bound=" ++
      toString ctx.upperBound)
  else if maxRange < Word.int64.wrap (ctx.upperBound - ctx.lowerBound) then
    .error (.syntaxError, "The join range (" ++ toString ctx.lowerBound ++ ", " ++
      toString ctx.upperBound ++ ") is too big. If two streams have big difference in timestamps" ++
      ". Consider adjust the timestamp of one of the stream by doing timestamp subtraction / " ++
      "addition and then do join. For example: ... AND date_diff_within(2m, left_time_col, " ++
      "date_add(right_time_col, 2h))")
  else if ctx.leftInequality ≠ .greater ∧ ctx.leftInequality ≠ .greaterOrEquals then
    .error (.syntaxError,
      "Range join requires lower bound of inequality shall be '>' or '>='")
  else if ctx.rightInequality ≠ .less ∧ ctx.rightInequality ≠ .lessOrEquals then
    .error (.syntaxError,
      "Range join requires upper bound of inequality shall be '<' or '<='")
  else .ok ()

/-- What `validate` makes sure of, whatever the largest range. -/
structure Accepted : Prop where
  lowerBound_nonpos : ctx.lowerBound ≤ 0
  upperBound_nonneg : 0 ≤ ctx.upperBound
  lowerBound_lt : ctx.lowerBound < ctx.upperBound
  left : ctx.leftInequality = .greater ∨ ctx.leftInequality = .greaterOrEquals
  right : ctx.rightInequality = .less ∨ ctx.rightInequality = .lessOrEquals

/-- **The contexts that pass.** -/
theorem validate_eq_ok_iff {ctx : RangeAsofJoinContext} {maxRange : ℤ} :
    ctx.validate maxRange = .ok () ↔
      ctx.Accepted ∧ ctx.type ≠ .none ∧
        Word.int64.wrap (ctx.upperBound - ctx.lowerBound) ≤ maxRange := by
  rw [validate]
  split_ifs with htype hlower hupper hlt hrange hleft hright
  all_goals simp only [false_iff, true_iff]
  · exact fun h => h.2.1 htype
  · exact fun h => absurd h.1.lowerBound_nonpos (not_le.mpr hlower)
  · exact fun h => absurd h.1.upperBound_nonneg (not_le.mpr hupper)
  · exact fun h => absurd h.1.lowerBound_lt (not_lt.mpr hlt)
  · exact fun h => absurd h.2.2 (not_le.mpr hrange)
  · exact fun h => h.1.left.elim hleft.1 hleft.2
  · exact fun h => h.1.right.elim hright.1 hright.2
  · refine ⟨⟨not_lt.mp hlower, not_lt.mp hupper, not_le.mp hlt, ?_, ?_⟩, htype, not_lt.mp hrange⟩
    · rwa [not_and_or, not_not, not_not] at hleft
    · rwa [not_and_or, not_not, not_not] at hright

/-- The times of two rows are in range: `lower_bound op left - right op upper_bound`. -/
def InRange (left right : ℤ) : Prop :=
  (if ctx.leftInequality = .greater then ctx.lowerBound < left - right
    else ctx.lowerBound ≤ left - right) ∧
  if ctx.rightInequality = .less then left - right < ctx.upperBound
    else left - right ≤ ctx.upperBound
deriving Decidable

end RangeAsofJoinContext

end Proton.Streaming
