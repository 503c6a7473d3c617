import Mathlib.Tactic.Linarith
import Proton.Lib.SortedMap
import Proton.Lib.SortedMultimap
import Proton.Streaming.HashJoin.RangeAsofJoinContext

/-!
# The Buckets of a Range Join

A range join keeps the rows of each stream in buckets of half the range. This module embeds the
bucket arithmetic of `BufferedStreamData` and the removal of old buckets, which `HashIndex` of the
hybrid join repeats.

The buckets that a bucket is joined with are enough (`RangeBuckets.pruning_lossless`), as long as
the bounds of the search fit `Int64`. The removal erases from the map and then advances, so that
it passes over every other expired bucket; `removeOldBuckets_exact_iff` says when it still removes
exactly the old buckets.
-/

open List

namespace Proton.Streaming

/-! ### Joined buckets -/

/-- The bucket size and the offsets of `BufferedStreamData`, all `Int64`. -/
structure RangeBuckets where
  bucketSize : ℤ
  joinStartBucketOffset : ℤ
  joinStopBucketOffset : ℤ

namespace RangeBuckets

/-- `updateBucketSize`; `none` is the exception for an invalid range. -/
def updateBucketSize (ctx : RangeAsofJoinContext) : Option RangeBuckets :=
  let size := (Word.int64.wrap (ctx.upperBound - ctx.lowerBound + 1)).tdiv 2
  let twice := Word.int64.wrap (2 * size)
  if ctx.upperBound = 0 then some ⟨size, 0, twice⟩
  else if ctx.upperBound < size then some ⟨size, size, twice⟩
  else if ctx.upperBound = size then some ⟨size, size, size⟩
  else if size < ctx.upperBound ∧ ctx.lowerBound < 0 then some ⟨size, twice, size⟩
  else if ctx.lowerBound = 0 then some ⟨size, twice, 0⟩
  else none

/-- The bucket of a time in `BlockRangeSplitter`, which divides as `UInt64`. -/
def bucket (b : RangeBuckets) (time : ℤ) : ℤ :=
  let range := Word.uint64.wrap b.bucketSize
  Word.int64.wrap (Word.uint64.wrap time / range * range)

/-- The buckets of the other stream that `insertBlockToRangeBucketsAndJoin` goes through: those
from `lower_bound` to `upper_bound`. -/
def Reaches (b : RangeBuckets) (isLeftBlock : Bool) (joining joined : ℤ) : Prop :=
  let start := if isLeftBlock then b.joinStartBucketOffset else b.joinStopBucketOffset
  let stop := if isLeftBlock then b.joinStopBucketOffset else b.joinStartBucketOffset
  Word.int64.wrap (joining - start) ≤ joined ∧ joined ≤ Word.int64.wrap (joining + stop)
deriving Decidable

/-- `intersect`, on the least and the greatest times of two blocks. -/
def intersect (ctx : RangeAsofJoinContext) (leftMin leftMax rightMin rightMax : ℤ) : Bool :=
  !(Word.int64.wrap (leftMax - rightMin) < ctx.lowerBound ||
    ctx.upperBound < Word.int64.wrap (leftMin - rightMax))

/-- A number of its range is not wrapped. -/
theorem int64_wrap {x : ℤ} (hlow : -2 ^ 63 ≤ x) (hhigh : x < 2 ^ 63) : Word.int64.wrap x = x :=
  Word.wrap_of_mem ⟨hlow, hhigh⟩

/-- The bucket of a time is its multiple of the size at or below it. -/
theorem bucket_eq {size start stop : ℤ} (hsize : 0 < size) (hlt : size < 2 ^ 63) {t : ℤ}
    (ht : 0 ≤ t) (ht' : t < 2 ^ 63) : bucket ⟨size, start, stop⟩ t = size * (t / size) := by
  have hword : ∀ x : ℤ, 0 ≤ x → x < 2 ^ 63 → Word.uint64.wrap x = x := fun x h h' =>
    Word.wrap_of_mem ⟨h, h'.trans (by decide)⟩
  have hle := Int.mul_ediv_self_le (x := t) hsize.ne'
  have hnonneg := mul_nonneg hsize.le (Int.ediv_nonneg ht hsize.le)
  rw [bucket, hword t ht ht', hword _ hsize.le hlt, mul_comm, int64_wrap (by omega) (by omega)]

/-- A distance of at most `k` sizes between times is one of at most `k` sizes between buckets. -/
theorem bucket_le {size s t : ℤ} (k : ℤ) (hsize : 0 < size) (h : s ≤ t + k * size) :
    size * (s / size) ≤ size * (t / size) + k * size := by
  have hdiv : s / size ≤ t / size + k := by
    rw [← Int.add_mul_ediv_right t k hsize.ne']
    exact Int.ediv_le_ediv hsize h
  linarith [mul_le_mul_of_nonneg_left hdiv hsize.le]

/-- The size is half the range, rounded up, and each offset is as many sizes as times in range
can be apart in its direction. -/
theorem updateBucketSize_spec {ctx : RangeAsofJoinContext} (hlower : ctx.lowerBound ≤ 0)
    (hupper : 0 ≤ ctx.upperBound) (hlt : ctx.lowerBound < ctx.upperBound)
    (hfit : ctx.upperBound - ctx.lowerBound + 1 < 2 ^ 63) :
    ∃ size start stop, updateBucketSize ctx = some ⟨size, start * size, stop * size⟩ ∧ 0 < size ∧
      2 * size ≤ ctx.upperBound - ctx.lowerBound + 1 ∧
      (0 ≤ start ∧ start ≤ 2 ∧ ctx.upperBound ≤ start * size) ∧
      0 ≤ stop ∧ stop ≤ 2 ∧ -ctx.lowerBound ≤ stop * size := by
  have hsize : (Word.int64.wrap (ctx.upperBound - ctx.lowerBound + 1)).tdiv 2 =
      (ctx.upperBound - ctx.lowerBound + 1) / 2 := by
    rw [int64_wrap (by omega) hfit, Int.tdiv_eq_ediv_of_nonneg (by omega)]
  simp only [updateBucketSize, hsize]
  rw [int64_wrap (by omega) (by omega)]
  refine ⟨(ctx.upperBound - ctx.lowerBound + 1) / 2, ?_⟩
  split_ifs
  · exact ⟨0, 2, by simp, by omega, by omega, by omega, by omega⟩
  · exact ⟨1, 2, by simp, by omega, by omega, by omega, by omega⟩
  · exact ⟨1, 1, by simp, by omega, by omega, by omega, by omega⟩
  · exact ⟨2, 1, by simp, by omega, by omega, by omega, by omega⟩
  · exact ⟨2, 0, by simp, by omega, by omega, by omega, by omega⟩
  · omega

/-- **Pruning is lossless**: rows in range of each other lie in buckets that reach each other, and
blocks with such rows intersect, if neither the range nor a time with the range added to it
overflows. -/
theorem pruning_lossless {ctx : RangeAsofJoinContext} (hlower : ctx.lowerBound ≤ 0)
    (hupper : 0 ≤ ctx.upperBound) (hlt : ctx.lowerBound < ctx.upperBound) {l r : ℤ} (hl : 0 ≤ l)
    (hr : 0 ≤ r) (hfitl : l + (ctx.upperBound - ctx.lowerBound + 1) < 2 ^ 63)
    (hfitr : r + (ctx.upperBound - ctx.lowerBound + 1) < 2 ^ 63) (hlow : ctx.lowerBound ≤ l - r)
    (hhigh : l - r ≤ ctx.upperBound) :
    (∃ b, updateBucketSize ctx = some b ∧ b.Reaches true (b.bucket l) (b.bucket r) ∧
      b.Reaches false (b.bucket r) (b.bucket l)) ∧
    ∀ leftMin leftMax rightMin rightMax, 0 ≤ leftMin → leftMin ≤ l → l ≤ leftMax →
      leftMax < 2 ^ 63 → 0 ≤ rightMin → rightMin ≤ r → r ≤ rightMax → rightMax < 2 ^ 63 →
      intersect ctx leftMin leftMax rightMin rightMax := by
  constructor
  · obtain ⟨size, start, stop, hb, hsize, htwice, ⟨hk, hk', hku⟩, hm, hm', hml⟩ :=
      updateBucketSize_spec hlower hupper hlt (by omega)
    have hright := bucket_le stop hsize (show r ≤ l + stop * size by omega)
    have hleft := bucket_le start hsize (show l ≤ r + start * size by omega)
    have hbucket : ∀ t, 0 ≤ t → 0 ≤ size * (t / size) ∧ size * (t / size) ≤ t := fun t ht =>
      ⟨mul_nonneg hsize.le (Int.ediv_nonneg ht hsize.le), Int.mul_ediv_self_le hsize.ne'⟩
    have hoffset : ∀ k, 0 ≤ k → k ≤ 2 → 0 ≤ k * size ∧ k * size ≤ 2 * size := fun k h h' =>
      ⟨mul_nonneg h hsize.le, mul_le_mul_of_nonneg_right h' hsize.le⟩
    have hstart := hoffset start hk hk'
    have hstop := hoffset stop hm hm'
    have hleftBucket := hbucket l hl
    have hrightBucket := hbucket r hr
    refine ⟨_, hb, ?_⟩
    simp only [Reaches, bucket_eq hsize (by omega) hl (by omega),
      bucket_eq hsize (by omega) hr (by omega), if_true, Bool.false_eq_true, if_false]
    repeat rw [int64_wrap (by omega) (by omega)]
    omega
  · intro leftMin leftMax rightMin rightMax _ _ _ _ _ _ _ _
    rw [intersect, int64_wrap (by omega) (by omega), int64_wrap (by omega) (by omega)]
    simp only [Bool.not_or, Bool.and_eq_true, Bool.not_eq_true', decide_eq_false_iff_not]
    omega

/-- Rows within ten of each other are in reach. -/
theorem pruning_lossless_withinTen :
    ∃ b, updateBucketSize { lowerBound := -10, upperBound := 10 } = some b ∧
      b.Reaches true (b.bucket 100) (b.bucket 95) ∧ b.Reaches false (b.bucket 95) (b.bucket 100) :=
  (pruning_lossless (by decide) (by decide) (by decide) (by decide) (by decide) (by decide)
    (by decide) (by decide) (by decide)).1

/-- The end of the search overflows, and equal times do not meet. -/
theorem overflow_loses_bucket :
    ((updateBucketSize { lowerBound := -2 ^ 62, upperBound := 0 }).map fun b =>
      decide (b.Reaches true (b.bucket (2 ^ 63 - 2 ^ 61)) (b.bucket (2 ^ 63 - 2 ^ 61)))) =
      some false := by
  decide

end RangeBuckets

/-! ### Old buckets -/

variable {β : Type*} {watermark : ℤ} {expired live : List (ℤ × β)}

/-- The first loop of `removeOldBuckets`. The iterator that `erase` returns is advanced once more,
so the bucket behind an erased one stays; `none` is the advance from the end of the map. -/
def removeExpired (watermark : ℤ) : List (ℤ × β) → Option (List (ℤ × β))
  | [] => some []
  | [e] => if e.1 ≤ watermark then none else some [e]
  | e :: next :: rest =>
    if e.1 ≤ watermark then (removeExpired watermark rest).map (next :: ·)
    else some (e :: next :: rest)

/-- The second loop: the oldest buckets go while there are more than `maxBuckets`, if that is
set. -/
def capped (maxBuckets : ℕ) (buckets : List (ℤ × β)) : List (ℤ × β) :=
  if 0 < maxBuckets then buckets.drop (buckets.length - maxBuckets) else buckets

/-- `removeOldBuckets`: the buckets that are left. -/
def removeOldBuckets (combinedWatermark bucketSize : ℤ) (maxBuckets : ℕ) (buckets : SortedMap ℤ β) :
    Option (List (ℤ × β)) :=
  (removeExpired (Word.int64.wrap (combinedWatermark - bucketSize)) buckets.toList).map
    (capped maxBuckets)

/-- The buckets behind the erased ones. -/
def passedOver : List (ℤ × β) → List (ℤ × β)
  | [] => []
  | [_] => []
  | _ :: next :: rest => next :: passedOver rest

/-- Half of the buckets are passed over. -/
theorem length_passedOver (l : List (ℤ × β)) : (passedOver l).length = l.length / 2 := by
  fun_induction passedOver l with
  | case1 => simp
  | case2 e => simp
  | case3 e next rest ih =>
    simp only [length_cons, ih]
    omega

/-- Expired buckets in front of live ones: every second one stays, and the loop does not return
when the last bucket of all is erased. -/
theorem removeExpired_append (hexpired : ∀ e ∈ expired, e.1 ≤ watermark)
    (hlive : ∀ e ∈ live, watermark < e.1) :
    removeExpired watermark (expired ++ live) =
      if expired.length % 2 = 0 ∨ live ≠ [] then some (passedOver expired ++ live) else none := by
  have hstop : ∀ l : List (ℤ × β), (∀ e ∈ l, watermark < e.1) →
      removeExpired watermark l = some l := by
    rintro (- | ⟨e, - | ⟨next, l⟩⟩) h
    · rfl
    all_goals rw [removeExpired, if_neg (h e mem_cons_self).not_ge]
  fun_induction passedOver expired with
  | case1 => exact (hstop live hlive).trans (by simp)
  | case2 e =>
    have he : e.1 ≤ watermark := hexpired e (by simp)
    cases live with
    | nil => simp [removeExpired, he]
    | cons first rest =>
      simp [removeExpired, he, hstop rest fun e he => hlive e (by simp [he])]
  | case3 e next rest ih =>
    have hrest := ih fun e he => hexpired e (by simp [he])
    rw [cons_append, cons_append, removeExpired, if_pos (hexpired e (by simp))]
    simp only [hrest, length_cons, Nat.add_assoc, Nat.add_mod_right]
    split_ifs <;> rfl

/-- What is passed over does not show in the end if there is nothing or the cap removes it. -/
theorem capped_append_iff {maxBuckets : ℕ} {front : List (ℤ × β)} :
    capped maxBuckets (front ++ live) = capped maxBuckets live ↔
      front = [] ∨ 0 < maxBuckets ∧ maxBuckets ≤ live.length := by
  constructor
  · intro h
    have hlength := congrArg length h
    rw [← length_eq_zero_iff]
    simp only [capped] at hlength
    split_ifs at hlength <;> simp only [length_drop, length_append] at hlength <;> omega
  · rintro (rfl | ⟨hpos, hle⟩)
    · rfl
    · rw [capped, capped, if_pos hpos, if_pos hpos, length_append, Nat.add_sub_assoc hle,
        drop_append]
      simp

/-- **When exactly the old buckets are removed**: of the expired buckets there is at most one, or
the cap makes up for the others, and the last bucket is not an expired one that is erased. -/
theorem removeOldBuckets_exact_iff {combinedWatermark bucketSize : ℤ} {maxBuckets : ℕ}
    {buckets : SortedMap ℤ β} (hfit : Word.int64.Mem (combinedWatermark - bucketSize)) :
    let expired := buckets.toList.filter fun e => e.1 ≤ combinedWatermark - bucketSize
    let live := buckets.toList.filter fun e => combinedWatermark - bucketSize < e.1
    removeOldBuckets combinedWatermark bucketSize maxBuckets buckets =
        some (capped maxBuckets live) ↔
      (expired.length % 2 = 0 ∨ live ≠ []) ∧
        (expired.length ≤ 1 ∨ 0 < maxBuckets ∧ maxBuckets ≤ live.length) := by
  intro expired live
  have hsplit : buckets.toList = expired ++ live := by
    have h := Buckets.split_filter (buckets.sorted.imp fun hlt =>
      SortedMultimap.le_downward (combinedWatermark - bucketSize) _ _ (le_of_lt hlt))
    simpa only [← decide_not, not_le] using h
  rw [removeOldBuckets, Word.wrap_of_mem hfit, hsplit, removeExpired_append
    (fun e he => by simpa using (mem_filter.1 he).2)
    fun e he => by simpa using (mem_filter.1 he).2]
  split_ifs with hreturns
  · rw [Option.map_some, Option.some_inj, capped_append_iff, ← length_eq_zero_iff,
      length_passedOver, and_iff_right hreturns]
    omega
  · simp [hreturns]

/-- Two buckets, the first of them expired. -/
def twoBuckets : SortedMap ℤ Unit := (SortedMap.empty.insert 0 ()).insert 10 ()

/-- The older of two buckets is removed. -/
theorem removeOldBuckets_twoBuckets :
    removeOldBuckets 15 10 0 twoBuckets = some (capped 0 [(10, ())]) :=
  (removeOldBuckets_exact_iff (by decide)).2 (by decide)

/-- Both buckets are expired; the second one is passed over and stays. -/
theorem expired_bucket_stays : removeOldBuckets 25 10 0 twoBuckets = some [(10, ())] := by decide

end Proton.Streaming
