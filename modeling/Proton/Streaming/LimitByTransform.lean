import Mathlib.Algebra.Order.Ring.Nat
import Mathlib.Data.List.Basic

/-!
# Streaming Limit By

`LimitByTransform` numbers the rows of each group with counters and keeps those with a number
in the window of the limit. The counters are meant for one chunk, and are cleared after it.

A chunk without any kept row returns before the counters are cleared, so the next chunk goes on
with its numbers (`LimitByTransform.silent_chunk_counts`). Where every other chunk is empty or
keeps a row, every chunk is limited on its own (`LimitByTransform.run_eq_limited`).
-/

open List

namespace Proton.Streaming

variable {P V K : Type*} [DecidableEq V] [DecidableEq K]

/-- The rows of a chunk, with the values of its columns. A column that is constant in the header
has one value in a chunk. -/
structure LimitByTransform.Chunk (V : Type*) (isConst : P → Bool) where
  rows : List (P → V)
  length_rows : rows.length < 2 ^ 64
  constant : ∀ p, isConst p → ∀ r ∈ rows, ∀ r' ∈ rows, r p = r' p

/-- What the constructor is given, with `UInt64` bounds; `hash` is the 128-bit hash of the values of
a row. -/
structure LimitByTransform (P V K : Type*) where
  groupLength : ℕ
  groupOffset : ℕ
  columns : List P
  isConst : P → Bool
  hash : List V → K

namespace LimitByTransform

variable (t : LimitByTransform P V K)

/-- `key_positions`: constant columns are ignored. -/
def keyPositions : List P := t.columns.filter fun p => !t.isConst p

/-- The key of a row. -/
def key (row : P → V) : K := t.hash (t.keyPositions.map row)

/-- Whether a row with this `count` is kept. -/
def accepts (count : ℕ) : Bool :=
  t.groupOffset ≤ count && (2 ^ 64 - 1 - t.groupOffset < t.groupLength ||
    count < (t.groupLength + t.groupOffset) % 2 ^ 64)

/-- The loop of `transform`: the kept rows, and `keys_counts` after it. -/
def filterRows (t : LimitByTransform P V K) : (K → ℕ) → List (P → V) → List (P → V) × (K → ℕ)
  | counts, [] => ([], counts)
  | counts, row :: rows =>
    let count := counts (t.key row)
    let rest := t.filterRows (Function.update counts (t.key row) ((count + 1) % 2 ^ 64)) rows
    (if t.accepts count then row :: rest.1 else rest.1, rest.2)

/-- The hash tells the key columns of the rows apart. -/
def KeysApart (rows : List (P → V)) : Prop :=
  ∀ r ∈ rows, ∀ r' ∈ rows, t.key r = t.key r' → t.keyPositions.map r = t.keyPositions.map r'

/-- `transform`: the counters are cleared unless nothing was kept. -/
def transform (counts : K → ℕ) (chunk : Chunk V t.isConst) : List (P → V) × (K → ℕ) :=
  let kept := t.filterRows counts chunk.rows
  if kept.1.isEmpty then kept else (kept.1, fun _ => 0)

/-- The outputs for a sequence of chunks. -/
def run (t : LimitByTransform P V K) : (K → ℕ) → List (Chunk V t.isConst) → List (List (P → V))
  | _, [] => []
  | counts, chunk :: chunks =>
    let (out, counts') := t.transform counts chunk
    out :: t.run counts' chunks

/-- The rows to be kept, behind earlier ones of the same chunk: the rank of a row is the number of
earlier rows with the same values in all grouping columns. -/
def limited (t : LimitByTransform P V K) : List (P → V) → List (P → V) → List (P → V)
  | _, [] => []
  | earlier, row :: rows =>
    let rank := earlier.countP fun r => t.columns.all fun p => r p = row p
    if t.groupOffset ≤ rank ∧ rank < t.groupOffset + t.groupLength then
      row :: t.limited (earlier ++ [row]) rows
    else t.limited (earlier ++ [row]) rows

variable {t : LimitByTransform P V K}

omit [DecidableEq V] [DecidableEq K] in
/-- The test is that for the window; no count reaches an end that does not fit `UInt64`. -/
theorem accepts_iff {count : ℕ} (h : count < 2 ^ 64) : t.accepts count ↔
    t.groupOffset ≤ count ∧ count < t.groupOffset + t.groupLength := by
  simp only [accepts, Bool.and_eq_true, Bool.or_eq_true, decide_eq_true_eq]
  omega

omit [DecidableEq K] in
/-- Where the constant columns agree, the keys say whether the grouping columns agree. -/
theorem key_eq_iff {r row : P → V}
    (hkey : t.key r = t.key row → t.keyPositions.map r = t.keyPositions.map row)
    (hconst : ∀ p, t.isConst p → r p = row p) :
    t.key r = t.key row ↔ t.columns.all fun p => r p = row p := by
  have hvalues : t.key r = t.key row ↔ t.keyPositions.map r = t.keyPositions.map row :=
    ⟨hkey, fun h => congrArg t.hash h⟩
  simp only [hvalues, map_inj_left, keyPositions, mem_filter, all_eq_true,
    decide_eq_true_eq, Bool.not_eq_true', and_imp]
  refine forall₂_congr fun p _ => ⟨fun h => ?_, fun h _ => h⟩
  cases hp : t.isConst p with
  | true => exact hconst p hp
  | false => exact h hp

/-- With the counters of the rows so far, the loop keeps the rows of the right ranks. -/
theorem filterRows_fst {earlier rows : List (P → V)} (hkeys : t.KeysApart (earlier ++ rows))
    {counts : K → ℕ} (hlen : (earlier ++ rows).length < 2 ^ 64)
    (hconst : ∀ p, t.isConst p → ∀ r ∈ earlier ++ rows, ∀ r' ∈ earlier ++ rows, r p = r' p)
    (hcounts : ∀ k, counts k = earlier.countP fun r => t.key r = k) :
    (t.filterRows counts rows).1 = t.limited earlier rows := by
  induction rows generalizing earlier counts with
  | nil => rfl
  | cons row rows ih =>
    have hagree : ∀ r ∈ earlier, t.key r = t.key row ↔ t.columns.all fun p => r p = row p :=
      fun r hr => key_eq_iff (hkeys r (mem_append_left _ hr) row (by simp)) fun p hp =>
        hconst p hp r (mem_append_left _ hr) row (by simp)
    have hrank : counts (t.key row) =
        earlier.countP fun r => t.columns.all fun p => r p = row p := by
      rw [hcounts]
      exact countP_congr fun r hr => by simpa using hagree r hr
    have hle : counts (t.key row) ≤ earlier.length := hcounts _ ▸ countP_le_length
    simp only [length_append, length_cons] at hlen
    have hrest := @ih (earlier ++ [row]) (by simpa using hkeys)
      (Function.update counts (t.key row) ((counts (t.key row) + 1) % 2 ^ 64))
      (by simpa using by omega) (by simpa using hconst) fun k => by
        rw [countP_append, Function.update_apply, Nat.mod_eq_of_lt (by omega), hcounts,
          hcounts, countP_singleton]
        split_ifs <;> simp_all
    rw [filterRows, limited, ← hrank]
    simp only [hrest, accepts_iff (show counts (t.key row) < 2 ^ 64 by omega)]

/-- **Each chunk on its own**: if every chunk but the last is empty or has a row to keep, then each
output has exactly the rows whose rank in their own chunk is in the window. -/
theorem run_eq_limited {chunks : List (Chunk V t.isConst)}
    (hkeys : ∀ chunk ∈ chunks, t.KeysApart chunk.rows)
    (h : ∀ chunk ∈ chunks.dropLast, chunk.rows = [] ∨ t.limited [] chunk.rows ≠ []) :
    t.run (fun _ => 0) chunks = chunks.map fun chunk => t.limited [] chunk.rows := by
  induction chunks with
  | nil => rfl
  | cons chunk chunks ih =>
    -- the chunk meets cleared counters
    have hout : (t.transform (fun _ => 0) chunk).1 = t.limited [] chunk.rows := by
      rw [transform, ← filterRows_fst (by simpa using hkeys chunk mem_cons_self)
        (by simpa using chunk.length_rows) (by simpa using chunk.constant) fun k => rfl]
      split_ifs <;> rfl
    rw [run, map_cons, ← hout]
    cases chunks with
    | nil => rfl
    | cons next chunks =>
      have hcleared : (t.transform (fun _ => 0) chunk).2 = fun _ => 0 := by
        obtain hnil | hkept := h chunk (by simp)
        · simp [transform, hnil, filterRows]
        · rw [← hout] at hkept
          rw [transform] at hkept ⊢
          split_ifs at hkept ⊢ with hempty
          · exact absurd (isEmpty_iff.1 hempty) hkept
          · rfl
      exact congrArg _ (hcleared ▸ ih (fun chunk' hmem => hkeys chunk' (mem_cons_of_mem _ hmem))
        fun chunk' hmem => h chunk' (by simp_all))

/-- The second row of each value of the only column. -/
def secondOfEach : LimitByTransform Unit ℕ (List ℕ) where
  groupLength := 1
  groupOffset := 1
  columns := [()]
  isConst := fun _ => false
  hash := id

/-- A chunk of equal rows. -/
def equalRows (n : Fin 3) : Chunk ℕ secondOfEach.isConst where
  rows := replicate n.val fun _ => 7
  length_rows := by
    rw [length_replicate]
    omega
  constant := fun _ h => absurd h Bool.false_ne_true

/-- The condition holds if the first chunk keeps a row. -/
theorem run_two_equalRows : secondOfEach.run (fun _ => 0) [equalRows 2, equalRows 1] =
    [secondOfEach.limited [] (equalRows 2).rows, secondOfEach.limited [] (equalRows 1).rows] := by
  refine run_eq_limited (fun chunk _ r _ r' _ h => h) fun chunk hmem => Or.inr ?_
  obtain rfl := mem_singleton.1 hmem
  exact cons_ne_nil _ _

/-- A chunk that keeps nothing counts for the next one. -/
theorem silent_chunk_counts : secondOfEach.run (fun _ => 0) [equalRows 1, equalRows 1] ≠
    [equalRows 1, equalRows 1].map fun chunk => secondOfEach.limited [] chunk.rows := by
  intro h
  exact absurd (congrArg (map length) h) (by decide)

end LimitByTransform

end Proton.Streaming
