import Mathlib.Order.Lattice
import Proton.Lib.Buckets

/-!
# Ordered Multimaps

An ordered multimap is a list of entries whose keys do not decrease, and the structure carries
that fact. An iterator is a position, and the two searches return the position behind the
entries below a key (`lowerBound`) or at or below it (`upperBound`). What stands before such a
position is what a filter takes (`exists_split`), so a search by position is compared with a
search by key.

A loop that takes entries up to and including a last position is `walk`. It has no outcome when
it runs past the last entry.
-/

/-- A list of entries by increasing key, in which a key may occur more than once. -/
structure SortedMultimap (α β : Type*) [LinearOrder α] where
  /-- The entries. -/
  toList : List (α × β)
  /-- The keys do not decrease. -/
  sorted : toList.Pairwise fun a b => a.1 ≤ b.1

open List

namespace SortedMultimap

variable {α β : Type*} [LinearOrder α]

/-- The multimap without entries. -/
def empty : SortedMultimap α β := ⟨[], .nil⟩

variable (m : SortedMultimap α β)

variable (k : α)

/-- The position of the first entry that is not below `k`. -/
def lowerBound : ℕ := (m.toList.takeWhile (·.1 < k)).length

/-- The position of the first entry above `k`. -/
def upperBound : ℕ := (m.toList.takeWhile (·.1 ≤ k)).length

/-- The entries from position `i` on, up to and including position `last`. -/
def walk {γ : Type*} : List γ → ℕ → ℕ → Option (List γ)
  | [], _, _ => none
  | e :: rest, i, last => if i = last then some [e] else (walk rest (i + 1) last).map (e :: ·)

/-! ### Splitting at a key -/

section Split

variable {l : List (α × β)} (hl : l.Pairwise fun a b => a.1 ≤ b.1)
include hl

/-- In a sorted list, a condition on the front is a filter. -/
theorem takeWhile_eq_filter {p : α × β → Bool} (hp : ∀ a b, a.1 ≤ b.1 → p b = true → p a = true) :
    l.takeWhile p = l.filter p := by
  induction l with
  | nil => rfl
  | cons e l ih =>
    obtain ⟨hhead, htail⟩ := pairwise_cons.mp hl
    by_cases he : p e = true
    · rw [takeWhile_cons_of_pos he, filter_cons_of_pos he, ih htail]
    · rw [takeWhile_cons_of_neg he, filter_cons_of_neg he, eq_comm, filter_eq_nil_iff]
      exact fun e' he' h => he (hp _ _ (hhead e' he') h)

/-- A sorted list falls into the entries for which a downward closed condition holds and the
others. -/
theorem exists_split {q : α → Prop} [DecidablePred q] (hq : ∀ a b, a ≤ b → q b → q a) :
    ∃ front back, l = front ++ back ∧ (∀ e ∈ front, q e.1) ∧ ∀ e ∈ back, ¬ q e.1 := by
  refine ⟨_, _, Buckets.split_filter (p := fun e => decide (q e.1)) (hl.imp fun hab hb =>
    decide_eq_true (hq _ _ hab (of_decide_eq_true hb))), fun e he => ?_, fun e he => ?_⟩
  · simpa using (mem_filter.mp he).2
  · simpa using (mem_filter.mp he).2

end Split

/-- Below a bound is downward closed. -/
theorem lt_downward (a b : α × β) (hab : a.1 ≤ b.1) (hb : decide (b.1 < k) = true) :
    decide (a.1 < k) = true :=
  decide_eq_true (hab.trans_lt (of_decide_eq_true hb))

/-- Up to a bound is downward closed. -/
theorem le_downward (a b : α × β) (hab : a.1 ≤ b.1) (hb : decide (b.1 ≤ k) = true) :
    decide (a.1 ≤ k) = true :=
  decide_eq_true (hab.trans (of_decide_eq_true hb))

/-- The lower bound counts the smaller keys. -/
theorem lowerBound_eq : m.lowerBound k = (m.toList.filter (·.1 < k)).length := by
  rw [lowerBound, takeWhile_eq_filter m.sorted (lt_downward k)]

/-- The upper bound counts the keys up to this one. -/
theorem upperBound_eq : m.upperBound k = (m.toList.filter (·.1 ≤ k)).length := by
  rw [upperBound, takeWhile_eq_filter m.sorted (le_downward k)]

/-! ### Inserting -/

/-- The multimap with another entry, behind those with the same key. -/
def insert (v : β) : SortedMultimap α β where
  toList := m.toList.filter (·.1 ≤ k) ++ (k, v) :: m.toList.filter (k < ·.1)
  sorted := by
    have hbelow : ∀ e ∈ m.toList.filter (·.1 ≤ k), e.1 ≤ k := fun e he => by
      simpa using (mem_filter.mp he).2
    have habove : ∀ e ∈ m.toList.filter (k < ·.1), k ≤ e.1 := fun e he =>
      le_of_lt (by simpa using (mem_filter.mp he).2)
    refine pairwise_append.mpr ⟨m.sorted.sublist filter_sublist,
      pairwise_cons.mpr ⟨habove, m.sorted.sublist filter_sublist⟩,
      fun e he e' he' => ?_⟩
    rcases mem_cons.mp he' with rfl | he'
    · exact hbelow e he
    · exact (hbelow e he).trans (habove e' he')

/-! ### Walking -/

/-- A walk from the first position up to a position that is there. -/
theorem walk_append_cons {γ : Type*} (front : List γ) (e : γ) (back : List γ) (i : ℕ) :
    walk (front ++ e :: back) i (i + front.length) = some (front ++ [e]) := by
  induction front generalizing i with
  | nil => simp [walk]
  | cons a front ih =>
    have hne : i ≠ i + (front.length + 1) := by omega
    have hnext : i + (front.length + 1) = i + 1 + front.length := by omega
    rw [cons_append, length_cons, walk, if_neg hne, hnext, ih]
    rfl

/-- A walk whose last position lies behind it does not end. -/
theorem walk_eq_none {γ : Type*} (l : List γ) {i last : ℕ} (h : last < i) :
    walk l i last = none := by
  induction l generalizing i with
  | nil => rfl
  | cons e l ih => rw [walk, if_neg (by omega), ih (by omega), Option.map_none]

end SortedMultimap
