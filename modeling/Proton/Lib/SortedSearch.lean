import Mathlib.Data.List.Basic
import Mathlib.Data.List.TakeWhile
import Mathlib.Order.Lattice

/-!
# Searching a List that is Increasing in a Projection

A list is `Increasing f` when the projection `f` strictly increases along it. The module
specifies the two searches of an ordered container against the list itself, the first
element at or above a bound (`firstAtLeast`) and the last element at or below it
(`lastAtMost`), relates them to the position a binary search finds (`lowerBound`), and
says how they behave over a concatenation, which is what a container that is split into
segments needs.
-/

open List

namespace SortedSearch

variable {α : Type*} {β : Type*} [LinearOrder β] (f : α → β)

/-- `f` strictly increases along the list. -/
def Increasing (l : List α) : Prop :=
  l.Pairwise fun a b => f a < f b

/-- The first element at or above `t`. -/
def firstAtLeast (t : β) (l : List α) : Option α :=
  l.find? fun a => t ≤ f a

/-- The last element at or below `t`. -/
def lastAtMost (t : β) (l : List α) : Option α :=
  l.reverse.find? fun a => f a ≤ t

/-- The position of the first element that is not below `t`: what a binary search over a
range partitioned by `f · < t` returns. -/
def lowerBound (t : β) (l : List α) : ℕ :=
  (l.takeWhile fun a => f a < t).length

variable {f} {t : β} {l r : List α}

/-- The lower bound is in the list, or at its end. -/
theorem lowerBound_le_length : lowerBound f t l ≤ l.length :=
  (takeWhile_sublist _).length_le

/-- The element at the lower bound is the first one at or above `t`. -/
theorem getElem?_lowerBound (f : α → β) (t : β) (l : List α) :
    l[lowerBound f t l]? = firstAtLeast f t l := by
  unfold lowerBound firstAtLeast
  induction l with
  | nil => rfl
  | cons a l ih =>
    by_cases h : f a < t
    · rw [takeWhile_cons_of_pos (by simpa using h), length_cons,
        getElem?_cons_succ, ih, find?_cons_of_neg (by simpa using h)]
    · rw [takeWhile_cons_of_neg (by simpa using h), find?_cons_of_pos (by simpa using h)]
      rfl

/-! ### Concatenations -/

/-- Two lists increase together if the first is below the second. -/
theorem increasing_append :
    Increasing f (l ++ r) ↔ Increasing f l ∧ Increasing f r ∧ ∀ a ∈ l, ∀ b ∈ r, f a < f b :=
  pairwise_append

/-- The last element is the largest. -/
theorem Increasing.le_getLast {b : α} (h : Increasing f l) (hlast : l.getLast? = some b) :
    ∀ a ∈ l, f a ≤ f b := by
  obtain ⟨init, rfl⟩ := getLast?_eq_some_iff.1 hlast
  rw [increasing_append] at h
  intro a ha
  rcases mem_append.1 ha with ha | ha
  · exact le_of_lt (h.2.2 a ha b (mem_singleton_self b))
  · rw [mem_singleton.1 ha]

/-- A part of an increasing list increases. -/
theorem Increasing.sublist (h : Increasing f r) (hs : l.Sublist r) : Increasing f l :=
  List.Pairwise.sublist hs h

/-- Nothing in `l` is at or above `t`. -/
theorem firstAtLeast_eq_none (h : ∀ a ∈ l, f a < t) : firstAtLeast f t l = none := by
  rw [firstAtLeast, find?_eq_none]
  intro a ha
  simpa using h a ha

/-- A part whose elements are all below `t` is skipped. -/
theorem firstAtLeast_append_of_lt (h : ∀ a ∈ l, f a < t) :
    firstAtLeast f t (l ++ r) = firstAtLeast f t r := by
  rw [firstAtLeast, find?_append, ← firstAtLeast, firstAtLeast_eq_none h]
  rfl

/-- A hit in the front part is the answer. -/
theorem firstAtLeast_append_of_some {a : α} (h : firstAtLeast f t l = some a) :
    firstAtLeast f t (l ++ r) = some a := by
  unfold firstAtLeast at *
  rw [find?_append, h]
  rfl

/-- A head at or above `t` is the answer. -/
theorem firstAtLeast_cons_of_le {a : α} (h : t ≤ f a) : firstAtLeast f t (a :: l) = some a := by
  simp [firstAtLeast, h]

/-- Nothing is at most a target before the first key. -/
theorem lastAtMost_eq_none (h : ∀ a ∈ l, t < f a) : lastAtMost f t l = none := by
  rw [lastAtMost, find?_eq_none]
  intro a ha
  simpa using h a (mem_reverse.mp ha)

/-- A part whose elements are all above `t` is skipped. -/
theorem lastAtMost_append_of_gt (h : ∀ b ∈ r, t < f b) :
    lastAtMost f t (l ++ r) = lastAtMost f t l := by
  have hnone := lastAtMost_eq_none h
  unfold lastAtMost at *
  rw [reverse_append, find?_append, hnone]
  rfl

/-- A hit in the back part is the answer. -/
theorem lastAtMost_append_of_some {b : α} (h : lastAtMost f t r = some b) :
    lastAtMost f t (l ++ r) = some b := by
  unfold lastAtMost at *
  rw [reverse_append, find?_append, h]
  rfl

/-- An element at or below `t` with nothing but larger ones behind it is the answer. -/
theorem lastAtMost_of_split {a : α} (ha : f a ≤ t) (hr : ∀ b ∈ r, t < f b) :
    lastAtMost f t (l ++ a :: r) = some a := by
  have : lastAtMost f t [a] = some a := by simp [lastAtMost, ha]
  rw [append_cons, lastAtMost_append_of_gt hr, lastAtMost_append_of_some this]

/-- When nothing is above `t`, the last element is the answer. -/
theorem lastAtMost_of_all_lt (h : ∀ a ∈ l, f a < t) : lastAtMost f t l = l.getLast? := by
  rcases eq_nil_or_concat' l with rfl | ⟨init, a, rfl⟩
  · rfl
  · rw [lastAtMost_of_split (h a (by simp)).le (by simp), getLast?_concat]

/-- **The binary search for the last element at or below `t`**: one step back from the
lower bound, unless the element there is equal to `t`. -/
theorem lastAtMost_eq_getElem? (h : Increasing f l) :
    lastAtMost f t l =
      if (l[lowerBound f t l]?).any fun a => f a = t then l[lowerBound f t l]?
      else if lowerBound f t l = 0 then none else l[lowerBound f t l - 1]? := by
  have hsplit := takeWhile_append_dropWhile (p := fun a => decide (f a < t)) (l := l)
  have hbelow : ∀ a ∈ l.takeWhile fun a => f a < t, f a < t := fun a ha => by
    simpa using mem_takeWhile_imp ha
  have hlast : ∀ rest, l = (l.takeWhile fun a => f a < t) ++ rest →
      (if lowerBound f t l = 0 then none else l[lowerBound f t l - 1]?) =
        (l.takeWhile fun a => f a < t).getLast? := by
    intro rest hl
    unfold lowerBound
    generalize (l.takeWhile fun a => f a < t) = front at hl
    subst hl
    rcases eq_nil_or_concat' front with rfl | ⟨init, a, rfl⟩ <;> simp
  cases hback : l.dropWhile fun a => f a < t with
  | nil =>
    rw [hback, append_nil] at hsplit
    have hnone : l[lowerBound f t l]? = none := by
      rw [getElem?_lowerBound, firstAtLeast_eq_none (hsplit ▸ hbelow)]
    rw [hlast [] (by rw [append_nil, hsplit]), hnone, hsplit,
      lastAtMost_of_all_lt (hsplit ▸ hbelow)]
    rfl
  | cons b back =>
    rw [hback] at hsplit
    have hb : t ≤ f b := by
      have := head_dropWhile_not (fun a => decide (f a < t)) (l := l) (by simp [hback])
      simpa [hback] using this
    have hinc : ∀ x ∈ back, f b < f x := by
      rw [← hsplit, increasing_append] at h
      exact (pairwise_cons.mp h.2.1).1
    have hget : l[lowerBound f t l]? = some b := by
      rw [getElem?_lowerBound, ← hsplit, firstAtLeast_append_of_lt hbelow,
        firstAtLeast_cons_of_le hb]
    rw [hlast _ hsplit.symm, hget]
    by_cases heq : f b = t
    · rw [if_pos (by simp [heq])]
      conv_lhs => rw [← hsplit]
      exact lastAtMost_of_split heq.le fun x hx => heq ▸ hinc x hx
    · have hgt : t < f b := lt_of_le_of_ne hb (Ne.symm heq)
      have hall : ∀ x ∈ b :: back, t < f x := by
        intro x hx
        rcases mem_cons.mp hx with rfl | hx
        · exact hgt
        · exact hgt.trans (hinc x hx)
      rw [if_neg (by simp [heq])]
      conv_lhs => rw [← hsplit]
      rw [lastAtMost_append_of_gt hall, lastAtMost_of_all_lt hbelow]

/-- What is below `t` in a concatenation whose back part is nowhere below `t`. -/
theorem filter_lt_append_of_ge (h : ∀ b ∈ r, t ≤ f b) :
    (l ++ r).filter (fun a => f a < t) = l.filter fun a => f a < t := by
  have hnil : (r.filter fun a => f a < t) = [] := by
    rw [filter_eq_nil_iff]
    intro b hb
    simpa using h b hb
  rw [filter_append, hnil, append_nil]

/-- If the last element is below `t`, so is every other. -/
theorem Increasing.lt_of_getLast (h : Increasing f l) {b : α} (hb : b ∈ l.getLast?)
    (hlt : f b < t) : ∀ a ∈ l, f a < t := by
  rcases eq_nil_or_concat' l with rfl | ⟨init, c, rfl⟩
  · simp at hb
  · rw [getLast?_concat, Option.mem_some_iff] at hb
    subst hb
    intro a ha
    rcases mem_append.mp ha with ha | ha
    · exact ((increasing_append.mp h).2.2 a ha c (by simp)).trans hlt
    · rwa [mem_singleton.mp ha]

/-- If the first element is above `t`, so is every other. -/
theorem Increasing.lt_of_cons {a : α} (h : Increasing f (a :: l)) (ha : t < f a) :
    ∀ b ∈ a :: l, t < f b := by
  intro b hb
  rcases mem_cons.mp hb with rfl | hb
  · exact ha
  · exact ha.trans ((pairwise_cons.mp h).1 b hb)

/-- What stands before the first element at or above `t` is what is below `t`. -/
theorem filter_lt_of_firstAtLeast {x : α} (h : Increasing f (l ++ x :: r))
    (hx : firstAtLeast f t (l ++ x :: r) = some x) :
    (l ++ x :: r).filter (fun a => f a < t) = l := by
  obtain ⟨-, hxr, hlx⟩ := increasing_append.mp h
  have hle : t ≤ f x := by
    have := find?_some hx
    simpa using this
  have hl : ∀ a ∈ l, f a < t := by
    by_contra hcon
    push Not at hcon
    obtain ⟨a, ha, hta⟩ := hcon
    obtain ⟨y, hy⟩ : ∃ y, firstAtLeast f t l = some y := by
      rw [← Option.isSome_iff_exists, firstAtLeast, find?_isSome]
      exact ⟨a, ha, by simpa using hta⟩
    rw [firstAtLeast_append_of_some hy, Option.some.injEq] at hx
    have hmem : y ∈ l := mem_of_find?_eq_some hy
    exact absurd (hlx y hmem x (by simp)) (by simp [hx])
  have hr : ∀ b ∈ x :: r, t ≤ f b := by
    intro b hb
    rcases mem_cons.mp hb with rfl | hb
    · exact hle
    · exact hle.trans ((pairwise_cons.mp hxr).1 b hb).le
  rw [filter_lt_append_of_ge hr]
  simpa using hl

/-- When nothing is at or above `t`, everything is below. -/
theorem filter_lt_of_none (h : firstAtLeast f t l = none) : l.filter (fun a => f a < t) = l := by
  rw [firstAtLeast] at h
  simpa using h

/-- Appending an element above the last one. -/
theorem Increasing.concat {a : α} (h : Increasing f l) (ha : ∀ b ∈ l.getLast?, f b < f a) :
    Increasing f (l ++ [a]) := by
  rw [increasing_append]
  refine ⟨h, pairwise_singleton _ _, fun b hb c hc => ?_⟩
  obtain ⟨last, hlast⟩ : ∃ last, last ∈ l.getLast? :=
    ⟨l.getLast (ne_nil_of_mem hb), getLast?_eq_getLast_of_ne_nil _⟩
  rw [mem_singleton.mp hc]
  exact h.lt_of_getLast hlast (ha last hlast) b hb

/-- The position a binary search finds depends on the projected elements only. -/
theorem lowerBound_map {γ : Type*} (g : γ → α) (l : List γ) :
    lowerBound f t (l.map g) = lowerBound (fun c => f (g c)) t l := by
  simp [lowerBound, takeWhile_map, Function.comp_def]

end SortedSearch
