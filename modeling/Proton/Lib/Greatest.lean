import Mathlib.Data.List.Perm.Subperm

/-!
# The Greatest Elements of a List

A container that holds at most `k` elements, and gives up its least one when it has too many, holds
the `k` greatest of all elements it was given. The elements are compared by a transitive relation;
what is not held is below everything that is.

## Main results

* `Greatest.insert`, `Greatest.evict`: another element, while there is room and when there is none.
* `Greatest.drop`: the end of a sorted list.
-/

variable {α : Type*}

/-- The list has the `k` greatest elements of another one, or all of them. -/
structure Greatest (lt : α → α → Prop) (k : ℕ) (l kept : List α) : Prop where
  /-- The elements are those of the list. -/
  mem : ∀ a ∈ kept, a ∈ l
  /-- No element is held twice. -/
  nodup : kept.Nodup
  /-- There are `k` of them, if the list has as many. -/
  length : kept.length = min k l.length
  /-- All others are below. -/
  above : ∀ a ∈ kept, ∀ b ∈ l, b ∉ kept → lt b a

open List

namespace Greatest

variable {lt : α → α → Prop} {k : ℕ} {l kept : List α} {a : α}

/-- Nothing is the greatest of nothing. -/
theorem nil (lt : α → α → Prop) (k : ℕ) : Greatest lt k [] [] where
  mem _ h := h
  nodup := .nil
  length := (Nat.min_zero k).symm
  above _ h := absurd h not_mem_nil

/-- The end of a sorted list. -/
theorem drop (h : l.Pairwise lt) (hnodup : l.Nodup) (k : ℕ) :
    Greatest lt k l (l.drop (l.length - k)) where
  mem _ ha := mem_of_mem_drop ha
  nodup := hnodup.sublist (drop_sublist _ _)
  length := by
    rw [length_drop]
    omega
  above a ha b hb hnot := by
    rw [← take_append_drop (l.length - k) l] at h hb
    exact (pairwise_append.1 h).2.2 b ((mem_append.1 hb).resolve_right hnot) a ha

/-- **While there is room**, another element is held too. -/
theorem insert (h : Greatest lt k l kept) (hnew : a ∉ l) {kept' : List α}
    (hperm : kept'.Perm (a :: kept)) (hroom : kept.length < k) :
    Greatest lt k (l ++ [a]) kept' := by
  have hlength := h.length
  have hall : kept.Perm l := (subperm_of_subset h.nodup h.mem).perm_of_length_le (by omega)
  refine ⟨fun b hb => ?_, ?_, ?_, fun x _ b hb hnot => ?_⟩
  · rcases mem_cons.1 (hperm.mem_iff.1 hb) with rfl | hb
    · exact mem_append_right _ mem_cons_self
    · exact mem_append_left _ (h.mem b hb)
  · exact hperm.nodup_iff.2 (nodup_cons.2 ⟨fun ha => hnew (h.mem a ha), h.nodup⟩)
  · rw [hperm.length_eq, length_cons, length_append, length_singleton]
    omega
  · -- nothing is left out
    refine absurd (hperm.mem_iff.2 ?_) hnot
    rcases mem_append.1 hb with hb | hb
    · exact mem_cons_of_mem _ (hall.mem_iff.2 hb)
    · rw [mem_singleton.1 hb]
      exact mem_cons_self

/-- **When there is no room**, the least element is given up. -/
theorem evict (h : Greatest lt k l kept) (htrans : ∀ x y z, lt x y → lt y z → lt x z) (hnew : a ∉ l)
    {least : α} {rest : List α} (hperm : (least :: rest).Perm (a :: kept))
    (hleast : ∀ b ∈ rest, lt least b) (hfull : k ≤ kept.length) :
    Greatest lt k (l ++ [a]) rest := by
  have hlength := h.length
  have hnodup : (least :: rest).Nodup :=
    hperm.nodup_iff.2 (nodup_cons.2 ⟨fun ha => hnew (h.mem a ha), h.nodup⟩)
  have hcount := hperm.length_eq
  rw [length_cons, length_cons] at hcount
  refine ⟨fun b hb => ?_, (nodup_cons.1 hnodup).2, ?_, fun x hx b hb hnot => ?_⟩
  · rcases mem_cons.1 (hperm.mem_iff.1 (mem_cons_of_mem _ hb)) with rfl | hb
    · exact mem_append_right _ mem_cons_self
    · exact mem_append_left _ (h.mem b hb)
  · rw [length_append]
    omega
  · by_cases heq : b = least
    · rw [heq]
      exact hleast x hx
    · have hout : b ∉ a :: kept := fun hmem =>
        hnot ((mem_cons.1 (hperm.mem_iff.2 hmem)).resolve_left heq)
      obtain ⟨hba, hbk⟩ := not_or.1 (mem_cons.not.1 hout)
      have hbl : b ∈ l := (mem_append.1 hb).resolve_right fun h => hba (mem_singleton.1 h)
      rcases mem_cons.1 (hperm.mem_iff.1 (mem_cons_of_mem _ hx)) with rfl | hxk
      · -- the new element is held, so the least one was held before
        have hold : least ∈ kept := by
          refine (mem_cons.1 (hperm.mem_iff.1 mem_cons_self)).resolve_left fun h => ?_
          rw [h] at hnodup
          exact (nodup_cons.1 hnodup).1 hx
        exact htrans _ _ _ (h.above least hold b hbl hbk) (hleast x hx)
      · exact h.above x hxk b hbl hbk

end Greatest
