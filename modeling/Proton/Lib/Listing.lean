import Proton.Lib.SignedRows
import Proton.Lib.SortedMap

/-!
# Listings of Partial Functions

A list of entries lists a partial function with finitely many values if it has every entry of the
function once and no other. Two listings of one function are permutations of each other
(`Listing.perm`), so that a result about the entries a program produces, in whatever order, is a
result about the function.

## Main results

* `Listing.append`, `Listing.map`, `Listing.filter`: how a listing is put together.
* `Listing.weight`: what the signed rows of a listing say of a row.
-/

variable {α β γ : Type*}

/-- The list has every entry of the partial function once. -/
structure Listing (f : α → Option β) (l : List (α × β)) : Prop where
  /-- No key is listed twice. -/
  nodup : (l.map (·.1)).Nodup
  /-- The entries are those of the function. -/
  mem_iff : ∀ a b, (a, b) ∈ l ↔ f a = some b

open List

namespace Listing

variable {f g : α → Option β} {l l' : List (α × β)}

/-- Nothing is listed where there is nothing. -/
theorem nil : Listing (fun _ : α => (none : Option β)) [] :=
  ⟨.nil, fun _ _ => by simp⟩

/-- **Listings of one function** are permutations of each other. -/
theorem perm (h : Listing f l) (h' : Listing f l') : l.Perm l' := by
  refine (perm_ext_iff_of_nodup (h.nodup.of_map _) (h'.nodup.of_map _)).2 fun e => ?_
  rw [h.mem_iff, h'.mem_iff]

/-- The same list for a function with the same values. -/
theorem congr (h : Listing f l) (hfg : ∀ a, f a = g a) : Listing g l :=
  ⟨h.nodup, fun a b => by rw [h.mem_iff, hfg]⟩

/-- A list lists one function. -/
theorem congr_iff (h : Listing f l) : Listing g l ↔ ∀ a, f a = g a := by
  refine ⟨fun h' a => Option.ext fun b => ?_, h.congr⟩
  rw [← h.mem_iff, h'.mem_iff]

/-- The list is empty if the function has no value. -/
theorem eq_nil_iff (h : Listing f l) : l = [] ↔ ∀ a, f a = none := by
  rw [eq_nil_iff_forall_not_mem]
  constructor
  · intro hnil a
    by_contra hne
    obtain ⟨b, hb⟩ := Option.ne_none_iff_exists'.1 hne
    exact hnil _ ((h.mem_iff a b).2 hb)
  · intro hnone e he
    have hsome := (h.mem_iff e.1 e.2).1 he
    rw [hnone] at hsome
    cases hsome

/-- The entry with a key. -/
theorem find?_eq [DecidableEq α] (h : Listing f l) (a : α) :
    l.find? (fun e => e.1 = a) = (f a).map (a, ·) := by
  cases hfind : l.find? fun e => e.1 = a with
  | none =>
    cases hf : f a with
    | none => rfl
    | some b => simpa using find?_eq_none.1 hfind _ ((h.mem_iff a b).2 hf)
  | some e =>
    obtain rfl : e.1 = a := by simpa using find?_some hfind
    rw [(h.mem_iff e.1 e.2).1 (mem_of_find?_eq_some hfind)]
    rfl

/-- A listing of one entry or none. -/
theorem single [DecidableEq α] (a : α) (b : Option β) :
    Listing (fun j => if j = a then b else none) (b.toList.map (a, ·)) := by
  cases b with
  | none => exact nil.congr fun j => by simp
  | some b =>
    refine ⟨by simp, fun j c => ?_⟩
    by_cases hj : j = a
    · simp [eq_comm]
    · simp [hj]

section

variable (h : Listing f l)
include h

/-- **Two listings of functions with different keys.** -/
theorem append (h' : Listing g l') (hdisj : ∀ a, f a = none ∨ g a = none) :
    Listing (fun a => (f a).or (g a)) (l ++ l') := by
  refine ⟨?_, fun a b => ?_⟩
  · rw [map_append]
    refine h.nodup.append h'.nodup fun a ha ha' => ?_
    obtain ⟨e, he, rfl⟩ := mem_map.1 ha
    obtain ⟨e', he', heq⟩ := mem_map.1 ha'
    have hf := (h.mem_iff e.1 e.2).1 he
    have hg := (h'.mem_iff e.1 e'.2).1 (heq ▸ he')
    rcases hdisj e.1 with hnone | hnone
    · rw [hnone] at hf
      cases hf
    · rw [hnone] at hg
      cases hg
  · rw [mem_append, h.mem_iff, h'.mem_iff]
    rcases hdisj a with hnone | hnone
    · simp [hnone]
    · simp [hnone]

/-- Other values, which depend on the keys. -/
theorem mapWithKey (v : α → β → γ) :
    Listing (fun a => (f a).map (v a)) (l.map fun e => (e.1, v e.1 e.2)) := by
  refine ⟨?_, fun a c => ?_⟩
  · rw [map_map]
    exact h.nodup
  · rw [mem_map, Option.map_eq_some_iff]
    constructor
    · rintro ⟨e, he, heq⟩
      cases heq
      exact ⟨e.2, (h.mem_iff e.1 e.2).1 he, rfl⟩
    · rintro ⟨b, hb, rfl⟩
      exact ⟨(a, b), (h.mem_iff a b).2 hb, rfl⟩

/-- Other values. -/
theorem map (v : β → γ) : Listing (fun a => (f a).map v) (l.map fun e => (e.1, v e.2)) :=
  h.mapWithKey fun _ => v

/-- Some of the entries. -/
theorem filter (p : β → Bool) : Listing (fun a => (f a).filter p) (l.filter fun e => p e.2) := by
  refine ⟨h.nodup.sublist (filter_sublist.map _), fun a b => ?_⟩
  rw [mem_filter, h.mem_iff, Option.filter_eq_some_iff]

/-- Some of the entries, with other values. -/
theorem bind (v : β → Option γ) :
    Listing (fun a => (f a).bind v) (l.filterMap fun e => (v e.2).map (e.1, ·)) := by
  refine ⟨h.nodup.sublist ?_, fun a c => ?_⟩
  · clear h
    induction l with
    | nil => exact .refl _
    | cons e l ih =>
      cases hv : v e.2 with
      | none => simpa [hv] using ih.cons e.1
      | some c => simpa [hv] using ih
  · rw [mem_filterMap, Option.bind_eq_some_iff]
    constructor
    · rintro ⟨e, he, heq⟩
      obtain ⟨c', hc, hpair⟩ := Option.map_eq_some_iff.1 heq
      cases hpair
      exact ⟨e.2, (h.mem_iff e.1 e.2).1 he, hc⟩
    · rintro ⟨b, hb, hc⟩
      exact ⟨(a, b), (h.mem_iff a b).2 hb, by rw [hc]; rfl⟩

end

/-- A map lists what is found in it. -/
theorem toList [LinearOrder α] (m : SortedMap α β) : Listing m.find? m.toList :=
  ⟨m.nodup_keys, fun _ _ => SortedMap.find?_eq_some.symm⟩

/-- **The signed rows of a listing.** -/
theorem weight [DecidableEq α] [DecidableEq β] (h : Listing f l) (sign : ℤ) (a : α) (b : β) :
    SignedRows.weight (l.map (·, sign)) (a, b) = if f a = some b then sign else 0 := by
  rw [SignedRows.weight_map_of_nodup (h.nodup.of_map _)]
  simp only [h.mem_iff]

/-- **Signed rows for each entry**, with its key. -/
theorem weight_flatMap [DecidableEq α] [DecidableEq γ] {rows : α × β → List ((α × γ) × ℤ)}
    (h : Listing f l) (hrows : ∀ e, ∀ row ∈ rows e, row.1.1 = e.1) (a : α) (c : γ) :
    SignedRows.weight (l.flatMap rows) (a, c) =
      (f a).elim 0 fun b => SignedRows.weight (rows (a, b)) (a, c) := by
  have hfind : SignedRows.weight (l.flatMap rows) (a, c) =
      (l.find? fun e => e.1 = a).elim 0 fun e => SignedRows.weight (rows e) (a, c) := by
    have hnodup := h.nodup
    clear h
    induction l with
    | nil => rfl
    | cons e l ih =>
      obtain ⟨hhead, htail⟩ := nodup_cons.1 hnodup
      rw [flatMap_cons, SignedRows.weight_append, ih htail]
      by_cases he : e.1 = a
      · have hnone : l.find? (fun e => e.1 = a) = none := by
          refine find?_eq_none.2 fun e' he' heq => hhead ?_
          exact mem_map.2 ⟨e', he', (of_decide_eq_true heq).trans he.symm⟩
        simp [he, hnone]
      · have hzero : SignedRows.weight (rows e) (a, c) = 0 := by
          refine SignedRows.weight_of_notMem fun hin => he ?_
          obtain ⟨row, hrow, heq⟩ := mem_map.1 hin
          rw [← hrows e row hrow, heq]
        simp [he, hzero]
  rw [hfind, h.find?_eq]
  cases f a <;> rfl

end Listing
