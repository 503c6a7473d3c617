import Mathlib.Data.List.TakeWhile
import Proton.Lib.Greatest
import Proton.Streaming.HashJoin.MappedType

/-!
# The Versions of an ASOF Join

An ASOF join keeps the last versions of a key in a `SortedLookupContainer`: a deque in ascending or
in descending order of the asof value, depending on the inequality. Here a version is a row with the
number of its arrival, which the container does not look at.

Among equal asof values, later arrivals come first, whichever path inserts them. A lookup finds the
first version that qualifies, hence the latest arrival. The version that is given up when there are
too many is the last one of a descending deque, which is the earliest arrival among the least
values; but the first one of an ascending deque, which is the latest arrival among them.

## Main results

* `versions_greatest`: what the container holds.
* `versions_iff`: when these are the greatest versions by asof value and arrival.
-/

open List

namespace Proton.Streaming.SortedLookupContainer

open MappedType

variable {A T : Type} [LinearOrder T] (inequality : ASOFJoinInequality) (value : A → T)

/-- The versions of a key after some rows were inserted. -/
def versions (keepVersions : ℕ) (rows : List A) : List (A × ℕ) :=
  rows.zipIdx.foldl (insertSorted inequality (fun e => value e.1) keepVersions) []

/-- The order by asof value and arrival. -/
def Earlier (a b : A × ℕ) : Prop := value a.1 < value b.1 ∨ value a.1 = value b.1 ∧ a.2 < b.2

/-- The order by asof value in which a later arrival is below an earlier one. -/
def Stale (a b : A × ℕ) : Prop := value a.1 < value b.1 ∨ value a.1 = value b.1 ∧ b.2 < a.2

/-- The order in which the container gives up versions. -/
def GivenUp (a b : A × ℕ) : Prop :=
  if ascending inequality then Stale value a b else Earlier value a b

/-- The order of the container. -/
def Before (a b : A × ℕ) : Prop :=
  comesBefore inequality (value a.1) (value b.1) ∨ value a.1 = value b.1 ∧ b.2 < a.2

variable {inequality value}

/-- Which version is given up depends on the direction. -/
theorem givenUp_eq : GivenUp inequality value = if ascending inequality then Stale value
    else Earlier value := by
  funext a b
  rw [GivenUp]
  split_ifs <;> rfl

/-- Giving up is transitive. -/
theorem givenUp_trans {a b c : A × ℕ} (hab : GivenUp inequality value a b)
    (hbc : GivenUp inequality value b c) : GivenUp inequality value a c := by
  rw [GivenUp] at hab hbc ⊢
  split_ifs at hab hbc ⊢
  · rcases hab with hab | ⟨hab, hab'⟩ <;> rcases hbc with hbc | ⟨hbc, hbc'⟩
    · exact .inl (hab.trans hbc)
    · exact .inl (hab.trans_eq hbc)
    · exact .inl (hab.trans_lt hbc)
    · exact .inr ⟨hab.trans hbc, hbc'.trans hab'⟩
  · rcases hab with hab | ⟨hab, hab'⟩ <;> rcases hbc with hbc | ⟨hbc, hbc'⟩
    · exact .inl (hab.trans hbc)
    · exact .inl (hab.trans_eq hbc)
    · exact .inl (hab.trans_lt hbc)
    · exact .inr ⟨hab.trans hbc, hab'.trans hbc'⟩

/-! ### The order of values -/

/-- No value comes before itself. -/
theorem comesBefore_irrefl (t : T) : comesBefore inequality t t = false := by
  rw [comesBefore]
  split_ifs <;> simp

/-- The order of the container is transitive. -/
theorem comesBefore_trans {s t u : T} (hst : comesBefore inequality s t)
    (htu : comesBefore inequality t u) : comesBefore inequality s u := by
  rw [comesBefore] at hst htu ⊢
  split_ifs at hst htu ⊢ <;> simp only [decide_eq_true_eq] at hst htu ⊢
  · exact hst.trans htu
  · exact htu.trans hst

/-- The order of the container is total. -/
theorem comesBefore_or_eq {s t : T} (h : comesBefore inequality s t = false) :
    comesBefore inequality t s ∨ s = t := by
  rw [comesBefore] at h ⊢
  split_ifs at h ⊢ <;> simp only [decide_eq_false_iff_not, decide_eq_true_eq, not_lt] at h ⊢
  · exact h.lt_or_eq.imp_right Eq.symm
  · exact h.lt_or_eq

/-- The array is in the order of the container. -/
theorem not_comesBefore_of_before {a b : A × ℕ} (h : Before inequality value a b) :
    comesBefore inequality (value b.1) (value a.1) = false := by
  by_contra hba
  rw [Bool.not_eq_false] at hba
  rcases h with hab | ⟨heq, -⟩
  · have hself := comesBefore_trans hab hba
    rw [comesBefore_irrefl] at hself
    cases hself
  · rw [heq, comesBefore_irrefl] at hba
    cases hba

/-! ### Inserting a version -/

variable {array : List (A × ℕ)} {version : A × ℕ}

variable (inequality value) in
/-- The place of a version, which both paths find. -/
def place (array : List (A × ℕ)) (version : A × ℕ) : List (A × ℕ) :=
  let before := fun a : A × ℕ => comesBefore inequality (value a.1) (value version.1)
  array.takeWhile before ++ version :: array.dropWhile before

variable (inequality) in
/-- `eraseIfExceedingMaxSize`. -/
def eraseIfExceedingMaxSize (maxSize : ℕ) (array : List (A × ℕ)) : List (A × ℕ) :=
  if maxSize < array.length then
    if ascending inequality then array.tail else array.dropLast
  else array

/-- A version is added to the array. -/
theorem perm_place (array : List (A × ℕ)) (version : A × ℕ) :
    (place inequality value array version).Perm (version :: array) := by
  refine perm_middle.trans (.cons _ ?_)
  rw [takeWhile_append_dropWhile]

/-- Everything from the place on does not come before the version. -/
theorem not_comesBefore_of_mem_dropWhile (h : array.Pairwise (Before inequality value)) {a : A × ℕ}
    (ha : a ∈ array.dropWhile fun a => comesBefore inequality (value a.1) (value version.1)) :
    comesBefore inequality (value a.1) (value version.1) = false := by
  induction array with
  | nil => exact absurd ha not_mem_nil
  | cons b array ih =>
    obtain ⟨hb, hrest⟩ := pairwise_cons.1 h
    rw [dropWhile_cons] at ha
    split_ifs at ha with hbefore
    · exact ih hrest ha
    · rw [Bool.not_eq_true] at hbefore
      rcases mem_cons.1 ha with rfl | ha
      · exact hbefore
      · by_contra hcomes
        rw [Bool.not_eq_false] at hcomes
        -- what stands after `b` would come before the version, and `b` with it
        have hself : comesBefore inequality (value b.1) (value version.1) = true := by
          rcases hb a ha with hab | ⟨heq, -⟩
          · exact comesBefore_trans hab hcomes
          · rw [heq]
            exact hcomes
        rw [hbefore] at hself
        cases hself

/-- The array stays in order. -/
theorem pairwise_place (h : array.Pairwise (Before inequality value))
    (hnew : ∀ a ∈ array, a.2 < version.2) :
    (place inequality value array version).Pairwise (Before inequality value) := by
  have hsplit := takeWhile_append_dropWhile
    (p := fun a : A × ℕ => comesBefore inequality (value a.1) (value version.1)) (l := array)
  have hparts := hsplit ▸ h
  obtain ⟨hfront, hback, hcross⟩ := pairwise_append.1 hparts
  refine pairwise_append.2 ⟨hfront, pairwise_cons.2 ⟨fun a ha => ?_, hback⟩, ?_⟩
  · rcases comesBefore_or_eq (not_comesBefore_of_mem_dropWhile h ha) with hlt | heq
    · exact .inl hlt
    · exact .inr ⟨heq.symm, hnew a (dropWhile_suffix _ |>.subset ha)⟩
  · intro a ha b hb
    have hbefore := mem_takeWhile_imp (x := a) ha
    rcases mem_cons.1 hb with rfl | hb
    · exact .inl hbefore
    · exact hcross a ha b hb

variable (inequality value) in
/-- The array with a version, which was inserted on one of the two paths. -/
def inserted (array : List (A × ℕ)) (version : A × ℕ) : List (A × ℕ) :=
  let before := fun a : A × ℕ => comesBefore inequality (value a.1) (value version.1)
  if ascending inequality then
    if array.getLast?.all (fun e => value e.1 < value version.1) then array ++ [version]
    else array.takeWhile before ++ version :: array.dropWhile before
  else
    if array.head?.all (fun e => value e.1 < value version.1) then version :: array
    else array.takeWhile before ++ version :: array.dropWhile before

/-- **Both paths** insert a version at the same place. -/
theorem inserted_eq_place (h : array.Pairwise (Before inequality value)) :
    inserted inequality value array version = place inequality value array version := by
  rw [inserted]
  by_cases hasc : ascending inequality = true
  · split_ifs with hfast
    · -- the last version is below, hence all are
      have hall : ∀ a ∈ array, comesBefore inequality (value a.1) (value version.1) = true := by
        intro a ha
        obtain ⟨front, last, rfl⟩ := (eq_nil_or_concat' array).resolve_left (ne_nil_of_mem ha)
        have hlast : value last.1 < value version.1 := by simpa using hfast
        have hcomes : comesBefore inequality (value last.1) (value version.1) = true := by
          simpa [comesBefore, hasc] using hlast
        rcases mem_append.1 ha with ha | ha
        · rcases (pairwise_append.1 h).2.2 a ha last mem_cons_self with hlt | ⟨heq, -⟩
          · exact comesBefore_trans hlt hcomes
          · rw [heq]
            exact hcomes
        · rw [mem_singleton.1 ha]
          exact hcomes
      rw [place, takeWhile_eq_self_iff.2 hall, dropWhile_eq_nil_iff.2 hall]
    · rfl
  · split_ifs with hfast
    · cases array with
      | nil => rfl
      | cons a array =>
        have hfirst : value a.1 < value version.1 := by simpa using hfast
        have hnot : comesBefore inequality (value a.1) (value version.1) = false := by
          simpa [comesBefore, hasc] using hfirst.le
        simp [place, hnot]
    · rfl

/-! ### Giving up a version -/

/-- The version that is given up is the least one in the order in which they are given up. -/
theorem exists_erased (h : array.Pairwise (Before inequality value)) {maxSize : ℕ}
    (hfull : maxSize < array.length) :
    ∃ least, (least :: eraseIfExceedingMaxSize inequality maxSize array).Perm array ∧
      (eraseIfExceedingMaxSize inequality maxSize array).Pairwise (Before inequality value) ∧
      ∀ b ∈ eraseIfExceedingMaxSize inequality maxSize array, GivenUp inequality value least b := by
  have hne : array ≠ [] := ne_nil_of_length_pos (Nat.zero_lt_of_lt hfull)
  rw [eraseIfExceedingMaxSize, if_pos hfull]
  by_cases hasc : ascending inequality = true
  · rw [if_pos hasc]
    cases array with
    | nil => exact absurd rfl hne
    | cons a array =>
      obtain ⟨hfirst, hrest⟩ := pairwise_cons.1 h
      refine ⟨a, .refl _, hrest, fun b hb => ?_⟩
      rw [GivenUp, if_pos hasc]
      rcases hfirst b hb with hlt | ⟨heq, hlater⟩
      · left
        simpa [comesBefore, hasc] using hlt
      · exact .inr ⟨heq, hlater⟩
  · rw [if_neg hasc]
    obtain ⟨front, last, rfl⟩ := (eq_nil_or_concat' array).resolve_left hne
    obtain ⟨hfront, -, hlast⟩ := pairwise_append.1 h
    rw [dropLast_concat]
    refine ⟨last, (perm_append_singleton last front).symm, hfront, fun b hb => ?_⟩
    rw [GivenUp, if_neg hasc]
    rcases hlast b hb last mem_cons_self with hlt | ⟨heq, hlater⟩
    · left
      simpa [comesBefore, hasc] using hlt
    · exact .inr ⟨heq.symm, hlater⟩

variable {keepVersions : ℕ} {rows : List A}

/-- A new row has the next number. -/
theorem zipIdx_concat (rows : List A) (row : A) :
    (rows ++ [row]).zipIdx = rows.zipIdx ++ [(row, rows.length)] := by
  rw [zipIdx_append, Nat.zero_add]
  rfl

/-- The numbers of the rows. -/
theorem snd_lt_of_mem_zipIdx {e : A × ℕ} (h : e ∈ rows.zipIdx) : e.2 < rows.length := by
  have hlt := (mem_zipIdx h).2.1
  rwa [Nat.zero_add] at hlt

/-- **What the container holds**: its versions are in order, and they are the greatest in the order
in which they are given up. -/
theorem versions_greatest (inequality : ASOFJoinInequality) (value : A → T) (keepVersions : ℕ)
    (rows : List A) :
    (versions inequality value keepVersions rows).Pairwise (Before inequality value) ∧
      Greatest (GivenUp inequality value) keepVersions rows.zipIdx
        (versions inequality value keepVersions rows) := by
  induction rows using reverseRecOn with
  | nil => exact ⟨.nil, .nil _ _⟩
  | append_singleton rows row ih =>
    obtain ⟨horder, hgreatest⟩ := ih
    have hstep : versions inequality value keepVersions (rows ++ [row]) =
        eraseIfExceedingMaxSize inequality keepVersions (place inequality value
          (versions inequality value keepVersions rows) (row, rows.length)) := by
      rw [versions, zipIdx_concat, foldl_append, ← inserted_eq_place horder]
      rfl
    have harrived : ∀ a ∈ versions inequality value keepVersions rows, a.2 < rows.length :=
      fun a ha => snd_lt_of_mem_zipIdx (hgreatest.mem a ha)
    have hnew : (row, rows.length) ∉ rows.zipIdx := fun hmem =>
      lt_irrefl _ (snd_lt_of_mem_zipIdx hmem)
    have hplaced : (place inequality value (versions inequality value keepVersions rows)
        (row, rows.length)).Pairwise _ := pairwise_place horder harrived
    have hperm : (place inequality value (versions inequality value keepVersions rows)
        (row, rows.length)).Perm ((row, rows.length) :: _) := perm_place _ _
    have hlength := hperm.length_eq
    rw [length_cons] at hlength
    rw [hstep, zipIdx_concat]
    by_cases hfull : keepVersions < (place inequality value
        (versions inequality value keepVersions rows) (row, rows.length)).length
    · obtain ⟨least, herased, hpairwise, hleast⟩ := exists_erased hplaced hfull
      refine ⟨hpairwise, hgreatest.evict (fun _ _ _ => givenUp_trans) hnew (herased.trans hperm)
        hleast ?_⟩
      omega
    · rw [eraseIfExceedingMaxSize, if_neg hfull]
      refine ⟨hplaced, hgreatest.insert hnew hperm ?_⟩
      omega

/-! ### Finding a version -/

/-- The asof value is on the side of the probe that the inequality asks for. What is no inequality
is taken for `>=`. -/
def Qualifies (inequality : ASOFJoinInequality) (probe t : T) : Prop :=
  match inequality with
  | .less => probe < t
  | .lessOrEquals => probe ≤ t
  | .greater => t < probe
  | .greaterOrEquals | .none | .rangeBetween => t ≤ probe

variable (inequality value) in
/-- The version qualifies, and of all that do it is closest to the probe, and the latest arrival of
these. -/
def Closest (array : List (A × ℕ)) (probe : T) (version : A × ℕ) : Prop :=
  version ∈ array ∧ Qualifies inequality probe (value version.1) ∧
    ∀ other ∈ array, Qualifies inequality probe (value other.1) →
      other = version ∨ Before inequality value version other

/-- The order of versions is asymmetric. -/
theorem before_asymm {a b : A × ℕ} (hab : Before inequality value a b)
    (hba : Before inequality value b a) : False := by
  have hnot := not_comesBefore_of_before hab
  have hnot' := not_comesBefore_of_before hba
  rcases hab with hlt | ⟨-, hlater⟩
  · rw [hnot'] at hlt
    cases hlt
  · rcases hba with hlt | ⟨-, hlater'⟩
    · rw [hnot] at hlt
      cases hlt
    · exact lt_asymm hlater hlater'

instance (inequality : ASOFJoinInequality) (probe t : T) :
    Decidable (Qualifies inequality probe t) :=
  match inequality with
  | .less => inferInstanceAs (Decidable (probe < t))
  | .lessOrEquals => inferInstanceAs (Decidable (probe ≤ t))
  | .greater => inferInstanceAs (Decidable (t < probe))
  | .greaterOrEquals | .none | .rangeBetween => inferInstanceAs (Decidable (t ≤ probe))

/-- A lookup goes to the first version that qualifies. -/
theorem findAsof_eq (array : List (A × ℕ)) (probe : T) :
    findAsof inequality (fun e : A × ℕ => value e.1) array probe =
      array.find? fun e => Qualifies inequality probe (value e.1) := by
  have hnot : ∀ s t : T, (!decide (s < t)) = decide (t ≤ s) := fun s t => by
    simp only [← decide_not, not_lt]
  cases inequality <;> simp [findAsof, comesBefore, ascending, hnot] <;> rfl

/-- **A lookup** finds the closest version. -/
theorem findAsof_eq_some_iff (h : array.Pairwise (Before inequality value)) (probe : T)
    (version : A × ℕ) :
    findAsof inequality (fun e : A × ℕ => value e.1) array probe = some version ↔
      Closest inequality value array probe version := by
  rw [findAsof_eq, find?_eq_some_iff_append]
  constructor
  · rintro ⟨hqualifies, front, back, rfl, hfront⟩
    obtain ⟨-, hback, -⟩ := pairwise_append.1 h
    refine ⟨by simp, of_decide_eq_true hqualifies, fun other hother hother' => ?_⟩
    rcases mem_append.1 hother with hmem | hmem
    · have hnot := hfront other hmem
      simp [hother'] at hnot
    · rcases mem_cons.1 hmem with rfl | hmem
      · exact .inl rfl
      · exact .inr ((pairwise_cons.1 hback).1 other hmem)
  · rintro ⟨hmem, hqualifies, hclosest⟩
    obtain ⟨front, back, rfl⟩ := append_of_mem hmem
    refine ⟨decide_eq_true hqualifies, front, back, rfl, fun other hother => ?_⟩
    have hbefore : Before inequality value other version :=
      (pairwise_append.1 h).2.2 other hother version mem_cons_self
    -- a version in front that qualifies would come after
    simp only [Bool.not_eq_true', decide_eq_false_iff_not]
    intro hother'
    rcases hclosest other (mem_append_left _ hother) hother' with rfl | hafter
    · exact before_asymm hbefore hbefore
    · exact before_asymm hbefore hafter

/-! ### The greatest versions by asof value and arrival -/

variable (inequality value) in
/-- The versions are the greatest by asof value and arrival, they are sorted, and a lookup finds the
closest one. -/
structure Exact (keepVersions : ℕ) (rows : List A) (array : List (A × ℕ)) : Prop where
  /-- The versions are the greatest. -/
  greatest : Greatest (Earlier value) keepVersions rows.zipIdx array
  /-- They are sorted by asof value. -/
  sorted : array.Pairwise fun a b => ¬comesBefore inequality (value b.1) (value a.1)
  /-- A lookup finds the closest version. -/
  find : ∀ probe version, findAsof inequality (fun e : A × ℕ => value e.1) array probe =
    some version ↔
    Closest inequality value array probe version
  /-- A lookup finds nothing if no version qualifies. -/
  findNone : ∀ probe, findAsof inequality (fun e : A × ℕ => value e.1) array probe = none ↔
    ∀ e ∈ array, ¬Qualifies inequality probe (value e.1)

variable (value) in
/-- Of rows with equal asof values, all are among the greatest or none is. -/
def TiesKept (keepVersions : ℕ) (rows : List A) : Prop :=
  ∀ row ∈ rows, rows.countP (value row < value ·) < keepVersions →
    rows.countP (value row ≤ value ·) ≤ keepVersions

/-- Rows are counted by their numbers. -/
theorem countP_zipIdx (p : A → Bool) (rows : List A) :
    rows.countP p = (rows.zipIdx.filter fun e => p e.1).length := by
  rw [← countP_eq_length_filter]
  change _ = rows.zipIdx.countP (p ∘ Prod.fst)
  rw [← countP_map, zipIdx_map_fst]

/-- No number is given twice. -/
theorem nodup_zipIdx (rows : List A) : rows.zipIdx.Nodup := by
  refine List.Nodup.of_map Prod.snd ?_
  rw [zipIdx_map_snd]
  exact nodup_range'

variable {kept : List (A × ℕ)}

/-- If the versions are the greatest in both orders, no tie was broken. -/
theorem tiesKept_of_greatest (hearlier : Greatest (Earlier value) keepVersions rows.zipIdx kept)
    (hstale : Greatest (Stale value) keepVersions rows.zipIdx kept) :
    TiesKept value keepVersions rows := by
  intro row _ habove
  by_contra hties
  rw [countP_zipIdx] at hties
  rw [countP_zipIdx] at habove
  have hlength : kept.length = keepVersions := by
    have hle := length_filter_le (fun e : A × ℕ => decide (value row ≤ value e.1)) rows.zipIdx
    have hlen := hearlier.length
    omega
  obtain ⟨x, hx, hxle⟩ : ∃ x ∈ kept, value x.1 ≤ value row := by
    by_contra hnone
    push Not at hnone
    have hsub : ∀ x ∈ kept, x ∈ rows.zipIdx.filter fun e => decide (value row < value e.1) :=
      fun x hx => mem_filter.2 ⟨hearlier.mem x hx, decide_eq_true (hnone x hx)⟩
    have hle := (subperm_of_subset hearlier.nodup hsub).length_le
    omega
  obtain ⟨y, hy, hyle, hyout⟩ : ∃ y ∈ rows.zipIdx, value row ≤ value y.1 ∧ y ∉ kept := by
    by_contra hnone
    push Not at hnone
    have hsub : ∀ y ∈ rows.zipIdx.filter fun e => decide (value row ≤ value e.1), y ∈ kept := by
      intro y hy
      obtain ⟨hmem, hle⟩ := mem_filter.1 hy
      exact hnone y hmem (of_decide_eq_true hle)
    have hle := (subperm_of_subset ((nodup_zipIdx rows).filter _) hsub).length_le
    omega
  have hxy := hxle.trans hyle
  rcases hearlier.above x hx y hy hyout with hlt | ⟨-, hearly⟩
  · exact absurd hlt (not_lt.2 hxy)
  · rcases hstale.above x hx y hy hyout with hlt | ⟨-, hlate⟩
    · exact absurd hlt (not_lt.2 hxy)
    · exact lt_asymm hearly hlate

/-- If no tie is broken, the versions are the greatest in both orders. -/
theorem greatest_of_tiesKept (hstale : Greatest (Stale value) keepVersions rows.zipIdx kept)
    (hties : TiesKept value keepVersions rows) :
    Greatest (Earlier value) keepVersions rows.zipIdx kept := by
  refine ⟨hstale.mem, hstale.nodup, hstale.length, fun x hx y hy hyout => ?_⟩
  rcases hstale.above x hx y hy hyout with hlt | ⟨heq, hlate⟩
  · exact .inl hlt
  have hlen := hstale.length
  -- all greater rows are held, together with `x`
  have habove : rows.countP (value y.1 < value ·) < keepVersions := by
    rw [countP_zipIdx]
    have hnot : x ∉ rows.zipIdx.filter fun e => decide (value y.1 < value e.1) := fun hmem =>
      absurd (of_decide_eq_true (mem_filter.1 hmem).2) (not_lt.2 heq.ge)
    have hsub : ∀ z ∈ x :: rows.zipIdx.filter fun e => decide (value y.1 < value e.1),
        z ∈ kept := by
      intro z hz
      rcases mem_cons.1 hz with rfl | hz
      · exact hx
      · obtain ⟨hmem, hlt⟩ := mem_filter.1 hz
        by_contra hout
        have hlt := of_decide_eq_true hlt
        rcases hstale.above x hx z hmem hout with hzx | ⟨hzx, -⟩
        · exact lt_asymm hlt (hzx.trans_eq heq.symm)
        · exact absurd (hzx.trans heq.symm) (ne_of_gt hlt)
    have hle := (subperm_of_subset
      (nodup_cons.2 ⟨hnot, (nodup_zipIdx rows).filter _⟩) hsub).length_le
    rw [length_cons] at hle
    omega
  -- everything that is held is as great as `y`
  have hbound := hties y.1 (by
    have hmem := mem_map_of_mem (f := Prod.fst) hy
    rwa [zipIdx_map_fst] at hmem) habove
  rw [countP_zipIdx] at hbound
  have hsub : ∀ z ∈ y :: kept, z ∈ rows.zipIdx.filter fun e => decide (value y.1 ≤ value e.1) := by
    intro z hz
    rcases mem_cons.1 hz with rfl | hz
    · exact mem_filter.2 ⟨hy, decide_eq_true le_rfl⟩
    · refine mem_filter.2 ⟨hstale.mem z hz, decide_eq_true ?_⟩
      rcases hstale.above z hz y hy hyout with hlt | ⟨hyz, -⟩
      · exact hlt.le
      · exact hyz.le
  have hle := (subperm_of_subset (nodup_cons.2 ⟨hyout, hstale.nodup⟩) hsub).length_le
  rw [length_cons] at hle
  have hall := length_filter_le (fun e : A × ℕ => decide (value y.1 ≤ value e.1)) rows.zipIdx
  omega

/-- **When the versions are exact**: always if the deque is descending, and if it is ascending, when
no tie is broken. -/
theorem versions_iff (inequality : ASOFJoinInequality) (value : A → T) (keepVersions : ℕ)
    (rows : List A) :
    Exact inequality value keepVersions rows (versions inequality value keepVersions rows) ↔
      (ascending inequality → TiesKept value keepVersions rows) := by
  obtain ⟨horder, hgreatest⟩ := versions_greatest inequality value keepVersions rows
  rw [givenUp_eq] at hgreatest
  constructor
  · intro hexact hasc
    rw [if_pos hasc] at hgreatest
    exact tiesKept_of_greatest hexact.greatest hgreatest
  · intro hties
    refine ⟨?_, ?_, findAsof_eq_some_iff horder, fun probe => ?_⟩
    · by_cases hasc : ascending inequality = true
      · rw [if_pos hasc] at hgreatest
        exact greatest_of_tiesKept hgreatest (hties hasc)
      · rw [if_neg hasc] at hgreatest
        exact hgreatest
    · exact horder.imp fun hbefore => by simp [not_comesBefore_of_before hbefore]
    · rw [findAsof_eq, find?_eq_none]
      simp only [decide_eq_true_eq]

/-- With one version of a key and the inequality `<`, a second row with the same asof value is given
up at once. -/
theorem latest_tie_given_up :
    versions .less (fun row : ℕ => row) 1 [7, 7] = [(7, 0)] ∧
      ¬Exact .less (fun row : ℕ => row) 1 [7, 7]
        (versions .less (fun row : ℕ => row) 1 [7, 7]) := by
  refine ⟨by decide, fun hexact => ?_⟩
  have hbelow := hexact.greatest.above (7, 0) (by decide) (7, 1) (by decide) (by decide)
  rcases hbelow with hlt | ⟨-, hlt⟩
  · exact absurd hlt (by decide)
  · exact absurd hlt (by decide)

end Proton.Streaming.SortedLookupContainer
