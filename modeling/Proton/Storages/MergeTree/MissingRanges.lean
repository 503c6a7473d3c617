import Mathlib.Data.Int.Interval
import Proton.Storages.MergeTree.SequenceInfo

/-!
# Missing Sequence Ranges

The ranges of the parts on disk, sorted, are groups of parts of one block (`Group`). Beyond the
committed sequence number, `missingSequenceRanges` returns what is not covered by a group, and the
parts that are not there of a group that is.

## Main results

* `exists_groups`: the ranges are groups.
* `missingLoop_groups`: what the loop returns, over the groups.
* `exactlyMissing`, `missingSequenceRanges_exact`: the missing ranges, in ascending order, are
  exactly the maximal gaps and the absent parts; the next sequence number expected is the first one
  that is not covered by complete groups.
-/

open List

namespace Proton.SequenceInfo

/-- Ranges of parts on disk: those with the same start are parts of one block, and other ones are
disjoint. -/
structure PartRanges (committed : ℤ) (ranges : List SequenceRange) : Prop where
  /-- The ranges start after the committed sequence number. -/
  after : ∀ r ∈ ranges, committed < r.startSN
  /-- No range is empty. -/
  le : ∀ r ∈ ranges, r.startSN ≤ r.endSN
  /-- Part indexes are below the number of parts. -/
  index : ∀ r ∈ ranges, 0 ≤ r.partIndex ∧ r.partIndex < r.parts
  /-- Ranges with the same start are parts of one block. -/
  same : ∀ r ∈ ranges, ∀ r' ∈ ranges, r.startSN = r'.startSN →
    r.endSN = r'.endSN ∧ r.parts = r'.parts
  /-- Other ranges are disjoint. -/
  disjoint : ∀ r ∈ ranges, ∀ r' ∈ ranges, r.startSN ≠ r'.startSN →
    r.endSN < r'.startSN ∨ r'.endSN < r.startSN
  /-- No part is there twice. -/
  distinct : ranges.Pairwise fun r r' => r.startSN = r'.startSN → r.partIndex ≠ r'.partIndex

variable {committed : ℤ} {rs l : List SequenceRange}

/-- Some of the ranges, in any order. -/
theorem PartRanges.subperm (h : PartRanges committed rs) (hl : l.Subperm rs) :
    PartRanges committed l where
  after r hr := h.after r (hl.subset hr)
  le r hr := h.le r (hl.subset hr)
  index r hr := h.index r (hl.subset hr)
  same r hr r' hr' := h.same r (hl.subset hr) r' (hl.subset hr')
  disjoint r hr r' hr' := h.disjoint r (hl.subset hr) r' (hl.subset hr')
  distinct := by
    obtain ⟨l', hperm, hsub⟩ := hl
    exact (hperm.pairwise_iff fun hne heq => (hne heq.symm).symm).1 (h.distinct.sublist hsub)

/-! ### Sorting -/

instance : Std.Total fun a b : SequenceRange => ¬ b.lt a where
  total a b := by
    simp only [SequenceRange.lt]
    omega

instance : IsTrans SequenceRange fun a b => ¬ b.lt a where
  trans a b c := by
    simp only [SequenceRange.lt]
    omega

/-- Sorting keeps the ranges. -/
theorem sortRanges_perm (rs : List SequenceRange) : (sortRanges rs).Perm rs :=
  perm_insertionSort _ _

/-- The ranges of parts are sorted strictly. -/
theorem PartRanges.pairwise_lt (h : PartRanges committed rs) :
    (sortRanges rs).Pairwise SequenceRange.lt := by
  have hsorted : (sortRanges rs).Pairwise fun a b => ¬ b.lt a := pairwise_insertionSort _ _
  refine (hsorted.and (h.subperm (sortRanges_perm rs).subperm).distinct).imp fun {a b} hab => ?_
  simp only [SequenceRange.lt] at hab ⊢
  omega

/-! ### Groups -/

/-- The parts of one block. -/
structure Group where
  /-- The start of the block. -/
  startSN : ℤ
  /-- The end of the block. -/
  endSN : ℤ
  /-- The number of parts. -/
  parts : ℤ
  /-- The indexes of the parts that are there. -/
  indexes : List ℤ
  /-- There is a part. -/
  nonempty : indexes ≠ []
  /-- The indexes are sorted. -/
  sorted : indexes.Pairwise (· < ·)
  /-- The indexes are below the number of parts. -/
  bounds : ∀ i ∈ indexes, 0 ≤ i ∧ i < parts
  /-- The block is not empty. -/
  le : startSN ≤ endSN

namespace Group

variable (g : Group)

/-- The range of a part. -/
def range (i : ℤ) : SequenceRange := ⟨g.startSN, g.endSN, i, g.parts⟩

/-- The ranges of the parts that are there. -/
def ranges : List SequenceRange := g.indexes.map g.range

/-- Every part is there. -/
def Complete : Prop := ∀ i, 0 ≤ i → i < g.parts → i ∈ g.indexes

/-- A part, as a group. -/
def single (r : SequenceRange) (hle : r.startSN ≤ r.endSN)
    (hindex : 0 ≤ r.partIndex ∧ r.partIndex < r.parts) : Group where
  startSN := r.startSN
  endSN := r.endSN
  parts := r.parts
  indexes := [r.partIndex]
  nonempty := cons_ne_nil _ _
  sorted := pairwise_singleton _ _
  bounds _ hi := mem_singleton.1 hi ▸ hindex
  le := hle

/-- A part in front of a group. -/
def cons (i : ℤ) (hi : 0 ≤ i ∧ i < g.parts) (hlt : ∀ j ∈ g.indexes, i < j) : Group :=
  { g with
    indexes := i :: g.indexes
    nonempty := cons_ne_nil _ _
    sorted := pairwise_cons.2 ⟨hlt, g.sorted⟩
    bounds := fun j hj => by
      rcases mem_cons.1 hj with rfl | hj
      · exact hi
      · exact g.bounds j hj }

/-- The ranges of a group are those of its part indexes. -/
theorem mem_ranges {g : Group} {r : SequenceRange} :
    r ∈ g.ranges ↔ ∃ i ∈ g.indexes, g.range i = r := mem_map

end Group

/-- Groups one behind the other. -/
def Increasing (gs : List Group) : Prop := gs.Pairwise fun g g' => g.endSN < g'.startSN

/-- **The ranges are groups.** -/
theorem exists_groups (h : PartRanges committed l) (hl : l.Pairwise SequenceRange.lt) :
    ∃ gs : List Group, l = gs.flatMap Group.ranges ∧ Increasing gs := by
  induction l with
  | nil => exact ⟨[], rfl, .nil⟩
  | cons r l ih =>
    obtain ⟨hr, hl⟩ := pairwise_cons.1 hl
    obtain ⟨gs, rfl, hgs⟩ := ih (h.subperm (sublist_cons_self r l).subperm) hl
    have hle := h.le r mem_cons_self
    have hindex := h.index r mem_cons_self
    -- a part of another group is behind the new one
    have hmem : ∀ g ∈ gs, ∀ i ∈ g.indexes, g.range i ∈ gs.flatMap Group.ranges := fun g hg i hi =>
      mem_flatMap.2 ⟨g, hg, Group.mem_ranges.2 ⟨i, hi, rfl⟩⟩
    have hbehind : ∀ g ∈ gs, r.startSN ≠ g.startSN → r.endSN < g.startSN := by
      intro g hg hne
      obtain ⟨i, hi⟩ := exists_mem_of_ne_nil _ g.nonempty
      have hlt := hr _ (hmem g hg i hi)
      have hdisj := h.disjoint r mem_cons_self _ (mem_cons_of_mem _ (hmem g hg i hi))
      have hgle := g.le
      simp only [SequenceRange.lt, Group.range] at hlt hdisj
      omega
    cases gs with
    | nil =>
      exact ⟨[.single r hle hindex], rfl, pairwise_singleton _ _⟩
    | cons g gs =>
      obtain ⟨hg, hgs⟩ := pairwise_cons.1 hgs
      by_cases heq : r.startSN = g.startSN
      · obtain ⟨i, hi⟩ := exists_mem_of_ne_nil _ g.nonempty
        obtain ⟨hend, hparts⟩ := h.same r mem_cons_self _
          (mem_cons_of_mem _ (hmem g mem_cons_self i hi)) heq
        have hlt : ∀ j ∈ g.indexes, r.partIndex < j := by
          intro j hj
          have hlt := hr _ (hmem g mem_cons_self j hj)
          simp only [SequenceRange.lt, Group.range] at hlt
          omega
        have hparts : r.parts = g.parts := hparts
        refine ⟨g.cons r.partIndex (hparts ▸ hindex) hlt :: gs, ?_, pairwise_cons.2 ⟨hg, hgs⟩⟩
        have hrange : r = g.range r.partIndex := by
          rw [Group.range, ← heq, ← hparts]
          exact congrArg (fun e => (⟨r.startSN, e, r.partIndex, r.parts⟩ : SequenceRange)) hend
        conv_lhs => rw [hrange]
        rfl
      · refine ⟨.single r hle hindex :: g :: gs, rfl, pairwise_cons.2 ⟨fun g' hg' => ?_,
          pairwise_cons.2 ⟨hg, hgs⟩⟩⟩
        refine hbehind g' hg' fun heq' => ?_
        rcases mem_cons.1 hg' with rfl | hg'
        · exact heq heq'
        · have hlt := hbehind g mem_cons_self heq
          have hg := hg g' hg'
          have hgle := g.le
          omega

/-! ### Missing parts -/

variable {last expecting n c e : ℤ} {m prev cur : SequenceRange}

/-- The part indexes from one to another. -/
theorem mem_partsFrom {range : SequenceRange} {first : ℤ} :
    m ∈ partsFrom range first last ↔
      ∃ i, first ≤ i ∧ i < last ∧ m = { range with partIndex := i } := by
  rw [partsFrom, mem_map]
  constructor
  · rintro ⟨k, hk, rfl⟩
    rw [mem_range] at hk
    exact ⟨first + k, by omega, by omega, rfl⟩
  · rintro ⟨i, hfirst, hlast, rfl⟩
    refine ⟨(i - first).toNat, ?_, ?_⟩
    · rw [mem_range]
      omega
    · have hi : first + ((i - first).toNat : ℤ) = i := by omega
      rw [hi]

/-- The parts of a range are ordered. -/
theorem pairwise_partsFrom (range : SequenceRange) (first last : ℤ) :
    (partsFrom range first last).Pairwise SequenceRange.lt := by
  rw [partsFrom, pairwise_map]
  refine pairwise_lt_range.imp fun hlt => .inr ⟨rfl, ?_⟩
  dsimp only
  omega

/-- The loop over the parts that are there takes one part after the other. -/
theorem collectMissingParts_cons (range r : SequenceRange) (group : List SequenceRange) (next : ℤ) :
    collectMissingParts range (r :: group) next =
      (partsFrom range next r.partIndex ++ (collectMissingParts range group (r.partIndex + 1)).1,
        (collectMissingParts range group (r.partIndex + 1)).2) := by
  rw [collectMissingParts]
  split_ifs with hne
  · rfl
  · have heq := not_not.1 hne
    have hnil : partsFrom range next next = [] := by
      rw [partsFrom, sub_self]
      rfl
    rw [heq, hnil]
    rfl

variable (g : Group)

/-- What the two loops of `collectMissingPartsSequenceRange` collect from a part index on. -/
theorem collectMissingParts_spec (range : SequenceRange) {js : List ℤ} {next : ℤ}
    (hsorted : js.Pairwise (· < ·)) (hbounds : ∀ j ∈ js, next ≤ j ∧ j < g.parts) :
    let r := collectMissingParts range (js.map g.range) next
    (r.1 ++ partsFrom range r.2 g.parts).Pairwise SequenceRange.lt ∧
      ∀ m, m ∈ r.1 ++ partsFrom range r.2 g.parts ↔
        ∃ i, next ≤ i ∧ i < g.parts ∧ i ∉ js ∧ m = { range with partIndex := i } := by
  induction js generalizing next with
  | nil =>
    refine ⟨pairwise_partsFrom _ _ _, fun m => ?_⟩
    rw [map_nil, collectMissingParts, nil_append, mem_partsFrom]
    simp
  | cons j js ih =>
    obtain ⟨hj, hsorted⟩ := pairwise_cons.1 hsorted
    obtain ⟨hnext, hparts⟩ := hbounds j mem_cons_self
    have hrest : ∀ k ∈ js, j + 1 ≤ k ∧ k < g.parts := fun k hk =>
      ⟨hj k hk, (hbounds k (mem_cons_of_mem _ hk)).2⟩
    obtain ⟨hpairwise, hmem⟩ := ih hsorted hrest
    rw [map_cons, collectMissingParts_cons]
    dsimp only [Group.range] at hpairwise hmem ⊢
    rw [append_assoc]
    refine ⟨pairwise_append.2 ⟨pairwise_partsFrom _ _ _, hpairwise, fun a ha b hb => ?_⟩,
      fun m => ?_⟩
    · obtain ⟨i, -, hi, rfl⟩ := mem_partsFrom.1 ha
      obtain ⟨k, hk, -, -, rfl⟩ := (hmem b).1 hb
      refine .inr ⟨rfl, ?_⟩
      dsimp only
      omega
    · rw [mem_append, mem_partsFrom, hmem]
      constructor
      · rintro (⟨i, hfirst, hlast, rfl⟩ | ⟨i, hfirst, hlast, hnot, rfl⟩)
        · refine ⟨i, hfirst, by omega, fun hin => ?_, rfl⟩
          rcases mem_cons.1 hin with rfl | hin
          · exact lt_irrefl _ hlast
          · exact absurd (hj i hin) (by omega)
        · refine ⟨i, by omega, hlast, fun hin => ?_, rfl⟩
          rcases mem_cons.1 hin with rfl | hin
          · omega
          · exact hnot hin
      · rintro ⟨i, hfirst, hlast, hnot, rfl⟩
        obtain ⟨hne, hnot⟩ := not_or.1 (mem_cons.not.1 hnot)
        by_cases hlt : i < j
        · exact .inl ⟨i, hfirst, hlt, rfl⟩
        · exact .inr ⟨i, by omega, hlast, hnot, rfl⟩

namespace Group

/-- The first part that is there. -/
def first : SequenceRange := g.range (g.indexes.head g.nonempty)

/-- What `collectMissingPartsSequenceRange` collects. -/
def missingParts : List SequenceRange :=
  collectMissingPartsSequenceRange g.first g.ranges

/-- The absent parts of a group, in ascending order. -/
theorem missingParts_spec : g.missingParts.Pairwise SequenceRange.lt ∧
    ∀ m, m ∈ g.missingParts ↔ ∃ i, 0 ≤ i ∧ i < g.parts ∧ i ∉ g.indexes ∧ m = g.range i :=
  collectMissingParts_spec g g.first g.sorted g.bounds

/-- A complete group misses no part. -/
theorem missingParts_eq_nil {g : Group} (h : g.Complete) : g.missingParts = [] := by
  rw [eq_nil_iff_forall_not_mem]
  intro m hm
  obtain ⟨i, hi, hlt, hnot, -⟩ := (g.missingParts_spec.2 m).1 hm
  exact hnot (h i hi hlt)

/-- A group is complete if it has as many parts as it should have. -/
theorem complete_iff : g.Complete ↔ g.parts = g.indexes.length := by
  have hsub : g.indexes.toFinset ⊆ Finset.Ico 0 g.parts := fun i hi => by
    rw [Finset.mem_Ico]
    exact g.bounds i (mem_toFinset.1 hi)
  have hcard : g.indexes.toFinset.card = g.indexes.length := toFinset_card_of_nodup g.sorted.nodup
  have hparts : 0 ≤ g.parts := by
    obtain ⟨i, hi⟩ := exists_mem_of_ne_nil _ g.nonempty
    have hbounds := g.bounds i hi
    omega
  constructor
  · intro h
    have heq : g.indexes.toFinset = Finset.Ico 0 g.parts :=
      hsub.antisymm fun i hi => by
        obtain ⟨hle, hlt⟩ := Finset.mem_Ico.1 hi
        exact mem_toFinset.2 (h i hle hlt)
    rw [heq, Int.card_Ico] at hcard
    omega
  · intro heq i hi hlt
    have hico : g.indexes.toFinset = Finset.Ico 0 g.parts := by
      refine Finset.eq_of_subset_of_card_le hsub ?_
      rw [Int.card_Ico]
      omega
    rw [← mem_toFinset, hico, Finset.mem_Ico]
    exact ⟨hi, hlt⟩

instance (g : Group) : Decidable g.Complete := decidable_of_iff _ g.complete_iff.symm

end Group

/-! ### The loop over the groups -/

/-- A gap, if there is one. -/
def gap (first last : ℤ) : List SequenceRange :=
  if first ≤ last then [⟨first, last, -1, -1⟩] else []

/-- What is missing from a sequence number on: a gap before each group, and its missing parts. -/
def missingFrom : ℤ → List Group → List SequenceRange
  | _, [] => []
  | expecting, g :: gs =>
    gap expecting (g.startSN - 1) ++ (g.missingParts ++ missingFrom (g.endSN + 1) gs)

/-- The next sequence number that is expected after some groups. -/
def nextExpecting : ℤ → List Group → ℤ
  | expecting, [] => expecting
  | expecting, g :: gs =>
    nextExpecting (if g.Complete ∧ g.startSN = expecting then g.endSN + 1 else expecting) gs

/-- What is missing before the first range is a gap. -/
theorem collectMissingSequenceRangeBefore_eq (prev : SequenceRange) (h : expecting ≤ prev.startSN)
    (prevIndex : ℕ) :
    collectMissingSequenceRangeBefore prev prevIndex expecting =
      if prevIndex = 0 then gap expecting (prev.startSN - 1) else [] := by
  rw [collectMissingSequenceRangeBefore, gap]
  split_ifs <;> first | rfl | omega

/-- What is missing between two ranges is a gap. -/
theorem collectMissingSequenceRangeBetween_eq (h : prev.endSN < cur.startSN)
    (hle : prev.startSN ≤ prev.endSN) :
    collectMissingSequenceRangeBetween prev cur = gap (prev.endSN + 1) (cur.startSN - 1) := by
  rw [collectMissingSequenceRangeBetween, gap]
  split_ifs <;> first | rfl | omega

/-- **One group**: the gap before the first one, the missing parts, and what is between the group
and the next one. -/
theorem collectMissingSequenceRanges_group (cur : SequenceRange) (prevIndex : ℕ)
    (h : expecting ≤ g.startSN) :
    collectMissingSequenceRanges g.first g.ranges cur prevIndex g.indexes.length expecting =
      ((if prevIndex = 0 then gap expecting (g.startSN - 1) else []) ++ (g.missingParts ++
        collectMissingSequenceRangeBetween g.first cur),
        if g.Complete ∧ g.startSN = expecting then g.endSN + 1 else expecting) := by
  have hbefore := collectMissingSequenceRangeBefore_eq g.first h prevIndex
  have hgap : g.startSN = expecting → gap expecting (g.startSN - 1) = [] := fun heq => by
    rw [gap, if_neg (by omega)]
  rw [collectMissingSequenceRanges]
  by_cases hcomplete : g.Complete
  · have hparts : g.first.parts = g.indexes.length := g.complete_iff.1 hcomplete
    rw [if_pos hparts, Group.missingParts_eq_nil hcomplete]
    by_cases heq : g.startSN = expecting
    · have hadvance : g.Complete ∧ g.startSN = expecting := ⟨hcomplete, heq⟩
      have hstart : g.first.startSN = expecting := heq
      rw [if_pos hstart, if_pos hadvance, hgap heq, ite_self]
      rfl
    · have hadvance : ¬ (g.Complete ∧ g.startSN = expecting) := fun hand => heq hand.2
      have hstart : ¬ g.first.startSN = expecting := heq
      rw [if_neg hstart, if_neg hadvance, hbefore]
      rfl
  · have hparts : ¬ g.first.parts = g.indexes.length := fun heq =>
      hcomplete (g.complete_iff.2 heq)
    have hadvance : ¬ (g.Complete ∧ g.startSN = expecting) := fun hand => hcomplete hand.1
    rw [if_neg hparts, if_neg hadvance, hbefore, append_assoc]
    rfl

/-- The rest of a group is collected. -/
theorem missingLoop_map (prev : SequenceRange) (hprev : prev.startSN = g.startSN)
    (js : List ℤ) (last : SequenceRange) (group : List SequenceRange) (prevIndex curIndex : ℕ)
    (parts expecting : ℤ) (rest : List SequenceRange) :
    missingLoop prev last group prevIndex curIndex parts expecting (js.map g.range ++ rest) =
      missingLoop prev ((js.map g.range).getLast?.getD last) (group ++ js.map g.range) prevIndex
        (curIndex + js.length) (parts + js.length) expecting rest := by
  induction js generalizing last group curIndex parts with
  | nil => simp
  | cons j js ih =>
    have hstart : prev.startSN = (g.range j).startSN := hprev
    rw [map_cons, cons_append, missingLoop, if_pos hstart, ih]
    have hlast : ((g.range j :: js.map g.range).getLast?.getD last) =
        (js.map g.range).getLast?.getD (g.range j) := by
      rw [getLast?_cons]
      cases (js.map g.range).getLast? <;> rfl
    rw [hlast, append_assoc, length_cons]
    congr 1
    · omega
    · omega

/-- The parts of a group behind the first one. -/
def Group.others : List SequenceRange := g.indexes.tail.map g.range

/-- The first range of a group and the others. -/
theorem Group.ranges_eq : g.ranges = g.first :: g.others := by
  rw [Group.ranges, Group.others, Group.first, ← map_cons, cons_head_tail]

/-- The rest of a group is collected. -/
theorem missingLoop_group (prevIndex curIndex : ℕ) (expecting : ℤ)
    (rest : List SequenceRange) :
    missingLoop g.first g.first [g.first] prevIndex curIndex 1 expecting (g.others ++ rest) =
      missingLoop g.first (g.others.getLast?.getD g.first) g.ranges prevIndex
        (curIndex + g.indexes.tail.length) g.indexes.length expecting rest := by
  have hlength : (1 : ℤ) + g.indexes.tail.length = g.indexes.length := by
    have hpos := length_pos_iff.2 g.nonempty
    rw [length_tail]
    omega
  rw [Group.others, missingLoop_map g g.first rfl, hlength, ← Group.others, singleton_append,
    ← g.ranges_eq]

/-- **What the loop returns** over groups: the gaps and the missing parts, and the next sequence
number that is expected. -/
theorem missingLoop_groups (gs : List Group) (hgs : Increasing (g :: gs))
    (prevIndex : ℕ) {curIndex : ℕ} (hcur : curIndex ≠ 0) (h : expecting ≤ g.startSN) :
    missingLoop g.first g.first [g.first] prevIndex curIndex 1 expecting
        (g.others ++ gs.flatMap Group.ranges) =
      ((if prevIndex = 0 then gap expecting (g.startSN - 1) else []) ++
        (g.missingParts ++ missingFrom (g.endSN + 1) gs), nextExpecting expecting (g :: gs)) := by
  rw [missingLoop_group]
  induction gs generalizing g prevIndex curIndex expecting with
  | nil =>
    have hlast : g.first.startSN = (g.others.getLast?.getD g.first).startSN := by
      cases hlast : g.others.getLast? with
      | none => rfl
      | some r =>
        obtain ⟨i, -, rfl⟩ := mem_map.1 (mem_of_getLast? hlast)
        rfl
    have hself : collectMissingSequenceRangeBetween g.first (g.others.getLast?.getD g.first) = [] :=
      if_neg fun hne => hne.1 hlast
    rw [flatMap_nil, missingLoop, collectMissingSequenceRanges_group g _ prevIndex h, hself]
    rfl
  | cons g' gs ih =>
    obtain ⟨hg, hgs⟩ := pairwise_cons.1 hgs
    have hlt := hg g' mem_cons_self
    have hle := g.le
    have hne : ¬ g.first.startSN = g'.first.startSN := by
      change ¬ g.startSN = g'.startSN
      omega
    have hexpecting : (if g.Complete ∧ g.startSN = expecting then g.endSN + 1 else expecting) ≤
        g'.startSN := by
      split_ifs <;> omega
    have hindex : curIndex + g.indexes.tail.length ≠ 0 := by omega
    have hrest := ih g' hgs (curIndex + g.indexes.tail.length)
      (Nat.succ_ne_zero (curIndex + g.indexes.tail.length)) hexpecting
    rw [if_neg hindex, ← missingLoop_group] at hrest
    have hbetween : collectMissingSequenceRangeBetween g.first g'.first =
        gap (g.endSN + 1) (g'.startSN - 1) :=
      collectMissingSequenceRangeBetween_eq hlt g.le
    rw [flatMap_cons, g'.ranges_eq, cons_append, missingLoop, if_neg hne,
      collectMissingSequenceRanges_group g _ prevIndex h, hbetween]
    dsimp only
    rw [hrest, append_assoc, append_assoc]
    rfl

/-! ### What is missing -/

variable (ranges : List SequenceRange)

/-- A sequence number is in a range. -/
def Covered (n : ℤ) : Prop :=
  ∃ r ∈ ranges, r.startSN ≤ n ∧ n ≤ r.endSN

/-- A sequence number is in a range all of whose parts are there. -/
def CompletelyCovered (n : ℤ) : Prop :=
  ∃ r ∈ ranges, r.startSN ≤ n ∧ n ≤ r.endSN ∧
    ∀ i, 0 ≤ i → i < r.parts → ∃ r' ∈ ranges, r'.startSN = r.startSN ∧ r'.partIndex = i

/-- A maximal gap beyond the committed sequence number. -/
@[mk_iff]
structure MaximalGap (committed : ℤ) (ranges : List SequenceRange) (m : SequenceRange) : Prop where
  /-- The parts are not known. -/
  unknown : m.partIndex = -1 ∧ m.parts = -1
  /-- The gap is not empty. -/
  le : m.startSN ≤ m.endSN
  /-- Nothing in the gap is covered. -/
  uncovered : ∀ n, m.startSN ≤ n → n ≤ m.endSN → ¬ Covered ranges n
  /-- The gap begins after the committed sequence number, or after a range. -/
  left : m.startSN = committed + 1 ∨ committed + 1 < m.startSN ∧ Covered ranges (m.startSN - 1)
  /-- The gap ends before a range. -/
  right : Covered ranges (m.endSN + 1)

/-- An absent part of a range some of whose parts are there. -/
def AbsentPart (m : SequenceRange) : Prop :=
  ∃ r ∈ ranges, m = { r with partIndex := m.partIndex } ∧ 0 ≤ m.partIndex ∧ m.partIndex < r.parts ∧
    ∀ r' ∈ ranges, r'.startSN = r.startSN → r'.partIndex ≠ m.partIndex

variable {gs : List Group}

/-- The ranges of some groups. -/
theorem mem_flatMap_ranges {r : SequenceRange} :
    r ∈ gs.flatMap Group.ranges ↔ ∃ g ∈ gs, ∃ i ∈ g.indexes, g.range i = r := by
  rw [mem_flatMap]
  simp only [Group.mem_ranges]

/-- A group covers its sequence numbers. -/
theorem covered_flatMap :
    Covered (gs.flatMap Group.ranges) n ↔ ∃ g ∈ gs, g.startSN ≤ n ∧ n ≤ g.endSN := by
  constructor
  · rintro ⟨r, hr, hle⟩
    obtain ⟨g, hg, i, -, rfl⟩ := mem_flatMap_ranges.1 hr
    exact ⟨g, hg, hle⟩
  · rintro ⟨g, hg, hle⟩
    obtain ⟨i, hi⟩ := exists_mem_of_ne_nil _ g.nonempty
    exact ⟨g.range i, mem_flatMap_ranges.2 ⟨g, hg, i, hi, rfl⟩, hle⟩

/-- What the first group covers, and what the others do. -/
theorem covered_cons {g : Group} :
    Covered ((g :: gs).flatMap Group.ranges) n ↔
      (g.startSN ≤ n ∧ n ≤ g.endSN) ∨ Covered (gs.flatMap Group.ranges) n := by
  rw [covered_flatMap, covered_flatMap, exists_mem_cons_iff]

/-- The groups behind a group cover nothing up to its end. -/
theorem not_covered_of_le {g : Group} (hgs : Increasing (g :: gs)) (hn : n ≤ g.endSN) :
    ¬ Covered (gs.flatMap Group.ranges) n := by
  rw [covered_flatMap]
  rintro ⟨g', hg', hle, -⟩
  have hlt := (pairwise_cons.1 hgs).1 g' hg'
  omega

/-- A gap is one range, unless it is empty. -/
theorem mem_gap {first : ℤ} : m ∈ gap first last ↔ first ≤ last ∧ m = ⟨first, last, -1, -1⟩ := by
  rw [gap]
  split_ifs with hle
  · rw [mem_singleton]
    exact (and_iff_right hle).symm
  · exact iff_of_false not_mem_nil fun hand => hle hand.1

/-- The maximal gaps: the one before the first group, and those behind it. -/
theorem maximalGap_cons {g : Group} (hgs : Increasing (g :: gs)) (hc : c < g.startSN)
    (m : SequenceRange) :
    MaximalGap c ((g :: gs).flatMap Group.ranges) m ↔
      m ∈ gap (c + 1) (g.startSN - 1) ∨ MaximalGap g.endSN (gs.flatMap Group.ranges) m := by
  have hle := g.le
  constructor
  · rintro ⟨hunknown, hm, huncovered, hleft, hright⟩
    have hout : ∀ n, m.startSN ≤ n → n ≤ m.endSN → ¬ (g.startSN ≤ n ∧ n ≤ g.endSN) :=
      fun n h h' hin => huncovered n h h' (covered_cons.2 (.inl hin))
    rw [covered_cons] at hleft hright
    by_cases hbefore : m.endSN < g.startSN
    · -- the gap is before the group
      have hend : g.startSN ≤ m.endSN + 1 := by
        rcases hright with hin | hin
        · exact hin.1
        · exact absurd hin (not_covered_of_le hgs (by omega))
      have hstart : m.startSN = c + 1 := by
        rcases hleft with heq | ⟨-, hin | hin⟩
        · exact heq
        · omega
        · exact absurd hin (not_covered_of_le hgs (by omega))
      refine .inl (mem_gap.2 ⟨by omega, ?_⟩)
      obtain ⟨a, b, i, k⟩ := m
      obtain ⟨rfl, rfl⟩ := hunknown
      dsimp only at hstart hend hbefore
      rw [hstart, show b = g.startSN - 1 by omega]
    · -- the gap is behind the group
      have hafter : g.endSN < m.startSN := by
        have hfirst := hout m.startSN le_rfl hm
        by_cases hstart : m.startSN ≤ g.startSN
        · exact absurd ⟨le_rfl, hle⟩ (hout g.startSN hstart (by omega))
        · omega
      refine .inr ⟨hunknown, hm, fun n h h' hin => huncovered n h h' (covered_cons.2 (.inr hin)),
        ?_, ?_⟩
      · rcases hleft with heq | ⟨-, hin | hin⟩
        · omega
        · exact .inl (by omega)
        · by_cases heq : m.startSN = g.endSN + 1
          · exact .inl heq
          · exact .inr ⟨by omega, hin⟩
      · rcases hright with hin | hin
        · omega
        · exact hin
  · rintro (hgap | ⟨hunknown, hm, huncovered, hleft, hright⟩)
    · obtain ⟨hlt, rfl⟩ := mem_gap.1 hgap
      refine ⟨⟨rfl, rfl⟩, hlt, fun n h h' hin => ?_, .inl rfl, ?_⟩
      · dsimp only at h h'
        rcases covered_cons.1 hin with hin | hin
        · omega
        · exact not_covered_of_le hgs (by omega) hin
      · exact covered_cons.2 (.inl ⟨by dsimp only; omega, by dsimp only; omega⟩)
    · refine ⟨hunknown, hm, fun n h h' hin => ?_, .inr ⟨by omega, ?_⟩, covered_cons.2 (.inr hright)⟩
      · rcases covered_cons.1 hin with hin | hin
        · omega
        · exact huncovered n h h' hin
      · rcases hleft with heq | ⟨-, hin⟩
        · exact covered_cons.2 (.inl ⟨by omega, by omega⟩)
        · exact covered_cons.2 (.inr hin)

section

variable (hgs : Increasing gs) (hc : ∀ g ∈ gs, c < g.startSN)
include hgs hc

/-- **What is missing** from a sequence number on. -/
theorem mem_missingFrom (m : SequenceRange) :
    m ∈ missingFrom (c + 1) gs ↔
      MaximalGap c (gs.flatMap Group.ranges) m ∨ ∃ g ∈ gs, m ∈ g.missingParts := by
  induction gs generalizing c with
  | nil =>
    refine iff_of_false not_mem_nil ?_
    rintro (hgap | ⟨g, hg, -⟩)
    · obtain ⟨r, hr, -⟩ := hgap.right
      cases hr
    · cases hg
  | cons g gs ih =>
    obtain ⟨hg, hrest⟩ := pairwise_cons.1 hgs
    rw [missingFrom, mem_append, mem_append, ih hrest hg,
      maximalGap_cons hgs (hc g mem_cons_self), exists_mem_cons_iff]
    tauto

/-- What is missing from a sequence number on starts there, or behind it. -/
theorem le_startSN_of_mem_missingFrom (hm : m ∈ missingFrom (c + 1) gs) : c < m.startSN := by
  rcases (mem_missingFrom hgs hc m).1 hm with hgap | ⟨g, hg, hm⟩
  · rcases hgap.left with heq | ⟨hlt, -⟩ <;> omega
  · obtain ⟨i, -, -, -, rfl⟩ := (g.missingParts_spec.2 m).1 hm
    exact hc g hg

/-- What is missing is sorted. -/
theorem pairwise_missingFrom : (missingFrom (c + 1) gs).Pairwise SequenceRange.lt := by
  induction gs generalizing c with
  | nil => exact .nil
  | cons g gs ih =>
    obtain ⟨hg, hrest⟩ := pairwise_cons.1 hgs
    have hle := g.le
    have hstart : ∀ m ∈ g.missingParts, m.startSN = g.startSN := fun m hm => by
      obtain ⟨i, -, -, -, rfl⟩ := (g.missingParts_spec.2 m).1 hm
      rfl
    have hbehind : ∀ m ∈ missingFrom (g.endSN + 1) gs, g.endSN < m.startSN := fun m hm =>
      le_startSN_of_mem_missingFrom hrest hg hm
    refine pairwise_append.2 ⟨?_, pairwise_append.2
      ⟨g.missingParts_spec.1, ih hrest hg, fun a ha b hb => .inl ?_⟩, fun a ha b hb => .inl ?_⟩
    · rw [gap]
      split_ifs
      · exact pairwise_singleton _ _
      · exact .nil
    · rw [hstart a ha]
      exact lt_of_le_of_lt hle (hbehind b hb)
    · obtain ⟨hlt, rfl⟩ := mem_gap.1 ha
      dsimp only
      rcases mem_append.1 hb with hb | hb
      · rw [hstart b hb]
        omega
      · have hlt := hbehind b hb
        omega

end

/-- The next sequence number is not advanced over groups that are behind it. -/
theorem nextExpecting_eq_self (h : ∀ g ∈ gs, e < g.startSN) : nextExpecting e gs = e := by
  induction gs with
  | nil => rfl
  | cons g gs ih =>
    have hne : ¬ (g.Complete ∧ g.startSN = e) := fun hand =>
      absurd (h g mem_cons_self) (by omega)
    rw [nextExpecting, if_neg hne]
    exact ih fun g' hg' => h g' (mem_cons_of_mem _ hg')

/-- **The next sequence number that is expected** is the first one that is not in a complete group.
-/
theorem nextExpecting_spec (hgs : Increasing gs) (he : ∀ g ∈ gs, e ≤ g.startSN) :
    e ≤ nextExpecting e gs ∧
      (∀ n, e ≤ n → n < nextExpecting e gs →
        ∃ g ∈ gs, g.Complete ∧ g.startSN ≤ n ∧ n ≤ g.endSN) ∧
      ∀ g ∈ gs, g.Complete → ¬ (g.startSN ≤ nextExpecting e gs ∧ nextExpecting e gs ≤ g.endSN) := by
  induction gs generalizing e with
  | nil => exact ⟨le_rfl, fun n h h' => absurd h' h.not_gt, fun g hg => absurd hg not_mem_nil⟩
  | cons g gs ih =>
    obtain ⟨hg, hrest⟩ := pairwise_cons.1 hgs
    have hle := g.le
    have hstart := he g mem_cons_self
    rw [nextExpecting]
    by_cases hadvance : g.Complete ∧ g.startSN = e
    · rw [if_pos hadvance]
      obtain ⟨hmono, hin, hout⟩ := ih hrest (e := g.endSN + 1) hg
      refine ⟨by omega, fun n h h' => ?_, fun g' hg' hcomplete => ?_⟩
      · by_cases hn : n ≤ g.endSN
        · exact ⟨g, mem_cons_self, hadvance.1, by omega, hn⟩
        · obtain ⟨g', hg', hcomplete⟩ := hin n (by omega) h'
          exact ⟨g', mem_cons_of_mem _ hg', hcomplete⟩
      · rcases mem_cons.1 hg' with rfl | hg'
        · omega
        · exact hout g' hg' hcomplete
    · have hbehind : ∀ g' ∈ gs, e < g'.startSN := fun g' hg' => by
        have hlt := hg g' hg'
        omega
      rw [if_neg hadvance, nextExpecting_eq_self hbehind]
      refine ⟨le_rfl, fun n h h' => absurd h' h.not_gt, fun g' hg' hcomplete hin => ?_⟩
      rcases mem_cons.1 hg' with rfl | hg'
      · exact hadvance ⟨hcomplete, by omega⟩
      · exact absurd (hbehind g' hg') (by omega)

/-- Groups one behind the other with the same start are the same. -/
theorem Increasing.eq_of_startSN_eq (hgs : Increasing gs) {g g' : Group} (hg : g ∈ gs)
    (hg' : g' ∈ gs) (heq : g.startSN = g'.startSN) : g = g' := by
  have hne : gs.Pairwise fun g g' => g.startSN ≠ g'.startSN := hgs.imp fun {g _} hlt heq => by
    have hle := g.le
    omega
  have hsymm : Std.Symm fun g g' : Group => g.startSN ≠ g'.startSN := ⟨fun _ _ => Ne.symm⟩
  by_contra hother
  exact hne.forall hg hg' hother heq

/-- The ranges of groups have the sequence numbers of the complete groups covered completely. -/
theorem completelyCovered_flatMap (hgs : Increasing gs) :
    CompletelyCovered (gs.flatMap Group.ranges) n ↔
      ∃ g ∈ gs, g.Complete ∧ g.startSN ≤ n ∧ n ≤ g.endSN := by
  constructor
  · rintro ⟨r, hr, hstart, hend, hall⟩
    obtain ⟨g, hg, i, -, rfl⟩ := mem_flatMap_ranges.1 hr
    refine ⟨g, hg, fun k hk hlt => ?_, hstart, hend⟩
    obtain ⟨r', hr', heq, rfl⟩ := hall k hk hlt
    obtain ⟨g', hg', k, hk', rfl⟩ := mem_flatMap_ranges.1 hr'
    rwa [hgs.eq_of_startSN_eq hg hg' heq.symm]
  · rintro ⟨g, hg, hcomplete, hstart, hend⟩
    obtain ⟨i, hi⟩ := exists_mem_of_ne_nil _ g.nonempty
    refine ⟨g.range i, mem_flatMap_ranges.2 ⟨g, hg, i, hi, rfl⟩, hstart, hend, fun k hk hlt => ?_⟩
    exact ⟨g.range k, mem_flatMap_ranges.2 ⟨g, hg, k, hcomplete k hk hlt, rfl⟩, rfl, rfl⟩

/-- The absent parts of the ranges of groups are those of the groups. -/
theorem absentPart_flatMap (hgs : Increasing gs) :
    AbsentPart (gs.flatMap Group.ranges) m ↔ ∃ g ∈ gs, m ∈ g.missingParts := by
  constructor
  · rintro ⟨r, hr, hm, hpos, hlt, habsent⟩
    obtain ⟨g, hg, i, -, rfl⟩ := mem_flatMap_ranges.1 hr
    refine ⟨g, hg, (g.missingParts_spec.2 m).2 ⟨m.partIndex, hpos, hlt, fun hin => ?_, hm⟩⟩
    exact habsent _ (mem_flatMap_ranges.2 ⟨g, hg, m.partIndex, hin, rfl⟩) rfl rfl
  · rintro ⟨g, hg, hm⟩
    obtain ⟨i, hi⟩ := exists_mem_of_ne_nil _ g.nonempty
    obtain ⟨k, hk, hlt, hnot, rfl⟩ := (g.missingParts_spec.2 m).1 hm
    refine ⟨g.range i, mem_flatMap_ranges.2 ⟨g, hg, i, hi, rfl⟩, rfl, hk, hlt,
      fun r' hr' heq hindex => ?_⟩
    obtain ⟨g', hg', i', hi', rfl⟩ := mem_flatMap_ranges.1 hr'
    have hindex : i' = k := hindex
    rw [← hindex, hgs.eq_of_startSN_eq hg hg' heq.symm] at hnot
    exact hnot hi'

/-- What `missingSequenceRanges` returns, over the groups. -/
theorem missingSequenceRanges_groups (hsort : sortRanges rs = gs.flatMap Group.ranges)
    (hgs : Increasing gs) (hc : ∀ g ∈ gs, committed < g.startSN) :
    missingSequenceRanges rs committed =
      (missingFrom (committed + 1) gs, nextExpecting (committed + 1) gs,
        (sortRanges rs).getLast?.elim committed SequenceRange.endSN + 1) := by
  rw [missingSequenceRanges, hsort]
  cases gs with
  | nil => rfl
  | cons g gs =>
    have hloop := missingLoop_groups g gs hgs 0 one_ne_zero (hc g mem_cons_self)
    rw [flatMap_cons, g.ranges_eq, cons_append, getLast?_cons]
    dsimp only
    rw [hloop]
    rfl

/-- The last of the sorted ranges has the greatest end. -/
theorem PartRanges.le_endSN (h : PartRanges committed rs) {greatest : SequenceRange}
    (hlast : (sortRanges rs).getLast? = some greatest) :
    greatest ∈ rs ∧ ∀ r ∈ rs, r.endSN ≤ greatest.endSN := by
  have hperm := sortRanges_perm rs
  have hgreatest : greatest ∈ rs := hperm.mem_iff.1 (mem_of_getLast? hlast)
  refine ⟨hgreatest, fun r hr => ?_⟩
  obtain ⟨front, hfront⟩ := getLast?_eq_some_iff.1 hlast
  have hpairwise := h.pairwise_lt
  rw [hfront] at hpairwise
  have hr' := hperm.mem_iff.2 hr
  rw [hfront] at hr'
  rcases mem_append.1 hr' with hmem | hmem
  · have hlt := (pairwise_append.1 hpairwise).2.2 r hmem greatest mem_cons_self
    have hgle := h.le greatest hgreatest
    by_cases heq : r.startSN = greatest.startSN
    · exact (h.same r hr greatest hgreatest heq).1.le
    · have hdisj := h.disjoint r hr greatest hgreatest heq
      simp only [SequenceRange.lt] at hlt
      omega
  · rw [mem_singleton.1 hmem]

section Congr

variable (hmem : ∀ r, r ∈ rs ↔ r ∈ l)

include hmem

/-- Coverage does not depend on the order of the ranges. -/
theorem covered_congr (n : ℤ) : Covered rs n ↔ Covered l n := by
  simp only [Covered, hmem]

/-- Complete coverage does not depend on the order of the ranges. -/
theorem completelyCovered_congr (n : ℤ) : CompletelyCovered rs n ↔ CompletelyCovered l n := by
  simp only [CompletelyCovered, hmem]

/-- The absent parts do not depend on the order of the ranges. -/
theorem absentPart_congr (m : SequenceRange) : AbsentPart rs m ↔ AbsentPart l m := by
  simp only [AbsentPart, hmem]

/-- The gaps do not depend on the order of the ranges. -/
theorem maximalGap_congr (m : SequenceRange) :
    MaximalGap committed rs m ↔ MaximalGap committed l m := by
  simp only [maximalGap_iff, covered_congr hmem]

end Congr

/-- The missing ranges, the next sequence number that is expected and the one behind the greatest
end are exact. -/
structure ExactlyMissing (committed : ℤ) (ranges : List SequenceRange)
    (result : List SequenceRange × ℤ × ℤ) : Prop where
  /-- The missing ranges ascend. -/
  sorted : result.1.Pairwise SequenceRange.lt
  /-- They are the maximal gaps and the absent parts. -/
  mem : ∀ m, m ∈ result.1 ↔ MaximalGap committed ranges m ∨ AbsentPart ranges m
  /-- The next sequence number is beyond the committed one. -/
  lt_next : committed < result.2.1
  /-- It is not covered completely. -/
  incomplete : ¬ CompletelyCovered ranges result.2.1
  /-- Those before it are. -/
  complete : ∀ n, committed < n → n < result.2.1 → CompletelyCovered ranges n
  /-- The greatest end. -/
  greatest : if ranges = [] then result.2.2 = committed + 1
    else IsGreatest {n | ∃ r ∈ ranges, r.endSN = n} (result.2.2 - 1)

/-- **What is missing is found exactly**, for ranges in any order. -/
theorem exactlyMissing (h : PartRanges committed rs) :
    ExactlyMissing committed rs (missingSequenceRanges rs committed) := by
  have hperm := sortRanges_perm rs
  obtain ⟨gs, hsort, hgs⟩ := exists_groups (h.subperm hperm.subperm) h.pairwise_lt
  have hc : ∀ g ∈ gs, committed < g.startSN := fun g hg => by
    obtain ⟨i, hi⟩ := exists_mem_of_ne_nil _ g.nonempty
    refine h.after (g.range i) (hperm.mem_iff.1 ?_)
    rw [hsort]
    exact mem_flatMap_ranges.2 ⟨g, hg, i, hi, rfl⟩
  have hmem : ∀ r, r ∈ rs ↔ r ∈ gs.flatMap Group.ranges := fun r => by
    rw [← hsort]
    exact hperm.mem_iff.symm
  obtain ⟨hexpecting, hcomplete, hincomplete⟩ := nextExpecting_spec hgs hc
  rw [missingSequenceRanges_groups hsort hgs hc]
  refine ⟨pairwise_missingFrom hgs hc, fun m => ?_, hexpecting, ?_, fun n hn hlt => ?_, ?_⟩
  · rw [maximalGap_congr hmem, absentPart_congr hmem, absentPart_flatMap hgs]
    exact mem_missingFrom hgs hc m
  · rw [completelyCovered_congr hmem, completelyCovered_flatMap hgs]
    rintro ⟨g, hg, hcomplete', hin⟩
    exact hincomplete g hg hcomplete' hin
  · rw [completelyCovered_congr hmem, completelyCovered_flatMap hgs]
    exact hcomplete n hn hlt
  · split_ifs with hnil
    · subst hnil
      rfl
    · have hne : sortRanges rs ≠ [] := fun h => hnil (h ▸ hperm).symm.eq_nil
      have hlast := getLast?_eq_some_getLast hne
      obtain ⟨hgreatest, hle⟩ := h.le_endSN hlast
      rw [hlast, Option.elim_some, add_sub_cancel_right]
      refine ⟨⟨_, hgreatest, rfl⟩, ?_⟩
      rintro n ⟨r, hr, rfl⟩
      exact hle r hr

/-- **The missing ranges are exact.** In ascending order, they are the maximal gaps between the
committed sequence number and the greatest end, and the absent parts of ranges some of whose parts
are there. The next sequence number expected is the first one that is not covered by complete
groups, and the greatest one is the one after the greatest end. -/
theorem missingSequenceRanges_exact (h : PartRanges committed rs) :
    let r := missingSequenceRanges rs committed
    r.1.Pairwise SequenceRange.lt ∧
      (∀ m, m ∈ r.1 ↔ MaximalGap committed rs m ∨ AbsentPart rs m) ∧
      (committed < r.2.1 ∧ ¬ CompletelyCovered rs r.2.1 ∧
        ∀ n, committed < n → n < r.2.1 → CompletelyCovered rs n) ∧
      if rs = [] then r.2.2 = committed + 1
      else IsGreatest {n | ∃ r ∈ rs, r.endSN = n} (r.2.2 - 1) := by
  have hexact := exactlyMissing h
  exact ⟨hexact.sorted, hexact.mem, ⟨hexact.lt_next, hexact.incomplete, hexact.complete⟩,
    hexact.greatest⟩

/-- A gap at the front, a group with an absent part, a gap behind it, and a complete group. -/
def gapsAndParts : List SequenceRange :=
  [⟨9, 9, 0, 1⟩, ⟨4, 6, 2, 3⟩, ⟨4, 6, 0, 3⟩]

/-- Ranges with two gaps and a part that is absent. -/
theorem missingSequenceRanges_gapsAndParts :
    missingSequenceRanges gapsAndParts 1 =
        ([⟨2, 3, -1, -1⟩, ⟨4, 6, 1, 3⟩, ⟨7, 8, -1, -1⟩], 2, 10) ∧
      ∀ m, m ∈ (missingSequenceRanges gapsAndParts 1).1 ↔
        MaximalGap 1 gapsAndParts m ∨ AbsentPart gapsAndParts m :=
  ⟨by decide, (missingSequenceRanges_exact ⟨by decide, by decide, by decide, by decide, by decide,
    by decide⟩).2.1⟩

end Proton.SequenceInfo
