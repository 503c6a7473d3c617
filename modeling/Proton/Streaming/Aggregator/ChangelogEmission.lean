import Proton.Streaming.Aggregator.KeysCache

/-!
# The Changelog of a Global Aggregation

The rows that all finalizations of a changelog emit, each with its delta, add up to one row for
every key that has rows, with the aggregate of them. What carries this through a run is the row that
was emitted last for a key (`liveRow`): a group that changes is saved first, so that it is still
known when the group is finalized next.

It takes some conditions. One transform has to keep the blocks of retracted rows (`SingleGuard`).
Several transforms must not finalize a group whose rows have cancelled, and a part of a group that
has no rows must not have states (`MergedGuard`).

## Main results

* `changelog_exact_single`, `changelog_exact_merged`: the changelog of one transform, and of
  several.
-/

open List Option Function

namespace Proton.Streaming

open MemoryAggregator Finset

variable {n : ℕ} {K A S V : Type} [LinearOrder K] [AddCommGroup S]

namespace GlobalAggregation

variable (params : GlobalAggregatingParams K A S V) {i : Fin n} {s : GlobalAggregation n K S}

variable (s)

/-- The part of a group that a transform has. -/
def part (i : Fin n) (k : K) : Option (AggregateData S) :=
  (s.variants i).data.find? k

/-- How many rows a group has, as a word. -/
def count (k : K) : ℤ :=
  Word.uint64.wrap (∑ i, partUpdates (s.part i k))

/-- How many rows a group had at the last finalization, as a word. -/
def oldCount (k : K) : ℤ :=
  Word.uint64.wrap (∑ i, oldUpdates (s.part i k))

/-- The row that was emitted last for a key. -/
def liveRow (k : K) : Option V :=
  if s.retractEnabled ∧ s.oldCount k ≠ 0 then some (params.result (∑ i, oldStates (s.part i k)))
  else none

variable {s}

variable {params}

/-- A part that is not saved is what it was. -/
theorem old_of_unsaved {p : Option (AggregateData S)} (h : ∀ d, p = some d → d.retract = none) :
    oldUpdates p = partUpdates p ∧ oldStates p = partStates p := by
  cases p with
  | none => exact ⟨rfl, rfl⟩
  | some d => simp [oldUpdates, partUpdates, oldStates, partStates, AggregateData.old, h d rfl]

/-- The part that a block changes. -/
theorem part_executeColumns (i : Fin n) (block : List (KeyedRow K A)) (k : K) :
    (s.executeColumns params i block).part i k =
      (executeOnBlock params.toAggregatorParams s.retractEnabled block
        (s.variants i)).data.find? k := by
  simp only [part, executeColumns, update_self]

/-- A block leaves the other transforms. -/
theorem part_executeColumns_of_ne {j : Fin n} (hj : j ≠ i) (block : List (KeyedRow K A)) (k : K) :
    (s.executeColumns params i block).part j k = s.part j k := by
  simp only [part, executeColumns, update_of_ne hj]

/-- A sum over the parts after a block. -/
theorem sum_part_executeColumns {M : Type} [AddCommMonoid M] (g : Option (AggregateData S) → M)
    (i : Fin n) (block : List (KeyedRow K A)) (k : K) :
    ∑ j, g ((s.executeColumns params i block).part j k) =
      g ((s.executeColumns params i block).part i k) + ∑ j ∈ univ.erase i, g (s.part j k) := by
  rw [← add_sum_erase univ _ (mem_univ i)]
  congr 1
  refine sum_congr rfl fun j hj => ?_
  rw [part_executeColumns_of_ne (ne_of_mem_erase hj)]

variable (params)

/-- What holds after some rows were consumed and some were emitted. -/
structure Exact (rows : List (KeyedRow K A)) (emitted : List ((K × V) × ℤ))
    (s : GlobalAggregation n K S) [DecidableEq V] : Prop where
  /-- The cached keys are those of groups that changed. -/
  cached : Cached params s
  /-- The buckets of updated groups are marked. -/
  marked : ∀ i, Marked params.toAggregatorParams (s.variants i)
  /-- The numbers of rows are words. -/
  words : ∀ i k, Word.uint64.wrap (partUpdates (s.part i k)) = partUpdates (s.part i k) ∧
    Word.uint64.wrap (oldUpdates (s.part i k)) = oldUpdates (s.part i k)
  /-- The states are what the rows add up to. -/
  states : ∀ k, ∑ i, partStates (s.part i k) = aggregated params.toAggregatorParams rows k
  /-- The numbers of rows. -/
  updates : ∀ k, s.count k = Word.uint64.wrap (netRows rows k)
  /-- If retractions are enabled, a group that changes is saved. -/
  saved : s.retractEnabled → ∀ i k d, s.part i k = some d → (d.updated ↔ d.retract.isSome)
  /-- Before retractions are enabled, a group that is not updated has no rows. -/
  quiet : s.retractEnabled = false → ∀ k, ¬UpdatedIn s.variants k → s.count k = 0
  /-- The rows that were emitted add up to the rows that were emitted last. -/
  emitted : ∀ k v, SignedRows.weight emitted (k, v) = if liveRow params s k = some v then 1 else 0

variable [DecidableEq V]

omit [AddCommGroup S] in
theorem part_new (i : Fin n) (k : K) : (new : GlobalAggregation n K S).part i k = none := rfl

/-- Nothing was emitted yet. -/
theorem Exact.new : Exact params [] [] (new : GlobalAggregation n K S) where
  cached := .new params
  marked _ _ h := absurd h (by simp [GlobalAggregation.new, DataVariants.new])
  words _ _ := ⟨rfl, rfl⟩
  states k := by simp [part_new, partStates, aggregated, rowsOf]
  updates k := by simp [count, part_new, partUpdates, netRows, rowsOf]
  saved h := absurd h (by simp [GlobalAggregation.new])
  quiet _ k _ := by
    simp only [count, part_new, partUpdates, elim_none, sum_const_zero]
    rfl
  emitted k v := by simp [liveRow, GlobalAggregation.new]

variable {params} {rows : List (KeyedRow K A)} {emitted : List ((K × V) × ℤ)}

/-! ### Consuming a block -/

/-- What saving the groups of a block relies on: a part without rows has no states, unless the whole
group had no rows. -/
def Savable (i : Fin n) (block : List (KeyedRow K A)) (s : GlobalAggregation n K S) : Prop :=
  s.retractEnabled → ∀ row ∈ block, ∀ d ∈ s.part i row.1.1, d.retract = none → d.updates = 0 →
    d.states = 0 ∨ s.oldCount row.1.1 = 0

variable {block : List (KeyedRow K A)}

section

variable (h : Exact params rows emitted s)
include h

/-- **A block keeps** the rows that were emitted last. -/
theorem Exact.liveRow_executeColumns (hsave : Savable i block s)
    (k : K) : liveRow params (s.executeColumns params i block) k = liveRow params s k := by
  by_cases henabled : s.retractEnabled = true
  · have hcount : (s.executeColumns params i block).oldCount k = s.oldCount k := by
      rw [oldCount, sum_part_executeColumns, part_executeColumns, henabled,
        oldUpdates_executeOnBlock _ (h.words i k).1, oldCount,
        ← add_sum_erase univ (fun j => oldUpdates (s.part j k)) (mem_univ i)]
      rfl
    by_cases hzero : s.oldCount k = 0
    · rw [liveRow, liveRow, hcount, if_neg fun hlive => hlive.2 hzero,
        if_neg fun hlive => hlive.2 hzero]
    · have hstates : ∑ j, oldStates ((s.executeColumns params i block).part j k) =
          ∑ j, oldStates (s.part j k) := by
        rw [sum_part_executeColumns, part_executeColumns, henabled, oldStates_executeOnBlock,
          ← add_sum_erase univ (fun j => oldStates (s.part j k)) (mem_univ i)]
        · rfl
        · intro d hk hd hretract hupdates
          obtain ⟨row, hrow, rfl⟩ := mem_map.1 hk
          exact (hsave henabled row hrow d hd hretract hupdates).resolve_right hzero
      rw [liveRow, hcount, hstates]
      rfl
  · have henabled' : ¬(s.executeColumns params i block).retractEnabled = true := henabled
    rw [liveRow, liveRow, if_neg fun hlive => henabled' hlive.1,
      if_neg fun hlive => henabled hlive.1]

/-- **A block** is consumed. -/
theorem Exact.executeColumns
    (hcount : Countable params.toAggregatorParams block) (hsave : Savable i block s) :
    Exact params (rows ++ block) emitted (s.executeColumns params i block) := by
  have hlive := h.liveRow_executeColumns hsave
  have hcached := h.cached.executeColumns i block
  have hsum : ∀ k, (s.executeColumns params i block).count k =
      Word.uint64.wrap (netRows (rows ++ block) k) := by
    intro k
    have hbefore := h.updates k
    rw [count, ← add_sum_erase univ _ (mem_univ i)] at hbefore
    rw [count, sum_part_executeColumns, part_executeColumns,
      partUpdates_executeOnBlock _ hcount (h.words i k).1, Word.wrap_wrap_add, netRows_append,
      ← Word.wrap_wrap_add (netRows rows k), ← hbefore, Word.wrap_wrap_add]
    congr 1
    exact add_right_comm _ _ _
  refine ⟨hcached, fun j => ?_, fun j k => ?_, fun k => ?_, hsum, fun henabled j k d hd => ?_,
    fun hdisabled k hk => ?_, fun k v => by rw [hlive, h.emitted]⟩
  · by_cases hj : j = i
    · subst hj
      simp only [GlobalAggregation.executeColumns, update_self]
      exact marked_executeOnBlock _ (h.marked j)
    · simp only [GlobalAggregation.executeColumns, update_of_ne hj]
      exact h.marked j
  · by_cases hj : j = i
    · subst hj
      have hpart : Word.uint64.wrap (partUpdates ((s.executeColumns params j block).part j k)) =
          partUpdates ((s.executeColumns params j block).part j k) := by
        rw [part_executeColumns, partUpdates_executeOnBlock _ hcount (h.words j k).1,
          Word.wrap_wrap]
      refine ⟨hpart, ?_⟩
      by_cases henabled : s.retractEnabled = true
      · rw [part_executeColumns, henabled, oldUpdates_executeOnBlock _ (h.words j k).1]
        exact (h.words j k).2
      · rw [Bool.not_eq_true] at henabled
        have hold := (old_of_unsaved (p := (s.executeColumns params j block).part j k)
          fun d hd => hcached.unsaved henabled j k d hd).1
        rw [hold]
        exact hpart
    · rw [part_executeColumns_of_ne hj]
      exact h.words j k
  · have hbefore := h.states k
    rw [← add_sum_erase univ _ (mem_univ i)] at hbefore
    rw [sum_part_executeColumns, part_executeColumns, partStates_executeOnBlock _ hcount,
      aggregated_append, ← hbefore]
    exact add_right_comm _ _ _
  · change s.retractEnabled = true at henabled
    by_cases hin : j = i ∧ k ∈ block.map (·.1.1)
    · obtain ⟨rfl, hin⟩ := hin
      obtain ⟨d', hd', hupdated, hretract⟩ := find?_executeColumns_of_mem (s := s) hin
      obtain rfl : d' = d := some.inj (hd'.symm.trans hd)
      refine iff_of_true hupdated ?_
      rw [hretract, henabled]
      exact isSome_retract_saveRetract _
    · exact h.saved henabled j k d ((find?_executeColumns_of_notMem hin).symm.trans hd)
  · -- a group that is not updated has no rows in the block
    have hblock : k ∉ block.map (·.1.1) := by
      intro hmem
      obtain ⟨d, hd, hupdated, -⟩ := find?_executeColumns_of_mem (s := s) hmem
      exact hk ⟨i, (any_eq_true _ _).2 ⟨d, hd, hupdated⟩⟩
    have hbefore : ¬UpdatedIn s.variants k := by
      rintro ⟨j, hj⟩
      refine hk ⟨j, ?_⟩
      rwa [find?_executeColumns_of_notMem fun hin => hblock hin.2]
    rw [hsum, netRows_append]
    have hzero : netRows block k = 0 := by
      rw [netRows, rowsOf_eq_nil_iff.2 hblock]
      rfl
    rw [hzero, add_zero, ← h.updates]
    exact h.quiet hdisabled k hbefore

/-! ### Finalizing -/

omit h in
/-- The row of a group as it is. -/
def currentRow (params : GlobalAggregatingParams K A S V) (s : GlobalAggregation n K S) (k : K) :
    Option V :=
  if s.count k ≠ 0 then some (params.result (∑ j, partStates (s.part j k))) else none

/-- If retractions are enabled, a group is updated if it is saved. -/
theorem Exact.updatedIn_iff (henabled : s.retractEnabled)
    (k : K) : UpdatedIn s.variants k ↔ SavedIn s.variants k := by
  refine exists_congr fun j => ?_
  rw [Option.any_eq_true, Option.any_eq_true]
  refine exists_congr fun d => and_congr_right fun hd => ?_
  exact h.saved henabled j k d hd

/-- Before retractions are enabled, no group is saved. -/
theorem Exact.retractEnabled_of_savedIn {k : K}
    (hk : SavedIn s.variants k) : s.retractEnabled = true := by
  obtain ⟨j, hj⟩ := hk
  obtain ⟨d, hd, hsaved⟩ := (any_eq_true _ _).1 hj
  by_contra hdisabled
  rw [h.cached.unsaved (Bool.not_eq_true _ ▸ hdisabled) j k d hd] at hsaved
  cases hsaved

end

omit [DecidableEq V] in
/-- A group that is not saved is what it was. -/
theorem liveRow_of_not_savedIn (henabled : s.retractEnabled = true) {k : K}
    (hk : ¬SavedIn s.variants k) : liveRow params s k = currentRow params s k := by
  have hold : ∀ j, oldUpdates (s.part j k) = partUpdates (s.part j k) ∧
      oldStates (s.part j k) = partStates (s.part j k) := by
    intro j
    refine old_of_unsaved fun d hd => ?_
    rw [← not_isSome_iff_eq_none]
    exact fun hsaved => hk ⟨j, (any_eq_true _ _).2 ⟨d, hd, hsaved⟩⟩
  rw [liveRow, currentRow, oldCount, count]
  simp only [henabled, true_and, hold]

/-- A part after a finalization is what it was before. -/
theorem parts_finalized (p : Option (AggregateData S)) :
    let p' := p.map fun d => { d with updated := false, retract := none }
    partStates p' = partStates p ∧ partUpdates p' = partUpdates p ∧ oldUpdates p' = partUpdates p ∧
      oldStates p' = partStates p := by
  cases p with
  | none => exact ⟨rfl, rfl, rfl, rfl⟩
  | some d => exact ⟨rfl, rfl, rfl, rfl⟩

/-- The rows that a finalization emits for the groups that changed. -/
def updatedRow (params : GlobalAggregatingParams K A S V) (s : GlobalAggregation n K S) (k : K) :
    Option V :=
  if UpdatedIn s.variants k then currentRow params s k else none

section Finalized

variable {variants : Fin n → DataVariants K S} {out : List ((K × V) × ℤ)}

section

variable (hchangelog : params.emitChangelog)
include hchangelog

omit [AddCommGroup S] [DecidableEq V] in
/-- Retraction starts with the first output. -/
theorem retractEnabled_finalized :
    (s.finalized params i variants out).retractEnabled = true ↔
      s.retractEnabled = true ∨ out ≠ [] := by
  simp [GlobalAggregation.finalized, hchangelog]

section

variable (hconv : Converts params i s.variants variants out)
include hconv

omit [DecidableEq V] in
/-- The parts after a finalization. -/
theorem part_finalized (j : Fin n) (k : K) :
    (s.finalized params i variants out).part j k =
      (s.part j k).map fun d => { d with updated := false, retract := none } := by
  rw [part, finalized, hconv.find, hchangelog]
  rfl

omit [DecidableEq V] in
/-- A finalization leaves the row counts. -/
theorem count_finalized (k : K) :
    (s.finalized params i variants out).count k = s.count k := by
  simp only [count, part_finalized hchangelog hconv, parts_finalized]

omit [DecidableEq V] in
/-- Once retractions are enabled, a finalization leaves the current rows. -/
theorem liveRow_finalized
    (henabled : s.retractEnabled = true ∨ out ≠ []) (k : K) :
    liveRow params (s.finalized params i variants out) k = currentRow params s k := by
  have hpart := part_finalized hchangelog hconv
  have hnotSaved : ¬SavedIn (s.finalized params i variants out).variants k := by
    rintro ⟨j, hj⟩
    obtain ⟨d, hd, hsaved⟩ := (any_eq_true _ _).1 hj
    have hd := (hpart j k).symm.trans hd
    obtain ⟨d, -, rfl⟩ := map_eq_some_iff.1 hd
    cases hsaved
  rw [liveRow_of_not_savedIn ((retractEnabled_finalized hchangelog).2 henabled) hnotSaved,
    currentRow, currentRow, count_finalized hchangelog hconv]
  simp only [hpart, parts_finalized]

end

end

variable (h : Exact params rows emitted s)
  (hchangelog : params.emitChangelog)
  (hconv : Converts params i s.variants variants out)
include h hchangelog hconv

/-- The first finalization that emits something leaves the rows it emits. -/
theorem Exact.liveRow_finalized_first
    (hdisabled : s.retractEnabled = false) (hnil : out = [] → ∀ k, updatedRow params s k = none)
    (k : K) : liveRow params (s.finalized params i variants out) k = updatedRow params s k := by
  by_cases hout : out = []
  · rw [hnil hout k]
    refine if_neg fun hlive => ?_
    rcases (retractEnabled_finalized hchangelog).1 hlive.1 with htrue | hne
    · rw [hdisabled] at htrue
      cases htrue
    · exact hne hout
  · rw [liveRow_finalized hchangelog hconv (.inr hout), updatedRow]
    split_ifs with hk
    · rfl
    · rw [currentRow, if_neg (not_not.2 (h.quiet hdisabled k hk))]

/-- What a finalization adds to the rows of a group. -/
theorem Exact.weight_finalized
    (hnil : out = [] → ∀ k, updatedRow params s k = none) (k : K) (v : V) :
    ((if liveRow params s k = some v then 1 else 0) +
        ((if (if SavedIn s.variants k then liveRow params s k else none) = some v then -1 else 0) +
          if updatedRow params s k = some v then 1 else 0) : ℤ) =
      if liveRow params (s.finalized params i variants out) k = some v then 1 else 0 := by
  cases henabled : s.retractEnabled with
  | true =>
    rw [liveRow_finalized hchangelog hconv (.inl henabled), updatedRow]
    by_cases hk : SavedIn s.variants k
    · rw [if_pos ((h.updatedIn_iff henabled k).2 hk)]
      split_ifs <;> simp
    · rw [if_neg hk, if_neg ((h.updatedIn_iff henabled k).not.2 hk),
        liveRow_of_not_savedIn henabled hk]
      simp
  | false =>
    have hnone : liveRow params s k = none := if_neg fun hlive => by simp [henabled] at hlive
    rw [h.liveRow_finalized_first hchangelog hconv henabled hnil, hnone]
    simp

end Finalized

variable {variants : Fin n → DataVariants K S}

/-- **A finalization**: the row that was emitted last for a group that changed is retracted, and its
current one is emitted. -/
theorem Exact.finalized (h : Exact params rows emitted s) (hchangelog : params.emitChangelog)
    {retracted updated : List (K × V)} {out : List ((K × V) × ℤ)}
    (hout : out = retracted.map (·, -1) ++ updated.map (·, 1))
    (hconv : Converts params i s.variants variants out)
    (hretracted : Listing (fun k => if SavedIn s.variants k then liveRow params s k else none)
      retracted) (hupdated : Listing (updatedRow params s) updated) :
    Exact params rows (emitted ++ out) (s.finalized params i variants out) := by
  have hpart := part_finalized hchangelog hconv
  have hcount := count_finalized hchangelog hconv
  have hnil : out = [] → ∀ k, updatedRow params s k = none := by
    intro hnil
    rw [hout, append_eq_nil_iff, map_eq_nil_iff, map_eq_nil_iff] at hnil
    exact hupdated.eq_nil_iff.1 hnil.2
  refine ⟨h.cached.finalized hconv.find, hconv.marked, fun j k => ?_, fun k => ?_, fun k => ?_,
    fun _ j k d hd => ?_, fun hdisabled k _ => ?_, fun k v => ?_⟩
  · rw [hpart, (parts_finalized _).2.1, (parts_finalized _).2.2.1]
    exact ⟨(h.words j k).1, (h.words j k).1⟩
  · rw [← h.states k]
    simp only [hpart, parts_finalized]
  · rw [hcount, h.updates]
  · rw [hpart, map_eq_some_iff] at hd
    obtain ⟨d, -, rfl⟩ := hd
    simp
  · have hdisabled : s.retractEnabled = false ∧ out = [] := by
      simpa [GlobalAggregation.finalized, hchangelog] using hdisabled
    rw [hcount]
    -- a group for which nothing is emitted has no rows
    by_cases hk : UpdatedIn s.variants k
    · by_contra hne
      have hnone := hnil hdisabled.2 k
      simp [updatedRow, hk, currentRow, hne] at hnone
    · exact h.quiet hdisabled.1 k hk
  · rw [SignedRows.weight_append, h.emitted, hout, SignedRows.weight_append, hretracted.weight,
      hupdated.weight, ← hout]
    exact h.weight_finalized hchangelog hconv hnil k v

/-! ### The end of a run -/

/-- The deltas are `1` and `-1`, and a row with `-1` cancels an earlier row of its key. -/
def Cancels (rows : List (KeyedRow K A)) : Prop :=
  (∀ row ∈ rows, row.2 = 1 ∨ row.2 = -1) ∧
    ∀ earlier ∈ rows.inits, ∀ row ∈ rows, 0 ≤ netRows earlier row.1.1
deriving Decidable

/-- No key has more rows than a word counts. -/
def Counts (rows : List (KeyedRow K A)) : Prop :=
  ∀ row ∈ rows, netRows rows row.1.1 < Word.uint64.card
deriving Decidable

/-- The number of rows of a key is a word. -/
theorem wrap_netRows (hcancels : Cancels rows) (hcounts : Counts rows) (k : K) :
    Word.uint64.wrap (netRows rows k) = netRows rows k ∧ 0 ≤ netRows rows k := by
  by_cases hk : k ∈ rows.map (·.1.1)
  · obtain ⟨row, hrow, rfl⟩ := mem_map.1 hk
    have hle := hcancels.2 rows ((mem_inits _ _).2 prefix_rfl) row hrow
    have hlt := hcounts row hrow
    refine ⟨Word.wrap_of_mem ⟨hle, ?_⟩, hle⟩
    exact hlt
  · rw [netRows, rowsOf_eq_nil_iff.2 hk]
    exact ⟨rfl, le_rfl⟩

/-- The rows that were emitted add up to one row for every key that has rows. -/
def AddsUp (params : GlobalAggregatingParams K A S V) (rows : List (KeyedRow K A))
    (emitted : List ((K × V) × ℤ)) : Prop :=
  ∀ k v, SignedRows.weight emitted (k, v) =
    if 0 < netRows rows k ∧ params.result (aggregated params.toAggregatorParams rows k) = v then 1
    else 0

/-- **After a finalization**, the rows that were emitted add up. -/
theorem Exact.addsUp (h : Exact params rows emitted s) (hfinal : ∀ k, ¬UpdatedIn s.variants k)
    (hcancels : Cancels rows) (hcounts : Counts rows) : AddsUp params rows emitted := by
  intro k v
  obtain ⟨hword, hle⟩ := wrap_netRows hcancels hcounts k
  have hcount : s.count k = netRows rows k := (h.updates k).trans hword
  have hlive : liveRow params s k = currentRow params s k := by
    by_cases henabled : s.retractEnabled = true
    · exact liveRow_of_not_savedIn henabled ((h.updatedIn_iff henabled k).not.1 (hfinal k))
    · have hzero := h.quiet (Bool.not_eq_true _ ▸ henabled) k (hfinal k)
      rw [liveRow, currentRow, if_neg fun hlive => henabled hlive.1, if_neg (not_not.2 hzero)]
  rw [h.emitted, hlive, currentRow, hcount, h.states]
  by_cases hpos : 0 < netRows rows k
  · rw [if_pos (ne_of_gt hpos)]
    simp [hpos]
  · have hzero : netRows rows k = 0 := le_antisymm (not_lt.1 hpos) hle
    simp [hzero]

omit [DecidableEq V] in
/-- No group is updated after a finalization. -/
theorem not_updatedIn_finalized {out : List ((K × V) × ℤ)}
    (hconv : Converts params i s.variants variants out) (k : K) :
    ¬UpdatedIn (s.finalized params i variants out).variants k := by
  rintro ⟨j, hj⟩
  obtain ⟨d, hd, hupdated⟩ := (any_eq_true _ _).1 hj
  have hd := (hconv.find j k).symm.trans hd
  obtain ⟨d, -, rfl⟩ := map_eq_some_iff.1 hd
  cases hupdated

/-- **A block** that is counted, and whose groups can be saved. -/
theorem Exact.consume (h : Exact params rows emitted s)
    (hcount : Countable params.toAggregatorParams block) (hsave : Savable i block s) :
    Exact params (rows ++ block) emitted (s.consume params i block) := by
  rw [GlobalAggregation.consume]
  split_ifs with hempty
  · rw [isEmpty_iff.1 hempty, append_nil]
    exact h
  · exact h.executeColumns hcount hsave

/-- **A finalization** that emits what it should. -/
theorem Exact.finalize (h : Exact params rows emitted s) (hchangelog : params.emitChangelog)
    (hready : Ready params i s) (hkept : n = 1 → (s.variants i).updatedBuckets = none →
      KeepsBlocks params.toAggregatorParams (s.variants i).data)
    (hold : ∀ k, oldRow params i s.variants k =
      if SavedIn s.variants k then liveRow params s k else none)
    (hnew : ∀ k, newRow params i s.variants k = updatedRow params s k) (layout : Layout K) :
    ∃ s' out, s.finalize params i layout = .ok (s', out) ∧ Exact params rows (emitted ++ out) s' ∧
      ∀ k, ¬UpdatedIn s'.variants k := by
  obtain ⟨variants, out, hrun, hconv⟩ := convert_spec params layout hready
  obtain ⟨retracted, updated, hout, hretracted, hupdated⟩ := hconv.rows fun hn _ => hkept hn
  exact ⟨_, out, finalize_eq params hrun,
    h.finalized hchangelog hout hconv (hretracted.congr hold) (hupdated.congr hnew),
    not_updatedIn_finalized hconv⟩

/-- **A run** whose blocks can be consumed and whose finalizations emit what they should. -/
theorem addsUp_run
    {guard : List (KeyedRow K A) → GlobalAggregation n K S → GlobalStep n K A → Prop}
    (hconsume : ∀ rows emitted s i block, Exact params rows emitted s →
      guard rows s (.consume i block) →
      Countable params.toAggregatorParams block ∧ Savable i block s)
    (hfinalize : ∀ rows emitted s i layout, Exact params rows emitted s →
      guard rows s (.finalize i layout) → Counts rows ∧ ∃ s' out,
        s.finalize params i layout = .ok (s', out) ∧ Exact params rows (emitted ++ out) s' ∧
        ∀ k, ¬UpdatedIn s'.variants k) {steps : List (GlobalStep n K A)} {i : Fin n}
    {layout : Layout K} (hcancels : Cancels (steps.flatMap consumedRows))
    (hguard : Along params guard [] new (steps ++ [.finalize i layout])) :
    ∃ s out, run params (steps ++ [.finalize i layout]) new = .ok (s, out) ∧
      AddsUp params (steps.flatMap consumedRows) out.flatten := by
  have hrows : (steps ++ [GlobalStep.finalize i layout]).flatMap consumedRows =
      steps.flatMap consumedRows := by
    simp [consumedRows]
  have hstep : ∀ rows emitted s a, Exact params rows emitted s → guard rows s a → ∃ s' out,
      s.step params a = .ok (s', out) ∧ Exact params (rows ++ consumedRows a) (emitted ++ out) s' ∧
        ((∃ i layout, a = .finalize i layout) →
          (∀ k, ¬UpdatedIn s'.variants k) ∧ Counts (rows ++ consumedRows a)) := by
    intro rows emitted s a h hguard
    cases a with
    | consume i block =>
      obtain ⟨hcount, hsave⟩ := hconsume rows emitted s i block h hguard
      refine ⟨_, [], rfl, ?_, nofun⟩
      rw [append_nil]
      exact h.consume hcount hsave
    | finalize i layout =>
      obtain ⟨hcounts, s', out, hrun, h', hfinal⟩ := hfinalize rows emitted s i layout h hguard
      refine ⟨s', out, hrun, ?_⟩
      rw [consumedRows, append_nil]
      exact ⟨h', fun _ => ⟨hfinal, hcounts⟩⟩
  obtain ⟨s, out, hrun, hexact, hlast⟩ := run_invariant
    (I := fun rows emitted s => Exact params rows emitted s) (J := fun a rows s =>
      (∃ i layout, a = .finalize i layout) → (∀ k, ¬UpdatedIn s.variants k) ∧ Counts rows)
    hstep (.new params) hguard
  obtain ⟨hfinal, hcounts⟩ := hlast ⟨i, layout, rfl⟩
  rw [hrows] at hcounts hexact
  exact ⟨s, out, hrun, hexact.addsUp hfinal hcancels hcounts⟩

/-! ### One transform -/

section Single

variable {s : GlobalAggregation 1 K S} {i : Fin 1} {block : List (KeyedRow K A)} {layout : Layout K}

variable (params) in
/-- The condition on the steps of one transform: rows are counted, a hash table with one level keeps
its blocks of retracted rows, and no keys are cached for one with two levels. -/
def SingleGuard (rows : List (KeyedRow K A)) (s : GlobalAggregation 1 K S) :
    GlobalStep 1 K A → Prop
  | .consume _ block => Countable params.toAggregatorParams block
  | .finalize i _ =>
    Counts rows ∧ (s.processedKeysColumns i = [] ∨ (s.variants i).updatedBuckets = none) ∧
      ((s.variants i).updatedBuckets = none →
        KeepsBlocks params.toAggregatorParams (s.variants i).data)

instance (rows : List (KeyedRow K A)) (s : GlobalAggregation 1 K S) :
    (a : GlobalStep 1 K A) → Decidable (SingleGuard params rows s a)
  | .consume _ block => inferInstanceAs (Decidable (Countable params.toAggregatorParams block))
  | .finalize _ _ => inferInstanceAs (Decidable (_ ∧ _))

omit [AddCommGroup S] in
/-- A single transform has everything of a key. -/
theorem sum_part {M : Type} [AddCommMonoid M] (g : Option (AggregateData S) → M) (k : K) :
    ∑ j, g (s.part j k) = g (s.part i k) := by
  rw [Fin.sum_univ_one, Subsingleton.elim i 0]

/-- The only part of a group is the whole group. -/
theorem Savable.single : Savable i block s := by
  intro _ row _ d hd hretract hupdates
  right
  have hold : oldUpdates (s.part i row.1.1) = 0 := by
    rw [mem_def.1 hd, ← hupdates]
    simp [oldUpdates, AggregateData.old, hretract]
  rw [oldCount, sum_part (i := i), hold]
  rfl

omit [AddCommGroup S] in
/-- Something is in a single transform if it is in any. -/
theorem anyIn_single {p : AggregateData S → Bool} {k : K} :
    (∃ j, ((s.variants j).data.find? k).any p) ↔ (s.part i k).any p := by
  constructor
  · rintro ⟨j, hj⟩
    rw [Subsingleton.elim i j]
    exact hj
  · exact fun h => ⟨i, h⟩

/-- The row that the only transform retracts. -/
theorem Exact.oldRow_single (h : Exact params rows emitted s) (hchangelog : params.emitChangelog)
    (k : K) :
    oldRow params i s.variants k = if SavedIn s.variants k then liveRow params s k else none := by
  rw [oldRow, if_pos hchangelog]
  change ((s.part i k).bind _).map _ = _
  have hsaved : SavedIn s.variants k ↔ (s.part i k).any (·.retract.isSome) := anyIn_single
  rw [if_congr hsaved rfl rfl]
  cases hd : s.part i k with
  | none => rfl
  | some d =>
    cases hr : d.retract with
    | none => simp [emittedStates, convertGroup, hr]
    | some r =>
      have henabled := h.retractEnabled_of_savedIn (hsaved.2 (by simp [hd, hr]))
      have hold : oldUpdates (some d) = r.updates ∧ oldStates (some d) = r.states := by
        simp [oldUpdates, oldStates, AggregateData.old, hr]
      have hword : Word.uint64.wrap r.updates = r.updates := by
        have hword := (h.words i k).2
        rwa [hd, hold.1] at hword
      rw [liveRow, oldCount, sum_part (i := i), sum_part (i := i), hd, hold.1, hold.2, hword]
      by_cases hzero : r.updates = 0
      · simp [emittedStates, convertGroup, hr, addsRow, AggregateStates.empty, hzero]
      · simp [emittedStates, convertGroup, hr, addsRow, AggregateStates.empty, hzero, henabled]

/-- The row that the only transform emits. -/
theorem Exact.newRow_single (h : Exact params rows emitted s) (hchangelog : params.emitChangelog)
    (k : K) : newRow params i s.variants k = updatedRow params s k := by
  rw [newRow, updatedRow, updateType, if_pos hchangelog]
  change ((s.part i k).bind _).map _ = _
  have hupdated : UpdatedIn s.variants k ↔ (s.part i k).any (·.updated) := anyIn_single
  rw [if_congr hupdated rfl rfl]
  cases hd : s.part i k with
  | none => rfl
  | some d =>
    have hword := (h.words i k).1
    by_cases hflag : d.updated = true
    · have hcount : s.count k = d.updates := by
        rw [count, sum_part (i := i), hword, hd]
        rfl
      have hstates : ∑ j, partStates (s.part j k) = d.states := by
        rw [sum_part (i := i), hd]
        rfl
      rw [currentRow, hcount, hstates]
      by_cases hzero : d.updates = 0
      · simp [emittedStates, convertGroup, hflag, AggregateStates.empty, hzero]
      · simp [emittedStates, convertGroup, hflag, addsRow, AggregateStates.empty, hzero]
    · simp [emittedStates, convertGroup, hflag]

/-- **The changelog of one transform** is exact: after every finalization, the rows that were
emitted add up to one row for every key that has rows, with the aggregate of them. -/
theorem changelog_exact_single (hchangelog : params.emitChangelog)
    (steps : List (GlobalStep 1 K A)) (i : Fin 1) (layout : Layout K)
    (hcancels : Cancels (steps.flatMap consumedRows))
    (hguard : Along params (SingleGuard params) [] new (steps ++ [.finalize i layout])) :
    ∃ s out, run params (steps ++ [.finalize i layout]) new = .ok (s, out) ∧
      AddsUp params (steps.flatMap consumedRows) out.flatten := by
  refine addsUp_run (fun rows emitted s i block h hguard => ⟨hguard, Savable.single⟩)
    (fun rows emitted s i layout h hguard => ?_) hcancels hguard
  obtain ⟨hcounts, hlevel, hkept⟩ := hguard
  exact ⟨hcounts, h.finalize hchangelog (h.cached.ready_single rfl h.marked hlevel) (fun _ => hkept)
    (h.oldRow_single hchangelog) (h.newRow_single hchangelog) layout⟩

/-- An aggregation of sums that emits a changelog, in blocks of a size. -/
def changelogParams (maxBlockSize : ℕ) : GlobalAggregatingParams ℕ ℤ ℤ ℤ :=
  { sumParams with maxBlockSize, emitChangelog := true, enableKeysCache := false }

/-- Two groups are emitted, and change together with a new one. -/
def changingSteps : List (GlobalStep 1 ℕ ℤ) :=
  [.consume (Fin.last 0) [((0, 5), 1), ((1, 6), 1)], .finalize (Fin.last 0) keyOrder,
    .consume (Fin.last 0) [((0, 1), 1), ((1, 1), 1), ((2, 7), 1)]]

/-- A block of retracted rows is finished before the new group is skipped, and it is dropped. -/
theorem changelog_drops_retractions :
    Cancels (changingSteps.flatMap consumedRows) ∧ ∃ s out,
      run (changelogParams 1) (changingSteps ++ [.finalize 0 keyOrder]) new = .ok (s, out) ∧
      ¬AddsUp (changelogParams 1) (changingSteps.flatMap consumedRows) out.flatten := by
  refine ⟨by decide, ?_⟩
  have hout : (run (changelogParams 1) (changingSteps ++ [.finalize 0 keyOrder]) new).map (·.2) =
      .ok [[], [((0, 5), 1), ((1, 6), 1)], [], [((0, 6), 1), ((1, 7), 1), ((2, 7), 1)]] := by
    decide +kernel
  obtain ⟨s, hrun⟩ := ExceptRel.exists_of_map_snd hout
  exact ⟨s, _, hrun, fun hadds => absurd (hadds 0 5) (by decide)⟩

/-- In larger blocks, the retracted rows are kept. -/
theorem changelog_exact_changingSteps :
    ∃ s out, run (changelogParams 100) (changingSteps ++ [.finalize 0 keyOrder]) new =
        .ok (s, out) ∧
      AddsUp (changelogParams 100) (changingSteps.flatMap consumedRows) out.flatten :=
  changelog_exact_single rfl changingSteps 0 keyOrder (by decide) (by decide +kernel)

end Single

/-! ### Several transforms -/

section Merged

variable {block : List (KeyedRow K A)} {layout : Layout K}

variable (params) in
/-- The condition on the steps of several transforms: rows are counted, a part without rows that is
saved has no states unless the whole group had no rows, and no group whose rows have cancelled is
finalized. -/
def MergedGuard (rows : List (KeyedRow K A)) (s : GlobalAggregation n K S) :
    GlobalStep n K A → Prop
  | .consume i block => Countable params.toAggregatorParams block ∧ Savable i block s
  | .finalize _ _ =>
    Counts rows ∧ ∀ j, ∀ e ∈ (s.variants j).data.toList, e.2.updated → s.count e.1 ≠ 0

instance [DecidableEq S] (i : Fin n) (block : List (KeyedRow K A)) (s : GlobalAggregation n K S) :
    Decidable (Savable i block s) :=
  inferInstanceAs (Decidable (_ → ∀ row ∈ block, ∀ d ∈ s.part i row.1.1, _))

instance [DecidableEq S] (rows : List (KeyedRow K A)) (s : GlobalAggregation n K S) :
    (a : GlobalStep n K A) → Decidable (MergedGuard params rows s a)
  | .consume _ _ => inferInstanceAs (Decidable (_ ∧ _))
  | .finalize _ _ => inferInstanceAs (Decidable (_ ∧ ∀ j, ∀ e ∈ (s.variants j).data.toList, _))

/-- The row that several transforms retract. -/
theorem Exact.oldRow_merged (h : Exact params rows emitted s) (hn : n ≠ 1)
    (hchangelog : params.emitChangelog) (k : K) :
    oldRow params i s.variants k = if SavedIn s.variants k then liveRow params s k else none := by
  rw [oldRow, if_pos hchangelog, if_neg hn, mergedOldRow]
  by_cases hk : SavedIn s.variants k
  · rw [liveRow]
    simp only [hk, h.retractEnabled_of_savedIn hk]
    rfl
  · rw [if_neg hk, if_neg fun hand => hk hand.1]

omit [DecidableEq V] in
/-- The row that several transforms emit. -/
theorem newRow_merged (hn : n ≠ 1) {k : K}
    (hrows : UpdatedIn s.variants k → s.count k ≠ 0) :
    newRow params i s.variants k = updatedRow params s k := by
  rw [newRow, updatedRow, if_neg hn, mergedRow]
  by_cases hk : UpdatedIn s.variants k
  · rw [if_pos hk, if_pos hk, currentRow, if_pos (hrows hk)]
    rfl
  · rw [if_neg hk, if_neg hk]

/-- **The changelog of several transforms** without a keys cache is exact: after every finalization,
by whichever transform, the rows that were emitted add up to one row for every key that has rows,
with the aggregate of all of them. -/
theorem changelog_exact_merged (hn : 2 ≤ n) (hchangelog : params.emitChangelog)
    (hcache : params.enableKeysCache = false) (steps : List (GlobalStep n K A)) (i : Fin n)
    (layout : Layout K) (hcancels : Cancels (steps.flatMap consumedRows))
    (hguard : Along params (MergedGuard params) [] new (steps ++ [.finalize i layout])) :
    ∃ s out, run params (steps ++ [.finalize i layout]) new = .ok (s, out) ∧
      AddsUp params (steps.flatMap consumedRows) out.flatten := by
  have hne : n ≠ 1 := by omega
  refine addsUp_run (fun rows emitted s i block h hguard => hguard)
    (fun rows emitted s i layout h hguard => ?_) hcancels hguard
  obtain ⟨hcounts, hrows⟩ := hguard
  have hready : Ready params i s := by
    refine ready_of_processedKeysColumns (fun j => h.cached.off j ?_) h.marked
    rw [caches, hcache, Bool.false_and]
  have hupdated : ∀ k, UpdatedIn s.variants k → s.count k ≠ 0 := by
    rintro k ⟨j, hj⟩
    obtain ⟨d, hd, hupdated⟩ := (any_eq_true _ _).1 hj
    exact hrows j (k, d) (SortedMap.find?_eq_some.1 hd) hupdated
  exact ⟨hcounts, h.finalize hchangelog hready (fun hone => absurd hone hne)
    (h.oldRow_merged hne hchangelog) (fun k => newRow_merged hne (hupdated k)) layout⟩

/-- A row is cancelled by another transform. -/
def cancelledSteps : List (GlobalStep 2 ℕ ℤ) :=
  [.consume firstTransform [((0, 5), 1)], .finalize firstTransform keyOrder,
    .consume secondTransform [((0, 5), -1)]]

/-- The group is emitted although it has no rows. -/
theorem changelog_emits_cancelled :
    Cancels (cancelledSteps.flatMap consumedRows) ∧ ∃ s out,
      run (changelogParams 100) (cancelledSteps ++ [.finalize 0 keyOrder]) new = .ok (s, out) ∧
      ¬AddsUp (changelogParams 100) (cancelledSteps.flatMap consumedRows) out.flatten := by
  refine ⟨by decide, ?_⟩
  have hout : (run (changelogParams 100) (cancelledSteps ++ [.finalize 0 keyOrder]) new).map (·.2) =
      .ok [[], [((0, 5), 1)], [], [((0, 5), -1), ((0, 0), 1)]] := by
    decide +kernel
  obtain ⟨s, hrun⟩ := ExceptRel.exists_of_map_snd hout
  exact ⟨s, _, hrun, fun hadds => absurd (hadds 0 0) (by decide)⟩

/-- A group whose parts both have rows is emitted as it is. -/
theorem changelog_exact_two :
    ∃ s out, run (changelogParams 100) ([.consume 0 [((0, 5), 1)], .finalize 0 keyOrder,
        .consume 1 [((0, 6), 1), ((1, 7), 1)]] ++ [GlobalStep.finalize (1 : Fin 2) keyOrder]) new =
        .ok (s, out) ∧
      AddsUp (changelogParams 100) [((0, 5), 1), ((0, 6), 1), ((1, 7), 1)] out.flatten :=
  changelog_exact_merged le_rfl rfl rfl _ 1 keyOrder (by decide) (by decide +kernel)

end Merged

end GlobalAggregation

end Proton.Streaming
