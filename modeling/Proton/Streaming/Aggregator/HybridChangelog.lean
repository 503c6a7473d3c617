import Mathlib.Data.List.DropRight
import Proton.Streaming.Aggregator.HybridExecution

/-!
# The Changelog of a Hybrid Aggregation

The rows that all finalizations of a changelog emit add up to one row for every key that has rows,
with the aggregate of them. A finalization retracts the row of every group that changed, as it was
saved, and inserts the new one.

It takes some conditions. One data variant drops the retractions that it has not finished when it
has no row to insert (`SingleGuard`). Several data variants are not merged any further for a key
once one of them has saved its part (`MergedGuard`).

## Main results

* `Exact.next`: what a finalization has to emit.
* `changelog_exact_one`, `changelog_exact_several`: the changelog of one data variant, and of
  several.
-/

open List SortedMap

namespace Proton.Streaming.HybridAggregator

open MemoryAggregator (KeyedRow Layout rowsOf netRows firstTransform secondTransform)
open SignedRows RetractConversion

variable {n : ℕ} {K A S V : Type} [LinearOrder K] [AddCommMonoid S] (params : HybridParams A S V)

/-! ### Rows that cancel -/

section Cancel

variable [DecidableEq A] {rows : List (KeyedRow K A)} {k : K}

/-- The deltas are `1` and `-1`, and a row with `-1` cancels an earlier row. -/
def Cancels (rows : List (KeyedRow K A)) : Prop :=
  (∀ row ∈ rows, row.2 = 1 ∨ row.2 = -1) ∧
    ∀ earlier ∈ rows.inits, ∀ row ∈ earlier, 0 ≤ weight earlier row.1
deriving Decidable

/-- The rows are counted: without aggregate functions there are none with `-1`, and a key has less
than `2 ^ 64`. -/
def Counted (rows : List (KeyedRow K A)) : Prop :=
  ∀ row ∈ rows, (params.aggregatesSize = 0 → row.2 = 1) ∧ netRows rows row.1.1 < 2 ^ 64
deriving Decidable

/-- No row is retracted more often than it was inserted. -/
theorem Cancels.weight_nonneg (h : Cancels rows) (x : K × A) : 0 ≤ weight rows x := by
  by_cases hx : x ∈ rows.map (·.1)
  · obtain ⟨row, hrow, rfl⟩ := mem_map.1 hx
    exact h.2 rows ((mem_inits _ _).2 prefix_rfl) row hrow
  · rw [weight_of_notMem hx]

/-- The weights of the rows of a key. -/
theorem weight_rowsOf (rows : List (KeyedRow K A)) (k : K) (x : K × A) :
    weight (rowsOf rows k) x = if x.1 = k then weight rows x else 0 := by
  induction rows with
  | nil => simp [rowsOf]
  | cons row rows ih =>
    have hcons : weight (rowsOf (row :: rows) k) x =
        (if row.1.1 = k ∧ row.1 = x then row.2 else 0) + weight (rowsOf rows k) x := by
      by_cases hrow : row.1.1 = k
      · simp [rowsOf, hrow]
      · simp [rowsOf, hrow]
    rw [hcons, ih]
    by_cases hx : row.1 = x
    · subst hx
      split_ifs <;> simp_all
    · simp [hx]

/-- The rows of a key cancel as those of all keys do. -/
theorem Cancels.rowsOf (h : Cancels rows) (k : K) :
    (∀ row ∈ rowsOf rows k, row.2 = 1 ∨ row.2 = -1) ∧ ∀ x, 0 ≤ weight (rowsOf rows k) x := by
  refine ⟨fun row hrow => h.1 row (mem_filter.1 hrow).1, fun x => ?_⟩
  rw [weight_rowsOf]
  split_ifs
  · exact h.weight_nonneg x
  · exact le_rfl

variable (htrack : params.trackingStateCount) (h : Cancels rows) (hcounted : Counted params rows)
include htrack h hcounted

omit [AddCommMonoid S] in
/-- What a row adds to its group. -/
theorem rowGroup_of_mem {row : KeyedRow K A} (hrow : row ∈ rows) :
    rowGroup params row = if 0 ≤ row.2 then (1, params.contribution row.1.2)
      else (-1, params.negation row.1.2) := by
  rw [rowGroup, htrack]
  rcases h.1 row hrow with hdelta | hdelta
  · simp [hdelta]
  · have hsize : params.aggregatesSize ≠ 0 := fun hzero => by
      have := (hcounted row hrow).1 hzero
      omega
    simp [hdelta, hsize]

/-- The number of rows of a key is what its group counts. -/
theorem fst_rowsGroup (k : K) : (rowsGroup params rows k).1 = UInt64.ofInt (netRows rows k) := by
  have hrow : ∀ row ∈ rowsOf rows k, (rowGroup params row).1 = UInt64.ofInt row.2 := by
    intro row hrow
    have hmem := (mem_filter.1 hrow).1
    rw [rowGroup_of_mem params htrack h hcounted hmem]
    rcases h.1 row hmem with hdelta | hdelta <;> simp [hdelta]
  rw [rowsGroup, netRows]
  generalize rowsOf rows k = l at hrow
  induction l with
  | nil => rfl
  | cons row l ih =>
    rw [map_cons, sum_cons, map_cons, sum_cons, UInt64.ofInt_add, ← hrow row
      mem_cons_self, ← ih fun r hr => hrow r (mem_cons_of_mem _ hr)]
    rfl

/-- **A group counts no rows** exactly if its key has none. -/
theorem fst_rowsGroup_eq_zero_iff (k : K) :
    0 ≤ netRows rows k ∧ ((rowsGroup params rows k).1 = 0 ↔ netRows rows k = 0) := by
  have hle : 0 ≤ netRows rows k := sum_sign_nonneg (h.rowsOf k).1 (h.rowsOf k).2
  have hlt : netRows rows k < 2 ^ 64 := by
    by_cases hk : k ∈ rows.map (·.1.1)
    · obtain ⟨row, hrow, rfl⟩ := mem_map.1 hk
      exact (hcounted row hrow).2
    · rw [netRows, MemoryAggregator.rowsOf_eq_nil_iff.2 hk]
      exact Int.pow_pos (by decide)
  refine ⟨hle, ?_⟩
  rw [fst_rowsGroup params htrack h hcounted]
  constructor
  · intro hzero
    have hnat := congrArg UInt64.toNat hzero
    rw [UInt64.ofInt] at hnat
    simp only [UInt64.toNat_ofNat', UInt64.toNat_zero] at hnat
    omega
  · intro hzero
    rw [hzero]
    rfl

/-- **A key without rows** has a group without states. -/
theorem rowsGroup_eq_zero (hneg : ∀ a, params.contribution a + params.negation a = 0)
    (hnone : (rowsGroup params rows k).1 = 0) : rowsGroup params rows k = 0 := by
  have hrow : (rowsOf rows k).map (rowGroup params) = (rowsOf rows k).map fun row =>
      if 0 ≤ row.2 then ((1, params.contribution row.1.2) : Group S)
      else (-1, params.negation row.1.2) := by
    refine map_congr_left fun row hrow => ?_
    exact rowGroup_of_mem params htrack h hcounted (mem_filter.1 hrow).1
  rw [rowsGroup, hrow]
  refine sum_eq_zero (f := fun x : K × A => ((1, params.contribution x.2) : Group S))
    (g := fun x => (-1, params.negation x.2)) (fun x => ?_) (h.rowsOf k).1 (h.rowsOf k).2
    ((fst_rowsGroup_eq_zero_iff params htrack h hcounted k).2.1 hnone)
  rw [Prod.mk_add_mk, hneg]
  rfl

end Cancel

/-! ### Rounds of a changelog -/

/-- The row of a group, if it has rows. -/
def live (g : Group S) : Option V := if g.1 = 0 then none else some (params.result g.2)

/-- How often a row is there. -/
def times [DecidableEq V] (row : Option V) (v : V) : ℤ := if row = some v then 1 else 0

variable [DecidableEq V]

/-- The rows that were emitted add up to one row for every key that has rows. -/
def AddsUp (rows : List (KeyedRow K A)) (emitted : List ((K × V) × ℤ)) : Prop :=
  ∀ k v, weight emitted (k, v) =
    if 0 < netRows rows k ∧ params.result (rowsGroup params rows k).2 = v then 1 else 0

/-- What holds between the rounds. -/
structure Exact (h : History n K A S V) : Prop where
  /-- The groups have the rows that were aggregated. -/
  total : ∀ k, h.aggregation.total k = rowsGroup params h.rows k
  unsaved : ∀ i k, (h.aggregation.variants i).retracts.find? k = none
  /-- A part without rows has no states, if it may be saved. -/
  neutral : h.aggregation.retractEnabled → ∀ i k,
    ((h.aggregation.variants i).part k).1 = 0 → (h.aggregation.variants i).part k = 0
  /-- The rows that were emitted add up to those of the groups. -/
  emitted : ∀ k v, weight h.emitted.flatten (k, v) =
    times (live params (rowsGroup params h.rows k)) v
  /-- Retractions are enabled as soon as a row is emitted. -/
  quiet : h.aggregation.retractEnabled = false → ∀ x, weight h.emitted.flatten x = 0

variable {params} {h : History n K A S V} {round : Round n K A}

/-- Nothing was emitted yet. -/
theorem Exact.new : Exact params (History.new : History n K A S V) where
  total k := by simp [History.new, Aggregation.total, Aggregation.new, DataVariants.part]
  unsaved _ _ := rfl
  neutral henabled := by cases henabled
  emitted k v := by simp [History.new, times, live]
  quiet _ _ := rfl

/-- The blocks of a round are executed on the exact state. -/
theorem Exact.executed (hh : Exact params h) (round : Round n K A) :
    Aggregation.Executed params h.aggregation round.blocks (h.aggregation.executed params round) :=
  .of_round round hh.unsaved hh.neutral

/-- **What a finalization has to emit**: the rows of the groups, and the rows that were emitted
before as retractions. -/
theorem Exact.next (hh : Exact params h) {s s' : Aggregation n K S} {out : List ((K × V) × ℤ)}
    (hs : s = h.aggregation.executed params round)
    (hfinal : s.finalize params round.scan = .ok (s', out)) (htotal : ∀ k, s'.total k = s.total k)
    (hunsaved : ∀ i k, (s'.variants i).retracts.find? k = none)
    (hneutral : ∀ i k, ((s'.variants i).part k).1 = 0 → (s'.variants i).part k = 0)
    (henabled : s'.retractEnabled = (s.retractEnabled || !out.isEmpty))
    (hout : ∀ k v, weight out (k, v) = times (live params (s.total k)) v -
      if s.retractEnabled then times (live params (h.aggregation.total k)) v else 0) :
    ∃ h', h.next params round = .ok h' ∧ Exact params h' := by
  have hexec := hh.executed round
  rw [← hs] at hexec
  have hrows : ∀ k, s.total k = rowsGroup params (h.rows ++ round.rows) k := fun k => by
    rw [hexec.total, hh.total, rowsGroup_append]
  have hnext : h.next params round = .ok ⟨h.rows ++ round.rows, s', h.emitted ++ [out]⟩ := by
    rw [History.next, ← hs, hfinal]
    rfl
  refine ⟨_, hnext, fun k => (htotal k).trans (hrows k), hunsaved, fun _ => hneutral,
    fun k v => ?_, fun hdisabled x => ?_⟩
  · rw [flatten_append, weight_append, flatten_singleton, hout, ← hrows]
    split_ifs with hon
    · rw [hh.emitted, hh.total]
      ring
    · rw [hh.quiet (by simpa [hexec.enabled] using hon)]
      ring
  · rw [henabled, Bool.or_eq_false_iff, hexec.enabled] at hdisabled
    have hnil : out = [] := by simpa using hdisabled.2
    rw [flatten_append, weight_append, hh.quiet hdisabled.1, hnil]
    rfl

/-- The rows that were emitted, in terms of the rows that were aggregated. -/
theorem Exact.addsUp [DecidableEq A] (hh : Exact params h) (htrack : params.trackingStateCount)
    (hcancels : Cancels h.rows) (hcounted : Counted params h.rows) :
    AddsUp params h.rows h.emitted.flatten := by
  intro k v
  obtain ⟨hle, hzero⟩ := fst_rowsGroup_eq_zero_iff params htrack hcancels hcounted k
  rw [hh.emitted, times, live]
  by_cases hk : netRows h.rows k = 0
  · rw [if_pos (hzero.2 hk)]
    simp [hk]
  · rw [if_neg fun hnone => hk (hzero.1 hnone)]
    have hpos : 0 < netRows h.rows k := by omega
    simp [hpos]

omit [AddCommMonoid S] in
/-- The rows of all groups, with a sign. -/
theorem weight_convertToBlocksForAll (scan : Scan K) (table : SortedMap K (Group S)) (sign : ℤ)
    (k : K) (v : V) :
    weight ((convertToBlocksForAll params scan table).map (·.map (·, sign))).flatten (k, v) =
      sign * times ((table.find? k).bind (shownRow params)) v := by
  rw [← map_flatten, (listing_convertToBlocksForAll params scan table).weight, times]
  split_ifs <;> simp

/-- Earlier rows cancel on their own. -/
theorem Cancels.of_append [DecidableEq A] {rows rows' : List (KeyedRow K A)}
    (h : Cancels (rows ++ rows')) : Cancels rows :=
  ⟨fun row hrow => h.1 row (mem_append_left _ hrow), fun earlier hearlier => h.2 earlier <|
    (mem_inits _ _).2 (((mem_inits _ _).1 hearlier).trans (prefix_append _ _))⟩

/-- **After every finalization**, the rows that were emitted add up, if every round keeps what holds
between the rounds. -/
theorem addsUp_run [DecidableEq A] {guard : History n K A S V → Round n K A → Prop}
    (htype : params.trackingUpdatesType = .updatesWithRetract)
    (hstep : ∀ h round, Exact params h → guard h round → round.rows ≠ [] →
      Cancels (h.rows ++ round.rows) → Counted params (h.rows ++ round.rows) →
      ∃ h', h.next params round = .ok h' ∧ Exact params h') {rounds : List (Round n K A)}
    (hrows : ∀ round ∈ rounds, round.rows ≠ []) (hcancels : Cancels (rounds.flatMap Round.rows))
    (hguard : Guarded params (fun h round => Counted params (h.rows ++ round.rows) ∧ guard h round)
      rounds) :
    ∃ h, run params rounds = .ok h ∧
      AddsUp params (rounds.flatMap Round.rows) h.emitted.flatten := by
  have htrack : params.trackingStateCount := by simp [HybridParams.trackingStateCount, htype]
  have hstrong := hguard.and_rows
    (P := fun rows round => round.rows ≠ [] ∧ Cancels (rows ++ round.rows))
    fun earlier round later heq => by
      refine ⟨hrows round (by simp [heq]), ?_⟩
      rw [heq, flatMap_append, flatMap_cons, ← append_assoc] at hcancels
      exact hcancels.of_append
  obtain ⟨h, hrun, hh, hcounted⟩ := run_invariant
    (I := fun h => Exact params h ∧ Counted params h.rows) ⟨.new, by simp [History.new, Counted]⟩
    (fun h round ⟨hh, _⟩ ⟨⟨hcounted, hguard⟩, hne, hcancels⟩ => by
      obtain ⟨h', hnext, hh'⟩ := hstep h round hh hguard hne hcancels hcounted
      refine ⟨h', hnext, hh', ?_⟩
      obtain ⟨_, -, heq⟩ := ExceptRel.bind_eq_ok.1 hnext
      cases heq
      exact hcounted) hstrong
  have hall := rows_run hrun
  refine ⟨h, hrun, ?_⟩
  rw [← hall] at hcancels ⊢
  exact hh.addsUp htrack hcancels hcounted

omit [DecidableEq V] in
/-- A group is shown exactly if it has rows. -/
theorem bind_shownRow (htrack : params.trackingStateCount) (g : Option (Group S)) :
    g.bind (shownRow params) = live params (g.getD 0) := by
  cases g with
  | none => rfl
  | some g =>
    rw [Option.bind_some, Option.getD_some, shownRow, live]
    simp only [htrack, true_and]

/-- A group without rows may be removed, if it has no states. -/
theorem getD_filter {p : Group S → Bool} (hp : ∀ g, p g = false → g.1 = 0) {g : Option (Group S)}
    (hzero : (g.getD 0).1 = 0 → g.getD 0 = 0) : (g.filter p).getD 0 = g.getD 0 := by
  cases g with
  | none => rfl
  | some g =>
    cases hg : p g with
    | false =>
      rw [Option.filter_some, hg]
      exact (hzero (hp g hg)).symm
    | true =>
      rw [Option.filter_some, hg]
      rfl

/-! ### One data variant -/

namespace RetractConversion

variable {v : DataVariants K S} {es : List (K × Group S)} {c : RetractConversion K S V}

variable (c)

/-- The rows that are finished, and those that are not. -/
def rows : List ((K × V) × ℤ) :=
  c.blocks.flatten ++ c.retractPlaces.map (·, -1) ++ c.places.map (·, 1)

omit [AddCommMonoid S] [DecidableEq V] in
/-- Closing a block keeps the rows of all blocks. -/
theorem flatten_blocks_doInsertColumns : c.doInsertColumns.blocks.flatten = c.rows := by
  rw [doInsertColumns, rows]
  split_ifs with hnil
  · simp [isEmpty_iff.1 hnil]
  · simp

omit [AddCommMonoid S] [DecidableEq V] in
/-- Closing a block emits no row. -/
theorem rows_doInsertColumns : c.doInsertColumns.rows = c.rows := by
  rw [rows, flatten_blocks_doInsertColumns]
  simp [doInsertColumns]

variable {c}

variable (params v) in
/-- The rows of a saved group, and of the group now. -/
def changes (e : K × Group S) : List ((K × V) × ℤ) :=
  (groupRow params e.1 e.2).map (·, -1) ++ (groupRow params e.1 (v.part e.1)).map (·, 1)

variable (params v) in
/-- What holds after some saved groups were visited. -/
structure Visited (es : List (K × Group S)) (c : RetractConversion K S V) : Prop where
  /-- The groups without rows are removed. -/
  table : ∀ k, c.table.find? k =
    if k ∈ es.map (·.1) then (v.table.find? k).filter (·.1 ≠ 0) else v.table.find? k
  rows : ∀ x, weight c.rows x = weight (es.flatMap (changes params v)) x
  /-- If there are only retractions that are not finished, one of them is of a group that was
  visited after the last group with rows. -/
  pending : c.places = [] → c.retractPlaces ≠ [] →
    ∃ e ∈ es.rtakeWhile fun e => (v.part e.1).1 = 0, e.2.1 ≠ 0

/-- A block may be finished at any time. -/
theorem Visited.doInsertColumns (h : Visited params v es c) :
    Visited params v es c.doInsertColumns :=
  ⟨h.table, fun x => by rw [rows_doInsertColumns, h.rows], fun _ hne => absurd rfl hne⟩

/-- One more group is visited. -/
theorem Visited.visit (h : Visited params v es c) {e : K × Group S} {place : Group S}
    (hplace : v.table.find? e.1 = some place) :
    Visited params v (es ++ [e]) (c.visit params e place) := by
  have hpart : v.part e.1 = place := by
    rw [DataVariants.part, hplace]
    rfl
  refine ⟨fun k => ?_, fun x => ?_, fun hnil hne => ?_⟩
  · simp only [RetractConversion.visit, map_append, mem_append, map_singleton, mem_singleton]
    by_cases hk : k = e.1
    · subst hk
      simp only [hplace]
      by_cases hzero : place.1 = 0
      · simp [hzero, find?_erase, Option.filter]
      · rw [if_neg hzero, h.table, hplace]
        simp [hzero, Option.filter]
    · have hother : (if place.1 = 0 then c.table.erase e.1 else c.table).find? k =
          c.table.find? k := by
        split_ifs
        · rw [find?_erase, if_neg hk]
        · rfl
      simp only [hother, h.table, hk, or_false]
  · have hrows := h.rows x
    rw [RetractConversion.rows] at hrows
    rw [flatMap_append, weight_append, ← hrows, flatMap_singleton, changes,
      hpart, RetractConversion.rows]
    simp only [RetractConversion.visit, map_append, weight_append]
    ring
  · obtain ⟨hplaces, hrow⟩ := append_eq_nil_iff.1 hnil
    have hzero : place.1 = 0 := by
      by_contra hpos
      simp [groupRow, hpos] at hrow
    rw [rtakeWhile_concat, hpart, if_pos (decide_eq_true hzero)]
    by_cases hold : e.2.1 = 0
    · simp only [RetractConversion.visit, groupRow, if_pos hold, append_nil] at hne
      obtain ⟨e', he', hne'⟩ := h.pending hplaces hne
      exact ⟨e', mem_append_left _ he', hne'⟩
    · exact ⟨e, mem_append_right _ (mem_singleton_self e), hold⟩

variable (params v es c) in
/-- **The saved groups one after the other.** -/
theorem Visited.foldlM (maxBlockSize : ℕ) (calls : List ((K × Group S) × Bool))
    (h : Visited params v es c) (hnodup : ((es ++ calls.map (·.1)).map (·.1)).Nodup)
    (hmem : ∀ call ∈ calls, (v.table.find? call.1.1).isSome) :
    ∃ c', calls.foldlM (insertColumns params maxBlockSize) c = .ok c' ∧
      Visited params v (es ++ calls.map (·.1)) c' := by
  induction calls generalizing es c with
  | nil => exact ⟨c, rfl, by simpa using h⟩
  | cons call calls ih =>
    obtain ⟨place, hplace⟩ := Option.isSome_iff_exists.1 (hmem call mem_cons_self)
    rw [map_cons, append_cons] at hnodup ⊢
    have hnew : call.1.1 ∉ es.map (·.1) := by
      rw [map_append, map_append, nodup_append'] at hnodup
      obtain ⟨hfirst, -, -⟩ := hnodup
      rw [nodup_append'] at hfirst
      exact fun hin => hfirst.2.2 hin (by simp)
    have hfind : c.table.find? call.1.1 = some place := by rw [h.table, if_neg hnew, hplace]
    have hvisit := h.visit hplace
    rw [foldlM_cons, insertColumns]
    simp only [hfind]
    refine ih _ _ ?_ hnodup fun call hcall => hmem call (mem_cons_of_mem _ hcall)
    split_ifs
    · exact hvisit.doInsertColumns
    · exact hvisit

end RetractConversion

/-- The saved groups that are visited after the last group with rows had no rows when they were
saved. -/
def SingleGuard (scan : Scan K) (s : Aggregation 1 K S) : Prop :=
  ∀ e ∈ (scan.entries (s.variants 0).retracts).rtakeWhile fun e => ((s.variants 0).part e.1).1 = 0,
    e.2.1 = 0
deriving Decidable

/-- The rows of a change. -/
theorem weight_changes (v : DataVariants K S) (k : K) (old : Group S) (row : V) :
    weight (changes params v (k, old)) (k, row) =
      times (live params (v.part k)) row - times (live params old) row := by
  rw [changes, groupRow, groupRow, times, times, live, live]
  have hsign : ∀ p : Prop, ∀ _ : Decidable p, (if p then (-1 : ℤ) else 0) = -if p then 1 else 0 :=
    fun p _ => by split_ifs <;> rfl
  by_cases hold : old.1 = 0
  · by_cases hnow : (v.part k).1 = 0 <;> simp [hold, hnow]
  · by_cases hnow : (v.part k).1 = 0
    · simp [hold, hnow, hsign]
    · simp only [hold, hnow, if_false, map_singleton, weight_append,
        weight_cons, weight_nil, Prod.mk.injEq, true_and, hsign,
        Option.some.injEq]
      ring

variable (params) in
/-- The conversion of the saved groups. -/
theorem convertToBlocksForRetracts_spec (scan : Scan K) (v : DataVariants K S)
    (hsize : v.retracts.size ≠ 0) (hmem : ∀ k ∈ v.retracts.keys, (v.table.find? k).isSome)
    (hpending : ∀ e ∈ (scan.entries v.retracts).rtakeWhile fun e => (v.part e.1).1 = 0, e.2.1 = 0) :
    ∃ table blocks, convertToBlocksForRetracts params scan v =
        .ok ({ v with table, retracts := .empty }, blocks) ∧
      (∀ k, table.find? k = if k ∈ v.retracts.keys then (v.table.find? k).filter (·.1 ≠ 0)
        else v.table.find? k) ∧
      ∀ k row, weight blocks.flatten (k, row) = (v.retracts.find? k).elim 0 fun old =>
        times (live params (v.part k)) row - times (live params old) row := by
  have hlist := listing_entries scan v.retracts
  obtain ⟨c, hfold, hc⟩ := RetractConversion.Visited.foldlM params v [] ⟨v.table, [], [], []⟩
    (min params.maxBlockSize scan.approximateCount + 1)
    (scan.forBatchValue (min params.maxBlockSize scan.approximateCount + 1) v.retracts)
    ⟨fun k => rfl, fun x => rfl, fun _ hne => absurd rfl hne⟩
    (by rw [map_fst_forBatchValue]; exact hlist.nodup)
    (fun call hcall => hmem _ <| mem_keys.2 <| by
      have hin : call.1 ∈ scan.entries v.retracts := by
        rw [← map_fst_forBatchValue scan v.retracts]
        exact mem_map_of_mem hcall
      rw [(hlist.mem_iff call.1.1 call.1.2).1 hin]
      rfl)
  rw [map_fst_forBatchValue, nil_append] at hc
  refine ⟨c.table, (if c.places.isEmpty then c else c.doInsertColumns).blocks, ?_, fun k => ?_,
    fun k row => ?_⟩
  · rw [convertToBlocksForRetracts, if_neg hsize]
    simp only [hfold]
    change Except.ok _ = _
    split_ifs <;> rfl
  · simp only [hc.table, mem_map_entries]
  · have hblocks : (if c.places.isEmpty then c else c.doInsertColumns).blocks.flatten = c.rows := by
      split_ifs with hplaces
      · have hnil := isEmpty_iff.1 hplaces
        have hnone : c.retractPlaces = [] := by
          by_contra hne
          obtain ⟨e, he, hold⟩ := hc.pending hnil hne
          exact hold (hpending e he)
        simp [rows, hnil, hnone]
      · exact c.flatten_blocks_doInsertColumns
    rw [hblocks, hc.rows, hlist.weight_flatMap]
    · simp only [weight_changes]
    · intro e row hrow
      simp only [changes, groupRow, mem_append, mem_map] at hrow
      rcases hrow with ⟨_, hin, rfl⟩ | ⟨_, hin, rfl⟩
      · split_ifs at hin <;> simp_all
      · split_ifs at hin <;> simp_all

section One

variable {h : History 1 K A S V} {round : Round 1 K A}

/-- One data variant has everything of a key. -/
theorem total_one (s : Aggregation 1 K S) (k : K) : s.total k = (s.variants 0).part k :=
  Fin.sum_univ_one _

omit [LinearOrder K] in
/-- One data variant gets all rows of a round. -/
theorem mem_rows_one {k : K} : k ∈ round.rows.map (·.1.1) ↔
    k ∈ (Aggregation.rowsOn 0 round.blocks).map (·.1.1) := by
  rw [Aggregation.mem_rows_iff]
  exact ⟨fun ⟨i, hi⟩ => Subsingleton.elim i 0 ▸ hi, fun hi => ⟨0, hi⟩⟩

/-- What the only data variant has to emit. -/
theorem Exact.next_convert (hh : Exact params h) {s : Aggregation 1 K S} {v : DataVariants K S}
    {blocks : List (List ((K × V) × ℤ))}
    (htype : params.trackingUpdatesType = .updatesWithRetract)
    (hs : s = h.aggregation.executed params round)
    (hconvert : convertToBlocks params round.scan (s.variants 0) = .ok (v, blocks))
    (hpart : ∀ k, v.part k = (s.variants 0).part k) (hunsaved : ∀ k, v.retracts.find? k = none)
    (hneutral : ∀ k, ((s.variants 0).part k).1 = 0 → (s.variants 0).part k = 0)
    (hout : ∀ k row, weight blocks.flatten (k, row) =
      times (live params ((s.variants 0).part k)) row - if s.retractEnabled then
        times (live params ((h.aggregation.variants 0).part k)) row else 0) :
    ∃ h', h.next params round = .ok h' ∧ Exact params h' := by
  have hv : ∀ i, Function.update s.variants 0 v i = v := fun i => by
    rw [Subsingleton.elim i 0, Function.update_self]
  refine hh.next hs (Aggregation.finalize_one hconvert) (fun k => ?_) (fun i k => ?_)
    (fun i k => ?_)
    (by simp [htype]) (fun k row => ?_)
  · rw [total_one, total_one]
    exact (congrArg (·.part k) (hv 0)).trans (hpart k)
  · exact (congrArg (·.retracts.find? k) (hv i)).trans (hunsaved k)
  · simp only [hv, hpart]
    exact hneutral k
  · rw [hout, total_one, total_one]

/-- **A finalization of one data variant.** -/
theorem Exact.next_one (hh : Exact params h)
    (htype : params.trackingUpdatesType = .updatesWithRetract) (hrows : round.rows ≠ [])
    (hneutral : ∀ k, (rowsGroup params (h.rows ++ round.rows) k).1 = 0 →
      rowsGroup params (h.rows ++ round.rows) k = 0)
    (hguard : SingleGuard round.scan (h.aggregation.executed params round)) :
    ∃ h', h.next params round = .ok h' ∧ Exact params h' := by
  have htrack : params.trackingStateCount := by simp [HybridParams.trackingStateCount, htype]
  have hexec := hh.executed round
  set s := h.aggregation.executed params round with hs
  have hzero : ∀ k, ((s.variants 0).part k).1 = 0 → (s.variants 0).part k = 0 := fun k => by
    rw [← total_one, hexec.total, hh.total, ← rowsGroup_append]
    exact hneutral k
  cases henabled : h.aggregation.retractEnabled with
  | false =>
    have hoff : s.retractEnabled = false := hexec.enabled.trans henabled
    have hunsaved : ∀ k, (s.variants 0).retracts.find? k = none := fun k => by
      rw [hexec.saved, henabled]
      exact if_neg fun hand => Bool.false_ne_true hand.1
    have hsize : (s.variants 0).retracts.size = 0 :=
      size_eq_zero_iff.2 fun k => find?_eq_none.1 (hunsaved k)
    have hconvert : convertToBlocks params round.scan (s.variants 0) = .ok (s.variants 0,
        (convertToBlocksForAll params round.scan (s.variants 0).table).map (·.map (·, 1))) := by
      rw [convertToBlocks, htype]
      simp only [convertToBlocksForRetracts, if_pos hsize]
      rfl
    refine hh.next_convert htype hs hconvert (fun _ => rfl) hunsaved hzero fun k row => ?_
    rw [weight_convertToBlocksForAll, hoff, if_neg Bool.false_ne_true, one_mul, sub_zero,
      bind_shownRow htrack]
    rfl
  | true =>
    have hon : s.retractEnabled = true := hexec.enabled.trans henabled
    have hsaved : ∀ k, (s.variants 0).retracts.find? k = if k ∈ round.rows.map (·.1.1) then
        some ((h.aggregation.variants 0).part k) else none := fun k => by
      simp only [hexec.saved, henabled, true_and, mem_rows_one]
    have hkeys : ∀ k, k ∈ (s.variants 0).retracts.keys ↔ k ∈ round.rows.map (·.1.1) := fun k => by
      rw [SortedMap.mem_keys, hsaved]
      split_ifs with hk <;> simp [hk]
    obtain ⟨row, hrow⟩ := exists_mem_of_ne_nil _ hrows
    obtain ⟨table, blocks, hconvert, htable, hblocks⟩ :=
      convertToBlocksForRetracts_spec params round.scan (s.variants 0)
        (fun hsize => size_eq_zero_iff.1 hsize _
          ((hkeys _).2 (mem_map_of_mem hrow)))
        (fun k hk => (hexec.mem 0 k).2 (.inr (mem_rows_one.1 ((hkeys k).1 hk)))) hguard
    refine hh.next_convert htype hs (by rw [convertToBlocks, htype]; exact hconvert) (fun k => ?_)
      (fun _ => rfl) hzero fun k row => ?_
    · rw [DataVariants.part, htable]
      split_ifs
      · exact getD_filter (fun g hg => by simpa using hg) (hzero k)
      · rfl
    · rw [hblocks, hsaved, hon, if_pos rfl]
      split_ifs with hk
      · rfl
      · rw [hexec.part, rowsGroup_of_notMem params fun hin => hk (mem_rows_one.2 hin), add_zero,
          sub_self]
        rfl

/-- What every finalization of one data variant needs: the rows are counted, and no retraction is
dropped. -/
def OneGuard (params : HybridParams A S V) (h : History 1 K A S V) (round : Round 1 K A) : Prop :=
  Counted params (h.rows ++ round.rows) ∧
    SingleGuard round.scan (h.aggregation.executed params round)
deriving Decidable

/-- **The changelog of one data variant** is exact: after every finalization, the rows that were
emitted add up to one row for every key that has rows, with the aggregate of them. -/
theorem changelog_exact_one [DecidableEq A]
    (htype : params.trackingUpdatesType = .updatesWithRetract)
    (hneg : ∀ a, params.contribution a + params.negation a = 0) (rounds : List (Round 1 K A))
    (hrows : ∀ round ∈ rounds, round.rows ≠ []) (hcancels : Cancels (rounds.flatMap Round.rows))
    (hguard : Guarded params (OneGuard params) rounds) :
    ∃ h, run params rounds = .ok h ∧
      AddsUp params (rounds.flatMap Round.rows) h.emitted.flatten := by
  have htrack : params.trackingStateCount := by simp [HybridParams.trackingStateCount, htype]
  refine addsUp_run htype (fun h round hh hguard hne hcancels hcounted => ?_) hrows hcancels hguard
  exact hh.next_one htype hne
    (fun k => rowsGroup_eq_zero params htrack hcancels hcounted hneg) hguard

/-- A row is emitted, and cancelled. -/
def cancelledRounds : List (Round 1 ℕ ℤ) :=
  [⟨[(0, [((0, 5), 1)])], memoryScan⟩, ⟨[(0, [((0, 5), -1)])], memoryScan⟩]

/-- The row is not retracted: there is no row to insert after it. -/
theorem changelog_drops_last_retraction :
    Cancels (cancelledRounds.flatMap Round.rows) ∧
      (run (sumParams .updatesWithRetract) cancelledRounds).map (·.emitted) =
        .ok [[((0, 5), 1)], []] := by
  constructor
  · decide +kernel
  · decide +kernel

/-- A row is cancelled while another one is inserted after it. -/
def replacedRounds : List (Round 1 ℕ ℤ) :=
  [⟨[(0, [((0, 5), 1), ((1, 7), 1)])], memoryScan⟩,
    ⟨[(0, [((0, 5), -1)]), (0, [((1, 2), 1)])], memoryScan⟩]

/-- Rows of two keys are replaced. -/
theorem changelog_exact_replaced : ∃ h,
    run (sumParams .updatesWithRetract) replacedRounds = .ok h ∧
      AddsUp (sumParams .updatesWithRetract) (replacedRounds.flatMap Round.rows)
        h.emitted.flatten :=
  changelog_exact_one rfl add_neg_cancel replacedRounds (by decide +kernel) (by decide +kernel)
    (by decide +kernel)

end One

/-! ### Several data variants -/

section Several

/-- The groups of all data variants, for a key. -/
theorem mergeKey_spec (key : K) (vs : List (DataVariants K S))
    (hsub : ∀ v ∈ vs, (v.retracts.find? key).isSome → (v.table.find? key).isSome)
    (hlast : vs.Pairwise fun v w =>
      (v.retracts.find? key).isSome → w.part key = 0 ∧ w.oldPart key = 0)
    (d : Option (Group S)) (r : Group S) :
    (mergeKey key vs (d, r)).1.getD 0 = d.getD 0 + (vs.map (·.part key)).sum ∧
      (mergeKey key vs (d, r)).2 = r + (vs.map (·.oldPart key)).sum ∧
      ((mergeKey key vs (d, r)).1.isSome ↔ d.isSome ∨ ∃ v ∈ vs, (v.table.find? key).isSome) := by
  induction vs generalizing d r with
  | nil => simp [mergeKey]
  | cons v vs ih =>
    obtain ⟨hrest, hlast⟩ := pairwise_cons.1 hlast
    have ih := ih (fun w hw => hsub w (mem_cons_of_mem _ hw)) hlast
    have hold := hsub v mem_cons_self
    rw [mergeKey, map_cons, map_cons, exists_mem_cons_iff, DataVariants.oldPart, DataVariants.part]
    cases htable : v.table.find? key with
    | none =>
      have hnone : v.retracts.find? key = none := by
        rw [htable] at hold
        exact Option.not_isSome_iff_eq_none.1 fun hsome => Bool.false_ne_true (hold hsome)
      simpa [hnone] using ih d r
    | some g =>
      cases hretract : v.retracts.find? key with
      | none =>
        obtain ⟨hsum, hsum', hsome⟩ := ih (some (d.getD 0 + g)) (r + g)
        refine ⟨hsum.trans (add_assoc _ _ _), hsum'.trans (add_assoc _ _ _), hsome.trans ?_⟩
        simp
      | some old =>
        have hrest : ∀ w ∈ vs, w.part key = 0 ∧ w.oldPart key = 0 := fun w hw =>
          hrest w hw (by rw [hretract]; rfl)
        have hpart := sum_eq_zero (forall_mem_map.2 fun w hw => (hrest w hw).1)
        have holdPart := sum_eq_zero (forall_mem_map.2 fun w hw => (hrest w hw).2)
        simp [hpart, holdPart]

/-- A part without rows has no states, and nothing of a group that changed is in the data variants
after one that has saved its part. -/
def MergedGuard (s : Aggregation n K S) : Prop :=
  ∀ i, (∀ e ∈ (s.variants i).table.toList, e.2.1 = 0 → e.2 = 0) ∧
    ∀ e ∈ (s.variants i).retracts.toList,
      ∀ j, i < j → (s.variants j).part e.1 = 0 ∧ (s.variants j).oldPart e.1 = 0

instance [DecidableEq S] (s : Aggregation n K S) : Decidable (MergedGuard s) :=
  inferInstanceAs (Decidable (∀ i, (∀ e ∈ (s.variants i).table.toList, _) ∧
    ∀ e ∈ (s.variants i).retracts.toList, ∀ j, i < j → _))

/-- The keys with a saved part. -/
theorem find?_foldl_emplaceKeys (scan : Scan K) (variants : Fin n → DataVariants K S)
    (l : List (Fin n)) (dst : SortedMap K (Group S)) (k : K) :
    (l.foldl (fun dst i => emplaceKeys ((scan.entries (variants i).retracts).map (·.1)) dst)
      dst).find? k =
      if ∃ i ∈ l, k ∈ (variants i).retracts.keys then some ((dst.find? k).getD 0)
      else dst.find? k := by
  induction l generalizing dst with
  | nil => simp
  | cons i l ih =>
    rw [foldl_cons, ih, find?_emplaceKeys]
    simp only [mem_map_entries]
    by_cases hi : k ∈ (variants i).retracts.keys <;> simp [hi]

omit [DecidableEq V] in
variable (params) in
/-- **The groups that `mergeRetracts` merges**, if retractions are not enabled. -/
theorem mergeRetracts_disabled (scan : Scan K) {s : Aggregation n K S}
    (hunsaved : ∀ i k, k ∉ (s.variants i).retracts.keys)
    (hneutral : ∀ i k, ((s.variants i).part k).1 = 0 → (s.variants i).part k = 0) (k : K) :
    (mergeRetracts params scan s.variants).2.find? k = none ∧
      ((mergeRetracts params scan s.variants).1.find? k).getD 0 = s.total k := by
  have hempty : ∀ k, ((finRange n).foldl (fun dst i =>
      emplaceKeys ((scan.entries (s.variants i).retracts).map (·.1)) dst)
      (.empty : SortedMap K (Group S))).find? k = none := fun k => by
    rw [find?_foldl_emplaceKeys, if_neg fun ⟨i, _, hi⟩ => hunsaved i k hi]
    rfl
  rw [mergeRetracts, if_pos (size_eq_zero_iff.2 fun k => find?_eq_none.1 (hempty k))]
  obtain ⟨hsum, -⟩ := merged_spec (fun i => (listing_entries scan (s.variants i).table).filter
    fun g => !(params.trackingStateCount && g.1 = 0)) k
  refine ⟨hempty k, hsum.trans (Finset.sum_congr rfl fun i _ =>
    getD_filter (fun g hg => ?_) (hneutral i k))⟩
  simp only [Bool.not_eq_false', Bool.and_eq_true, decide_eq_true_eq] at hg
  exact hg.2

omit [DecidableEq V] in
variable (params) in
/-- **The groups that `mergeRetracts` merges**, if retractions are enabled. -/
theorem mergeRetracts_enabled (scan : Scan K) {s : Aggregation n K S}
    (hsaved : ∃ i k, k ∈ (s.variants i).retracts.keys)
    (hsub : ∀ i k, k ∈ (s.variants i).retracts.keys → ((s.variants i).table.find? k).isSome)
    (hlast : ∀ i k, k ∈ (s.variants i).retracts.keys →
      ∀ j, i < j → (s.variants j).part k = 0 ∧ (s.variants j).oldPart k = 0) (k : K) :
    (mergeRetracts params scan s.variants).1.find? k =
        (if ∃ i, k ∈ (s.variants i).retracts.keys then some (s.total k) else none) ∧
      (mergeRetracts params scan s.variants).2.find? k =
        if ∃ i, k ∈ (s.variants i).retracts.keys then some (s.oldTotal k) else none := by
  have hkeys := find?_foldl_emplaceKeys scan s.variants (finRange n) .empty
  simp only [mem_finRange, true_and, find?_empty, Option.getD_none] at hkeys
  have hsize : ((finRange n).foldl (fun dst i =>
      emplaceKeys ((scan.entries (s.variants i).retracts).map (·.1)) dst)
      (.empty : SortedMap K (Group S))).size ≠ 0 := fun hsize => by
    obtain ⟨i, k, hk⟩ := hsaved
    refine size_eq_zero_iff.1 hsize k (mem_keys.2 ?_)
    rw [hkeys, if_pos ⟨i, hk⟩]
    rfl
  rw [mergeRetracts, if_neg hsize]
  have hlist := listing_entries scan ((finRange n).foldl (fun dst i =>
      emplaceKeys ((scan.entries (s.variants i).retracts).map (·.1)) dst)
      (.empty : SortedMap K (Group S)))
  rw [find?_foldl_alter_listing hlist (fun e g => (mergeKey e.1 (ofFn s.variants) (g, e.2)).1),
    find?_foldl_alter_listing hlist
      (fun e _ => some (mergeKey e.1 (ofFn s.variants) (none, e.2)).2), hkeys]
  by_cases hk : ∃ i, k ∈ (s.variants i).retracts.keys
  · obtain ⟨hsum, hsum', hsome⟩ := mergeKey_spec k (ofFn s.variants)
      (forall_mem_ofFn_iff.2 fun i hi => hsub i k (mem_keys.2 hi))
      (pairwise_ofFn.2 fun i j hij hi => hlast i k (mem_keys.2 hi) j hij) none 0
    obtain ⟨i, hi⟩ := hk
    obtain ⟨g, hg⟩ := Option.isSome_iff_exists.1 (hsome.2 (.inr ⟨_, mem_ofFn.2 ⟨i, rfl⟩,
      hsub i k hi⟩))
    rw [if_pos ⟨i, hi⟩, if_pos ⟨i, hi⟩, if_pos ⟨i, hi⟩]
    simp only [Option.elim_some, find?_empty, hg, hsum', zero_add]
    rw [hg, Option.getD_some, Option.getD_none, zero_add] at hsum
    rw [hsum, map_ofFn, map_ofFn, sum_ofFn, sum_ofFn]
    exact ⟨rfl, rfl⟩
  · rw [if_neg hk, if_neg hk, if_neg hk]
    exact ⟨rfl, rfl⟩

/-- **A finalization of several data variants.** -/
theorem Exact.next_several (hh : Exact params h) (hn : n ≠ 1)
    (htype : params.trackingUpdatesType = .updatesWithRetract) (hrows : round.rows ≠ [])
    (hguard : MergedGuard (h.aggregation.executed params round)) :
    ∃ h', h.next params round = .ok h' ∧ Exact params h' := by
  have htrack : params.trackingStateCount := by simp [HybridParams.trackingStateCount, htype]
  have hexec := hh.executed round
  set s := h.aggregation.executed params round with hs
  have hneutral : ∀ i k, ((s.variants i).part k).1 = 0 → (s.variants i).part k = 0 := by
    intro i k
    rw [DataVariants.part]
    cases hfind : (s.variants i).table.find? k with
    | none => exact fun _ => rfl
    | some g => exact (hguard i).1 (k, g) (find?_eq_some.1 hfind)
  have hconvert : mergeAndConvertToBlocks params round.scan s.variants =
      .ok (fun i => { s.variants i with updates := .empty, retracts := .empty },
        (convertToBlocksForAll params round.scan (mergeRetracts params round.scan s.variants).2).map
          (·.map (·, -1)) ++
        (convertToBlocksForAll params round.scan (mergeRetracts params round.scan s.variants).1).map
          (·.map (·, 1))) := by
    rw [mergeAndConvertToBlocks, htype]
    rfl
  refine hh.next hs (Aggregation.finalize_of_ne hn hconvert) (fun k => rfl) (fun i k => rfl)
    hneutral
    (by simp [htype]) fun k v => ?_
  rw [flatten_append, weight_append, weight_convertToBlocksForAll, weight_convertToBlocksForAll]
  have hsaved : ∀ i k, k ∈ (s.variants i).retracts.keys ↔ h.aggregation.retractEnabled ∧
      k ∈ (Aggregation.rowsOn i round.blocks).map (·.1.1) := fun i k => by
    rw [SortedMap.mem_keys, hexec.saved]
    split_ifs with hk
    · exact iff_of_true rfl hk
    · exact iff_of_false Bool.false_ne_true hk
  cases henabled : h.aggregation.retractEnabled with
  | false =>
    obtain ⟨hnone, htotal⟩ := mergeRetracts_disabled params round.scan
      (fun i k hk => by simpa [henabled] using (hsaved i k).1 hk) hneutral k
    rw [hnone, Option.bind_none, bind_shownRow htrack, htotal, hexec.enabled, henabled]
    simp [times]
  | true =>
    have hchanged : ∀ k, (∃ i, k ∈ (s.variants i).retracts.keys) ↔
        k ∈ round.rows.map (·.1.1) := fun k => by
      simp only [hsaved, henabled, true_and, Aggregation.mem_rows_iff]
    obtain ⟨row, hrow⟩ := exists_mem_of_ne_nil _ hrows
    obtain ⟨i, hi⟩ := (hchanged _).2 (mem_map_of_mem hrow)
    obtain ⟨hnew, hold⟩ := mergeRetracts_enabled params round.scan ⟨i, _, hi⟩
      (fun i k hk => (hexec.mem i k).2 (.inr ((hsaved i k).1 hk).2))
      (fun i k hk => by
        obtain ⟨g, hg⟩ := Option.isSome_iff_exists.1 (mem_keys.1 hk)
        exact (hguard i).2 (k, g) (find?_eq_some.1 hg)) k
    rw [hnew, hold, hexec.enabled, henabled, if_pos rfl, ← hexec.oldTotal henabled]
    by_cases hk : ∃ i, k ∈ (s.variants i).retracts.keys
    · rw [if_pos hk, if_pos hk, bind_shownRow htrack, bind_shownRow htrack]
      simp only [Option.getD_some]
      ring
    · rw [if_neg hk, if_neg hk, hexec.oldTotal henabled, hexec.total,
        rowsGroup_of_notMem params fun hin => hk ((hchanged k).2 hin), add_zero]
      simp [times]

/-- What every finalization of several data variants needs. -/
def SeveralGuard (params : HybridParams A S V) (h : History n K A S V) (round : Round n K A) :
    Prop :=
  Counted params (h.rows ++ round.rows) ∧ MergedGuard (h.aggregation.executed params round)

instance [DecidableEq S] (h : History n K A S V) (round : Round n K A) :
    Decidable (SeveralGuard params h round) :=
  inferInstanceAs (Decidable (_ ∧ _))

/-- **The changelog of several data variants** is exact: after every finalization, the rows that
were emitted add up to one row for every key that has rows, with the aggregate of them. -/
theorem changelog_exact_several [DecidableEq A] (hn : 2 ≤ n)
    (htype : params.trackingUpdatesType = .updatesWithRetract) (rounds : List (Round n K A))
    (hrows : ∀ round ∈ rounds, round.rows ≠ []) (hcancels : Cancels (rounds.flatMap Round.rows))
    (hguard : Guarded params (SeveralGuard params) rounds) :
    ∃ h, run params rounds = .ok h ∧
      AddsUp params (rounds.flatMap Round.rows) h.emitted.flatten := by
  have hne : n ≠ 1 := by omega
  exact addsUp_run htype (fun h round hh hguard hrows _ _ => hh.next_several hne htype hrows hguard)
    hrows hcancels hguard

/-- Two data variants have a row of a key, and the first one gets another. -/
def spreadRounds : List (Round 2 ℕ ℤ) :=
  [⟨[(firstTransform, [((0, 5), 1)]), (secondTransform, [((0, 6), 1)])], memoryScan⟩,
    ⟨[(firstTransform, [((0, 1), 1)])], memoryScan⟩]

/-- The second finalization retracts and inserts what the first data variant has. -/
theorem changelog_forgets_variant :
    Cancels (spreadRounds.flatMap Round.rows) ∧
      (run (sumParams .updatesWithRetract) spreadRounds).map (·.emitted) =
        .ok [[((0, 11), 1)], [((0, 5), -1), ((0, 6), 1)]] := by
  constructor
  · decide +kernel
  · decide +kernel

/-- A key changes in the last data variant that has something of it. -/
def lastRounds : List (Round 2 ℕ ℤ) :=
  [⟨[(firstTransform, [((0, 5), 1)]), (secondTransform, [((1, 7), 1)])], memoryScan⟩,
    ⟨[(secondTransform, [((0, 6), 1), ((1, 7), -1)])], memoryScan⟩]

/-- The conditions hold where the last data variant changes. -/
theorem changelog_exact_last : ∃ h,
    run (sumParams .updatesWithRetract) lastRounds = .ok h ∧
      AddsUp (sumParams .updatesWithRetract) (lastRounds.flatMap Round.rows) h.emitted.flatten :=
  changelog_exact_several (by decide) rfl lastRounds (by decide +kernel) (by decide +kernel)
    (by decide +kernel)

end Several

end Proton.Streaming.HybridAggregator
