import Proton.Storages.Stream.StreamingBlockReader

/-!
# Catching up from the Historical Store

The reader queries the historical store range by range until it gets to the start of the log. A
query that returns nothing is repeated over a larger range, unless one before it returned rows:
`fetch_start_sn` then is the start of the first query, and the same query is issued again
(`catchUp_repeats`). When the queries come to an end, the reader gets to the end of the log.

## Main results

* `readFromHistoricalStore_drained`: the position after a query is that of one of its rows.
* `catchUp_terminates_iff`: when only finitely many queries are issued.
* `reads_exact`: the rows that are returned are those of the log, if the historical store never has
  a record without those before it, and all of them are returned if the reader can catch up.
-/

open List

namespace Proton.StreamingBlockReader

open Streaming

variable {Row : Type}

/-! ### The position after a query -/

/-- The last batch has the sequence number of the last row. -/
theorem getLast?_scatter (rows : SequencedRows Row) :
    (scatter rows).getLast?.map (·.1) = rows.getLast?.map (·.1) := by
  induction rows with
  | nil => rfl
  | cons r rows ih =>
    rw [scatter, getLast?_cons]
    cases hscatter : scatter rows with
    | nil =>
      rw [hscatter] at ih
      rw [Option.map_eq_none_iff.1 ih.symm]
      rfl
    | cons c l =>
      rw [hscatter, getLast?_cons] at ih
      obtain ⟨x, hx, hsn⟩ := Option.map_eq_some_iff.1 ih.symm
      rw [hx, Option.getD_some, Option.map_some, hsn]
      dsimp only
      split_ifs with heq
      · cases l <;> simp [getLast?_cons, heq]
      · simp [getLast?_cons]

/-- The splitter keeps the last sequence number that is pushed. -/
theorem bufferedSn_foldl_push (batches : List (ℤ × List Row))
    (s : List (ℤ × List Row) × Splitter Row) :
    (batches.foldl Splitter.push s).2.bufferedSn =
      (batches.getLast?.map (·.1)).getD s.2.bufferedSn := by
  induction batches generalizing s with
  | nil => rfl
  | cons batch batches ih =>
    have hpush : (Splitter.push s batch).2.bufferedSn = batch.1 := by
      rw [Splitter.push]
      split_ifs with heq
      · rfl
      · exact not_not.1 heq
    rw [foldl_cons, ih, hpush, getLast?_cons]
    cases batches.getLast? <;> rfl

/-- The rows that are kept are those with the last sequence number. -/
theorem bufferedSn_splitOrConcat (s : Splitter Row) (first : ℤ × Row) (rows : SequencedRows Row) :
    (s.splitOrConcat first rows).2.bufferedSn = ((first :: rows).getLast (cons_ne_nil _ _)).1 := by
  rw [Splitter.splitOrConcat]
  generalize (if s.bufferedSn = -1 then first.1 else s.bufferedSn) = bufferedSn
  split_ifs with hsame
  · exact hsame
  · rfl
  · rw [bufferedSn_foldl_push, getLast?_scatter, getLast?_eq_some_getLast (cons_ne_nil _ _)]
    rfl

/-- What pulling leaves of a query: the position moves to one of its rows. -/
structure Pulled (q₀ q : HistoricalQuery Row) : Prop where
  fetchStartSn : q.fetchStartSn = q₀.fetchStartSn
  fetchEndSn : q.fetchEndSn = q₀.fetchEndSn
  logStartSn : q.logStartSn = q₀.logStartSn
  logCommittedSn : q.logCommittedSn = q₀.logCommittedSn
  rest : q.rest ⊆ q₀.rest
  position : q.maxSn = q₀.maxSn ∧ q.rest = q₀.rest ∨ ∃ x ∈ q₀.rest, q.maxSn = x.1

variable {q₀ : HistoricalQuery Row} {s : HistoricalQuery Row × List (ℤ × List Row)}

/-- One more block is pulled. -/
theorem Pulled.pull (hq : ∀ x ∈ q₀.rest, q₀.maxSn < x.1) (h : Pulled q₀ s.1) (size : ℕ) :
    Pulled q₀ (pull s size).1 := by
  rw [StreamingBlockReader.pull]
  split
  · exact h
  · next first rows htake =>
    have hlast : (first :: rows).getLast (cons_ne_nil _ _) ∈ q₀.rest :=
      h.rest (mem_of_mem_take (i := size) (htake.symm ▸ getLast_mem _))
    refine ⟨h.1, h.2, h.3, h.4, fun x hx => h.rest (mem_of_mem_drop hx), .inr ?_⟩
    simp only [bufferedSn_splitOrConcat]
    rcases h.position with ⟨hmax, -⟩ | ⟨x, hx, hmax⟩
    · exact ⟨_, hlast, hmax ▸ max_eq_right (hq _ hlast).le⟩
    · rcases max_choice s.1.maxSn ((first :: rows).getLast (cons_ne_nil _ _)).1 with heq | heq
      · exact ⟨x, hx, heq.trans hmax⟩
      · exact ⟨_, hlast, heq⟩

/-- All pulls of a call. -/
theorem Pulled.foldl (hq : ∀ x ∈ q₀.rest, q₀.maxSn < x.1) (h : Pulled q₀ s.1) (sizes : List ℕ) :
    Pulled q₀ (sizes.foldl StreamingBlockReader.pull s).1 := by
  induction sizes generalizing s with
  | nil => exact h
  | cons size sizes ih => exact ih (h.pull hq size)

/-! ### One query after the other -/

/-- A block takes rows off the query. -/
theorem rest_pull (s : HistoricalQuery Row × List (ℤ × List Row)) (size : ℕ) :
    (pull s size).1.rest = s.1.rest.drop size := by
  rw [StreamingBlockReader.pull]
  split
  · next htake => rcases take_eq_nil_iff.1 htake with hzero | hnil <;> simp [*]
  · rfl

/-- All blocks of a call take rows off the query. -/
theorem rest_foldl_pull (sizes : List ℕ) (s : HistoricalQuery Row × List (ℤ × List Row)) :
    (sizes.foldl pull s).1.rest = s.1.rest.drop sizes.sum := by
  induction sizes generalizing s with
  | nil => rfl
  | cons size sizes ih => rw [foldl_cons, ih, rest_pull, drop_drop, sum_cons]

variable {q q' : HistoricalQuery Row} {a : Answer Row}

/-- **A query that is drained.** The position is where it was if the query was empty, and that of a
row otherwise. -/
theorem readFromHistoricalStore_drained (hq : ∀ x ∈ q.rest, q.maxSn < x.1) (hended : a.ended)
    (hpulls : q.rest.length ≤ a.pulls.sum) : ∃ records p,
      readFromHistoricalStore a q = (finish a { q with maxSn := p }).map (records, ·) ∧
      (p = q.maxSn ∧ q.rest = [] ∨ ∃ x ∈ q.rest, p = x.1) := by
  have hpulled : Pulled q (a.pulls.foldl pull (q, [])).1 :=
    Pulled.foldl hq ⟨rfl, rfl, rfl, rfl, Subset.refl _, .inl ⟨rfl, rfl⟩⟩ a.pulls
  have hrest : (a.pulls.foldl pull (q, [])).1.rest = [] := by
    rw [rest_foldl_pull]
    exact drop_eq_nil_of_le hpulls
  refine ⟨addRecord (a.pulls.foldl pull (q, [])).2
    (a.pulls.foldl pull (q, [])).1.splitter.finalize.1,
    (a.pulls.foldl pull (q, [])).1.maxSn, ?_, ?_⟩
  · rw [readFromHistoricalStore, if_pos ⟨hended, by rw [hrest]; rfl⟩]
    simp only [finish, hpulled.fetchStartSn, hpulled.fetchEndSn, hpulled.logStartSn,
      hpulled.logCommittedSn]
  · rcases hpulled.position with ⟨hmax, hsame⟩ | hrow
    · exact .inl ⟨hmax, hsame ▸ hrest⟩
    · exact .inr hrow

variable (store : SequencedRows Row)

/-- Queries return the rows of a store. -/
def Selects (a : Answer Row) : Prop :=
  ∀ f e, (a.select f e).Perm (store.filter fun x => f < x.1 ∧ x.1 ≤ e)

/-- A call of `read` drains the query, and another one follows. -/
def NextQuery (q' q : HistoricalQuery Row) : Prop :=
  ∃ a : Answer Row, Selects store a ∧ a.ended ∧ q.rest.length ≤ a.pulls.sum ∧
    ∃ records fetchedSn, readFromHistoricalStore a q = some (records, ⟨fetchedSn, some q'⟩)

/-- A query of a store for the rows after a position. -/
structure OfStore (start : ℤ) (q : HistoricalQuery Row) : Prop where
  rest : q.rest.Perm (store.filter fun x => q.maxSn < x.1 ∧ x.1 ≤ q.fetchEndSn)
  fetchStartSn : q.fetchStartSn = start
  /-- The position is the first one, and the ranges before were empty; or it is that of a row. -/
  position : (q.maxSn + 1 = start ∧
      (∃ k : ℕ, q.fetchEndSn = q.maxSn + defaultFetchRange * (k + 1)) ∧
      ∀ x ∈ store, q.maxSn < x.1 → q.fetchEndSn - defaultFetchRange < x.1) ∨
    (start ≤ q.maxSn ∧ q.fetchEndSn = q.maxSn + defaultFetchRange ∧ ∃ x ∈ store, x.1 = q.maxSn)

/-- The first rows behind a row that is behind a position are at most as many sequence numbers away
as a query spans, up to the start of the log. -/
def NoLongHole (fetchedSn logStartSn : ℤ) : Prop :=
  ∀ x ∈ store, fetchedSn < x.1 → x.1 + 1 < logStartSn →
    ∃ y ∈ store, x.1 < y.1 ∧ y.1 ≤ x.1 + defaultFetchRange

/-- The ranges of some number of queries are empty, and get to the last committed sequence
number. -/
def NothingFound (fetchedSn logCommittedSn : ℤ) : Prop :=
  ∃ k : ℕ, logCommittedSn ≤ fetchedSn + defaultFetchRange * (k + 1) ∧
    ∀ x ∈ store, fetchedSn < x.1 → fetchedSn + defaultFetchRange * (k + 1) < x.1

variable {store : SequencedRows Row} {start : ℤ}

section Steps

variable (h : OfStore store start q)
include h

/-- The rows of a query are those of its range. -/
theorem OfStore.mem_rest (x : ℤ × Row) :
    x ∈ q.rest ↔ x ∈ store ∧ q.maxSn < x.1 ∧ x.1 ≤ q.fetchEndSn := by
  rw [h.rest.mem_iff, mem_filter, decide_eq_true_iff]

/-- The rows of a query are behind its position. -/
theorem OfStore.lt_of_mem_rest : ∀ x ∈ q.rest, q.maxSn < x.1 :=
  fun x hx => ((h.mem_rest x).1 hx).2.1

/-- The position is not before the start. -/
theorem OfStore.start_le : start ≤ q.maxSn + 1 := by
  rcases h.position with hfirst | hrow
  · exact hfirst.1.ge
  · omega

/-- **After a query** that is not the last one, no exception is thrown unless nothing was found. -/
theorem OfStore.finish (ha : Selects store a) {p : ℤ}
    (hp : p = q.maxSn ∧ q.rest = [] ∨ ∃ x ∈ q.rest, p = x.1) (hcaught : p + 1 < q.logStartSn) :
    (finish a { q with maxSn := p } = none ∧ q.rest = [] ∧ q.maxSn + 1 = start ∧
        q.logCommittedSn ≤ q.fetchEndSn) ∨
      ∃ q', finish a { q with maxSn := p } = some ⟨p, some q'⟩ ∧ OfStore store start q' ∧
        q'.maxSn = p ∧ q'.logStartSn = q.logStartSn ∧ q'.logCommittedSn = q.logCommittedSn ∧
        ((∃ x ∈ q.rest, p = x.1) ∨ p = q.maxSn ∧ q.rest = [] ∧ (start ≤ q.maxSn ∨
          q'.fetchEndSn = q.fetchEndSn + defaultFetchRange ∧ q.fetchEndSn < q.logCommittedSn)) := by
  have hstart := h.start_le
  have hmoved : ∀ x ∈ q.rest, x ∈ store ∧ q.maxSn < x.1 := fun x hx =>
    ⟨((h.mem_rest x).1 hx).1, h.lt_of_mem_rest x hx⟩
  simp only [StreamingBlockReader.finish, h.fetchStartSn, if_neg (not_le.2 hcaught)]
  split_ifs with hempty hend
  · obtain ⟨rfl, hrest⟩ | ⟨x, hx, rfl⟩ := hp
    · exact .inl ⟨rfl, hrest, hempty, hend⟩
    · have hlt := (hmoved x hx).2
      omega
  · obtain ⟨rfl, hrest⟩ | ⟨x, hx, rfl⟩ := hp
    · have hrange : q.maxSn + (q.fetchEndSn - q.maxSn + 10000) =
          q.fetchEndSn + defaultFetchRange := by
        rw [defaultFetchRange]
        omega
      obtain ⟨-, ⟨k, hk⟩, -⟩ | hrow := h.position
      · refine .inr ⟨_, rfl, ⟨ha _ _, hempty, .inl ⟨hempty, ⟨k + 1, ?_⟩, fun x hx hlt => ?_⟩⟩,
          rfl, rfl, rfl, .inr ⟨rfl, hrest, .inr ⟨hrange, not_le.1 hend⟩⟩⟩
        · simp only [buildHistoricalQueryContext, hk, defaultFetchRange]
          omega
        · have hout : ¬x.1 ≤ q.fetchEndSn := fun hle => by
            simpa [hrest] using (h.mem_rest x).2 ⟨hx, hlt, hle⟩
          simp only [buildHistoricalQueryContext, hrange]
          omega
      · omega
    · have hlt := (hmoved x hx).2
      omega
  · obtain ⟨rfl, hrest⟩ | ⟨x, hx, rfl⟩ := hp
    · obtain ⟨hfirst, -⟩ | ⟨hle, -, hrow⟩ := h.position
      · exact absurd hfirst hempty
      · exact .inr ⟨_, rfl, ⟨ha _ _, rfl, .inr ⟨hle, rfl, hrow⟩⟩, rfl, rfl, rfl,
          .inr ⟨rfl, hrest, .inl hle⟩⟩
    · obtain ⟨hstore, hlt⟩ := hmoved x hx
      exact .inr ⟨_, rfl, ⟨ha _ _, rfl, .inr ⟨Int.le_trans hstart hlt, rfl, x, hstore, rfl⟩⟩,
        rfl, rfl, rfl, .inl ⟨x, hx, rfl⟩⟩

/-- **The next query** is after a later position, or over a larger range, or the same again. -/
theorem OfStore.nextQuery (hnext : NextQuery store q' q) :
    OfStore store start q' ∧ q'.logStartSn = q.logStartSn ∧
      q'.logCommittedSn = q.logCommittedSn ∧ q'.maxSn + 1 < q.logStartSn ∧
      ((∃ x ∈ q.rest, q'.maxSn = x.1) ∨ q'.maxSn = q.maxSn ∧ q.rest = [] ∧ (start ≤ q.maxSn ∨
        q'.fetchEndSn = q.fetchEndSn + defaultFetchRange ∧ q.fetchEndSn < q.logCommittedSn)) := by
  obtain ⟨a, ha, hended, hpulls, records, fetchedSn, hread⟩ := hnext
  obtain ⟨records', p, heq, hp⟩ := readFromHistoricalStore_drained h.lt_of_mem_rest hended hpulls
  obtain ⟨r, hfinish, hr⟩ := Option.map_eq_some_iff.1 (heq.symm.trans hread)
  obtain ⟨-, rfl⟩ := Prod.mk.inj hr
  have hcaught : p + 1 < q.logStartSn := by
    by_contra hle
    rw [StreamingBlockReader.finish, if_pos (not_lt.1 hle)] at hfinish
    cases hfinish
  obtain ⟨hnone, -⟩ | ⟨q₁, hsome, hof, rfl, hlog, hcommitted, hprogress⟩ := h.finish ha hp hcaught
  · cases hnone.symm.trans hfinish
  · cases hsome.symm.trans hfinish
    exact ⟨hof, hlog, hcommitted, hcaught, hprogress⟩

/-- There is a next query, if the rows of this one are before the start of the log and some are
still to come. -/
theorem OfStore.exists_nextQuery (hlog : q.maxSn + 1 < q.logStartSn)
    (hrest : ∀ x ∈ q.rest, x.1 + 1 < q.logStartSn)
    (hfound : ¬(q.rest = [] ∧ q.maxSn + 1 = start ∧ q.logCommittedSn ≤ q.fetchEndSn)) :
    ∃ q', NextQuery store q' q := by
  set a : Answer Row := {
    logStartSn := q.logStartSn, logCommittedSn := q.logCommittedSn, entries := 1
    pulls := [q.rest.length], ended := true, stored := fun _ => true
    select := fun f e => store.filter fun x => f < x.1 ∧ x.1 ≤ e } with ha
  have hselects : Selects store a := fun _ _ => Perm.refl _
  have hpulls : q.rest.length ≤ a.pulls.sum := by simp [ha]
  obtain ⟨records, p, heq, hp⟩ :=
    readFromHistoricalStore_drained (a := a) h.lt_of_mem_rest rfl hpulls
  have hcaught : p + 1 < q.logStartSn := by
    rcases hp with ⟨rfl, -⟩ | ⟨x, hx, rfl⟩
    · exact hlog
    · exact hrest x hx
  obtain ⟨-, hnothing⟩ | ⟨q', hsome, -⟩ := h.finish hselects hp hcaught
  · exact absurd hnothing hfound
  · exact ⟨q', a, hselects, rfl, hpulls, records, p, by rw [heq, hsome]; rfl⟩

/-- Without a long hole, a query behind a row is not empty. -/
theorem OfStore.rest_ne_nil (hhole : NoLongHole store (start - 1) q.logStartSn)
    (hlog : q.maxSn + 1 < q.logStartSn) (hle : start ≤ q.maxSn) : q.rest ≠ [] := by
  obtain ⟨hfirst, -⟩ | ⟨-, hrange, x, hx, hsn⟩ := h.position
  · omega
  · obtain ⟨y, hy, hlt, hend⟩ := hhole x hx (by omega) (by omega)
    exact ne_nil_of_mem ((h.mem_rest y).2 ⟨hy, hsn ▸ hlt, by omega⟩)

/-- The rows of a query do not go beyond a row in front of a long hole. -/
theorem OfStore.le_of_longHole {x : ℤ × Row} (hx : x ∈ store) (hstart : start ≤ x.1)
    (hle : q.maxSn ≤ x.1) (hhole : ∀ y ∈ store, x.1 < y.1 → x.1 + defaultFetchRange < y.1) :
    ∀ y ∈ q.rest, y.1 ≤ x.1 := by
  intro y hy
  obtain ⟨hystore, -, hyend⟩ := (h.mem_rest y).1 hy
  by_contra hlt
  have hfar := hhole y hystore (not_le.1 hlt)
  obtain ⟨hfirst, -, hbefore⟩ | ⟨-, hrange, -⟩ := h.position
  · have hlast := hbefore x hx (by omega)
    omega
  · omega

end Steps

/-- All queries after one of a store. -/
theorem OfStore.of_run (h : OfStore store start q)
    (hrun : Relation.ReflTransGen (flip (NextQuery store)) q q') :
    OfStore store start q' ∧ q'.logStartSn = q.logStartSn ∧
      q'.logCommittedSn = q.logCommittedSn := by
  induction hrun with
  | refl => exact ⟨h, rfl, rfl⟩
  | tail _ hnext ih =>
    obtain ⟨h', hlog, hcommitted, -⟩ := ih.1.nextQuery hnext
    exact ⟨h', hlog.trans ih.2.1, hcommitted.trans ih.2.2⟩

/-- A query behind a row is empty. -/
def Stuck (start : ℤ) (q : HistoricalQuery Row) : Prop := q.rest = [] ∧ start ≤ q.maxSn

/-- **No query is the same again**: then the queries come to an end. -/
theorem OfStore.acc {q : HistoricalQuery Row} (h : OfStore store start q)
    (hfree : ∀ q', Relation.ReflTransGen (flip (NextQuery store)) q q' →
      q'.maxSn + 1 < q'.logStartSn → ¬Stuck start q') : Acc (NextQuery store) q := by
  refine ⟨q, fun q' hnext => ?_⟩
  obtain ⟨h', hlog, hcommitted, hlt, hprogress⟩ := h.nextQuery hnext
  exact h'.acc fun q'' hrun => hfree q'' (.head hnext hrun)
termination_by ((q.logStartSn - q.maxSn).toNat, (q.logCommittedSn - q.fetchEndSn).toNat)
decreasing_by
  rw [hlog, hcommitted, Prod.lex_def]
  rcases hprogress with ⟨x, hx, hsn⟩ | ⟨hsame, hrest, hstuck | ⟨hend, hlast⟩⟩
  · have hmoved := h.lt_of_mem_rest x hx
    omega
  · exact absurd ⟨hrest, hstuck⟩ (hfree q .refl (by omega))
  · rw [defaultFetchRange] at hend
    omega

/-- **Before a long hole**, the same query is issued again and again. -/
theorem OfStore.not_acc {x : ℤ × Row} (hx : x ∈ store) (hstart : start ≤ x.1)
    (hhole : ∀ y ∈ store, x.1 < y.1 → x.1 + defaultFetchRange < y.1)
    (h : OfStore store start q) (hle : q.maxSn ≤ x.1) (hlog : x.1 + 1 < q.logStartSn)
    (hfound : ¬NothingFound store (start - 1) q.logCommittedSn) : ¬Acc (NextQuery store) q := by
  intro hacc
  induction hacc with
  | intro q _ ih =>
    have hrows := h.le_of_longHole hx hstart hle hhole
    obtain ⟨q', hnext⟩ := h.exists_nextQuery (by omega)
      (fun y hy => lt_of_le_of_lt (Int.add_le_add_right (hrows y hy) 1) hlog) fun hnone => by
        obtain ⟨hrest, hfirst, hend⟩ := hnone
        obtain ⟨-, ⟨k, hk⟩, -⟩ | hrow := h.position
        · refine hfound ⟨k, by omega, fun y hy hlt => not_le.1 fun hyend => ?_⟩
          have hmem : y ∈ q.rest := (h.mem_rest y).2 ⟨hy, by omega, by omega⟩
          rw [hrest] at hmem
          cases hmem
        · omega
    obtain ⟨h', hlog', hcommitted, -, hprogress⟩ := h.nextQuery hnext
    refine ih q' hnext h' ?_ (hlog' ▸ hlog) (hcommitted ▸ hfound)
    rcases hprogress with ⟨y, hy, hsn⟩ | ⟨hsame, -⟩
    · exact hsn ▸ hrows y hy
    · exact hsame ▸ hle

/-- The first query, at a position. -/
def firstQuery (store : SequencedRows Row) (fetchedSn logStartSn logCommittedSn : ℤ) :
    HistoricalQuery Row :=
  { rest := store.filter fun x => fetchedSn < x.1 ∧ x.1 ≤ fetchedSn + defaultFetchRange
    maxSn := fetchedSn
    fetchStartSn := fetchedSn + 1
    fetchEndSn := fetchedSn + defaultFetchRange
    logStartSn
    logCommittedSn }

section Reached

variable (store) (fetchedSn logStartSn logCommittedSn : ℤ)

/-- The queries that follow the first one. -/
def Reached : HistoricalQuery Row → Prop :=
  Relation.ReflTransGen (flip (NextQuery store))
    (firstQuery store fetchedSn logStartSn logCommittedSn)

/-- The first query is one of the store. -/
theorem ofStore_firstQuery : OfStore store (fetchedSn + 1)
    (firstQuery store fetchedSn logStartSn logCommittedSn) := by
  refine ⟨Perm.refl _, rfl, .inl ⟨rfl, ⟨0, by simp [firstQuery]⟩, fun x _ hlt => ?_⟩⟩
  simpa [firstQuery] using hlt

variable {store fetchedSn logStartSn logCommittedSn}

/-- Every query that follows is one of the store. -/
theorem Reached.ofStore (h : Reached store fetchedSn logStartSn logCommittedSn q) :
    OfStore store (fetchedSn + 1) q ∧ q.logStartSn = logStartSn ∧
      q.logCommittedSn = logCommittedSn :=
  (ofStore_firstQuery ..).of_run h

/-- If nothing is found, the position stays the first one. -/
theorem Reached.nothing {k : ℕ} (hend : logCommittedSn ≤ fetchedSn + defaultFetchRange * (k + 1))
    (hnone : ∀ x ∈ store, fetchedSn < x.1 → fetchedSn + defaultFetchRange * (k + 1) < x.1)
    (h : Reached store fetchedSn logStartSn logCommittedSn q) :
    q.maxSn = fetchedSn ∧ q.fetchEndSn ≤ fetchedSn + defaultFetchRange * (k + 1) := by
  induction h with
  | refl =>
    refine ⟨rfl, ?_⟩
    simp only [firstQuery, defaultFetchRange]
    omega
  | @tail q q' hrun hnext ih =>
    obtain ⟨h, -, hcommitted⟩ := Reached.ofStore hrun
    obtain ⟨-, -, -, -, hprogress⟩ := h.nextQuery hnext
    rcases hprogress with ⟨x, hx, -⟩ | ⟨hsame, -, hstuck | ⟨hrange, hlast⟩⟩
    · obtain ⟨hstore, hlt, hle⟩ := (h.mem_rest x).1 hx
      have hfar := hnone x hstore (ih.1 ▸ hlt)
      omega
    · omega
    · obtain ⟨-, ⟨j, hj⟩, -⟩ | hrow := h.position
      · refine ⟨hsame.trans ih.1, ?_⟩
        rw [hcommitted, hj, ih.1] at hlast
        rw [hrange, hj, ih.1]
        simp only [defaultFetchRange] at hend hlast ⊢
        omega
      · omega

/-- No query is the same again. -/
theorem Reached.not_stuck (hcond : NoLongHole store fetchedSn logStartSn ∨
      NothingFound store fetchedSn logCommittedSn)
    (h : Reached store fetchedSn logStartSn logCommittedSn q) (hlog : q.maxSn + 1 < q.logStartSn) :
    ¬Stuck (fetchedSn + 1) q := by
  rintro ⟨hrest, hle⟩
  obtain ⟨hof, hstart, -⟩ := h.ofStore
  rcases hcond with hhole | ⟨k, hend, hnone⟩
  · refine hof.rest_ne_nil ?_ hlog hle hrest
    rwa [hstart, Int.add_sub_cancel]
  · have hsame := (h.nothing hend hnone).1
    omega

end Reached

/-- **When catching up terminates.** From a position, there is no infinite sequence of queries, and
each one advances the position or is followed by one over a larger range, if and only if no row
behind the position and before the start of the log is in front of a hole that is longer than a
query, or the queries find nothing up to the last committed sequence number. -/
theorem catchUp_terminates_iff (store : SequencedRows Row)
    (fetchedSn logStartSn logCommittedSn : ℤ) :
    (Acc (NextQuery store) (firstQuery store fetchedSn logStartSn logCommittedSn) ∧
      ∀ q, Reached store fetchedSn logStartSn logCommittedSn q → ∀ q', NextQuery store q' q →
        q.maxSn < q'.maxSn ∨ q'.maxSn = q.maxSn ∧ q.fetchEndSn < q'.fetchEndSn) ↔
      NoLongHole store fetchedSn logStartSn ∨ NothingFound store fetchedSn logCommittedSn := by
  have hfirst := ofStore_firstQuery store fetchedSn logStartSn logCommittedSn
  constructor
  · rintro ⟨hacc, -⟩
    by_contra! hcond
    obtain ⟨hhole, hfound⟩ := hcond
    simp only [NoLongHole, not_forall, not_exists, not_and, not_le] at hhole
    obtain ⟨x, hx, hlt, hlog, hfar⟩ := hhole
    refine hfirst.not_acc hx hlt hfar (le_of_lt hlt) hlog ?_ hacc
    rwa [Int.add_sub_cancel]
  · intro hcond
    refine ⟨hfirst.acc fun q hrun => Reached.not_stuck hcond hrun, fun q hrun q' hnext => ?_⟩
    obtain ⟨hof, -⟩ := hrun.ofStore
    obtain ⟨-, hlogStart, -, hlog, hprogress⟩ := hof.nextQuery hnext
    rcases hprogress with ⟨x, hx, hsn⟩ | ⟨hsame, hrest, hstuck | ⟨hrange, -⟩⟩
    · exact .inl (hsn ▸ hof.lt_of_mem_rest x hx)
    · exact absurd ⟨hrest, hstuck⟩ (hrun.not_stuck hcond (hsame ▸ hlog))
    · refine .inr ⟨hsame, ?_⟩
      rw [hrange, defaultFetchRange]
      omega

/-- Rows 1 and 20002. -/
def holeStore : SequencedRows ℕ := [(1, 0), (20002, 0)]

/-- Two rows of it are pulled. -/
def holeAnswer : Answer ℕ where
  logStartSn := 20010
  logCommittedSn := 20020
  entries := 0
  pulls := [2]
  ended := true
  stored _ := true
  select f e := holeStore.filter fun x => f < x.1 ∧ x.1 ≤ e

/-- If the log starts at 20010, the query after that of row 1, for the rows from 2 to 10001, returns
nothing and is issued again. -/
theorem catchUp_repeats :
    ∃ q, NextQuery holeStore q (firstQuery holeStore 0 20010 20020) ∧ NextQuery holeStore q q :=
  ⟨⟨[], {}, 1, 1, 10001, 20010, 20020⟩,
    ⟨holeAnswer, fun _ _ => Perm.refl _, rfl, by decide, _, 1, rfl⟩,
    ⟨holeAnswer, fun _ _ => Perm.refl _, rfl, by decide, _, 1, rfl⟩⟩

/-! ### A reader gets to the end of the log -/

section Progress

variable (log : List (DataEntry Row)) (shard : Answer Row)

/-- The rows of the data records that are in the historical store. -/
def storedRows : SequencedRows Row := (dataRows log).filter fun x => shard.stored x.1

/-- The answers of a shard that does not change, to calls that drain a query, and that fetch an
entry if there is one. -/
def Serves (a : Answer Row) : Prop :=
  0 < a.entries ∧ (dataRows log).length ≤ a.pulls.sum ∧
    a = { shard with entries := a.entries, pulls := a.pulls, ended := true }

/-- A shard in which a reader can catch up from a position. -/
structure CatchesUp (position : ℤ) : Prop where
  /-- The log has what was not compacted away. -/
  firstSn : shard.firstSn ≤ shard.logStartSn
  /-- What was compacted away is committed. -/
  committed : shard.logStartSn ≤ shard.logCommittedSn + 1
  /-- A reader before `LogStartSN` can only start at a log that was not compacted. -/
  start : 0 ≤ position ∨ shard.logStartSn ≤ 1
  /-- The queries come to an end. -/
  hole : NoLongHole (storedRows log shard) position shard.logStartSn
  /-- If the position was compacted away, there is a row to catch up with. -/
  found : position + 1 < shard.logStartSn →
    ∃ x ∈ dataRows log, position < x.1 ∧ x.1 < shard.logStartSn

/-- The reader is at a historical query, or has not fetched all entries of the log. -/
def Busy (r : Reader Row) : Prop := r.historical = none → ∃ e ∈ log, r.fetchedSn < e.sn

/-- A call of a reader that has not got to the end of the log. -/
def Call (cfg : ReaderConfig) (r' r : Reader Row) : Prop :=
  Busy log r ∧ ∃ a records, Serves log shard a ∧ read cfg log r a = some (records, r')

variable {log shard} {cfg : ReaderConfig} {f : ℤ}

/-- A shard that does not change answers queries with the rows it has stored. -/
theorem Answers.selects (h : Answers log shard) (ha : Serves log shard a) :
    Selects (storedRows log shard) a := by
  intro f e
  rw [ha.2.2, storedRows, filter_filter]
  exact h.rows f e

/-- A query has no more rows than the log. -/
theorem OfStore.length_rest_le (h : OfStore (storedRows log shard) start q) :
    q.rest.length ≤ (dataRows log).length := by
  rw [h.rest.length_eq]
  exact le_trans (length_filter_le _ _) (length_filter_le _ _)

section

variable (hlog : WellFormed log) (hfirst : shard.firstSn ≤ shard.logStartSn)
include hlog hfirst

/-- A call of a reader whose position was not compacted away. -/
theorem read_atLog (ha : Serves log shard a) (hf : shard.logStartSn ≤ max (f + 1) 1) :
    read cfg log ⟨f, none⟩ a = some
      (deserializeRecords cfg.emitControlBlock (fetch log f a.entries),
        ⟨positionAfter f (fetch log f a.entries), none⟩) := by
  have hstart : a.logStartSn = shard.logStartSn := by rw [ha.2.2]
  have hfirst' : a.firstSn = shard.firstSn := by rw [ha.2.2]
  have hcompacted : ¬(1 ≤ f + 1 ∧ f + 1 < a.logStartSn) := by
    rw [hstart]
    omega
  have hrange : ¬max (f + 1) 1 < a.firstSn := by
    rw [hfirst']
    omega
  simp only [StreamingBlockReader.read, if_neg hcompacted, if_neg hrange, fetch_max_zero hlog]
  rfl

/-- Fetching comes to the end of the log. -/
theorem acc_atLog (hf : shard.logStartSn ≤ max (f + 1) 1) : Acc (Call log shard cfg) ⟨f, none⟩ := by
  induction hn : (log.filter fun e => decide (f < e.sn)).length using Nat.strong_induction_on
    generalizing f with
  | _ n ih =>
    refine ⟨_, fun r' hcall => ?_⟩
    obtain ⟨hbusy, a, records, ha, hread⟩ := hcall
    obtain ⟨e, he, hlt⟩ := hbusy rfl
    rw [read_atLog hlog hfirst ha hf] at hread
    obtain ⟨-, rfl⟩ := Prod.mk.inj (Option.some.inj hread)
    have hne : fetch log f a.entries ≠ [] := by
      have hmem : e ∈ log.filter fun e => decide (f < e.sn) :=
        mem_filter.2 ⟨he, decide_eq_true hlt⟩
      rw [fetch, Ne, take_eq_nil_iff, not_or]
      exact ⟨ha.1.ne', ne_nil_of_mem hmem⟩
    -- the last entry that is fetched was beyond the position, and no longer is
    have hlast := getLast_mem hne
    set last := (fetch log f a.entries).getLast hne with hdef
    have hposition : positionAfter f (fetch log f a.entries) = last.sn := by
      rw [positionAfter, getLast?_eq_some_getLast hne]
      rfl
    have hadvance : f < last.sn := lt_of_mem_fetch hlast
    have hshrink : log.filter (fun e => decide (last.sn < e.sn)) =
        (log.filter fun e => decide (f < e.sn)).filter fun e => decide (last.sn < e.sn) := by
      rw [filter_filter]
      refine filter_congr fun e _ => ?_
      rw [Bool.eq_iff_iff, Bool.and_eq_true, decide_eq_true_eq, decide_eq_true_eq]
      omega
    rw [hposition]
    refine ih _ ?_ (by omega) rfl
    rw [← hn, hshrink]
    exact length_filter_lt_length_iff_exists.2 ⟨last, mem_of_mem_take hlast, by simp⟩

end

/-- A reader that is at a query pulls it. -/
theorem read_query : read cfg log ⟨f, some q⟩ a = (readFromHistoricalStore a q).map fun s =>
    (s.1.map (toRecord cfg.schemaVersionRequested), s.2) := rfl

/-- The query of a reader is one of the shard. -/
def AtQuery (log : List (DataEntry Row)) (shard : Answer Row) (start : ℤ)
    (q : HistoricalQuery Row) : Prop :=
  OfStore (storedRows log shard) start q ∧ q.logStartSn = shard.logStartSn ∧
    q.logCommittedSn = shard.logCommittedSn

/-- **A call of a reader that is at a query** does not throw, and leads to the log or to the next
query. -/
theorem AtQuery.read (cfg : ReaderConfig) (f : ℤ) {position : ℤ} (hanswers : Answers log shard)
    (hcatch : CatchesUp log shard position) (h : AtQuery log shard (position + 1) q)
    (ha : Serves log shard a) : ∃ records r', read cfg log ⟨f, some q⟩ a = some (records, r') ∧
      (r'.historical = none ∧ shard.logStartSn ≤ max (r'.fetchedSn + 1) 1 ∨
        ∃ q', r'.historical = some q' ∧ NextQuery (storedRows log shard) q' q ∧
          AtQuery log shard (position + 1) q') := by
  obtain ⟨hof, hlogStart, hcommitted⟩ := h
  have hended : a.ended := by rw [ha.2.2]
  have hpulls : q.rest.length ≤ a.pulls.sum := le_trans hof.length_rest_le ha.2.1
  have hselects := hanswers.selects ha
  obtain ⟨records, p, heq, hp⟩ := readFromHistoricalStore_drained hof.lt_of_mem_rest hended hpulls
  by_cases hcaught : q.logStartSn ≤ p + 1
  · have hfinish : finish a { q with maxSn := p } =
        some (Reader.startFetch ⟨p, none⟩ (p + 1)) := if_pos hcaught
    refine ⟨_, Reader.startFetch ⟨p, none⟩ (p + 1), by rw [read_query, heq, hfinish]; rfl,
      .inl ⟨rfl, ?_⟩⟩
    simp only [Reader.startFetch]
    omega
  · obtain ⟨-, hrest, hfirst, hend⟩ | ⟨q', hsome, hof', -, hlogStart', hcommitted', -⟩ :=
      hof.finish hselects hp (not_le.1 hcaught)
    · -- there is a row to catch up with, and the query has it
      obtain ⟨x, hx, hlt, hxlog⟩ := hcatch.found (by
        rcases hp with ⟨rfl, -⟩ | ⟨x, hx, -⟩
        · omega
        · exact absurd hx (by rw [hrest]; exact not_mem_nil))
      have hcom := hcatch.committed
      have hmem : x ∈ q.rest := (hof.mem_rest x).2
        ⟨mem_filter.2 ⟨hx, hanswers.stored x hx hxlog⟩, by omega, by omega⟩
      rw [hrest] at hmem
      cases hmem
    · have hread : readFromHistoricalStore a q = some (records, ⟨p, some q'⟩) := by
        rw [heq, hsome]
        rfl
      exact ⟨_, ⟨p, some q'⟩, by rw [read_query, hread]; rfl, .inr ⟨q', rfl,
        ⟨a, hselects, hended, hpulls, records, p, hread⟩, hof', hlogStart'.trans hlogStart,
        hcommitted'.trans hcommitted⟩⟩

section

variable (hlog : WellFormed log) (hanswers : Answers log shard) {position : ℤ}
  (hcatch : CatchesUp log shard position)
include hlog hanswers hcatch

/-- A reader that is at a query gets to the end of the log. -/
theorem AtQuery.acc (h : AtQuery log shard (position + 1) q) :
    Acc (Call log shard cfg) ⟨f, some q⟩ := by
  have hacc : Acc (NextQuery (storedRows log shard)) q := by
    refine h.1.acc fun q' hrun hlt hstuck => ?_
    obtain ⟨hof, hlogStart, -⟩ := h.1.of_run hrun
    refine hof.rest_ne_nil ?_ hlt hstuck.2 hstuck.1
    rw [hlogStart, h.2.1, Int.add_sub_cancel]
    exact hcatch.hole
  induction hacc generalizing f with
  | intro q _ ih =>
    refine ⟨_, fun r' hcall => ?_⟩
    obtain ⟨-, a, records, ha, hread⟩ := hcall
    obtain ⟨records', r₁, heq, hnext⟩ := h.read cfg f hanswers hcatch ha
    obtain ⟨-, rfl⟩ := Prod.mk.inj (Option.some.inj (hread.symm.trans heq))
    obtain ⟨fetchedSn, historical⟩ := r'
    rcases hnext with ⟨rfl, hstart⟩ | ⟨q', rfl, hnext, h'⟩
    · exact acc_atLog hlog hcatch.firstSn hstart
    · exact ih q' hnext h'

variable (hallow : cfg.allowFallbackToHistoricalStore = true)
include hallow

/-- The reader is at the start, at the log or at a query of the shard. -/
def InShard (log : List (DataEntry Row)) (shard : Answer Row) (position : ℤ) (r : Reader Row) :
    Prop :=
  match r.historical with
  | none => r.fetchedSn = position ∨ shard.logStartSn ≤ max (r.fetchedSn + 1) 1
  | some q => AtQuery log shard (position + 1) q

omit hlog in
/-- A call of a reader whose position was compacted away. -/
theorem read_compacted (ha : Serves log shard a)
    (hstart : ¬shard.logStartSn ≤ max (position + 1) 1) :
    ∃ q, read cfg log ⟨position, none⟩ a = some ([], ⟨position, some q⟩) ∧
      AtQuery log shard (position + 1) q := by
  have hlogStart : a.logStartSn = shard.logStartSn := by rw [ha.2.2]
  have hcompacted : 1 ≤ position + 1 ∧ position + 1 < a.logStartSn := by
    rw [hlogStart]
    have := hcatch.start
    omega
  refine ⟨_, by simp only [StreamingBlockReader.read, if_pos hcompacted, hallow, if_true]; rfl,
    ⟨hanswers.selects ha _ _, rfl, .inl ⟨rfl, ⟨0, by simp [buildHistoricalQueryContext]⟩,
      fun x _ hlt => ?_⟩⟩, hlogStart, by simp only [buildHistoricalQueryContext]; rw [ha.2.2]⟩
  simpa [buildHistoricalQueryContext] using hlt

/-- **A call in a shard that does not change** does not throw. -/
theorem InShard.read {r : Reader Row} (h : InShard log shard position r) (ha : Serves log shard a) :
    ∃ records r', read cfg log r a = some (records, r') ∧ InShard log shard position r' := by
  obtain ⟨f, historical⟩ := r
  cases historical with
  | some q =>
    obtain ⟨records, r', heq, hnext⟩ := AtQuery.read cfg f hanswers hcatch h ha
    refine ⟨records, r', heq, ?_⟩
    rcases hnext with ⟨hnone, hstart⟩ | ⟨q', hsome, -, h'⟩
    · simp only [InShard, hnone]
      exact .inr hstart
    · simpa only [InShard, hsome] using h'
  | none =>
    by_cases hstart : shard.logStartSn ≤ max (f + 1) 1
    · refine ⟨_, _, read_atLog hlog hcatch.firstSn ha hstart, .inr ?_⟩
      have hge : f ≤ positionAfter f (fetch log f a.entries) := positionAfter_ge f a.entries
      simp only
      omega
    · obtain rfl : f = position := h.resolve_right hstart
      obtain ⟨q, heq, hq⟩ := read_compacted hanswers hcatch hallow ha hstart
      exact ⟨_, _, heq, hq⟩

/-- The reader stays in the shard. -/
theorem Reads.inShard {sn : ℤ} (hposition : position = startPosition sn) {r : Reader Row}
    {out : List (ℤ × List Row)} (h : Reads cfg log sn (Serves log shard) r out) :
    InShard log shard position r := by
  subst hposition
  induction h with
  | start => exact .inl rfl
  | read run answer eq ih =>
    obtain ⟨records, r', heq, hin⟩ := ih.read hlog hanswers hcatch hallow answer
    obtain ⟨-, rfl⟩ := Prod.mk.inj (Option.some.inj (eq.symm.trans heq))
    exact hin

/-- A reader gets to the end of the log from the start. -/
theorem InShard.acc : Acc (Call log shard cfg) ⟨position, none⟩ := by
  by_cases hstart : shard.logStartSn ≤ max (position + 1) 1
  · exact acc_atLog hlog hcatch.firstSn hstart
  · refine ⟨_, fun r' hcall => ?_⟩
    obtain ⟨-, a, records, ha, hread⟩ := hcall
    obtain ⟨q, heq, hq⟩ := read_compacted hanswers hcatch hallow ha hstart
    obtain ⟨-, rfl⟩ := Prod.mk.inj (Option.some.inj (hread.symm.trans heq))
    exact hq.acc hlog hanswers hcatch

end

/-- **Nothing is lost or repeated.** If no record is in the historical store without those before
it, what is returned has increasing sequence numbers, and the rows of every data record from the
start on: up to the last sequence number that was returned, and up to the position when the reader
is at the log. If the reader can catch up in a shard that does not change, no call throws, and after
finitely many calls the rows of all data records from the start on were returned. -/
theorem reads_exact (hlog : WellFormed log) (hcfg : cfg.NoSkip) (sn : ℤ) :
    (∀ r out, Reads cfg log sn (fun a => Answers log a ∧ NoGap log a) r out →
      (out.Pairwise fun a b => a.1 < b.1) ∧
      (∀ last ∈ out.getLast?, (rowsOfChunks out).Perm
        ((dataRows log).filter fun x => decide (sn ≤ x.1 ∧ x.1 ≤ last.1))) ∧
      (r.historical = none → (rowsOfChunks out).Perm
        ((dataRows log).filter fun x => decide (sn ≤ x.1 ∧ x.1 ≤ r.fetchedSn)))) ∧
    ∀ shard, Answers log shard → NoGap log shard → CatchesUp log shard (startPosition sn) →
      cfg.allowFallbackToHistoricalStore = true →
        Acc (Call log shard cfg) (Reader.startFetch ⟨-1, none⟩ sn) ∧
        ∀ r out, Reads cfg log sn (Serves log shard) r out →
          (∀ a, Serves log shard a → (read cfg log r a).isSome) ∧
          (¬Busy log r → (rowsOfChunks out).Perm
            ((dataRows log).filter fun x => decide (sn ≤ x.1))) := by
  refine ⟨fun r out h => h.exact hlog hcfg, fun shard hanswers hgap hcatch hallow => ?_⟩
  have hstart : Reader.startFetch (⟨-1, none⟩ : Reader Row) sn = ⟨startPosition sn, none⟩ := rfl
  refine ⟨hstart ▸ InShard.acc hlog hanswers hcatch hallow,
    fun r out h => ⟨fun a ha => ?_, fun hend => ?_⟩⟩
  · have hin := h.inShard hlog hanswers hcatch hallow rfl
    obtain ⟨records, r', heq, -⟩ := hin.read hlog hanswers hcatch hallow ha
    rw [heq]
    rfl
  · simp only [Busy, Classical.not_imp, not_exists, not_and, not_lt] at hend
    have hsame : ∀ a, Serves log shard a → Answers log a ∧ NoGap log a := by
      intro a ha
      rw [ha.2.2]
      exact ⟨⟨hanswers.stored, hanswers.sorted, hanswers.rows⟩, hgap⟩
    have hexact := (h.mono hsame).exact hlog hcfg
    refine (hexact.2.2 hend.1).trans (Perm.of_eq (filter_congr fun x hx => ?_))
    obtain ⟨e, he, hsn⟩ := exists_of_mem_dataRows hx
    have hle := hend.2 e he
    rw [Bool.eq_iff_iff, decide_eq_true_eq, decide_eq_true_eq]
    omega

/-- A reader that catches up from the historical store. -/
theorem reads_exact_caughtUp :
    (∃ r : Reader ℕ, r.historical = none ∧ r.fetchedSn = 4 ∧
      (rowsOfChunks [(1, [10]), (2, [20]), (3, [30]), (4, [40])]).Perm
        ((dataRows gapLog).filter fun x => decide (1 ≤ x.1 ∧ x.1 ≤ r.fetchedSn))) ∧
    Acc (Call gapLog fullAnswer {}) (Reader.startFetch ⟨-1, none⟩ 1) := by
  obtain ⟨hsound, hprogress⟩ := reads_exact wellFormed_gapLog
    (show ReaderConfig.NoSkip {} from ⟨rfl, .inl rfl⟩) 1
  have first : Reads {} gapLog 1 (fun a => Answers gapLog a ∧ NoGap gapLog a)
    (Reader.startFetch ⟨-1, none⟩ 1) [] := Reads.start
  have second := first.read fullAnswer_answers rfl
  have third := second.read fullAnswer_answers rfl
  refine ⟨⟨_, rfl, rfl, (hsound _ _ third).2.2 rfl⟩, (hprogress fullAnswer fullAnswer_answers.1
    fullAnswer_answers.2 ⟨le_rfl, by decide, .inl (by decide), ?_, fun _ => ?_⟩ rfl).1⟩
  · simp only [NoLongHole]
    decide
  · exact ⟨(1, 10), by decide⟩

end Progress

end Proton.StreamingBlockReader
