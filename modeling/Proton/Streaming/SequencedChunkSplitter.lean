import Mathlib.Data.List.Pairwise
import Mathlib.Data.Int.Order.Basic

/-!
# Splitting Chunks by Sequence Number

This module embeds `SequencedChunkSplitter.cpp`. The rows of a historical query come in chunks of
any size, ordered by sequence number. The splitter joins the rows of one sequence number and hands
them out when a row of a larger one is seen; the rows of the newest sequence number are kept.

## Main results

* `Splitter.splitOrConcat_spec`: no row is lost, and what is handed out is complete.
-/

open List

namespace Proton.Streaming

/-- Rows with their sequence number, as the historical store returns them. -/
abbrev SequencedRows (Row : Type) : Type := List (ℤ × Row)

variable {Row : Type}

/-- The rows of chunks that each have one sequence number. -/
def rowsOfChunks (chunks : List (ℤ × List Row)) : SequencedRows Row :=
  chunks.flatMap fun c => c.2.map (c.1, ·)

@[simp] theorem rowsOfChunks_nil : rowsOfChunks ([] : List (ℤ × List Row)) = [] := rfl

@[simp] theorem rowsOfChunks_cons (c : ℤ × List Row) (l : List (ℤ × List Row)) :
    rowsOfChunks (c :: l) = c.2.map (c.1, ·) ++ rowsOfChunks l := rfl

@[simp] theorem rowsOfChunks_append (l l' : List (ℤ × List Row)) :
    rowsOfChunks (l ++ l') = rowsOfChunks l ++ rowsOfChunks l' :=
  flatMap_append

/-- The columns of a chunk scattered by runs of one sequence number. -/
def scatter : SequencedRows Row → List (ℤ × List Row)
  | [] => []
  | (sn, row) :: rows =>
    match scatter rows with
    | [] => [(sn, [row])]
    | (sn', batch) :: batches =>
      if sn = sn' then (sn, row :: batch) :: batches
      else (sn, [row]) :: (sn', batch) :: batches

/-- `SequencedChunkSplitter`. -/
structure Splitter (Row : Type) where
  /-- `buffered_sn`. -/
  bufferedSn : ℤ := -1
  /-- `buffered_chunk`. -/
  bufferedChunk : List Row := []

namespace Splitter

/-- The loop over the batches of a chunk: what is handed out, and the splitter. -/
def push (s : List (ℤ × List Row) × Splitter Row) (batch : ℤ × List Row) :
    List (ℤ × List Row) × Splitter Row :=
  if s.2.bufferedSn ≠ batch.1 then
    (s.1 ++ [(s.2.bufferedSn, s.2.bufferedChunk)], ⟨batch.1, batch.2⟩)
  else (s.1, { s.2 with bufferedChunk := s.2.bufferedChunk ++ batch.2 })

/-- `splitOrConcat` of a chunk that has rows. -/
def splitOrConcat (s : Splitter Row) (first : ℤ × Row) (rows : SequencedRows Row) :
    List (ℤ × List Row) × Splitter Row :=
  let lastSn := ((first :: rows).getLast (cons_ne_nil _ _)).1
  let bufferedSn := if s.bufferedSn = -1 then first.1 else s.bufferedSn
  if bufferedSn = lastSn then
    ([], ⟨bufferedSn, s.bufferedChunk ++ (first :: rows).map (·.2)⟩)
  else if first.1 = lastSn then
    ([(bufferedSn, s.bufferedChunk)], ⟨lastSn, (first :: rows).map (·.2)⟩)
  else (scatter (first :: rows)).foldl push ([], { s with bufferedSn })

/-- `finalize`. -/
def finalize (s : Splitter Row) : (ℤ × List Row) × Splitter Row :=
  ((s.bufferedSn, s.bufferedChunk), { bufferedSn := -1 })

/-- The rows that are kept. -/
def rows (s : Splitter Row) : SequencedRows Row := s.bufferedChunk.map (s.bufferedSn, ·)

end Splitter

/-! ### Batches -/

/-- Chunks with different, increasing sequence numbers, all with rows. -/
structure Increasing (chunks : List (ℤ × List Row)) : Prop where
  /-- The sequence numbers increase. -/
  lt : chunks.Pairwise fun a b => a.1 < b.1
  /-- There are rows. -/
  ne_nil : ∀ c ∈ chunks, c.2 ≠ []

/-- Rows ordered by sequence number. -/
def Sorted (rows : SequencedRows Row) : Prop := rows.Pairwise fun a b => a.1 ≤ b.1

variable {rows : SequencedRows Row}

/-- The last row has the greatest sequence number. -/
theorem Sorted.le_getLast (h : Sorted rows) (hne : rows ≠ []) {x : ℤ × Row} (hx : x ∈ rows) :
    x.1 ≤ (rows.getLast hne).1 :=
  Pairwise.rel_getLast_of_rel_getLast_getLast h hx le_rfl

/-- Scattering keeps the rows. -/
theorem rowsOfChunks_scatter (rows : SequencedRows Row) : rowsOfChunks (scatter rows) = rows := by
  induction rows with
  | nil => rfl
  | cons r rows ih =>
    obtain ⟨sn, row⟩ := r
    rw [scatter]
    cases hscatter : scatter rows with
    | nil => rw [← ih, hscatter]; rfl
    | cons c l =>
      obtain ⟨sn', batch⟩ := c
      rw [← ih, hscatter]
      by_cases hsn : sn = sn'
      · simp [hsn]
      · simp [hsn]

/-- The first batch has the first sequence number, and the batches increase. -/
theorem scatter_cons (first : ℤ × Row) (h : Sorted (first :: rows)) :
    ∃ batch batches, scatter (first :: rows) = (first.1, batch) :: batches ∧
      Increasing (scatter (first :: rows)) := by
  induction rows generalizing first with
  | nil => exact ⟨[first.2], [], rfl, pairwise_singleton _ _, by simp [scatter]⟩
  | cons r rows ih =>
    obtain ⟨hfirst, hrest⟩ := pairwise_cons.1 h
    obtain ⟨batch, batches, heq, hinc⟩ := ih r hrest
    rw [heq] at hinc
    obtain ⟨hlt, hrows⟩ := pairwise_cons.1 hinc.lt
    rw [scatter, heq]
    by_cases hsn : first.1 = r.1
    · simp only [hsn]
      exact ⟨_, _, rfl, pairwise_cons.2 ⟨hlt, hrows⟩, forall_mem_cons.2
        ⟨cons_ne_nil _ _, fun c hc => hinc.ne_nil c (mem_cons_of_mem _ hc)⟩⟩
    · have hlt' : first.1 < r.1 := lt_of_le_of_ne (hfirst r mem_cons_self) hsn
      simp only [hsn]
      refine ⟨_, _, rfl, pairwise_cons.2 ⟨fun c hc => ?_, hinc.lt⟩, forall_mem_cons.2
        ⟨cons_ne_nil _ _, hinc.ne_nil⟩⟩
      rcases mem_cons.1 hc with rfl | hc
      · exact hlt'
      · exact lt_trans hlt' (hlt c hc)

/-- Rows of one sequence number are one batch. -/
theorem scatter_of_eq (sn : ℤ) (hne : rows ≠ []) (h : ∀ r ∈ rows, r.1 = sn) :
    scatter rows = [(sn, rows.map (·.2))] := by
  induction rows with
  | nil => exact absurd rfl hne
  | cons r rows ih =>
    obtain ⟨hr, hrows⟩ := forall_mem_cons.1 h
    obtain ⟨sn', row⟩ := r
    obtain rfl : sn' = sn := hr
    cases rows with
    | nil => rfl
    | cons r' rows => rw [scatter, ih (cons_ne_nil _ _) hrows]; simp

/-! ### The splitter -/

namespace Splitter

/-- There are rows if and only if there is a sequence number. -/
structure Valid (s : Splitter Row) : Prop where
  /-- A kept sequence number is not negative. -/
  nonneg : s.bufferedChunk ≠ [] → 0 ≤ s.bufferedSn
  /-- Without rows, there is no sequence number. -/
  none : s.bufferedChunk = [] → s.bufferedSn = -1

/-- **The batches of a chunk one after the other.** -/
theorem foldl_push (out : List (ℤ × List Row)) (s : Splitter Row) (hs : s.bufferedChunk ≠ [])
    {batches : List (ℤ × List Row)} (hinc : Increasing batches)
    (hle : ∀ b ∈ batches, s.bufferedSn ≤ b.1) :
    let r := batches.foldl push (out, s)
    ∃ more, r.1 = out ++ more ∧ Increasing (more ++ [(r.2.bufferedSn, r.2.bufferedChunk)]) ∧
      rowsOfChunks more ++ r.2.rows = s.rows ++ rowsOfChunks batches ∧
      ∀ c ∈ more ++ [(r.2.bufferedSn, r.2.bufferedChunk)], s.bufferedSn ≤ c.1 := by
  induction batches generalizing out s with
  | nil =>
    refine ⟨[], by simp, ⟨pairwise_singleton _ _, by simpa using hs⟩, by simp, by simp⟩
  | cons b batches ih =>
    obtain ⟨hlt, hrest⟩ := pairwise_cons.1 hinc.lt
    obtain ⟨hb, hne⟩ := forall_mem_cons.1 hinc.ne_nil
    rw [foldl_cons, push]
    by_cases hsn : s.bufferedSn ≠ b.1
    · have hsb : s.bufferedSn < b.1 := lt_of_le_of_ne (hle b mem_cons_self) hsn
      rw [if_pos hsn]
      obtain ⟨more, hout, hmore, hrows, hge⟩ := ih (out ++ [(s.bufferedSn, s.bufferedChunk)])
        ⟨b.1, b.2⟩ hb ⟨hrest, hne⟩ fun c hc => le_of_lt (hlt c hc)
      refine ⟨(s.bufferedSn, s.bufferedChunk) :: more, by rw [hout]; simp, ?_, ?_, ?_⟩
      · exact ⟨pairwise_cons.2 ⟨fun c hc => lt_of_lt_of_le hsb (hge c hc), hmore.lt⟩,
          forall_mem_cons.2 ⟨hs, hmore.ne_nil⟩⟩
      · rw [rowsOfChunks_cons, append_assoc, hrows]
        rfl
      · exact forall_mem_cons.2 ⟨le_rfl, fun c hc => le_trans (le_of_lt hsb) (hge c hc)⟩
    · rw [if_neg hsn]
      obtain ⟨more, hout, hmore, hrows, hge⟩ := ih out
        { s with bufferedChunk := s.bufferedChunk ++ b.2 } (by simp [hs]) ⟨hrest, hne⟩
        fun c hc => hle c (mem_cons_of_mem _ hc)
      refine ⟨more, hout, hmore, ?_, hge⟩
      rw [hrows, rowsOfChunks_cons, ← not_not.1 hsn]
      simp [Splitter.rows]

/-- The sequence number that `splitOrConcat` takes for the rows that are kept. -/
def startSn (s : Splitter Row) (first : ℤ × Row) : ℤ :=
  if s.bufferedSn = -1 then first.1 else s.bufferedSn

variable {first : ℤ × Row} {rows : SequencedRows Row} {s : Splitter Row}

variable (hs : s.Valid) (h : Sorted (s.rows ++ first :: rows))
include hs h

/-- No row is before the start. -/
theorem startSn_le : ∀ r ∈ first :: rows, s.startSn first ≤ r.1 := by
  obtain ⟨-, hrows, hcross⟩ := pairwise_append.1 h
  intro r hr
  rw [startSn]
  split_ifs with hsn
  · rcases mem_cons.1 hr with rfl | hr
    · exact le_rfl
    · exact (pairwise_cons.1 hrows).1 r hr
  · obtain ⟨row, hrow⟩ := exists_mem_of_ne_nil _ (mt hs.none hsn)
    exact hcross (s.bufferedSn, row) (mem_map_of_mem hrow) r hr

/-- The three cases of `splitOrConcat` are one loop over the batches. -/
theorem splitOrConcat_eq :
    s.splitOrConcat first rows =
      (scatter (first :: rows)).foldl push ([], { s with bufferedSn := s.startSn first }) := by
  have hne := cons_ne_nil first rows
  obtain ⟨-, hrows, -⟩ := pairwise_append.1 h
  have hle := startSn_le hs h
  have hlast : ∀ r ∈ first :: rows, r.1 ≤ ((first :: rows).getLast hne).1 :=
    fun r hr => Sorted.le_getLast hrows hne hr
  have hfirst : ∀ r ∈ first :: rows, first.1 ≤ r.1 := forall_mem_cons.2
    ⟨le_rfl, (pairwise_cons.1 hrows).1⟩
  rw [splitOrConcat, ← startSn]
  by_cases h1 : s.startSn first = ((first :: rows).getLast hne).1
  · rw [if_pos h1, scatter_of_eq (s.startSn first) hne fun r hr =>
      le_antisymm (h1 ▸ hlast r hr) (hle r hr)]
    simp [push]
  · rw [if_neg h1]
    by_cases h2 : first.1 = ((first :: rows).getLast hne).1
    · rw [if_pos h2, scatter_of_eq ((first :: rows).getLast hne).1 hne fun r hr =>
        le_antisymm (hlast r hr) (h2 ▸ hfirst r hr), foldl_cons, push, if_pos h1]
      rfl
    · rw [if_neg h2]

/-- **Splitting a chunk.** The rows that were kept, followed by those of the chunk, are the rows
that are handed out followed by those that are kept; and the chunks that are handed out are
complete, as their sequence numbers increase up to the one that is kept. -/
theorem splitOrConcat_spec :
    let r := s.splitOrConcat first rows
    Increasing (r.1 ++ [(r.2.bufferedSn, r.2.bufferedChunk)]) ∧
      rowsOfChunks r.1 ++ r.2.rows = s.rows ++ first :: rows := by
  obtain ⟨-, hrows, -⟩ := pairwise_append.1 h
  obtain ⟨batch, batches, hscatter, hinc⟩ := scatter_cons first hrows
  have hle : ∀ b ∈ scatter (first :: rows), s.startSn first ≤ b.1 := by
    intro b hb
    obtain ⟨row, hrow⟩ := exists_mem_of_ne_nil _ (hinc.ne_nil b hb)
    refine startSn_le hs h (b.1, row) ?_
    rw [← rowsOfChunks_scatter (first :: rows)]
    exact mem_flatMap.2 ⟨b, hb, mem_map_of_mem hrow⟩
  have hbatches := rowsOfChunks_scatter (first :: rows)
  simp only [splitOrConcat_eq hs h]
  by_cases hkept : s.bufferedChunk = []
  · -- without rows that are kept, the first batch is joined to nothing
    have hsn : s.startSn first = first.1 := if_pos (hs.none hkept)
    rw [hscatter] at hinc hbatches ⊢
    obtain ⟨hlt, hinc'⟩ := pairwise_cons.1 hinc.lt
    obtain ⟨hb, hne⟩ := forall_mem_cons.1 hinc.ne_nil
    have hpush : push ([], { s with bufferedSn := s.startSn first }) (first.1, batch) =
        ([], ⟨first.1, batch⟩) := by
      simp [push, hsn, hkept]
    rw [foldl_cons, hpush]
    obtain ⟨more, hout, hmore, heq, -⟩ := foldl_push [] ⟨first.1, batch⟩ hb ⟨hinc', hne⟩
      fun b hb => le_of_lt (hlt b hb)
    rw [hout]
    refine ⟨hmore, heq.trans ?_⟩
    rw [← hbatches]
    simp [Splitter.rows, hkept]
  · have hsn : s.startSn first = s.bufferedSn :=
      if_neg fun hneg => absurd (hs.nonneg hkept) (by rw [hneg]; decide)
    obtain ⟨more, hout, hmore, heq, -⟩ :=
      foldl_push [] { s with bufferedSn := s.startSn first } hkept hinc hle
    rw [hout]
    refine ⟨hmore, heq.trans ?_⟩
    rw [hbatches]
    simp [hsn]

end Splitter

end Proton.Streaming
