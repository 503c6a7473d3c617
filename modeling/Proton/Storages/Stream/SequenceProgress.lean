import Mathlib.Data.Prod.Lex
import Mathlib.Data.List.TakeWhile
import Proton.Lib.SortedMap

/-!
# The Committed Sequence Number

This module embeds the progress of sequence numbers in `Storages/Stream/StreamShardStore.cpp`.
Blocks are scheduled in the order of their sequence ranges and committed in any order by a thread
pool. A range that is committed out of order is parked in an ordered set, until every range that was
scheduled before it is committed too; the sequence number up to which everything is committed is a
low watermark.

A control command and a block without rows are scheduled and committed at once.

## Main results

* `Reached.lowWatermark`: the committed sequence number is the end of the longest prefix of
  committed ranges, and the parked ranges are the committed ones beyond that prefix.
-/

open List SortedMap

namespace Proton.StreamShardStore

/-- `SequencePair`: the first and the last sequence number of a range, ordered as in `std::set`. -/
abbrev SequencePair := ℤ ×ₗ ℤ

/-- The first sequence number of a range. -/
def SequencePair.first (seq : SequencePair) : ℤ := (ofLex seq).1

/-- The last sequence number of a range. -/
def SequencePair.second (seq : SequencePair) : ℤ := (ofLex seq).2

/-- A range. -/
def SequencePair.mk (first second : ℤ) : SequencePair := toLex (first, second)

/-- The sequence numbers of a `StreamShardStore`. -/
structure SequenceProgress where
  /-- `last_sn`. -/
  lastSN : ℤ
  /-- `in_memory_committed_sn` of the storage. -/
  inMemoryCommittedSN : ℤ
  /-- `local_committed_sns`. -/
  localCommittedSNs : SortedMap SequencePair Unit := .empty
  /-- `outstanding_sns`. -/
  outstandingSNs : List SequencePair := []

namespace SequenceProgress

/-- The loop of `progressSequencesWithLockHeld`: parked ranges that are next. -/
def drain : List SequencePair → ℤ → SortedMap SequencePair Unit →
    List SequencePair × ℤ × SortedMap SequencePair Unit
  | [], lastSN, parked => ([], lastSN, parked)
  | p :: outstanding, lastSN, parked =>
    match parked.first? with
    | none => (p :: outstanding, lastSN, parked)
    | some (q, _) =>
      if q = p then drain outstanding p.second (parked.erase p)
      else (p :: outstanding, lastSN, parked)

/-- `progressSequences` and `progressSequencesWithLockHeld`. -/
def progressSequences (seq : SequencePair) (s : SequenceProgress) : SequenceProgress :=
  match s.outstandingSNs with
  | [] => { s with localCommittedSNs := s.localCommittedSNs.insert seq () }
  | front :: outstanding =>
    if seq ≠ front then
      -- out of order
      { s with localCommittedSNs := s.localCommittedSNs.insert seq () }
    else
      let (outstanding, lastSN, parked) := drain outstanding seq.second s.localCommittedSNs
      { lastSN := lastSN
        inMemoryCommittedSN := lastSN
        localCommittedSNs := parked
        outstandingSNs := outstanding }

/-- A range is pushed onto `outstanding_sns`. -/
def pushOutstanding (seq : SequencePair) (s : SequenceProgress) : SequenceProgress :=
  { s with outstandingSNs := s.outstandingSNs ++ [seq] }

/-- What happens to a range. -/
inductive Event where
  /-- `doCommit` schedules the commit of a block. -/
  | schedule (seq : SequencePair)
  /-- `doCommit` without a block, or `commit` with a control command. -/
  | commitEmpty (seq : SequencePair)
  /-- The commit of a block is finished. -/
  | finish (seq : SequencePair)
  /-- The commit of a block fails, or is stopped. -/
  | abandon (seq : SequencePair)

/-- What an event does. -/
def step (s : SequenceProgress) : Event → SequenceProgress
  | .schedule seq => s.pushOutstanding seq
  | .commitEmpty seq => (s.pushOutstanding seq).progressSequences seq
  | .finish seq => s.progressSequences seq
  | .abandon _ => s

/-- The ranges that were scheduled, in order. -/
def scheduled (events : List Event) : List SequencePair :=
  events.filterMap fun
    | .schedule seq => some seq
    | .commitEmpty seq => some seq
    | _ => none

/-- The ranges that were committed. -/
def finished (events : List Event) : List SequencePair :=
  events.filterMap fun
    | .finish seq => some seq
    | .commitEmpty seq => some seq
    | _ => none

/-- The ranges that were abandoned. -/
def abandoned (events : List Event) : List SequencePair :=
  events.filterMap fun
    | .abandon seq => some seq
    | _ => none

/-- The end of the last range of a list, or else an initial sequence number. -/
def endOf (init : ℤ) (ranges : List SequencePair) : ℤ :=
  (ranges.getLast?.map SequencePair.second).getD init

/-- A range is scheduled behind the others, and a range that was scheduled is committed or abandoned
once. -/
def Allowed (init : ℤ) (events : List Event) : Event → Prop
  | .schedule seq | .commitEmpty seq =>
    endOf init (scheduled events) < seq.first ∧ seq.first ≤ seq.second
  | .finish seq | .abandon seq =>
    seq ∈ scheduled events ∧ seq ∉ finished events ∧ seq ∉ abandoned events

/-- The states that are reached from an initial sequence number. -/
inductive Reached (init : ℤ) : List Event → SequenceProgress → Prop
  | start : Reached init [] { lastSN := init, inMemoryCommittedSN := init }
  | step {events : List Event} {s : SequenceProgress} {e : Event} (h : Reached init events s)
      (he : Allowed init events e) : Reached init (events ++ [e]) (s.step e)

/-! ### Ends of ranges -/

/-- Where two lists of ranges end. -/
theorem endOf_append (init : ℤ) (a b : List SequencePair) :
    endOf init (a ++ b) = endOf (endOf init a) b := by
  rw [endOf, endOf, getLast?_append]
  cases b.getLast? <;> rfl

@[simp] theorem endOf_cons (init : ℤ) (p : SequencePair) (l : List SequencePair) :
    endOf init (p :: l) = endOf p.second l := endOf_append init [p] l

/-- The ends of increasing ranges increase. -/
theorem le_endOf {init : ℤ} {l : List SequencePair} (hl : ∀ p ∈ l, init < p.second) :
    init ≤ endOf init l := by
  rw [endOf]
  cases hlast : l.getLast? with
  | none => exact le_rfl
  | some p => exact (hl p (mem_of_getLast? hlast)).le

/-! ### Parked ranges -/

/-- The outstanding ranges are a prefix of parked ones, and the rest; the rest stays. -/
structure Drains (outstanding : List SequencePair) (parked : SortedMap SequencePair Unit)
    (a b : List SequencePair) (parked' : SortedMap SequencePair Unit) : Prop where
  /-- A prefix and the rest. -/
  split : outstanding = a ++ b
  /-- The prefix was parked. -/
  mem : ∀ p ∈ a, p ∈ parked.keys
  /-- The next range was not. -/
  front : ∀ p ∈ b.head?, p ∉ parked.keys
  /-- The prefix is not parked any more. -/
  keys : ∀ p, p ∈ parked'.keys ↔ p ∈ parked.keys ∧ p ∉ a

variable {outstanding a : List SequencePair}

/-- The loop stops at a range that is not parked. -/
theorem Drains.stop {parked : SortedMap SequencePair Unit}
    (h : ∀ p ∈ outstanding.head?, p ∉ parked.keys) :
    Drains outstanding parked [] outstanding parked :=
  ⟨rfl, fun _ hp => absurd hp not_mem_nil, h, fun p => by simp⟩

/-- The loop takes a range that is parked. -/
theorem Drains.cons {p : SequencePair} {b : List SequencePair}
    {parked parked' : SortedMap SequencePair Unit} (hp : p ∈ parked.keys) (hnew : p ∉ outstanding)
    (h : Drains outstanding (parked.erase p) a b parked') :
    Drains (p :: outstanding) parked (p :: a) b parked' := by
  refine ⟨by rw [h.split]; rfl, fun q hq => ?_, fun q hq hin => ?_, fun q => ?_⟩
  · rcases mem_cons.1 hq with rfl | hq
    · exact hp
    · exact (mem_keys_erase.1 (h.mem q hq)).2
  · refine h.front q hq (mem_keys_erase.2 ⟨?_, hin⟩)
    rintro rfl
    exact hnew (h.split ▸ mem_append_right _ (mem_of_mem_head? hq))
  · rw [h.keys, mem_keys_erase, mem_cons]
    tauto

/-- **Draining** takes the longest prefix of parked ranges. -/
theorem drain_spec (hsorted : outstanding.Pairwise (· < ·)) (parked : SortedMap SequencePair Unit)
    (hsub : ∀ p ∈ parked.keys, p ∈ outstanding) (lastSN : ℤ) :
    ∃ a b parked', Drains outstanding parked a b parked' ∧
      drain outstanding lastSN parked = (b, endOf lastSN a, parked') := by
  induction outstanding generalizing parked lastSN with
  | nil => exact ⟨[], [], parked, .stop fun _ hp => (by cases hp), rfl⟩
  | cons p outstanding ih =>
    obtain ⟨hhead, hsorted⟩ := pairwise_cons.1 hsorted
    rw [drain]
    cases hfirst : parked.first? with
    | none =>
      refine ⟨[], p :: outstanding, parked, .stop fun q _ hq => ?_, rfl⟩
      rw [first?, head?_eq_none_iff] at hfirst
      rw [mem_keys_iff_mem_map, hfirst] at hq
      cases hq
    | some e =>
      have hmem : e.1 ∈ parked.keys := mem_keys_of_mem (mem_of_mem_head? hfirst)
      dsimp only
      by_cases heq : e.1 = p
      · obtain ⟨a, b, parked', hdrains, hdrain⟩ := ih hsorted (parked.erase p)
          (fun q hq => by
            obtain ⟨hne, hq⟩ := mem_keys_erase.1 hq
            exact (mem_cons.1 (hsub q hq)).resolve_left hne) p.second
        refine ⟨p :: a, b, parked', hdrains.cons (heq ▸ hmem) fun hp => ?_, ?_⟩
        · exact lt_irrefl _ (hhead _ hp)
        · rw [if_pos heq, hdrain, endOf_cons]
      · refine ⟨[], p :: outstanding, parked, .stop fun q hq hin => heq ?_, by rw [if_neg heq]; rfl⟩
        cases hq
        have hle := first?_le hfirst hin
        rcases mem_cons.1 (hsub _ hmem) with h | h
        · exact h
        · exact absurd (hhead _ h) hle.not_gt

/-! ### Every run -/

/-- What is scheduled in two histories. -/
theorem scheduled_append (a b : List Event) : scheduled (a ++ b) = scheduled a ++ scheduled b :=
  filterMap_append

/-- What is finished in two histories. -/
theorem finished_append (a b : List Event) : finished (a ++ b) = finished a ++ finished b :=
  filterMap_append

/-- What was scheduled is a list of committed ranges, followed by the outstanding ones. -/
structure Invariant (init : ℤ) (sched done : List SequencePair) (s : SequenceProgress)
    (taken : List SequencePair) : Prop where
  /-- The outstanding ranges are those beyond the committed prefix. -/
  split : sched = taken ++ s.outstandingSNs
  /-- The ranges increase. -/
  increasing : sched.Pairwise fun p q => p.second < q.first
  /-- The ranges are behind the initial sequence number. -/
  wellFormed : ∀ p ∈ sched, init < p.first ∧ p.first ≤ p.second
  /-- Only scheduled ranges are committed. -/
  mem_sched : ∀ p ∈ done, p ∈ sched
  /-- The prefix is committed. -/
  mem_done : ∀ p ∈ taken, p ∈ done
  /-- The next range is not. -/
  front : ∀ p ∈ s.outstandingSNs.head?, p ∉ done
  /-- The other committed ranges are parked. -/
  parked : ∀ p, p ∈ s.localCommittedSNs.keys ↔ p ∈ done ∧ p ∈ s.outstandingSNs
  /-- The committed sequence number is the end of the prefix. -/
  lastSN : s.lastSN = endOf init taken
  /-- The storage knows it. -/
  inMemory : s.inMemoryCommittedSN = s.lastSN

variable {init : ℤ} {sched done taken : List SequencePair} {s : SequenceProgress}
  {seq : SequencePair}

/-- The invariant holds before any event. -/
theorem invariant_start (init : ℤ) :
    Invariant init [] [] { lastSN := init, inMemoryCommittedSN := init } [] :=
  ⟨rfl, .nil, fun _ hp => absurd hp not_mem_nil, fun _ hp => hp, fun _ hp => hp,
    fun _ hp => (by cases hp), fun _ => (by simp [SortedMap.mem_keys]), rfl, rfl⟩

section

variable (h : Invariant init sched done s taken)
include h

/-- The ranges are ordered as in the set. -/
theorem Invariant.sorted : sched.Pairwise (· < ·) :=
  h.increasing.imp_of_mem fun hp _ hlt =>
    Prod.Lex.lt_iff.2 (.inl ((h.wellFormed _ hp).2.trans_lt hlt))

/-- Every scheduled range ends at the end of the last one, or before. -/
theorem Invariant.second_le_endOf {p : SequencePair}
    (hp : p ∈ sched) : p.second ≤ endOf init sched := by
  obtain ⟨a, b, rfl⟩ := append_of_mem hp
  rw [endOf_append, endOf_cons]
  refine le_endOf fun q hq => ?_
  have hlt := rel_of_pairwise_cons (pairwise_append.1 h.increasing).2.1 hq
  have hle := (h.wellFormed q (mem_append_right _ (mem_cons_of_mem _ hq))).2
  exact lt_of_lt_of_le hlt hle

/-- A range is scheduled. -/
theorem Invariant.pushOutstanding (hinit : init ≤ endOf init sched)
    (hseq : endOf init sched < seq.first) (hle : seq.first ≤ seq.second) :
    Invariant init (sched ++ [seq]) done (s.pushOutstanding seq) taken := by
  have hbefore : ∀ p ∈ sched, p.second < seq.first := fun p hp =>
    lt_of_le_of_lt (h.second_le_endOf hp) hseq
  have hnew : seq ∉ sched := fun hmem => absurd (hbefore seq hmem) hle.not_gt
  refine ⟨?_, ?_, fun p hp => ?_, fun p hp => mem_append_left _ (h.mem_sched p hp), h.mem_done,
    fun p hp => ?_, fun p => ?_, h.lastSN, h.inMemory⟩
  · rw [h.split, append_assoc]
    rfl
  · refine pairwise_append.2 ⟨h.increasing, pairwise_singleton _ _, fun p hp q hq => ?_⟩
    rw [mem_singleton.1 hq]
    exact hbefore p hp
  · rcases mem_append.1 hp with hp | hp
    · exact h.wellFormed p hp
    · rw [mem_singleton.1 hp]
      exact ⟨lt_of_le_of_lt hinit hseq, hle⟩
  · have hfront := h.front
    rw [SequenceProgress.pushOutstanding] at hp
    cases hout : s.outstandingSNs with
    | nil =>
      rw [hout] at hp
      cases hp
      exact fun hdone => hnew (h.mem_sched _ hdone)
    | cons q rest =>
      rw [hout] at hp hfront
      exact hfront p hp
  · rw [SequenceProgress.pushOutstanding]
    rw [h.parked, mem_append, mem_singleton]
    constructor
    · rintro ⟨hdone, hp⟩
      exact ⟨hdone, .inl hp⟩
    · rintro ⟨hdone, hp | rfl⟩
      · exact ⟨hdone, hp⟩
      · exact absurd (h.mem_sched _ hdone) hnew

/-- A range that is not the next one is parked. -/
theorem Invariant.park (hseq : seq ∈ s.outstandingSNs)
    (hfront : s.outstandingSNs.head? ≠ some seq) :
    Invariant init sched (done ++ [seq])
      { s with localCommittedSNs := s.localCommittedSNs.insert seq () } taken := by
  refine ⟨h.split, h.increasing, h.wellFormed, fun p hp => ?_,
    fun p hp => mem_append_left _ (h.mem_done p hp), fun p hp hdone => ?_,
    fun p => ?_, h.lastSN,
    h.inMemory⟩
  · rcases mem_append.1 hp with hp | hp
    · exact h.mem_sched p hp
    · rw [mem_singleton.1 hp, h.split]
      exact mem_append_right _ hseq
  · rcases mem_append.1 hdone with hdone | hdone
    · exact h.front p hp hdone
    · rw [mem_singleton.1 hdone] at hp
      exact hfront hp
  · rw [mem_keys_insert, h.parked, mem_append, mem_singleton]
    constructor
    · rintro (rfl | ⟨hdone, hp⟩)
      · exact ⟨.inr rfl, hseq⟩
      · exact ⟨.inl hdone, hp⟩
    · rintro ⟨hdone | rfl, hp⟩
      · exact .inr ⟨hdone, hp⟩
      · exact .inl rfl

/-- The next range is committed, and with it the parked ones behind it. -/
theorem Invariant.drain (hout : s.outstandingSNs = seq :: outstanding) :
    ∃ a b parked', SequenceProgress.drain outstanding seq.second s.localCommittedSNs =
        (b, endOf seq.second a, parked') ∧
      Invariant init sched (done ++ [seq])
        { lastSN := endOf seq.second a, inMemoryCommittedSN := endOf seq.second a
          localCommittedSNs := parked', outstandingSNs := b } (taken ++ seq :: a) := by
  have hsplit : sched = taken ++ seq :: outstanding := by rw [h.split, hout]
  have hsorted : (seq :: outstanding).Pairwise (· < ·) :=
    (pairwise_append.1 (hsplit ▸ h.sorted)).2.1
  obtain ⟨hhead, hsorted⟩ := pairwise_cons.1 hsorted
  have hnotin : seq ∉ outstanding := fun hmem => lt_irrefl _ (hhead seq hmem)
  have hparked : ∀ p, p ∈ s.localCommittedSNs.keys ↔ p ∈ done ∧ p ∈ outstanding := by
    intro p
    rw [h.parked, hout, mem_cons]
    constructor
    · rintro ⟨hdone, rfl | hp⟩
      · exact absurd hdone (h.front _ (by rw [hout]; rfl))
      · exact ⟨hdone, hp⟩
    · rintro ⟨hdone, hp⟩
      exact ⟨hdone, .inr hp⟩
  obtain ⟨a, b, parked', hdrains, hdrain⟩ :=
    drain_spec hsorted s.localCommittedSNs (fun p hp => ((hparked p).1 hp).2) seq.second
  refine ⟨a, b, parked', hdrain, ?_, h.increasing, h.wellFormed, fun p hp => ?_, fun p hp => ?_,
    fun p hp hdone => ?_, fun p => ?_, ?_, rfl⟩
  · rw [hsplit, hdrains.split, append_assoc]
    rfl
  · rcases mem_append.1 hp with hp | hp
    · exact h.mem_sched p hp
    · rw [mem_singleton.1 hp, hsplit]
      exact mem_append_right _ mem_cons_self
  · rcases mem_append.1 hp with hp | hp
    · exact mem_append_left _ (h.mem_done p hp)
    · rcases mem_cons.1 hp with rfl | hp
      · exact mem_append_right _ mem_cons_self
      · exact mem_append_left _ ((hparked p).1 (hdrains.mem p hp)).1
  · have hmem : p ∈ outstanding := by
      rw [hdrains.split]
      exact mem_append_right _ (mem_of_mem_head? hp)
    rcases mem_append.1 hdone with hdone | hdone
    · exact hdrains.front p hp ((hparked p).2 ⟨hdone, hmem⟩)
    · exact hnotin (mem_singleton.1 hdone ▸ hmem)
  · have hnodup : (a ++ b).Nodup := hdrains.split ▸ hsorted.nodup
    rw [hdrains.keys, hparked, mem_append, mem_singleton, hdrains.split, mem_append]
    constructor
    · rintro ⟨⟨hdone, hp⟩, hnot⟩
      exact ⟨.inl hdone, hp.resolve_left hnot⟩
    · rintro ⟨hdone, hp⟩
      have hmem : p ∈ outstanding := hdrains.split ▸ mem_append_right _ hp
      refine ⟨⟨hdone.resolve_right ?_, .inr hp⟩, fun hin =>
        disjoint_of_nodup_append hnodup hin hp⟩
      rintro rfl
      exact hnotin hmem
  · rw [endOf_append, endOf_cons]

/-- **`progressSequences`.** -/
theorem Invariant.progressSequences (hseq : seq ∈ sched) (hnew : seq ∉ done) :
    ∃ taken', Invariant init sched (done ++ [seq]) (s.progressSequences seq) taken' ∧
      taken <+: taken' := by
  have hmem : seq ∈ s.outstandingSNs := by
    rw [h.split] at hseq
    exact (mem_append.1 hseq).resolve_left fun hin => hnew (h.mem_done seq hin)
  rw [SequenceProgress.progressSequences]
  cases hout : s.outstandingSNs with
  | nil =>
    rw [hout] at hmem
    cases hmem
  | cons front outstanding =>
    dsimp only
    split_ifs with hne
    · have hfront : s.outstandingSNs.head? ≠ some seq := by
        rw [hout]
        exact fun heq => hne (Option.some.inj heq).symm
      have hinv := h.park hmem hfront
      rw [hout] at hinv
      exact ⟨taken, hinv, prefix_rfl⟩
    · obtain rfl := not_not.1 hne
      obtain ⟨a, b, parked', hdrain, hinv⟩ := h.drain hout
      rw [hdrain]
      exact ⟨_, hinv, prefix_append _ _⟩

/-- A longer prefix ends later. -/
theorem Invariant.endOf_le (ha : a <+: taken) : endOf init a ≤ endOf init taken := by
  obtain ⟨r, rfl⟩ := ha
  have hsched : sched = a ++ (r ++ s.outstandingSNs) := by rw [h.split, append_assoc]
  rw [endOf_append]
  refine le_endOf fun q hq => ?_
  have hmem : q ∈ r ++ s.outstandingSNs := mem_append_left _ hq
  obtain ⟨hinit, hle⟩ := h.wellFormed q (hsched ▸ mem_append_right a hmem)
  refine lt_of_lt_of_le ?_ hle
  rw [endOf]
  cases hlast : a.getLast? with
  | none => exact hinit
  | some p =>
    exact (pairwise_append.1 (hsched ▸ h.increasing)).2.2 p (mem_of_getLast? hlast) q hmem

end

/-- **One event** keeps the invariant, and only makes the committed prefix longer. -/
theorem Invariant.step {events : List Event}
    (h : Invariant init (scheduled events) (finished events) s taken) {e : Event}
    (he : Allowed init events e) :
    ∃ taken', Invariant init (scheduled (events ++ [e])) (finished (events ++ [e])) (s.step e)
      taken' ∧ taken <+: taken' := by
  have hinit : init ≤ endOf init (scheduled events) :=
    le_endOf fun p hp => lt_of_lt_of_le (h.wellFormed p hp).1 (h.wellFormed p hp).2
  rw [scheduled_append, finished_append]
  cases e with
  | schedule seq =>
    obtain ⟨hseq, hle⟩ := he
    refine ⟨taken, ?_, prefix_rfl⟩
    have hinv := h.pushOutstanding hinit hseq hle
    rwa [← append_nil (finished events)] at hinv
  | commitEmpty seq =>
    obtain ⟨hseq, hle⟩ := he
    have hnew : seq ∉ finished events := fun hdone =>
      absurd (lt_of_le_of_lt (h.second_le_endOf (h.mem_sched _ hdone)) hseq) hle.not_gt
    exact (h.pushOutstanding hinit hseq hle).progressSequences
      (mem_append_right _ mem_cons_self) hnew
  | finish seq =>
    obtain ⟨hseq, hnew, -⟩ := he
    obtain ⟨taken', hinv, hprefix⟩ := h.progressSequences hseq hnew
    rw [← append_nil (scheduled events)] at hinv
    exact ⟨taken', hinv, hprefix⟩
  | abandon seq =>
    refine ⟨taken, ?_, prefix_rfl⟩
    have hinv := h
    rwa [← append_nil (scheduled events), ← append_nil (finished events)] at hinv

/-- Every state that is reached. -/
theorem Reached.invariant {events : List Event} (h : Reached init events s) :
    ∃ taken, Invariant init (scheduled events) (finished events) s taken := by
  induction h with
  | start => exact ⟨[], invariant_start init⟩
  | step h he ih =>
    obtain ⟨taken, hinv⟩ := ih
    obtain ⟨taken', hinv', -⟩ := hinv.step he
    exact ⟨taken', hinv'⟩

/-- The committed prefix is the longest one. -/
theorem Invariant.takeWhile_eq (h : Invariant init sched done s taken) :
    sched.takeWhile (· ∈ done) = taken := by
  have htaken : taken.takeWhile (· ∈ done) = taken :=
    takeWhile_eq_self_iff.2 fun p hp => decide_eq_true (h.mem_done p hp)
  have hrest : s.outstandingSNs.takeWhile (· ∈ done) = [] := by
    cases hout : s.outstandingSNs with
    | nil => rfl
    | cons p rest =>
      have hp := h.front p (by rw [hout]; rfl)
      rw [takeWhile_cons_of_neg (by simpa using hp)]
  rw [h.split, takeWhile_append, htaken, if_pos rfl, hrest, append_nil]

/-- **The low watermark.** The committed sequence number is the end of the longest prefix of
committed ranges, the parked ranges are the committed ones beyond it, and no event makes it smaller.
-/
theorem Reached.lowWatermark {events : List Event} (h : Reached init events s) :
    s.lastSN = endOf init ((scheduled events).takeWhile (· ∈ finished events)) ∧
      (∀ p, p ∈ s.localCommittedSNs.keys ↔
        p ∈ finished events ∧ p ∉ (scheduled events).takeWhile (· ∈ finished events)) ∧
      ∀ e, Allowed init events e → s.lastSN ≤ (s.step e).lastSN := by
  obtain ⟨taken, hinv⟩ := h.invariant
  rw [hinv.takeWhile_eq]
  refine ⟨hinv.lastSN, fun p => ?_, fun e he => ?_⟩
  · rw [hinv.parked]
    refine and_congr_right fun hdone => ?_
    have hmem := hinv.mem_sched p hdone
    have hnodup : (taken ++ s.outstandingSNs).Nodup := hinv.split ▸ hinv.sorted.nodup
    rw [hinv.split, mem_append] at hmem
    constructor
    · exact fun hout htaken => disjoint_of_nodup_append hnodup htaken hout
    · exact hmem.resolve_left
  · obtain ⟨taken', hinv', hprefix⟩ := hinv.step he
    rw [hinv.lastSN, hinv'.lastSN]
    exact hinv'.endOf_le hprefix

/-- Three ranges are scheduled; the second one is committed first, and the third one is abandoned.
-/
def outOfOrder : List Event :=
  [.schedule (.mk 1 2), .schedule (.mk 3 4), .schedule (.mk 6 7), .finish (.mk 3 4),
    .abandon (.mk 6 7), .finish (.mk 1 2)]

/-- Ranges that finish out of order. -/
theorem lowWatermark_outOfOrder :
    ∃ s : SequenceProgress,
      s.lastSN = endOf 0 ((scheduled outOfOrder).takeWhile (· ∈ finished outOfOrder)) ∧
      (∀ p, p ∈ s.localCommittedSNs.keys ↔ p ∈ finished outOfOrder ∧
        p ∉ (scheduled outOfOrder).takeWhile (· ∈ finished outOfOrder)) ∧
      ∀ e, Allowed 0 outOfOrder e → s.lastSN ≤ (s.step e).lastSN := by
  have h₁ := (Reached.start : Reached 0 [] _).step (e := .schedule (.mk 1 2)) ⟨by decide, by decide⟩
  have h₂ := h₁.step (e := .schedule (.mk 3 4)) ⟨by decide, by decide⟩
  have h₃ := h₂.step (e := .schedule (.mk 6 7)) ⟨by decide, by decide⟩
  have h₄ := h₃.step (e := .finish (.mk 3 4)) ⟨by decide, by decide, by decide⟩
  have h₅ := h₄.step (e := .abandon (.mk 6 7)) ⟨by decide, by decide, by decide⟩
  have h₆ : Reached 0 outOfOrder _ :=
    h₅.step (e := .finish (.mk 1 2)) ⟨by decide, by decide, by decide⟩
  exact ⟨_, h₆.lowWatermark⟩

end SequenceProgress

end Proton.StreamShardStore
