import Mathlib.Data.Fintype.Defs
import Proton.LocalLog.SequenceBounds

/-!
# Concurrent Local Appends

Any number of writers call `Log::appendLocal` on one log. The part of a call under
`log_mutex` is one step; `advanceCommittedSequence` runs after the mutex is released, and
each of its reads and writes of the shared atomics is a step of its own. So a writer reads
the committed sequence number, compares, and stores its own number later, and another writer
may have stored a larger one in between.

`System.InOrder` excludes exactly that: a writer does not store its number while a writer
with a smaller one has read the committed sequence number and is going to store. Then every
writer that is going to store still finds the committed sequence number below its own
(`Invariant.below`), and the writer with the largest number of all stores it or has stored it
(`Invariant.largest`).

## Main results

* `System.Invariant.step`: every step in order keeps the invariant.
* `System.commits_never_lost`: over a run in order the committed sequence number never
  decreases, and it is the largest one appended once all calls have returned.
-/

namespace Proton

/-- Where a writer stands in `appendLocal`. The numbers are local variables of the call. -/
inductive Phase where
  | idle
  /-- The checks are passed, the mutex is not taken yet. -/
  | entered (entry : Entry)
  /-- The entry is appended and the mutex released. -/
  | appended (sn : ℤ)
  /-- `committed_epoch` is read. -/
  | readEpoch (sn : ℤ) (prevEpoch : ℕ)
  /-- `committed_sn` is read. -/
  | readCommitted (sn : ℤ) (prevEpoch : ℕ) (prevCommitSn : ℤ)
  /-- All comparisons are made and `committed_sn` is to be stored. -/
  | compared (sn : ℤ)
  /-- `committed_sn` is stored, `committed_epoch` is not yet. -/
  | stored (sn : ℤ)
  deriving DecidableEq

namespace Phase

/-- The writer holds the sequence number and has not returned. -/
def Holds : Phase → ℤ → Prop
  | .appended sn, n => sn = n
  | .readEpoch sn _, n => sn = n
  | .readCommitted sn _ _, n => sn = n
  | .compared sn, n => sn = n
  | .stored sn, n => sn = n
  | _, _ => False

/-- The sequence number a writer that has read `committed_sn` is going to store. -/
def toStore? : Phase → Option ℤ
  | .readCommitted sn _ prevCommitSn => if prevCommitSn < sn then some sn else none
  | .compared sn => some sn
  | _ => none

/-- The sequence number a writer stores in its next step. -/
def storing? : Phase → Option ℤ
  | .compared sn => some sn
  | _ => none

/-- The writer holds the sequence number and nothing it has read keeps it from storing. -/
def Carries : Phase → ℤ → Prop
  | .appended sn, n => sn = n
  | .readEpoch sn _, n => sn = n
  | p, n => n ∈ p.toStore?

/-- The epoch the writer has read, if any, is not above the one it commits. -/
def EpochRead : Phase → Prop
  | .readEpoch _ prevEpoch => prevEpoch ≤ 1
  | .readCommitted _ prevEpoch _ => prevEpoch ≤ 1
  | _ => True

/-- A writer that has read the committed number stores a larger one. -/
theorem mem_toStore?_readCommitted {sn prevCommitSn n : ℤ} {prevEpoch : ℕ} :
    n ∈ (readCommitted sn prevEpoch prevCommitSn).toStore? ↔ sn = n ∧ prevCommitSn < n := by
  simp only [toStore?, Option.mem_def, Option.ite_none_right_eq_some, Option.some.injEq]
  constructor
  · rintro ⟨hlt, rfl⟩
    exact ⟨rfl, hlt⟩
  · rintro ⟨rfl, hlt⟩
    exact ⟨hlt, rfl⟩

/-- A writer that stores a number holds it. -/
theorem holds_of_mem_toStore? {p : Phase} {n : ℤ} (h : n ∈ p.toStore?) : p.Holds n := by
  cases p <;> simp_all [toStore?, Holds]

end Phase

/-- The log, the writers, and the sequence numbers appended so far, which no step reads. -/
structure System (ι : Type) where
  log : Log
  writers : ι → Phase
  appendedSns : List ℤ

/-- The steps: a writer calls, takes the mutex, or goes on. -/
inductive Action (ι : Type) where
  | call (i : ι) (entry : Entry)
  | lock (i : ι) (io : FileOutcomes) (now : Int64)
  | advance (i : ι)

namespace System

variable {ι : Type} [DecidableEq ι]

variable (s : System ι)

/-- A writer goes on to another phase. -/
def setWriter (i : ι) (p : Phase) : System ι :=
  { s with writers := Function.update s.writers i p }

/-- The comparisons of `advanceCommittedSequence` with what was read, the next sequence
number included. -/
def compare (log : Log) (sn : ℤ) (prevEpoch : ℕ) (prevCommitSn : ℤ) : Phase :=
  if 1 < prevEpoch then .idle
  else if log.nextLogSequence ≤ sn then .idle
  else if prevCommitSn < sn then .compared sn
  else .idle

/-- The next step of a writer after the mutex is released. -/
def advanceWriter (i : ι) : System ι :=
  match s.writers i with
  | .appended sn => s.setWriter i (.readEpoch sn s.log.committedEpoch)
  | .readEpoch sn prevEpoch => s.setWriter i (.readCommitted sn prevEpoch s.log.committedSn)
  | .readCommitted sn prevEpoch prevCommitSn =>
    s.setWriter i (compare s.log sn prevEpoch prevCommitSn)
  | .compared sn => { s.setWriter i (.stored sn) with log := { s.log with committedSn := sn } }
  | .stored _ => { s.setWriter i .idle with log := { s.log with committedEpoch := 1 } }
  | .idle => s
  | .entered _ => s

/-- The step of a writer that takes the mutex. -/
def lockWriter (i : ι) (io : FileOutcomes) (now : Int64) : System ι :=
  match s.writers i with
  | .entered entry =>
    match s.log.appendLocalLocked io now entry with
    | (log, .error _) => { s.setWriter i .idle with log := log }
    | (log, .ok sn) =>
      { s.setWriter i (.appended sn) with
        log := log
        appendedSns := sn :: s.appendedSns }
  | _ => s

/-- A call that passes the checks. -/
def callWriter (i : ι) (entry : Entry) : System ι :=
  match s.writers i, s.log.appendLocalCheck entry with
  | .idle, none => s.setWriter i (.entered entry)
  | _, _ => s

/-- The state after a step. A step a writer is not ready for does nothing. -/
def step : Action ι → System ι
  | .call i entry => s.callWriter i entry
  | .lock i io now => s.lockWriter i io now
  | .advance i => s.advanceWriter i

/-- The sequence number behind an append is a 64-bit number. -/
def InRange : Action ι → Prop
  | .lock _ _ _ => s.log.nextLogSequence + 1 < 2 ^ 63
  | _ => True

/-- A writer does not store its sequence number while a writer with a smaller one has read
the committed sequence number and is going to store. -/
def InOrder : Action ι → Prop
  | .advance i => ∀ sn ∈ (s.writers i).storing?, ∀ j, ∀ n ∈ (s.writers j).toStore?, sn ≤ n
  | _ => True

instance : (a : Action ι) → Decidable (InRange s a)
  | .lock _ _ _ => inferInstanceAs (Decidable (_ < _))
  | .call _ _ => isTrue trivial
  | .advance _ => isTrue trivial

instance [Fintype ι] (s : System ι) : (a : Action ι) → Decidable (InOrder s a)
  | .advance i => inferInstanceAs (Decidable (∀ sn ∈ (s.writers i).storing?, _))
  | .call _ _ => isTrue trivial
  | .lock _ _ _ => isTrue trivial

/-- A step of a run. -/
def Step : System ι → System ι → Prop :=
  GuardedRun.Step step InRange

/-- A step of a run in order. -/
def OrderedStep : System ι → System ι → Prop :=
  GuardedRun.Step step fun s a => InRange s a ∧ InOrder s a

/-- Before the calls: a log within its bounds, and no writer has begun. -/
structure Start : Prop where
  bounded : s.log.Bounded
  epoch : s.log.committedEpoch ≤ 1
  idle : ∀ i, s.writers i = .idle
  appendedSns : s.appendedSns = []

/-- **The invariant.** The sequence numbers of calls that have not returned are below the
next one and differ from each other. Whoever is going to store is above what is committed.
The largest number appended is committed, or its writer is on the way to store it. -/
structure Invariant : Prop where
  bounded : s.log.Bounded
  epoch : s.log.committedEpoch ≤ 1
  epochRead : ∀ i, (s.writers i).EpochRead
  held : ∀ i n, (s.writers i).Holds n → n < s.log.nextLogSequence
  distinct : ∀ i j n, (s.writers i).Holds n → (s.writers j).Holds n → i = j
  below : ∀ i, ∀ n ∈ (s.writers i).toStore?, s.log.committedSn < n
  appended : ∀ sn ∈ s.appendedSns, sn < s.log.nextLogSequence
  last : s.appendedSns ≠ [] → s.log.nextLogSequence - 1 ∈ s.appendedSns
  largest : s.appendedSns ≠ [] → s.log.committedSn = s.log.nextLogSequence - 1 ∨
    ∃ i, (s.writers i).Carries (s.log.nextLogSequence - 1)

variable {s : System ι}

omit [DecidableEq ι] in
/-- The invariant holds before any commit. -/
theorem Start.invariant (h : Start s) : Invariant s where
  bounded := h.bounded
  epoch := h.epoch
  epochRead i := by rw [h.idle i]; trivial
  held i n hn := by rw [h.idle i] at hn; exact hn.elim
  distinct i j n hn := by rw [h.idle i] at hn; exact hn.elim
  below i n hn := by rw [h.idle i] at hn; cases hn
  appended := by simp [h.appendedSns]
  last hne := absurd h.appendedSns hne
  largest hne := absurd h.appendedSns hne

/-- A property of all writers after one of them went on. -/
theorem forall_setWriter {Q : ι → Phase → Prop} {i : ι} {p : Phase} (h : ∀ j, Q j (s.writers j))
    (hp : Q i p) (j : ι) : Q j ((s.setWriter i p).writers j) := by
  by_cases hj : j = i
  · subst hj
    simpa [setWriter] using hp
  · simpa [setWriter, hj] using h j

/-- **A writer that goes on without touching the log** to a phase that holds no other
number, is going to store only what is above the committed number, and carries the largest
number if it did before. -/
theorem Invariant.setWriter (h : Invariant s) {i : ι} {p q : Phase} (hi : s.writers i = q)
    (hepoch : p.EpochRead) (hholds : ∀ n, p.Holds n → q.Holds n)
    (hbelow : ∀ n ∈ p.toStore?, s.log.committedSn < n)
    (hcarries : q.Carries (s.log.nextLogSequence - 1) → p.Carries (s.log.nextLogSequence - 1) ∨
      s.log.committedSn = s.log.nextLogSequence - 1) : Invariant (s.setWriter i p) := by
  subst hi
  have hheld : ∀ j n, ((s.setWriter i p).writers j).Holds n → (s.writers j).Holds n := by
    refine forall_setWriter (Q := fun j q => ∀ n, q.Holds n → (s.writers j).Holds n)
      (fun _ _ hn => hn) hholds
  refine ⟨h.bounded, h.epoch, forall_setWriter (Q := fun _ q => q.EpochRead) h.epochRead hepoch,
    fun j n hn => h.held j n (hheld j n hn),
    fun j k n hj hk => h.distinct j k n (hheld j n hj) (hheld k n hk),
    forall_setWriter (Q := fun _ q => ∀ n ∈ q.toStore?, s.log.committedSn < n)
      h.below hbelow,
    h.appended, h.last, fun hne => ?_⟩
  rcases h.largest hne with hdone | ⟨j, hj⟩
  · exact .inl hdone
  · by_cases hji : j = i
    · subst hji
      rcases hcarries hj with hp | hdone
      · exact .inr ⟨j, by simpa [System.setWriter] using hp⟩
      · exact .inl hdone
    · exact .inr ⟨j, by simpa [System.setWriter, hji] using hj⟩

/-- A writer that returns without carrying the largest number. -/
theorem Invariant.setIdle (h : Invariant s) {i : ι} {q : Phase} (hi : s.writers i = q)
    (hcarries : ¬ q.Carries (s.log.nextLogSequence - 1)) : Invariant (s.setWriter i .idle) :=
  h.setWriter hi trivial (fun _ hn => hn.elim) (fun _ hn => nomatch hn)
    fun hn => absurd hn hcarries

/-- **Storing in order**: the stored number is above the committed one and below those of
the other writers that are going to store. -/
theorem Invariant.store (h : Invariant s) {i : ι} {sn : ℤ} (hi : s.writers i = .compared sn)
    (horder : ∀ j, ∀ n ∈ (s.writers j).toStore?, sn ≤ n) :
    Invariant { s.setWriter i (.stored sn) with log := { s.log with committedSn := sn } } := by
  have hsn : sn < s.log.nextLogSequence := h.held i sn (by rw [hi]; rfl)
  have hlt : s.log.committedSn < sn := h.below i sn (by rw [hi]; rfl)
  have hheld : ∀ j n, ((s.setWriter i (.stored sn)).writers j).Holds n →
      (s.writers j).Holds n :=
    forall_setWriter (Q := fun j q => ∀ n, q.Holds n → (s.writers j).Holds n)
      (fun _ _ hn => hn) (by rw [hi]; exact fun n hn => hn)
  refine ⟨⟨hsn, h.bounded.start, h.bounded.bases, h.bounded.low⟩, h.epoch,
    forall_setWriter (Q := fun _ q => q.EpochRead) h.epochRead trivial,
    fun j n hn => h.held j n (hheld j n hn),
    fun j k n hj hk => h.distinct j k n (hheld j n hj) (hheld k n hk), ?_,
    h.appended, h.last, fun hne => ?_⟩
  · intro j n hn
    by_cases hj : j = i
    · subst hj
      simp [System.setWriter, Phase.toStore?] at hn
    · have hother : n ∈ (s.writers j).toStore? := by simpa [System.setWriter, hj] using hn
      have hdiff : sn ≠ n := by
        rintro rfl
        exact hj (h.distinct j i sn (Phase.holds_of_mem_toStore? hother) (by rw [hi]; rfl))
      exact lt_of_le_of_ne (horder j n hother) hdiff
  · rcases h.largest hne with hdone | ⟨j, hj⟩
    · -- the largest number is committed, and nothing above it is to be stored
      omega
    · by_cases hji : j = i
      · subst hji
        rw [hi] at hj
        exact .inl (Option.some.inj hj)
      · have hkeep : (s.setWriter i (.stored sn)).writers j = s.writers j := by
          simp [System.setWriter, hji]
        exact .inr ⟨j, hkeep ▸ hj⟩

omit [DecidableEq ι] in
/-- A log with the same numbers. -/
theorem Invariant.withLog (h : Invariant s) {log : Log} (hb : log.Bounded)
    (hepoch : log.committedEpoch ≤ 1) (hnext : log.nextLogSequence = s.log.nextLogSequence)
    (hcommitted : log.committedSn = s.log.committedSn) : Invariant { s with log } := by
  refine ⟨hb, hepoch, h.epochRead, ?_, h.distinct, ?_, ?_, ?_, ?_⟩
  · rw [hnext]; exact h.held
  · rw [hcommitted]; exact h.below
  · rw [hnext]; exact h.appended
  · rw [hnext]; exact h.last
  · rw [hnext, hcommitted]; exact h.largest

/-- **An append**: the new number is the next one, and its writer carries it. -/
theorem Invariant.append (h : Invariant s) {i : ι} {log : Log} {sn : ℤ} (hb : log.Bounded)
    (hepoch : log.committedEpoch ≤ 1) (hsn : sn = s.log.nextLogSequence)
    (hnext : log.nextLogSequence = s.log.nextLogSequence + 1)
    (hcommitted : log.committedSn = s.log.committedSn) :
    Invariant { s.setWriter i (.appended sn) with log, appendedSns := sn :: s.appendedSns } := by
  have hself : (s.setWriter i (.appended sn)).writers i = .appended sn := by
    simp [System.setWriter]
  have hheld : ∀ j n, ((s.setWriter i (.appended sn)).writers j).Holds n →
      n = sn ∧ j = i ∨ n < sn ∧ (s.writers j).Holds n :=
    forall_setWriter (Q := fun j q => ∀ n, q.Holds n → n = sn ∧ j = i ∨
      n < sn ∧ (s.writers j).Holds n) (fun j n hn => .inr ⟨hsn ▸ h.held j n hn, hn⟩)
      (fun n hn => .inl ⟨Eq.symm hn, rfl⟩)
  refine ⟨hb, hepoch, ?_, ?_, ?_, ?_, ?_, ?_, ?_⟩
  · exact forall_setWriter (Q := fun _ q => q.EpochRead) h.epochRead trivial
  · intro j n hn
    simp only [hnext]
    rcases hheld j n hn with ⟨rfl, -⟩ | ⟨hlt, -⟩ <;> omega
  · intro j k n hj hk
    rcases hheld j n hj with ⟨rfl, rfl⟩ | ⟨hlt, hj⟩
    · rcases hheld k n hk with ⟨-, rfl⟩ | ⟨hlt, -⟩
      · rfl
      · omega
    · rcases hheld k n hk with ⟨rfl, -⟩ | ⟨-, hk⟩
      · omega
      · exact h.distinct j k n hj hk
  · simp only [hcommitted]
    exact forall_setWriter (Q := fun _ q => ∀ n ∈ q.toStore?, s.log.committedSn < n)
      h.below (fun n hn => nomatch hn)
  · intro n hn
    simp only [hnext]
    rcases List.mem_cons.mp hn with rfl | hn
    · omega
    · have := h.appended n hn
      omega
  · intro _
    simp only [hnext, hsn, add_sub_cancel_right]
    exact List.mem_cons_self
  · intro _
    refine .inr ⟨i, ?_⟩
    simp only [hnext, hself, ← hsn, add_sub_cancel_right]
    rfl

/-- **The step that takes the mutex** keeps the invariant. -/
theorem Invariant.lockWriter (h : Invariant s) (i : ι) (io : FileOutcomes) (now : Int64)
    (hrange : s.log.nextLogSequence + 1 < 2 ^ 63) : Invariant (s.lockWriter i io now) := by
  rw [System.lockWriter]
  split
  next entry hi =>
    have hepoch := (s.log.committedEpoch_appendLocalLocked io now entry).trans_le h.epoch
    split
    next log err heq =>
      obtain ⟨hb, hcommitted, -, herr⟩ := h.bounded.appendLocalLocked io now entry (by omega) heq
      rw [heq] at hepoch
      exact (h.setIdle hi fun hn => nomatch hn).withLog hb hepoch (herr err rfl) hcommitted
    next log sn heq =>
      obtain ⟨hb, hcommitted, hok, -⟩ := h.bounded.appendLocalLocked io now entry (by omega) heq
      rw [heq] at hepoch
      obtain ⟨hsn, hnext⟩ := hok sn rfl
      exact h.append hb hepoch hsn hnext hcommitted
  · exact h

/-- **One step** in order keeps the invariant. -/
theorem Invariant.step (h : Invariant s) {a : Action ι} (hrange : InRange s a)
    (horder : InOrder s a) : Invariant (s.step a) := by
  cases a with
  | call i entry =>
    rw [System.step, callWriter]
    split
    next hi _ =>
      exact h.setWriter hi trivial (fun n hn => hn.elim) (fun n hn => nomatch hn)
        fun hn => nomatch hn
    · exact h
  | lock i io now => exact h.lockWriter i io now hrange
  | advance i =>
    rw [System.step, advanceWriter]
    split
    next sn hi =>
      exact h.setWriter hi h.epoch (fun n hn => hn) (fun n hn => nomatch hn) .inl
    next sn prevEpoch hi =>
      have hread := h.epochRead i
      rw [hi] at hread
      refine h.setWriter hi hread (fun n hn => hn)
        (fun n hn => (Phase.mem_toStore?_readCommitted.mp hn).2) fun hcarries => ?_
      -- what is committed does not exceed the largest number
      have hle := h.bounded.committed
      by_cases hdone : s.log.committedSn = s.log.nextLogSequence - 1
      · exact .inr hdone
      · exact .inl (Phase.mem_toStore?_readCommitted.mpr ⟨hcarries, by omega⟩)
    next sn prevEpoch prevCommitSn hi =>
      have hread := h.epochRead i
      have hsn := h.held i sn (by rw [hi]; rfl)
      have hbelow := h.below i sn
      rw [hi] at hread hbelow
      have hepoch : ¬ 1 < prevEpoch := not_lt.mpr hread
      rw [compare, if_neg hepoch, if_neg (not_le.mpr hsn)]
      split
      next hlt =>
        refine h.setWriter hi trivial (fun n hn => hn) ?_ fun hcarries => ?_
        · rintro n ⟨⟩
          exact hbelow (Phase.mem_toStore?_readCommitted.mpr ⟨rfl, hlt⟩)
        · exact .inl (congrArg some (Phase.mem_toStore?_readCommitted.mp hcarries).1)
      next hge =>
        refine h.setIdle hi fun hcarries => ?_
        obtain ⟨rfl, hlt⟩ := Phase.mem_toStore?_readCommitted.mp hcarries
        exact hge hlt
    next sn hi => exact h.store hi (horder sn (by rw [hi]; rfl))
    next sn hi =>
      exact (h.setIdle hi fun hn => nomatch hn).withLog
        ⟨h.bounded.committed, h.bounded.start, h.bounded.bases, h.bounded.low⟩ le_rfl rfl rfl
    · exact h
    · exact h

/-- The committed sequence number does not decrease in a step in order. -/
theorem Invariant.committedSn_le_step (h : Invariant s) (a : Action ι) (hrange : InRange s a) :
    s.log.committedSn ≤ (s.step a).log.committedSn := by
  cases a with
  | call i entry =>
    rw [System.step, callWriter]
    split <;> exact le_rfl
  | lock i io now =>
    rw [System.step, System.lockWriter]
    split
    next entry hi =>
      have hlt : s.log.nextLogSequence < 2 ^ 63 := (lt_add_one _).trans hrange
      split
      next heq => exact (h.bounded.appendLocalLocked io now entry hlt heq).2.1.ge
      next heq => exact (h.bounded.appendLocalLocked io now entry hlt heq).2.1.ge
    · exact le_rfl
  | advance i =>
    rw [System.step, advanceWriter]
    split
    · exact le_rfl
    · exact le_rfl
    · exact le_rfl
    next sn hi => exact (h.below i sn (by rw [hi]; rfl)).le
    · exact le_rfl
    · exact le_rfl
    · exact le_rfl

/-- **No commit is lost** in a run in order: the committed sequence number does not decrease
in any step of it, and once all calls have returned it is the largest one appended. -/
theorem commits_never_lost {s₀ : System ι} (hstart : Start s₀)
    (hrun : Relation.ReflTransGen OrderedStep s₀ s) :
    (∀ s', OrderedStep s s' → s.log.committedSn ≤ s'.log.committedSn) ∧
      ((∀ i, s.writers i = .idle) → s.appendedSns ≠ [] →
        IsGreatest {sn | sn ∈ s.appendedSns} s.log.committedSn) := by
  have hinv : Invariant s := GuardedRun.invariant
    (fun _ _ h hguard => h.step hguard.1 hguard.2) hstart.invariant hrun
  constructor
  · rintro s' ⟨a, ⟨hrange, -⟩, rfl⟩
    exact hinv.committedSn_le_step a hrange
  · intro hidle hne
    rcases hinv.largest hne with hdone | ⟨i, hi⟩
    · rw [hdone]
      exact ⟨hinv.last hne, fun n hn => by have := hinv.appended n hn; omega⟩
    · rw [hidle i] at hi
      cases hi

/-- A fresh log and two writers. -/
def twoWriters : System Bool where
  log := Log.fresh {}
  writers _ := .idle
  appendedSns := []

theorem start_twoWriters : Start twoWriters where
  bounded := (Log.created_fresh {}).bounded
  epoch := Nat.zero_le 1
  idle _ := rfl
  appendedSns := rfl

/-- Both writers append before one of them commits, and the second one reads what is
committed after the first one has stored. -/
theorem commits_never_lost_two_writers :
    let s := [.call true {}, .call false {}, .lock true .ok 0, .lock false .ok 0,
      .advance true, .advance false, .advance true, .advance true, .advance true,
      .advance false, .advance false, .advance true, .advance false,
      .advance false].foldl step twoWriters
    s.appendedSns = [2, 1] ∧ s.log.committedSn = 2 ∧
      IsGreatest {sn | sn ∈ s.appendedSns} s.log.committedSn :=
  ⟨by decide, by decide, (commits_never_lost start_twoWriters
    (GuardedRun.Along.reflTransGen (by decide))).2 (by decide) (by decide)⟩

/-- Both writers read that nothing is committed. The second one stores 2, then the first one
stores 1: what is committed decreases, and with both calls returned the last entry is not
committed. -/
theorem commit_lost :
    ∃ s s' s'' : System Bool, Start twoWriters ∧ Relation.ReflTransGen Step twoWriters s ∧
      Step s s' ∧ s.log.committedSn = 2 ∧ s'.log.committedSn = 1 ∧
      Relation.ReflTransGen Step s' s'' ∧ (∀ i, s''.writers i = .idle) ∧
      s''.appendedSns = [2, 1] ∧ s''.log.committedSn = 1 := by
  let s := [.call true {}, .call false {}, .lock true .ok 0, .lock false .ok 0,
    .advance true, .advance false, .advance true, .advance false, .advance true,
    .advance false, .advance false].foldl step twoWriters
  let s' := s.step (.advance true)
  let s'' := [.advance true, .advance false].foldl step s'
  refine ⟨s, s', s'', start_twoWriters, GuardedRun.Along.reflTransGen (by decide),
    ⟨.advance true, trivial, rfl⟩, by decide, by decide,
    GuardedRun.Along.reflTransGen (by decide), by decide, by decide, by decide⟩

end System

end Proton
