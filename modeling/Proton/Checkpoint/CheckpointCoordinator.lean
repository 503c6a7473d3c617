import Mathlib.Algebra.Group.Nat.Defs
import Mathlib.Data.Prod.Lex
import Mathlib.Order.Nat
import Proton.Lib.GuardedRun
import Proton.Lib.SortedMap

/-!
# Checkpoint Epochs

This module embeds how an epoch of checkpoints is prepared, triggered, acknowledged and committed
(`CheckpointableQuery.cpp`, `CheckpointCoordinator_Schedule.cpp`,
`CheckpointCoordinator_Checkpoint.cpp`) and what `DiskCheckpointStorage` keeps of it. The
coordinator is seen from one of its queries: every section under its mutex is one action, and so is
what happens between two sections, so that threads that trigger, nodes that acknowledge and the
removals of old checkpoints interleave in any order.

The storage is a set of directories, one for each epoch, some of them with the file `committed`.
Its operations succeed. Left out are the data in the directories and the mark of a whole query as
deleted, which no modelled function sets.

## Main results

* `Invariant.step`: what every action keeps.
* `epochs_commit_atomically`: an epoch is committed when all nodes have acknowledged it, the last
  epoch increases, and the last committed directory is not removed.
-/

open List SortedMap

namespace Proton.Checkpoint

/-! ### Epochs and the storage -/

/-- `CheckpointEpoch`: a number and an ulid, in the order of `operator<=>`. -/
abbrev CheckpointEpoch (U : Type) : Type := ℤ ×ₗ U

variable {U : Type} [LinearOrder U] [OrderBot U]

namespace CheckpointEpoch

/-- `epoch`. -/
def epoch (e : CheckpointEpoch U) : ℤ := (ofLex e).1

/-- `ulid`. -/
def ulid (e : CheckpointEpoch U) : U := (ofLex e).2

/-- The epoch after `reset`, with an empty ulid. -/
def none : CheckpointEpoch U := toLex (0, ⊥)

/-- `empty`. -/
def Empty (e : CheckpointEpoch U) : Prop := e.epoch ≤ 0
deriving Decidable

end CheckpointEpoch

/-- The directories of a query, with whether they are committed. -/
abbrev Disk (U : Type) [LinearOrder U] : Type := SortedMap (CheckpointEpoch U) Bool

namespace Disk

/-- `preCheckpoint` for the directory of an epoch. It fails with `CHECKPOINT_ALREADY_EXISTS` if the
directory is committed. -/
def preCheckpoint (disk : Disk U) (e : CheckpointEpoch U) : Option (Disk U) :=
  match disk.find? e with
  | some true => none
  | _ => some (disk.insert e false)

/-- `commit`. -/
def commit (disk : Disk U) (e : CheckpointEpoch U) : Disk U := disk.insert e true

/-- `remove` deletes a directory. -/
def removeDir (disk : Disk U) (dir : CheckpointEpoch U) : Disk U := disk.erase dir

/-- `getLastCommittedEpoch`. -/
def getLastCommittedEpoch (disk : Disk U) : CheckpointEpoch U :=
  disk.toList.foldl (fun maxEpoch dir => if maxEpoch < dir.1 ∧ dir.2 then dir.1 else maxEpoch)
    .none

end Disk

/-! ### The query -/

/-- `CheckpointableQuery`. -/
structure CheckpointableQuery (U : Type) where
  /-- `ack_nodes_readonly`. -/
  ackNodesReadonly : Finset UInt32
  /-- `ack_nodes`: the nodes that have not acknowledged. -/
  ackNodes : Finset UInt32
  /-- `current_epoch`. -/
  currentEpoch : CheckpointEpoch U
  /-- `last_epoch`. -/
  lastEpoch : CheckpointEpoch U

namespace CheckpointableQuery

variable (query : CheckpointableQuery U)

/-- `prepareForNextEpoch`. -/
def prepareForNextEpoch : CheckpointableQuery U :=
  { query with
    lastEpoch := query.currentEpoch
    currentEpoch := .none
    ackNodes := query.ackNodesReadonly }

/-- `prepareNextCheckpointContext` with the ulid that is generated. -/
def prepareNextCheckpointContext (ulid : U) : CheckpointableQuery U :=
  if query.currentEpoch.Empty then
    { query with currentEpoch := toLex (query.lastEpoch.epoch + 1, ulid) }
  else query

/-- The locked section of `resetCurrentCheckpointEpoch`. -/
def resetCurrentCheckpointEpoch : CheckpointableQuery U :=
  { query with
    currentEpoch := .none
    ackNodes := query.ackNodesReadonly }

end CheckpointableQuery

/-! ### Triggers -/

/-- How far a call of `doTriggerCheckpoint` is. -/
inductive Phase (U : Type) where
  /-- The context was prepared. -/
  | prepared
  /-- The directory was made, and `exec->triggerCheckpoint` is under way. -/
  | triggering
  /-- `CHECKPOINT_ALREADY_EXISTS` was caught. -/
  | alreadyExists
  /-- `last_committed_epoch` was read from the storage. -/
  | found (lastCommittedEpoch : CheckpointEpoch U)
deriving DecidableEq

/-- A `CheckpointContext` that was handed to `doTriggerCheckpoint`. -/
structure Trigger (U : Type) where
  /-- `epoch`. -/
  epoch : CheckpointEpoch U
  /-- The context has the executor: it has started the epoch. -/
  executor : Bool
  /-- How far the call is. -/
  phase : Phase U := .prepared
deriving DecidableEq

/-- The coordinator, as far as it concerns one query. -/
structure CheckpointCoordinator (U : Type) [LinearOrder U] where
  /-- The query. -/
  query : CheckpointableQuery U
  /-- The storage of the query. -/
  disk : Disk U
  /-- The calls of `doTriggerCheckpoint` that are under way. -/
  triggers : List (Trigger U) := []
  /-- The contexts that `removeOldOrExpiredCheckpoints` has collected. -/
  toRemove : List (CheckpointEpoch U) := []
  /-- The last committed epochs that `removeOldCheckpoints` has found. -/
  maxCommitted : List (CheckpointEpoch U) := []
  /-- The ulids that were generated. -/
  ulids : List U := []
  /-- The acknowledgements that were accepted. -/
  acks : List (UInt32 × CheckpointEpoch U) := []
  /-- What was assigned to `last_epoch`, one after the other. -/
  lastEpochs : List (CheckpointEpoch U)

/-- What happens. -/
inductive Action (U : Type) where
  /-- The first section of `triggerCheckpoint`, `triggerCheckpointForQuery` or
  `triggerLastCheckpointAndFlush`. -/
  | prepare (ulid : U)
  /-- `doTriggerCheckpoint` without an executor: the previous epoch is still in progress. -/
  | inProgress (t : Trigger U)
  /-- There is no new data, or another heavy checkpoint is in progress. -/
  | skip (t : Trigger U)
  /-- `preCheckpoint`. -/
  | preCheckpoint (t : Trigger U)
  /-- `exec->triggerCheckpoint` has reached all sources. -/
  | success (t : Trigger U)
  /-- `exec->triggerCheckpoint` fails, after some sources were reached. -/
  | failure (t : Trigger U)
  /-- `getLastCommittedEpoch` when the directory is committed already. -/
  | load (t : Trigger U)
  /-- The section after that. -/
  | update (t : Trigger U) (lastCommittedEpoch : CheckpointEpoch U)
  /-- `resetCurrentCheckpointEpoch` when `triggerCheckpoint` fails. -/
  | reset
  /-- `checkpointed`. -/
  | checkpointed (nodeId : UInt32) (epoch : CheckpointEpoch U)
  /-- The first section of `removeOldOrExpiredCheckpoints`. -/
  | collect
  /-- `DiskCheckpointStorage::remove` deletes a directory. -/
  | remove (ctx dir : CheckpointEpoch U)
  /-- `removeOldCheckpoints` has scanned the directories of the query. -/
  | scan
  /-- `removeOldCheckpoints` deletes a directory. -/
  | removeOld (maxCommitted dir : CheckpointEpoch U)

namespace CheckpointCoordinator

variable (s : CheckpointCoordinator U)

/-- A query is registered: its last epoch is the one that was recovered from the storage. -/
def new (nodes : Finset UInt32) (disk : Disk U) : CheckpointCoordinator U where
  query := ⟨nodes, nodes, .none, disk.getLastCommittedEpoch⟩
  disk := disk
  lastEpochs := [disk.getLastCommittedEpoch]

/-- A trigger gets to another phase. -/
def goTo (t : Trigger U) (phase : Phase U) : CheckpointCoordinator U :=
  { s with triggers := { t with phase } :: s.triggers.erase t }

/-- A trigger is over. -/
def finish (t : Trigger U) : CheckpointCoordinator U := { s with triggers := s.triggers.erase t }

/-- `resetCurrentCheckpointEpoch`. -/
def reset : CheckpointCoordinator U := { s with query := s.query.resetCurrentCheckpointEpoch }

/-- `ack`. -/
def ack (nodeId : UInt32) : CheckpointCoordinator U :=
  { s with
    query := { s.query with ackNodes := s.query.ackNodes.erase nodeId }
    acks := s.acks ++ [(nodeId, s.query.currentEpoch)] }

/-- `commit` of the current epoch. -/
def commit : CheckpointCoordinator U :=
  { s with
    query := s.query.prepareForNextEpoch
    disk := s.disk.commit s.query.currentEpoch
    lastEpochs := s.lastEpochs ++ [s.query.currentEpoch] }

/-- `checkpointed`. An acknowledgement of another epoch is ignored or rejected. -/
def checkpointed (nodeId : UInt32) (epoch : CheckpointEpoch U) : CheckpointCoordinator U :=
  if nodeId = UInt32.ofNat (2 ^ 32 - 1) then s
  else if epoch ≠ s.query.currentEpoch then s
  else if (s.ack nodeId).query.ackNodes = ∅ then (s.ack nodeId).commit
  else s.ack nodeId

/-- The section in which `last_epoch` catches up with the storage. -/
def update (lastCommittedEpoch : CheckpointEpoch U) : CheckpointCoordinator U :=
  if s.query.lastEpoch < lastCommittedEpoch then
    { s.reset with
      query := { s.reset.query with lastEpoch := lastCommittedEpoch }
      lastEpochs := s.lastEpochs ++ [lastCommittedEpoch] }
  else s.reset

/-- One action. -/
def step : Action U → CheckpointCoordinator U
  | .prepare ulid =>
    let query := s.query.prepareNextCheckpointContext ulid
    { s with
      query
      triggers := ⟨query.currentEpoch, s.query.currentEpoch.Empty, .prepared⟩ :: s.triggers
      ulids := ulid :: s.ulids }
  | .inProgress t | .success t => s.finish t
  | .skip t | .failure t => (s.finish t).reset
  | .preCheckpoint t =>
    match s.disk.preCheckpoint t.epoch with
    | some disk => { s.goTo t .triggering with disk }
    | none => s.goTo t .alreadyExists
  | .load t => s.goTo t (.found s.disk.getLastCommittedEpoch)
  | .update t lastCommittedEpoch => (s.finish t).update lastCommittedEpoch
  | .reset => s.reset
  | .checkpointed nodeId epoch => s.checkpointed nodeId epoch
  | .collect =>
    if 1 < s.query.lastEpoch.epoch then { s with toRemove := s.query.lastEpoch :: s.toRemove }
    else s
  | .remove _ dir | .removeOld _ dir => { s with disk := s.disk.removeDir dir }
  | .scan => { s with maxCommitted := s.disk.getLastCommittedEpoch :: s.maxCommitted }

/-- When an action can happen: a ulid is new, a call of `doTriggerCheckpoint` is as far as the
action says, epochs that are acknowledged were prepared, `remove` deletes smaller epochs, and
`removeOldCheckpoints` those with a smaller number. -/
def Allowed : Action U → Prop
  | .prepare ulid => ulid ∉ s.ulids
  | .inProgress t => t ∈ s.triggers ∧ t.phase = .prepared ∧ t.executor = false
  | .skip t | .preCheckpoint t => t ∈ s.triggers ∧ t.phase = .prepared ∧ t.executor = true
  | .success t | .failure t => t ∈ s.triggers ∧ t.phase = .triggering
  | .load t => t ∈ s.triggers ∧ t.phase = .alreadyExists
  | .update t lastCommittedEpoch => t ∈ s.triggers ∧ t.phase = .found lastCommittedEpoch
  | .reset | .collect | .scan => True
  | .checkpointed _ epoch => ¬ epoch.Empty
  | .remove ctx dir => ctx ∈ s.toRemove ∧ dir < ctx
  | .removeOld maxCommitted dir => maxCommitted ∈ s.maxCommitted ∧ dir.epoch < maxCommitted.epoch

end CheckpointCoordinator

/-! ### The last committed directory -/

namespace Disk

variable {disk disk' : Disk U} {e dir : CheckpointEpoch U}

/-- **The last committed epoch** is the greatest one. -/
theorem le_getLastCommittedEpoch_iff :
    e ≤ disk.getLastCommittedEpoch ↔ e ≤ .none ∨ ∃ d, disk.find? d = some true ∧ e ≤ d := by
  have hloop : ∀ (l : List (CheckpointEpoch U × Bool)) (m : CheckpointEpoch U),
      e ≤ l.foldl (fun m dir => if m < dir.1 ∧ dir.2 then dir.1 else m) m ↔
        e ≤ m ∨ ∃ d, (d, true) ∈ l ∧ e ≤ d := by
    intro l
    induction l with
    | nil => simp
    | cons x l ih =>
      intro m
      obtain ⟨d, committed⟩ := x
      rw [foldl_cons, ih]
      cases committed with
      | false => simp
      | true =>
        by_cases hlt : m < d
        · have hmd : e ≤ m → e ≤ d := fun h => h.trans hlt.le
          simp only [hlt, mem_cons, Prod.mk.injEq, and_true,
            or_and_right, exists_or, exists_eq_left]
          tauto
        · have hdm : e ≤ d → e ≤ m := fun h => h.trans (not_lt.1 hlt)
          simp only [hlt, mem_cons, Prod.mk.injEq, and_true,
            or_and_right, exists_or, exists_eq_left]
          tauto
  rw [getLastCommittedEpoch, hloop]
  simp only [find?_eq_some]

/-- The last committed epoch is at least the empty one. -/
theorem none_le_getLastCommittedEpoch : .none ≤ disk.getLastCommittedEpoch :=
  le_getLastCommittedEpoch_iff.2 (.inl le_rfl)

/-- Committed directories stay below the last one. -/
theorem getLastCommittedEpoch_mono (h : ∀ d, disk.find? d = some true → disk'.find? d = some true)
    (he : e ≤ disk.getLastCommittedEpoch) : e ≤ disk'.getLastCommittedEpoch := by
  rw [le_getLastCommittedEpoch_iff] at he ⊢
  exact he.imp_right fun ⟨d, hd, hle⟩ => ⟨d, h d hd, hle⟩

/-- The last committed directory is not removed with a smaller one. -/
theorem getLastCommittedEpoch_removeDir (hdir : dir < disk.getLastCommittedEpoch)
    (he : e ≤ disk.getLastCommittedEpoch) : e ≤ (disk.removeDir dir).getLastCommittedEpoch := by
  refine he.trans ?_
  rcases le_getLastCommittedEpoch_iff.1 (le_refl disk.getLastCommittedEpoch) with
    hnone | ⟨d, hd, hle⟩
  · exact hnone.trans none_le_getLastCommittedEpoch
  · refine le_getLastCommittedEpoch_iff.2 (.inr ⟨d, ?_, hle⟩)
    rw [removeDir, find?_erase, if_neg (hdir.trans_le hle).ne', hd]

omit [OrderBot U] in
/-- `preCheckpoint` commits nothing and keeps what is committed. -/
theorem find?_preCheckpoint (h : disk.preCheckpoint e = some disk') (d : CheckpointEpoch U) :
    disk'.find? d = some true ↔ disk.find? d = some true := by
  rw [preCheckpoint] at h
  split at h
  · cases h
  · cases h
    rename_i hnot
    rw [find?_insert]
    split_ifs with hd
    · subst hd
      simp only [Option.some.injEq, Bool.false_eq_true, false_iff]
      exact hnot
    · rfl

end Disk

/-! ### The invariant -/

/-- What holds in every state of a coordinator that was started with `nodes` and `start`. -/
structure Invariant (nodes : Finset UInt32) (start : Disk U) (s : CheckpointCoordinator U) :
    Prop where
  /-- The nodes stay. -/
  readonly : s.query.ackNodesReadonly = nodes
  /-- Numbers count from zero. -/
  nonneg : 0 ≤ s.query.lastEpoch.epoch
  /-- Between two epochs, no node has acknowledged. -/
  idle : s.query.currentEpoch.Empty → s.query.ackNodes = nodes
  /-- The current epoch is the next one. -/
  number : ¬ s.query.currentEpoch.Empty →
    s.query.currentEpoch.epoch = s.query.lastEpoch.epoch + 1
  /-- A node that is not waited for has acknowledged the current epoch. -/
  acked : ∀ node ∈ nodes, node ∉ s.query.ackNodes → (node, s.query.currentEpoch) ∈ s.acks
  /-- Every node has acknowledged what is committed. -/
  committed : ∀ e, s.disk.find? e = some true →
    start.find? e = some true ∨ ∀ node ∈ nodes, (node, e) ∈ s.acks
  /-- The last epoch is committed. -/
  last : s.query.lastEpoch ≤ s.disk.getLastCommittedEpoch
  /-- So are the epochs below which directories are removed. -/
  toRemove : ∀ ctx ∈ s.toRemove, ctx ≤ s.disk.getLastCommittedEpoch
  /-- So are those that were found by a scan. -/
  maxCommitted : ∀ e ∈ s.maxCommitted, e ≤ s.disk.getLastCommittedEpoch
  /-- And those that were read from the storage. -/
  found : ∀ t ∈ s.triggers, ∀ e, t.phase = .found e → e ≤ s.disk.getLastCommittedEpoch
  /-- The last epoch has increased. -/
  increasing : s.lastEpochs.Pairwise (· < ·)
  /-- It is the greatest one so far. -/
  le_last : ∀ e ∈ s.lastEpochs, e ≤ s.query.lastEpoch

omit [OrderBot U] in
/-- Epochs are ordered by their numbers first. -/
theorem CheckpointEpoch.lt_of_epoch_lt {e e' : CheckpointEpoch U} (h : e.epoch < e'.epoch) :
    e < e' :=
  Prod.Lex.lt_iff.2 (.inl h)

omit [OrderBot U] in
/-- A smaller epoch has no larger number. -/
theorem CheckpointEpoch.epoch_le {e e' : CheckpointEpoch U} (h : e ≤ e') : e.epoch ≤ e'.epoch := by
  rcases Prod.Lex.le_iff.1 h with hlt | heq
  · exact hlt.le
  · exact heq.1.le

namespace Invariant

variable {nodes : Finset UInt32} {start : Disk U} {s : CheckpointCoordinator U}

/-- The invariant holds at the start. -/
theorem new (nodes : Finset UInt32) (start : Disk U) :
    Invariant nodes start (.new nodes start) where
  readonly := rfl
  nonneg := CheckpointEpoch.epoch_le Disk.none_le_getLastCommittedEpoch
  idle _ := rfl
  number h := absurd (le_refl (0 : ℤ)) h
  acked _ hnode hnot := absurd hnode hnot
  committed _ h := .inl h
  last := le_rfl
  toRemove _ h := nomatch h
  maxCommitted _ h := nomatch h
  found _ h := nomatch h
  increasing := pairwise_singleton _ _
  le_last _ h := (mem_singleton.1 h).le

variable (h : Invariant nodes start s)
include h

/-- Triggers may end. -/
theorem finish (t : Trigger U) : Invariant nodes start (s.finish t) :=
  { h with found := fun t' ht' => h.found t' (mem_of_mem_erase ht') }

/-- Triggers may go on. -/
theorem goTo (t : Trigger U) {phase : Phase U}
    (hphase : ∀ e, phase = .found e → e ≤ s.disk.getLastCommittedEpoch) :
    Invariant nodes start (s.goTo t phase) :=
  { h with
    found := fun t' ht' => by
      rcases mem_cons.1 ht' with rfl | ht'
      · exact hphase
      · exact h.found t' (mem_of_mem_erase ht') }

/-- The current epoch is given up. -/
theorem reset : Invariant nodes start s.reset :=
  { h with
    idle := fun _ => h.readonly
    number := fun hempty => absurd (le_refl (0 : ℤ)) hempty
    acked := fun node hnode hnot => by
      rw [← h.readonly] at hnode
      exact absurd hnode hnot }

/-- The last epoch catches up. -/
theorem update {e : CheckpointEpoch U}
    (he : e ≤ s.disk.getLastCommittedEpoch) : Invariant nodes start (s.update e) := by
  rw [CheckpointCoordinator.update]
  split_ifs with hlt
  · exact
      { h.reset with
        nonneg := h.nonneg.trans (CheckpointEpoch.epoch_le hlt.le)
        number := fun hempty => absurd (le_refl (0 : ℤ)) hempty
        last := he
        increasing := pairwise_append.2 ⟨h.increasing, pairwise_singleton _ _,
          fun a ha b hb => mem_singleton.1 hb ▸ (h.le_last a ha).trans_lt hlt⟩
        le_last := fun e' he' => (mem_append.1 he').elim
          (fun he' => (h.le_last e' he').trans hlt.le) fun he' => (mem_singleton.1 he').le }
  · exact h.reset

/-- Directories change, and committed ones stay or are not the last one. -/
theorem setDisk {disk : Disk U}
    (hkeep : ∀ e, e ≤ s.disk.getLastCommittedEpoch → e ≤ disk.getLastCommittedEpoch)
    (hold : ∀ e, disk.find? e = some true → s.disk.find? e = some true) :
    Invariant nodes start { s with disk } :=
  { h with
    committed := fun e he => h.committed e (hold e he)
    last := hkeep _ h.last
    toRemove := fun ctx hctx => hkeep _ (h.toRemove ctx hctx)
    maxCommitted := fun e he => hkeep _ (h.maxCommitted e he)
    found := fun t ht e he => hkeep _ (h.found t ht e he) }

/-- Preparing an epoch keeps the invariant. -/
theorem prepare (ulid : U) : Invariant nodes start (s.step (.prepare ulid)) := by
  simp only [CheckpointCoordinator.step, CheckpointableQuery.prepareNextCheckpointContext]
  have hfound : ∀ t ∈ (⟨if s.query.currentEpoch.Empty then
        toLex (s.query.lastEpoch.epoch + 1, ulid) else s.query.currentEpoch,
        s.query.currentEpoch.Empty, .prepared⟩ : Trigger U) :: s.triggers,
      ∀ e, t.phase = .found e → e ≤ s.disk.getLastCommittedEpoch := by
    intro t ht e he
    rcases mem_cons.1 ht with rfl | ht
    · cases he
    · exact h.found t ht e he
  by_cases hempty : s.query.currentEpoch.Empty
  · simp only [hempty] at hfound ⊢
    have hnodes := h.idle hempty
    exact
      { h with
        idle := fun _ => hnodes
        number := fun _ => rfl
        acked := fun node hnode hnot => absurd (hnodes ▸ hnode) hnot
        found := hfound }
  · simp only [hempty] at hfound ⊢
    exact { h with found := hfound }

/-- A node acknowledges the current epoch. -/
theorem ack (hempty : ¬ s.query.currentEpoch.Empty)
    (nodeId : UInt32) : Invariant nodes start (s.ack nodeId) :=
  { h with
    idle := fun hnone => absurd hnone hempty
    acked := fun node hnode hnot => by
      by_cases hself : node = nodeId
      · exact mem_append_right _ (hself ▸ mem_singleton_self _)
      · exact mem_append_left _ (h.acked node hnode fun hmem =>
          hnot (Finset.mem_erase.2 ⟨hself, hmem⟩))
    committed := fun e he => (h.committed e he).imp_right fun hold node hnode =>
      mem_append_left _ (hold node hnode) }

/-- All nodes have acknowledged the current epoch. -/
theorem commit (hempty : ¬ s.query.currentEpoch.Empty)
    (hall : s.query.ackNodes = ∅) : Invariant nodes start s.commit := by
  have hlt : s.query.lastEpoch < s.query.currentEpoch :=
    CheckpointEpoch.lt_of_epoch_lt (by have := h.number hempty; omega)
  have hfind : ∀ e, (s.disk.commit s.query.currentEpoch).find? e =
      if e = s.query.currentEpoch then some true else s.disk.find? e := fun e =>
    find?_insert
  have hkeep : ∀ e, e ≤ s.disk.getLastCommittedEpoch →
      e ≤ (s.disk.commit s.query.currentEpoch).getLastCommittedEpoch := fun e =>
    Disk.getLastCommittedEpoch_mono fun d hd => by rw [hfind, hd, ite_self]
  exact
    { h.reset with
      nonneg := h.nonneg.trans (CheckpointEpoch.epoch_le hlt.le)
      number := fun hnone => absurd (le_refl (0 : ℤ)) hnone
      committed := fun e he => by
        rcases eq_or_ne e s.query.currentEpoch with rfl | hne
        · exact .inr fun node hnode =>
            h.acked node hnode (hall ▸ Finset.notMem_empty node)
        · have hold := (hfind e).symm.trans he
          rw [if_neg hne] at hold
          exact h.committed e hold
      last := Disk.le_getLastCommittedEpoch_iff.2
        (.inr ⟨s.query.currentEpoch, (hfind _).trans (if_pos rfl), le_rfl⟩)
      toRemove := fun ctx hctx => hkeep _ (h.toRemove ctx hctx)
      maxCommitted := fun e he => hkeep _ (h.maxCommitted e he)
      found := fun t ht e he => hkeep _ (h.found t ht e he)
      increasing := pairwise_append.2 ⟨h.increasing, pairwise_singleton _ _,
        fun a ha b hb => mem_singleton.1 hb ▸ (h.le_last a ha).trans_lt hlt⟩
      le_last := fun e he => (mem_append.1 he).elim
        (fun he => (h.le_last e he).trans hlt.le) fun he => (mem_singleton.1 he).le }

/-- **An acknowledgement.** The last one that is waited for commits the epoch. -/
theorem checkpointed (nodeId : UInt32) {epoch : CheckpointEpoch U}
    (hepoch : ¬ epoch.Empty) : Invariant nodes start (s.checkpointed nodeId epoch) := by
  rw [CheckpointCoordinator.checkpointed]
  split_ifs with hskip hne hall
  · exact h
  · exact h
  · obtain rfl : epoch = s.query.currentEpoch := not_not.1 hne
    exact (h.ack hepoch nodeId).commit hepoch hall
  · obtain rfl : epoch = s.query.currentEpoch := not_not.1 hne
    exact h.ack hepoch nodeId

/-- A directory is deleted that is before the last committed one. -/
theorem removeDir {dir : CheckpointEpoch U} (hdir : dir < s.disk.getLastCommittedEpoch) :
    Invariant nodes start { s with disk := s.disk.removeDir dir } := by
  refine h.setDisk (fun e => Disk.getLastCommittedEpoch_removeDir hdir) fun e he => ?_
  rw [Disk.removeDir, find?_erase] at he
  split_ifs at he
  exact he

/-- A directory that `removeOldCheckpoints` deletes is before the last committed one. -/
theorem lt_of_maxCommitted {maxCommitted dir : CheckpointEpoch U}
    (hmem : maxCommitted ∈ s.maxCommitted) (hdir : dir.epoch < maxCommitted.epoch) :
    dir < s.disk.getLastCommittedEpoch :=
  (CheckpointEpoch.lt_of_epoch_lt hdir).trans_le (h.maxCommitted maxCommitted hmem)

/-- **Every action** keeps the invariant. -/
theorem step {action : Action U} (hallowed : s.Allowed action) :
    Invariant nodes start (s.step action) := by
  cases action with
  | prepare ulid => exact h.prepare ulid
  | inProgress t => exact h.finish t
  | skip t => exact (h.finish t).reset
  | preCheckpoint t =>
    simp only [CheckpointCoordinator.step]
    cases hdisk : s.disk.preCheckpoint t.epoch with
    | none => exact h.goTo t (by intro e he; cases he)
    | some disk =>
      have hfind := Disk.find?_preCheckpoint hdisk
      exact (h.goTo t (by intro e he; cases he)).setDisk
        (fun e => Disk.getLastCommittedEpoch_mono fun d => (hfind d).2) fun e => (hfind e).1
  | success t => exact h.finish t
  | failure t => exact (h.finish t).reset
  | load t => exact h.goTo t fun e he => by cases he; exact le_rfl
  | update t e => exact (h.finish t).update (h.found t hallowed.1 e hallowed.2)
  | reset => exact h.reset
  | checkpointed nodeId epoch => exact h.checkpointed nodeId hallowed
  | collect =>
    simp only [CheckpointCoordinator.step]
    split_ifs
    · exact
        { h with
          toRemove := fun ctx hctx => (mem_cons.1 hctx).elim (fun heq => heq ▸ h.last)
            (h.toRemove ctx) }
    · exact h
  | remove ctx dir => exact h.removeDir (hallowed.2.trans_le (h.toRemove ctx hallowed.1))
  | scan =>
    exact
      { h with
        maxCommitted := fun e he => (mem_cons.1 he).elim (fun heq => heq.le) (h.maxCommitted e) }
  | removeOld maxCommitted dir => exact h.removeDir (h.lt_of_maxCommitted hallowed.1 hallowed.2)

end Invariant

/-! ### Every interleaving -/

/-- **Epochs commit atomically.** In every state, all nodes have acknowledged each epoch that was
committed since the start, the values of the last epoch have strictly increased, and no directory
that is about to be removed is the last committed one. -/
theorem epochs_commit_atomically (nodes : Finset UInt32) (start : Disk U)
    {s : CheckpointCoordinator U} (hrun : Relation.ReflTransGen
      (GuardedRun.Step CheckpointCoordinator.step CheckpointCoordinator.Allowed)
      (.new nodes start) s) :
    (∀ e, s.disk.find? e = some true →
        start.find? e = some true ∨ ∀ node ∈ nodes, (node, e) ∈ s.acks) ∧
      s.lastEpochs.Pairwise (· < ·) ∧
      ∀ ctx dir, s.Allowed (.remove ctx dir) ∨ s.Allowed (.removeOld ctx dir) →
        dir ≠ s.disk.getLastCommittedEpoch := by
  have h : Invariant nodes start s :=
    GuardedRun.invariant (fun s action h hallowed => h.step hallowed) (.new nodes start) hrun
  refine ⟨h.committed, h.increasing, ?_⟩
  rintro ctx dir (hallowed | hallowed)
  · exact (hallowed.2.trans_le (h.toRemove ctx hallowed.1)).ne
  · exact (h.lt_of_maxCommitted hallowed.1 hallowed.2).ne

/-- Two nodes and two epochs, with an epoch in between that is given up and acknowledged late. -/
def twoEpochs : List (Action ℕ) :=
  [.prepare 1, .preCheckpoint ⟨toLex (1, 1), true, .prepared⟩, .checkpointed 7 (toLex (1, 1)),
    .checkpointed 8 (toLex (1, 1)), .success ⟨toLex (1, 1), true, .triggering⟩,
    .prepare 2, .preCheckpoint ⟨toLex (2, 2), true, .prepared⟩, .checkpointed 7 (toLex (2, 2)),
    .failure ⟨toLex (2, 2), true, .triggering⟩, .prepare 3,
    .preCheckpoint ⟨toLex (2, 3), true, .prepared⟩, .checkpointed 8 (toLex (2, 2)),
    .checkpointed 8 (toLex (2, 3)), .checkpointed 7 (toLex (2, 3)), .collect]

/-- The first epoch is not the last committed one after the second. -/
theorem epochs_commit_atomically_two :
    let s := twoEpochs.foldl CheckpointCoordinator.step (.new {7, 8} .empty)
    s.lastEpochs = [toLex (0, 0), toLex (1, 1), toLex (2, 3)] ∧
      toLex (1, 1) ≠ s.disk.getLastCommittedEpoch := by
  have hrun : GuardedRun.Along CheckpointCoordinator.step CheckpointCoordinator.Allowed
      (.new {7, 8} .empty) twoEpochs := by
    simp only [twoEpochs, GuardedRun.Along, CheckpointCoordinator.Allowed]
    decide
  exact ⟨by decide, (epochs_commit_atomically {7, 8} .empty hrun.reflTransGen).2.2 (toLex (2, 3))
    (toLex (1, 1)) (.inl (by simp only [CheckpointCoordinator.Allowed]; decide))⟩

/-- **Recovery never goes back.** In every state, the storage has a committed epoch at or after
each last epoch so far, and an epoch in progress is after all of them. -/
theorem recovery_never_goes_back (nodes : Finset UInt32) (start : Disk U)
    {s : CheckpointCoordinator U} (hrun : Relation.ReflTransGen
      (GuardedRun.Step CheckpointCoordinator.step CheckpointCoordinator.Allowed)
      (.new nodes start) s) :
    ∀ e ∈ s.lastEpochs, e ≤ s.disk.getLastCommittedEpoch ∧
      (¬ s.query.currentEpoch.Empty → e < s.query.currentEpoch) := by
  have h : Invariant nodes start s :=
    GuardedRun.invariant (fun s action h hallowed => h.step hallowed) (.new nodes start) hrun
  intro e he
  have hle := h.le_last e he
  refine ⟨hle.trans h.last, fun hempty => hle.trans_lt (CheckpointEpoch.lt_of_epoch_lt ?_)⟩
  have hnumber := h.number hempty
  omega

/-- The storage is at or after the first of two epochs. -/
theorem recovery_never_goes_back_two :
    toLex (1, 1) ≤ (twoEpochs.foldl CheckpointCoordinator.step
      (.new {7, 8} .empty)).disk.getLastCommittedEpoch := by
  refine (recovery_never_goes_back {7, 8} .empty (GuardedRun.Along.reflTransGen ?_) _
    (by decide)).1
  simp only [twoEpochs, GuardedRun.Along, CheckpointCoordinator.Allowed]
  decide

end Proton.Checkpoint
