import Proton.Lib.ExceptRel
import Proton.Storages.Stream.CommitPieces

/-!
# Committed Blocks and Their Records

What `StreamShardStore::commit` calls are the blocks of a batch, one after the other. The keys that
are passed along with a block are those of its records exactly if no record with a key ends a block,
and no record with a key is in a block behind a change of the schema version, where the list of keys
is gone.

The invariant of the loop is `Handled`: what was called carries the records before those that are
not committed yet, and the local variables hold the latter.

## Main results

* `commit_carries_iff`: when every committed block carries exactly its own records and keys.
* `dynamicChange_keyStrays`, `commit_carries_mixed`: a batch for which it does not, and one for
  which it does.
-/

open List Option

namespace Proton.StreamShardStore

open CommitState

variable {Row : Type}

/-! ### The blocks that are committed so far -/

/-- A block carries some records: their rows, their sequence numbers and their keys. -/
structure Carries (call : CommitCall Row) (records : List (SchemaRecord Row)) : Prop where
  /-- The rows. -/
  rows : call.block.rows = rowsOf records
  /-- The sequence numbers. -/
  sn : ∀ r ∈ records, call.seq.first ≤ r.sn ∧ r.sn ≤ call.seq.second
  /-- The keys. -/
  keys : call.keys.getD [] = keysOf records

/-- The committed blocks have disjoint increasing ranges, and each data record is carried by exactly
one of them. -/
structure CarriesOwnRecords (records : List (SchemaRecord Row)) (calls : List (CommitCall Row)) :
    Prop where
  /-- The ranges increase. -/
  increasing : calls.Pairwise fun a b => a.seq.second < b.seq.first
  /-- No range is empty. -/
  le : ∀ c ∈ calls, c.seq.first ≤ c.seq.second
  /-- Each data record is carried by one block. -/
  carried : ∃ groups : List (List (SchemaRecord Row)),
    groups.flatten = records.filter (·.opCode = .insertData) ∧ List.Forall₂ Carries calls groups

/-- The keys of two lists of records. -/
theorem keysOf_append (l l' : List (SchemaRecord Row)) : keysOf (l ++ l') = keysOf l ++ keysOf l' :=
  filterMap_append

variable {l records : List (SchemaRecord Row)}

/-- Records without keys have none together. -/
theorem keysOf_eq_nil (h : ∀ r ∈ l, ¬ r.hasIdempotentKey) : keysOf l = [] := by
  refine filterMap_eq_nil_iff.mpr fun r hr => ?_
  rw [if_neg (h r hr)]

variable {r : SchemaRecord Row}

/-- A record without a key. -/
theorem keysOf_singleton (h : ¬ r.hasIdempotentKey) : keysOf [r] = [] :=
  keysOf_eq_nil fun r' hr' => by rwa [mem_singleton.mp hr']

/-- A record with a key. -/
theorem keysOf_singleton_of_hasIdempotentKey (h : r.hasIdempotentKey) :
    keysOf [r] = [(r.sn, r.idempotentKey)] := by
  simp only [keysOf, filterMap_cons, if_pos h, filterMap_nil]

/-- A key has the sequence number of its record. -/
theorem mem_keysOf {key : IdempotentKey} (h : key ∈ keysOf l) : ∃ r ∈ l, r.sn = key.1 := by
  obtain ⟨r, hr, heq⟩ := mem_filterMap.mp h
  split_ifs at heq with hkey
  cases heq
  exact ⟨r, hr, rfl⟩

/-- A call of `doCommit` is listed. -/
@[simp]
theorem commitCalls_doCommit (calls : List (StoreCall Row)) (call : CommitCall Row) :
    commitCalls (calls ++ [.doCommit call]) = commitCalls calls ++ [call] :=
  filterMap_append

/-- A command is not a call of `doCommit`. -/
@[simp]
theorem commitCalls_command (calls : List (StoreCall Row)) (opCode : OpCode) (sn : ℤ) :
    commitCalls (calls ++ [.command opCode sn]) = commitCalls calls := by
  rw [commitCalls, filterMap_append]
  exact append_nil _

/-- Some records are handled up to a sequence number. -/
structure Emitted (records : List (SchemaRecord Row)) (last : ℤ) (calls : List (StoreCall Row)) :
    Prop where
  /-- Each block carries its own records. -/
  own : CarriesOwnRecords records (commitCalls calls)
  /-- The ranges end there. -/
  last : ∀ c ∈ commitCalls calls, c.seq.second ≤ last

namespace Emitted

variable {records group : List (SchemaRecord Row)} {last last' : ℤ} {calls : List (StoreCall Row)}

variable (h : Emitted records last calls)
include h

/-- What was emitted stays behind later records. -/
theorem mono (hlast : last ≤ last') : Emitted records last' calls :=
  ⟨h.own, fun c hc => (h.last c hc).trans hlast⟩

/-- Another block is committed. -/
theorem doCommit {call : CommitCall Row}
    (hcarries : Carries call group) (hdata : ∀ r ∈ group, r.opCode = .insertData)
    (hfirst : last < call.seq.first) (hle : call.seq.first ≤ call.seq.second) :
    Emitted (records ++ group) call.seq.second (calls ++ [.doCommit call]) := by
  have hown : CarriesOwnRecords (records ++ group) (commitCalls calls ++ [call]) := by
    refine ⟨?_, ?_, ?_⟩
    · rw [pairwise_append]
      refine ⟨h.own.increasing, pairwise_singleton _ _, fun c hc c' hc' => ?_⟩
      rw [mem_singleton.mp hc']
      exact (h.last c hc).trans_lt hfirst
    · rw [forall_mem_append, forall_mem_singleton]
      exact ⟨h.own.le, hle⟩
    · obtain ⟨groups, hflatten, hall⟩ := h.own.carried
      have hfilter : group.filter (·.opCode = .insertData) = group :=
        filter_eq_self.mpr fun r hr => decide_eq_true (hdata r hr)
      refine ⟨groups ++ [group], ?_, rel_append hall (.cons hcarries .nil)⟩
      rw [flatten_append, filter_append, hflatten, hfilter, flatten_singleton]
  refine ⟨by rwa [commitCalls_doCommit], fun c hc => ?_⟩
  rw [commitCalls_doCommit, mem_append, mem_singleton] at hc
  obtain hc | rfl := hc
  · exact ((h.last c hc).trans hfirst.le).trans hle
  · exact le_rfl

/-- A control command is carried out. -/
theorem command {r : SchemaRecord Row}
    (hcommand : r.opCode ≠ .insertData) (opCode : OpCode) (sn : ℤ) :
    Emitted (records ++ [r]) last (calls ++ [.command opCode sn]) := by
  refine ⟨?_, by rw [commitCalls_command]; exact h.last⟩
  rw [commitCalls_command]
  refine ⟨h.own.increasing, h.own.le, ?_⟩
  obtain ⟨groups, hflatten, hall⟩ := h.own.carried
  have hfilter : [r].filter (·.opCode = .insertData) = [] := by
    rw [filter_singleton, decide_eq_false hcommand, cond_false]
  exact ⟨groups, by rw [filter_append, hflatten, hfilter, append_nil], hall⟩

end Emitted

/-! ### The loop -/

/-- The key of a record that is not left out is collected. -/
def CommitState.collect (s : CommitState Row) (ids : InMemoryIdempotentKeys)
    (r : SchemaRecord Row) : CommitState Row :=
  { s with idempotentKeys := ids, keys := s.keys.map (· ++ keysOf [r]) }

section

variable (s : CommitState Row) (ids : InMemoryIdempotentKeys)
include s ids

@[simp]
theorem CommitState.collect_block (r : SchemaRecord Row) : (s.collect ids r).block = s.block := rfl

@[simp]
theorem CommitState.collect_version
    (r : SchemaRecord Row) : (s.collect ids r).version = s.version := rfl

/-- Without a key, nothing is collected. -/
theorem CommitState.collect_of_not_hasIdempotentKey (h : ¬ r.hasIdempotentKey) :
    s.collect ids r = { s with idempotentKeys := ids } := by
  rw [collect, keysOf_singleton h]
  cases hs : s.keys with
  | none => rw [map_none]
  | some keys => rw [map_some, append_nil]

end

/-- The local variables behind a control command. -/
def CommitState.afterCommand (s : CommitState Row) (r : SchemaRecord Row) : CommitState Row :=
  { s.commitBefore with
    startSN := r.sn
    endSN := r.sn
    calls := s.commitBefore.calls ++ [.command r.opCode r.sn] }

/-- A command that is implemented succeeds. -/
theorem CommitState.controlCommand_eq_ok (s : CommitState Row) (h : r.opCode ≠ .other) :
    s.controlCommand r = .ok (s.afterCommand r) := by
  rw [controlCommand, afterCommand]
  cases hop : r.opCode with
  | other => exact absurd hop h
  | _ => rfl

/-- A command that is not implemented throws. -/
theorem CommitState.controlCommand_other (s : CommitState Row) (h : r.opCode = .other) :
    s.controlCommand r = .error .notImplemented := by
  rw [controlCommand, h]
  rfl

variable (settings : CommitSettings Row)

/-- Rows are inserted, and a big block with dynamic subcolumns is committed. -/
theorem CommitState.accept_insertData (s : CommitState Row)
    (h : r.opCode = .insertData) :
    s.accept settings r = .ok ((s.insertData r).commitDynamic settings r) := by
  rw [accept.eq_def, h]
  rfl

/-- Any other record is a command. -/
theorem CommitState.accept_command (s : CommitState Row)
    (h : r.opCode ≠ .insertData) : s.accept settings r = s.controlCommand r := by
  rw [accept.eq_def]
  cases hop : r.opCode with
  | insertData => exact absurd hop h
  | _ => rfl

/-- The records that are not committed yet, with a data record. -/
def joined (pending : Option (Merged Row)) (r : SchemaRecord Row) : Merged Row :=
  match pending with
  | none => ⟨.fresh, r, []⟩
  | some b =>
    if b.first.schemaVersion = r.schemaVersion then
      if b.first.block.hasDynamicSubcolumns ≠ r.block.hasDynamicSubcolumns then ⟨.dynamic, r, []⟩
      else b.push r
    else ⟨.schema, r, []⟩

/-- Rows are joined with those that are pending. -/
theorem nextPieces_insertData (pending : Option (Merged Row))
    (hdata : r.opCode = .insertData) :
    (nextPieces settings pending r).2 = (closeIfBig settings (joined pending r)).2 := by
  cases pending with
  | none => simp only [nextPieces, if_pos hdata, joined]
  | some b =>
    simp only [nextPieces, joined]
    split_ifs <;> rfl

variable {settings : CommitSettings Row}

/-- If the keys of the closed pieces stay, so do those of the rows that are joined. -/
theorem keysStay_joined {pending : Option (Merged Row)} (hdata : r.opCode = .insertData)
    (h : Piece.AllStay (nextPieces settings pending r)) :
    (Piece.block (joined pending r)).KeysStay := by
  cases pending with
  | none =>
    simp only [nextPieces, if_pos hdata] at h
    exact allStay_closeIfBig.mp h
  | some b =>
    simp only [nextPieces] at h
    rw [joined]
    split_ifs at h ⊢
    · exact allStay_closeIfBig.mp (allStay_cons.mp h).2
    · exact allStay_closeIfBig.mp h
    · exact allStay_closeIfBig.mp (allStay_cons.mp h).2

/-- The local variables of the loop hold some records. -/
structure Collected (s : CommitState Row) (b : Merged Row) : Prop where
  /-- The rows are in the block. -/
  block : s.block = some ⟨rowsOf b.records, b.first.block.hasDynamicSubcolumns⟩
  /-- The version is that of the first record. -/
  version : s.version = b.first.schemaVersion
  /-- They are data. -/
  data : ∀ r ∈ b.records, r.opCode = .insertData
  /-- The sequence numbers are within the range. -/
  sn : ∀ r ∈ b.records, s.startSN ≤ r.sn ∧ r.sn ≤ s.endSN
  /-- The keys are collected, unless the list is gone. -/
  keys : s.keys = if b.opening = .schema then none else some (keysOf b.records)

namespace Collected

variable {s : CommitState Row} {b : Merged Row}

/-- A block ends at or after its start. -/
theorem le (h : Collected s b) : s.startSN ≤ s.endSN :=
  (h.sn b.first mem_cons_self).1.trans (h.sn b.first mem_cons_self).2

/-- The block carries the records, up to any later sequence number. -/
theorem carries (h : Collected s b) (hstay : (Piece.block b).KeysStay) {endSN : ℤ}
    (hend : s.endSN ≤ endSN) {block : Block Row} (hblock : s.block = some block) :
    Carries ⟨block, .mk s.startSN endSN, s.keys, s.missing, s.version⟩ b.records := by
  rw [h.block] at hblock
  cases hblock
  refine ⟨rfl, fun r hr => ⟨(h.sn r hr).1, (h.sn r hr).2.trans hend⟩, ?_⟩
  rw [h.keys]
  split_ifs with hopening
  · obtain ⟨opening, first, others⟩ := b
    obtain rfl : opening = .schema := hopening
    exact (keysOf_eq_nil hstay).symm
  · rfl

end Collected

/-- The loop has handled some records, up to a sequence number; the last ones may not be committed
yet. -/
def Handled (done : List (SchemaRecord Row)) (last : ℤ) (s : CommitState Row) :
    Option (Merged Row) → Prop
  | none => s.block = none ∧ s.keys = some [] ∧ Emitted done last s.calls
  | some b =>
    Collected s b ∧ s.endSN ≤ last ∧
      ∃ before, done = before ++ b.records ∧ Emitted before (s.startSN - 1) s.calls

namespace Handled

variable {settings : CommitSettings Row} {done : List (SchemaRecord Row)} {last last' : ℤ}
  {s : CommitState Row} {pending : Option (Merged Row)} {r : SchemaRecord Row}

section

variable (h : Handled done last s pending)
include h

/-- What was handled stays behind later records. -/
theorem mono (hlast : last ≤ last') : Handled done last' s pending := by
  cases pending with
  | none => exact ⟨h.1, h.2.1, h.2.2.mono hlast⟩
  | some b => exact ⟨h.1, h.2.1.trans hlast, h.2.2⟩

/-- The idempotent keys of the store do not matter. -/
theorem setKeys (ids : InMemoryIdempotentKeys) :
    Handled done last { s with idempotentKeys := ids } pending := by
  cases pending with
  | none => exact h
  | some b =>
    obtain ⟨⟨hblock, hversion, hdata, hsn, hkeys⟩, hrest⟩ := h
    exact ⟨⟨hblock, hversion, hdata, hsn, hkeys⟩, hrest⟩

/-- If the key of a record stays, there is a list to collect it. -/
theorem keys_ne_none (hstays : KeyStays pending r) (hkey : r.hasIdempotentKey) : s.keys ≠ none := by
  cases pending with
  | none =>
    rw [h.2.1]
    exact some_ne_none _
  | some b =>
    rw [h.1.keys, if_neg ((hstays hkey).2 b rfl)]
    exact some_ne_none _

end

/-- The records that are not committed yet are committed. -/
theorem flush {b : Merged Row} (h : Handled done last s (some b))
    (hstay : (Piece.block b).KeysStay) {endSN : ℤ} (hend : s.endSN ≤ endSN) {block : Block Row}
    (hblock : s.block = some block) : Emitted done endSN (s.doCommit block endSN).calls := by
  obtain ⟨hcollected, _, before, rfl, hemitted⟩ := h
  exact hemitted.doCommit (hcollected.carries hstay hend hblock) hcollected.data
    (Int.sub_one_lt_of_le le_rfl) (hcollected.le.trans hend)

/-- A record begins a block. -/
theorem restart {before : List (SchemaRecord Row)} (hemitted : Emitted before last s.calls)
    (hlast : last < r.sn) (hdata : r.opCode = .insertData) (opening : Opening)
    (hkeys : s.keys = if opening = .schema then none else some (keysOf [r]))
    (hversion : s.version = r.schemaVersion) :
    Handled (before ++ [r]) r.sn (s.restart r) (some ⟨opening, r, []⟩) := by
  refine ⟨⟨?_, hversion, ?_, ?_, hkeys⟩, le_rfl, before, rfl,
    hemitted.mono (Int.le_sub_one_of_lt hlast)⟩
  · change some r.block = some ⟨r.block.rows ++ [], r.block.hasDynamicSubcolumns⟩
    rw [append_nil]
  · intro r' hr'
    rwa [mem_singleton.mp hr']
  · intro r' hr'
    rw [mem_singleton.mp hr']
    exact ⟨le_rfl, le_rfl⟩

/-- A block with dynamic subcolumns is committed if it is big enough. -/
theorem commitDynamic {b : Merged Row} (h : Handled done r.sn s (some b))
    (hstay : (Piece.block b).KeysStay) :
    Handled done r.sn (s.commitDynamic settings r) (closeIfBig settings b).2 := by
  have hblock := h.1.block
  have hbig : b.Big settings ↔ (b.first.block.hasDynamicSubcolumns ∧
      (settings.rowThreshold ≤ (rowsOf b.records).length ∨
        settings.byteThreshold ≤ settings.bytes (rowsOf b.records))) := Iff.rfl
  rw [commitDynamic.eq_def, hblock, closeIfBig]
  dsimp only
  by_cases hb : b.Big settings
  · rw [if_pos hb, if_pos (hbig.mp hb)]
    exact ⟨rfl, rfl, h.flush hstay h.2.1 hblock⟩
  · rw [if_neg hb, if_neg (mt hbig.mpr hb)]
    exact h

/-- A record is merged into the block. -/
theorem merge {b : Merged Row} (h : Handled done last s (some b)) (hlast : last < r.sn)
    (hdata : r.opCode = .insertData) (ids : InMemoryIdempotentKeys) :
    Handled (done ++ [r]) r.sn
      { s.collect ids r with
        block := some (mergeBlocks
          ⟨rowsOf b.records, b.first.block.hasDynamicSubcolumns⟩ r.block)
        endSN := r.sn
        version := b.first.schemaVersion } (some (b.push r)) := by
  obtain ⟨hcollected, hend, before, rfl, hemitted⟩ := h
  refine ⟨⟨?_, rfl, ?_, ?_, ?_⟩, le_rfl, before, ?_, hemitted⟩
  · rw [Merged.records_push, mergeBlocks]
    simp [rowsOf, Merged.push]
  · rw [Merged.records_push, forall_mem_append, forall_mem_singleton]
    exact ⟨hcollected.data, hdata⟩
  · rw [Merged.records_push, forall_mem_append, forall_mem_singleton]
    have hend' : s.endSN ≤ r.sn := hend.trans hlast.le
    exact ⟨fun r' hr' => ⟨(hcollected.sn r' hr').1, (hcollected.sn r' hr').2.trans hend'⟩,
      hcollected.le.trans hend', le_rfl⟩
  · rw [Merged.records_push, keysOf_append, collect, hcollected.keys]
    change Option.map _ _ = if b.opening = .schema then none else _
    split_ifs <;> rfl
  · rw [Merged.records_push, append_assoc]

variable (h : Handled done last s pending) (hpending : ∀ b ∈ pending, (Piece.block b).KeysStay)
  (hlast : last < r.sn) (hstays : KeyStays pending r)
include h hpending hlast hstays

/-- The rows of a record are added to the block, or begin a new one. -/
theorem insertData (hdata : r.opCode = .insertData) (ids : InMemoryIdempotentKeys) :
    Handled (done ++ [r]) r.sn ((s.collect ids r).insertData r) (some (joined pending r)) := by
  cases pending with
  | none =>
    obtain ⟨hblock, hkeys, hemitted⟩ := h
    have hcollect : (s.collect ids r).block = none := hblock
    rw [insertData.eq_def, hcollect]
    have hkeys' : (s.collect ids r).keys = some (keysOf [r]) := by
      rw [collect, hkeys]
      rfl
    exact restart (s := { s.collect ids r with version := r.schemaVersion }) hemitted hlast hdata
      .fresh hkeys' rfl
  | some b =>
    have hb := hpending b rfl
    have hblock : s.block = some ⟨rowsOf b.records, b.first.block.hasDynamicSubcolumns⟩ := h.1.block
    have hend : s.endSN < r.sn := h.2.1.trans_lt hlast
    rw [insertData.eq_def]
    simp only [collect_block, hblock, collect_version, h.1.version, joined]
    split_ifs with hversion hdynamic
    · have hends : Ends (some b) r := ⟨b, rfl, .inr (.inr hdynamic)⟩
      have hkey := hstays.of_ends hends
      have hflush := (h.setKeys ids).flush hb le_rfl hblock
      rw [collect_of_not_hasIdempotentKey s ids hkey]
      refine restart (s := { doCommit _ _ s.endSN with keys := some [] }) hflush hend
        hdata .dynamic ?_ (h.1.version.trans hversion)
      rw [keysOf_singleton hkey]
      rfl
    · exact h.merge hlast hdata ids
    · have hends : Ends (some b) r := ⟨b, rfl, .inr (.inl hversion)⟩
      have hkey := hstays.of_ends hends
      have hflush := (h.setKeys ids).flush hb le_rfl hblock
      rw [collect_of_not_hasIdempotentKey s ids hkey]
      exact restart (s := { doCommit _ _ s.endSN with
        keys := none, missing := [], version := r.schemaVersion }) hflush hend hdata
        .schema rfl rfl

/-- A control command is carried out after the block before it. -/
theorem controlCommand (hcommand : r.opCode ≠ .insertData) (ids : InMemoryIdempotentKeys) :
    Handled (done ++ [r]) r.sn ((s.collect ids r).afterCommand r) none := by
  refine ⟨?_, ?_, ?_⟩
  · cases hblock : (s.collect ids r).block <;>
      simp only [afterCommand, commitBefore, hblock]
  · cases hblock : (s.collect ids r).block <;>
      simp only [afterCommand, commitBefore, hblock]
  · cases pending with
    | none =>
      obtain ⟨hblock, _, hemitted⟩ := h
      have hcalls : ((s.collect ids r).commitBefore).calls = s.calls := by
        simp only [commitBefore, collect_block, hblock]
        rfl
      rw [afterCommand, hcalls]
      exact (hemitted.command hcommand _ _).mono hlast.le
    | some b =>
      have hends : Ends (some b) r := ⟨b, rfl, .inl hcommand⟩
      have hkey := hstays.of_ends hends
      have hblock := h.1.block
      have hflush := (h.setKeys ids).flush (hpending b rfl) le_rfl hblock
      have hend : s.endSN ≤ r.sn := h.2.1.trans hlast.le
      rw [collect_of_not_hasIdempotentKey s ids hkey]
      simp only [hblock]
      exact (hflush.command hcommand _ _).mono hend

/-- A record that is not left out and that is accepted. -/
theorem accept (settings : CommitSettings Row) (hop : r.opCode ≠ .other)
    (ids : InMemoryIdempotentKeys) :
    ∃ s', (s.collect ids r).accept settings r = .ok s' ∧
      Handled (done ++ [r]) r.sn s' (nextPieces settings pending r).2 := by
  have hstay := (allStay_nextPieces settings hpending r).mpr hstays
  by_cases hdata : r.opCode = .insertData
  · refine ⟨_, accept_insertData settings _ hdata, ?_⟩
    rw [nextPieces_insertData settings pending hdata]
    exact (h.insertData hpending hlast hstays hdata ids).commitDynamic (keysStay_joined hdata hstay)
  · refine ⟨_, (accept_command settings _ hdata).trans (controlCommand_eq_ok _ hop), ?_⟩
    have hnext : (nextPieces settings pending r).2 = none := by
      cases pending <;> simp only [nextPieces, if_neg hdata]
    rw [hnext]
    exact h.controlCommand hpending hlast hstays hdata ids

end Handled

/-- A record is not left out, and the idempotent keys of the store are those. -/
def Admitted (ids : InMemoryIdempotentKeys) (r : SchemaRecord Row) (ids' : InMemoryIdempotentKeys) :
    Prop :=
  (¬ r.hasIdempotentKey ∧ ids' = ids) ∨
    (r.hasIdempotentKey ∧ ids.add r.sn r.idempotentKey = some ids')

/-- A record is left out or not, by the loop and in the batch. -/
theorem kept_cons (ids : InMemoryIdempotentKeys) (r : SchemaRecord Row)
    (records : List (SchemaRecord Row)) :
    (r.hasIdempotentKey ∧ ids.add r.sn r.idempotentKey = none ∧
      kept ids (r :: records) = kept ids records) ∨
    ∃ ids', Admitted ids r ids' ∧ kept ids (r :: records) = r :: kept ids' records := by
  by_cases hkey : r.hasIdempotentKey
  · cases hadd : ids.add r.sn r.idempotentKey with
    | none => exact .inl ⟨hkey, rfl, by simp only [kept, if_pos hkey, hadd]⟩
    | some ids' =>
      exact .inr ⟨ids', .inr ⟨hkey, hadd⟩, by simp only [kept, if_pos hkey, hadd]⟩
  · exact .inr ⟨ids, .inl ⟨hkey, rfl⟩, by rw [kept, if_neg hkey]⟩

namespace CommitState

variable {settings : CommitSettings Row} {s : CommitState Row} {r : SchemaRecord Row}
  {ids : InMemoryIdempotentKeys}

/-- A record that is admitted is accepted with its key. -/
theorem commitRecord_admitted (h : Admitted s.idempotentKeys r ids)
    (hkeys : r.hasIdempotentKey → s.keys ≠ none) :
    s.commitRecord settings r = (s.collect ids r).accept settings r := by
  obtain ⟨hkey, rfl⟩ | ⟨hkey, hadd⟩ := h
  · rw [collect_of_not_hasIdempotentKey s _ hkey, commitRecord, if_neg hkey]
  · obtain ⟨keys, hs⟩ := ne_none_iff_exists'.mp (hkeys hkey)
    simp only [commitRecord, if_pos hkey, hadd, hs, collect,
      keysOf_singleton_of_hasIdempotentKey hkey, map_some]

/-- A key for which there is no list throws. -/
theorem commitRecord_nullKeys (h : Admitted s.idempotentKeys r ids) (hkey : r.hasIdempotentKey)
    (hkeys : s.keys = none) : s.commitRecord settings r = .error .nullKeys := by
  obtain ⟨hnot, _⟩ | ⟨_, hadd⟩ := h
  · exact absurd hkey hnot
  · simp only [commitRecord, if_pos hkey, hadd, hkeys]
    rfl

/-- A commit on the way adds calls and leaves the keys that were seen. -/
theorem commitDynamic_frame (settings : CommitSettings Row) (s : CommitState Row)
    (r : SchemaRecord Row) :
    (s.commitDynamic settings r).idempotentKeys = s.idempotentKeys ∧
      s.calls <+: (s.commitDynamic settings r).calls := by
  rw [commitDynamic.eq_def]
  split
  · exact ⟨rfl, prefix_rfl⟩
  · split_ifs
    · exact ⟨rfl, prefix_append _ _⟩
    · exact ⟨rfl, prefix_rfl⟩

/-- An insertion adds calls and leaves the keys that were seen. -/
theorem insertData_frame (s : CommitState Row) (r : SchemaRecord Row) :
    (s.insertData r).idempotentKeys = s.idempotentKeys ∧ s.calls <+: (s.insertData r).calls := by
  rw [insertData.eq_def]
  split
  · exact ⟨rfl, prefix_rfl⟩
  · split_ifs
    · exact ⟨rfl, prefix_append _ _⟩
    · exact ⟨rfl, prefix_rfl⟩
    · exact ⟨rfl, prefix_append _ _⟩

/-- A commit before a command adds calls and leaves the keys that were seen. -/
theorem commitBefore_frame (s : CommitState Row) :
    s.commitBefore.idempotentKeys = s.idempotentKeys ∧ s.calls <+: s.commitBefore.calls := by
  rw [commitBefore.eq_def]
  split
  · exact ⟨rfl, prefix_rfl⟩
  · exact ⟨rfl, prefix_append _ _⟩

/-- A record keeps what was called before, and the idempotent keys of the store. -/
theorem accept_frame {s' : CommitState Row} (h : s.accept settings r = .ok s') :
    s'.idempotentKeys = s.idempotentKeys ∧ s.calls <+: s'.calls := by
  by_cases hdata : r.opCode = .insertData
  · rw [accept_insertData settings s hdata] at h
    cases h
    obtain ⟨hids, hcalls⟩ := insertData_frame s r
    obtain ⟨hids', hcalls'⟩ := commitDynamic_frame settings (s.insertData r) r
    exact ⟨hids'.trans hids, hcalls.trans hcalls'⟩
  · rw [accept_command settings s hdata] at h
    by_cases hop : r.opCode = .other
    · rw [controlCommand_other s hop] at h
      cases h
    · rw [controlCommand_eq_ok s hop] at h
      cases h
      obtain ⟨hids, hcalls⟩ := commitBefore_frame s
      exact ⟨hids, hcalls.trans (prefix_append _ _)⟩

/-- What was called is kept. -/
theorem calls_commitRecord {s' : CommitState Row} (h : s.commitRecord settings r = .ok s') :
    s.calls <+: s'.calls := by
  rw [commitRecord.eq_def] at h
  split_ifs at h with hkey
  · split at h
    · cases h
      exact prefix_rfl
    · split at h
      · cases h
      · exact (accept_frame h).2
  · exact (accept_frame h).2

/-- Calls are only added, record by record. -/
theorem calls_foldlM {records : List (SchemaRecord Row)} {s s' : CommitState Row}
    (h : records.foldlM (commitRecord settings) s = .ok s') : s.calls <+: s'.calls := by
  induction records generalizing s with
  | nil =>
    cases h
    exact prefix_rfl
  | cons r records ih =>
    rw [foldlM_cons, ExceptRel.bind_eq_ok] at h
    obtain ⟨s₁, hrecord, hrest⟩ := h
    exact (calls_commitRecord hrecord).trans (ih hrest)

/-- Calls are only added at the end of the batch. -/
theorem calls_finish (s : CommitState Row) (lastSN : ℤ) : s.calls <+: (s.finish lastSN).calls := by
  rw [finish.eq_def]
  split
  · exact prefix_rfl
  · exact prefix_append _ _

end CommitState

variable {ids : InMemoryIdempotentKeys}

/-- A record that ends a block commits it, with the keys that are collected. -/
theorem Collected.calls_of_ends {s s' : CommitState Row} {b : Merged Row} (h : Collected s b)
    (hends : Ends (some b) r) (haccept : (s.collect ids r).accept settings r = .ok s') :
    ((s.collect ids r).doCommit ⟨rowsOf b.records, b.first.block.hasDynamicSubcolumns⟩
      s.endSN).calls <+: s'.calls := by
  by_cases hdata : r.opCode = .insertData
  · rw [accept_insertData settings _ hdata] at haccept
    cases haccept
    refine List.IsPrefix.trans ?_ (commitDynamic_frame settings _ r).2
    rw [insertData.eq_def]
    simp only [collect_block, h.block, collect_version, h.version]
    split_ifs with hversion hdynamic
    · exact prefix_rfl
    · obtain ⟨b', hb', hends⟩ := hends
      cases hb'
      tauto
    · exact prefix_rfl
  · rw [accept_command settings _ hdata] at haccept
    by_cases hop : r.opCode = .other
    · rw [controlCommand_other _ hop] at haccept
      cases haccept
    · rw [controlCommand_eq_ok _ hop] at haccept
      cases haccept
      rw [afterCommand]
      simp only [commitBefore, collect_block, h.block]
      exact prefix_append _ _

/-! ### Keys that stray -/

/-- A key is passed along with a block that ends before it. -/
def KeyStrays (calls : List (StoreCall Row)) : Prop :=
  ∃ c ∈ commitCalls calls, ∃ key ∈ c.keys.getD [], c.seq.second < key.1

/-- A key that went astray stays so. -/
theorem KeyStrays.mono {calls calls' : List (StoreCall Row)} (h : KeyStrays calls)
    (hle : calls <+: calls') : KeyStrays calls' := by
  obtain ⟨c, hc, hkey⟩ := h
  exact ⟨c, (hle.filterMap _).subset hc, hkey⟩

/-- If each block carries its own records, no key strays. -/
theorem CarriesOwnRecords.not_keyStrays {calls : List (StoreCall Row)}
    (h : CarriesOwnRecords records (commitCalls calls)) : ¬ KeyStrays calls := by
  rintro ⟨c, hc, key, hkey, hlt⟩
  obtain ⟨groups, _, hall⟩ := h.carried
  obtain ⟨i, hi, rfl⟩ := mem_iff_getElem.mp hc
  have hcarries := (forall₂_iff_get.mp hall).2 i hi (hall.length_eq ▸ hi)
  rw [get_eq_getElem] at hcarries
  rw [hcarries.keys] at hkey
  obtain ⟨r, hr, hsn⟩ := mem_keysOf hkey
  rw [← hsn] at hlt
  exact absurd ((hcarries.sn r hr).2.trans_lt hlt) (lt_irrefl _)

/-- A record with a key that does not stay: the commit fails, or the key strays. -/
theorem Handled.keyStrays {done : List (SchemaRecord Row)} {last : ℤ} {s s' : CommitState Row}
    {pending : Option (Merged Row)} (h : Handled done last s pending) (hlast : last < r.sn)
    (hadmitted : Admitted s.idempotentKeys r ids) (hstays : ¬ KeyStays pending r)
    (hrecord : s.commitRecord settings r = .ok s') : KeyStrays s'.calls := by
  have hkey : r.hasIdempotentKey := by
    by_contra hkey
    exact hstays fun h => absurd h hkey
  have hkeys : s.keys ≠ none := by
    intro hnone
    rw [commitRecord_nullKeys hadmitted hkey hnone] at hrecord
    cases hrecord
  rw [commitRecord_admitted hadmitted fun _ => hkeys] at hrecord
  cases pending with
  | none => exact absurd (fun _ => by simp [Ends]) hstays
  | some b =>
    have hopening : b.opening ≠ .schema := by
      intro hopening
      rw [h.1.keys, if_pos hopening] at hkeys
      exact hkeys rfl
    have hends : Ends (some b) r := by
      by_contra hmerges
      refine hstays fun _ => ⟨hmerges, ?_⟩
      rintro b' hb'
      cases hb'
      exact hopening
    refine KeyStrays.mono ?_ (h.1.calls_of_ends hends hrecord)
    have hcollected : ((s.collect ids r).keys.getD []) = keysOf b.records ++ keysOf [r] := by
      rw [collect, h.1.keys, if_neg hopening]
      rfl
    have hmem : (r.sn, r.idempotentKey) ∈ keysOf [r] := by
      rw [keysOf_singleton_of_hasIdempotentKey hkey]
      exact mem_cons_self
    rw [KeyStrays, doCommit, commitCalls_doCommit]
    exact ⟨_, mem_append_right _ mem_cons_self, (r.sn, r.idempotentKey),
      hcollected ▸ mem_append_right _ hmem, h.2.1.trans_lt hlast⟩

/-! ### The batch -/

/-- Each control command of a batch is handled, and the keys stay. -/
def AllHandled (settings : CommitSettings Row) (ids : InMemoryIdempotentKeys)
    (records : List (SchemaRecord Row)) (pending : Option (Merged Row)) : Prop :=
  (∀ r ∈ kept ids records, r.opCode ≠ .other) ∧
    ∀ p ∈ pieces settings (kept ids records) pending, p.KeysStay

section

variable {settings : CommitSettings Row} {done records : List (SchemaRecord Row)} {last : ℤ}
  {s : CommitState Row} {pending : Option (Merged Row)}

/-- **The loop.** If the keys stay and each control command is handled, so is each record.
Otherwise the loop fails, or a key strays. -/
theorem Handled.foldlM (settings : CommitSettings Row) (h : Handled done last s pending)
    (hpending : ∀ b ∈ pending, (Piece.block b).KeysStay)
    (hsorted : records.Pairwise (·.sn < ·.sn)) (hlast : ∀ r ∈ records, last < r.sn) :
    (AllHandled settings s.idempotentKeys records pending ∧
      ∃ s' pending', records.foldlM (commitRecord settings) s = .ok s' ∧
        Handled (done ++ kept s.idempotentKeys records) ((records.getLast?.map (·.sn)).getD last)
          s' pending' ∧ ∀ b ∈ pending', (Piece.block b).KeysStay) ∨
    (¬ AllHandled settings s.idempotentKeys records pending ∧
      ∀ s', records.foldlM (commitRecord settings) s = .ok s' →
        KeyStrays s'.calls) := by
  induction records generalizing done last s pending with
  | nil =>
    refine .inl ⟨⟨by simp [kept], fun p hp => ?_⟩, s, pending, rfl, ?_, hpending⟩
    · obtain ⟨b, hb, rfl⟩ := mem_map.mp hp
      exact hpending b (mem_toList.mp hb)
    · rwa [kept, append_nil]
  | cons r records ih =>
    rw [pairwise_cons] at hsorted
    have hr := hlast r mem_cons_self
    have hgetLast : ((r :: records).getLast?.map (·.sn)).getD last =
        (records.getLast?.map (·.sn)).getD r.sn := by
      rw [getLast?_cons]
      cases records.getLast? <;> rfl
    rw [hgetLast, foldlM_cons]
    obtain ⟨hkey, hadd, hkept⟩ | ⟨ids, hadmitted, hkept⟩ := kept_cons s.idempotentKeys r records
    · simp only [AllHandled, hkept, commitRecord, if_pos hkey, hadd]
      exact ih (h.mono hr.le) hpending hsorted.2 hsorted.1
    · rw [AllHandled, hkept, forall_mem_cons, keysStay_pieces_cons,
        allStay_nextPieces settings hpending]
      by_cases hgood : KeyStays pending r ∧ r.opCode ≠ .other
      · obtain ⟨hstays, hop⟩ := hgood
        obtain ⟨s₁, haccept, hs₁⟩ := h.accept hpending hr hstays settings hop ids
        obtain rfl : s₁.idempotentKeys = ids := (accept_frame haccept).1
        rw [commitRecord_admitted hadmitted (h.keys_ne_none hstays), haccept]
        have hnow := (allStay_nextPieces settings hpending r).mpr hstays
        obtain ⟨⟨hops, hlater⟩, s', pending', hrun, hs', hpending'⟩ | ⟨hnot, hstrays⟩ :=
          ih hs₁ hnow.2 hsorted.2 hsorted.1
        · rw [append_assoc] at hs'
          exact .inl ⟨⟨⟨hop, hops⟩, hstays, hlater⟩, s', pending', hrun, hs', hpending'⟩
        · exact .inr ⟨fun hall => hnot ⟨hall.1.2, hall.2.2⟩, hstrays⟩
      · refine .inr ⟨fun hall => hgood ⟨hall.2.1, hall.1.1⟩, fun s' hrun => ?_⟩
        obtain ⟨s₁, hrecord, hrest⟩ := ExceptRel.bind_eq_ok.mp hrun
        by_cases hstays : KeyStays pending r
        · have hop : r.opCode = .other := by_contra fun hop => hgood ⟨hstays, hop⟩
          rw [commitRecord_admitted hadmitted (h.keys_ne_none hstays),
            accept_command settings _ (by rw [hop]; decide),
            controlCommand_other _ hop] at hrecord
          cases hrecord
        · exact (h.keyStrays hr hadmitted hstays hrecord).mono (calls_foldlM hrest)

/-- The end of the batch. -/
theorem Handled.finish (h : Handled done last s pending)
    (hpending : ∀ b ∈ pending, (Piece.block b).KeysStay) :
    CarriesOwnRecords done (commitCalls (s.finish last).calls) := by
  cases pending with
  | none =>
    rw [finish.eq_def, h.1]
    exact h.2.2.own
  | some b =>
    rw [finish.eq_def, h.1.block]
    exact (h.flush (hpending b rfl) h.2.1 h.1.block).own

end

/-- Nothing is handled before the first record. -/
theorem handled_nil (last : ℤ) (missing : List SequenceRange) (ids : InMemoryIdempotentKeys) :
    Handled ([] : List (SchemaRecord Row)) last
      { missing := missing, idempotentKeys := ids } none :=
  ⟨rfl, rfl, ⟨.nil, fun _ hc => absurd hc not_mem_nil, [], rfl, .nil⟩,
    fun _ hc => absurd hc not_mem_nil⟩

/-- A batch that is not empty: the loop, and its end. -/
theorem commit_eq_ok {missing : List SequenceRange} {final : SchemaRecord Row}
    (hfinal : records.getLast? = some final)
    {result : List (StoreCall Row) × InMemoryIdempotentKeys} :
    commit settings ids records missing = .ok result ↔
      ∃ s, records.foldlM (commitRecord settings)
          { missing := missing, idempotentKeys := ids } = .ok s ∧
        ((s.finish final.sn).calls, (s.finish final.sn).idempotentKeys) = result := by
  rw [commit, ExceptRel.bind_eq_ok, hfinal]
  refine exists_congr fun s => and_congr_right fun _ => ?_
  exact ⟨Except.ok.inj, congrArg Except.ok⟩

/-- The sequence numbers of a batch are behind some number. -/
theorem exists_lt_sn (hsorted : records.Pairwise (·.sn < ·.sn)) :
    ∃ last : ℤ, ∀ r ∈ records, last < r.sn := by
  cases records with
  | nil => exact ⟨0, fun _ hr => absurd hr not_mem_nil⟩
  | cons first records =>
    refine ⟨first.sn - 1, forall_mem_cons.mpr ⟨by omega, fun r hr => ?_⟩⟩
    have := rel_of_pairwise_cons hsorted hr
    omega

/-- **Committed blocks carry their own records.** A batch with increasing sequence numbers is
committed in blocks with disjoint increasing ranges, each of which carries the rows and the keys of
its records, exactly if it has no control command that is not handled, no record with a key ends a
block, and no record with a key is in a block behind a change of the schema version. -/
theorem commit_carries_iff (settings : CommitSettings Row) (ids : InMemoryIdempotentKeys)
    (records : List (SchemaRecord Row)) (missing : List SequenceRange)
    (hsorted : records.Pairwise (·.sn < ·.sn)) :
    (∃ r, commit settings ids records missing = .ok r ∧
      CarriesOwnRecords (kept ids records) (commitCalls r.1)) ↔
    (∀ r ∈ kept ids records, r.opCode ≠ .other) ∧
      ∀ p ∈ pieces settings (kept ids records) none, p.KeysStay := by
  have hnone : ∀ b ∈ (none : Option (Merged Row)), (Piece.block b).KeysStay := by
    intro b hb
    cases hb
  cases hfinal : records.getLast? with
  | none =>
    obtain rfl : records = [] := getLast?_eq_none_iff.mp hfinal
    have hhandled : Handled ([] : List (SchemaRecord Row)) 0 _ none := handled_nil 0 missing ids
    refine ⟨fun _ => ⟨fun r hr => absurd hr not_mem_nil, fun p hp => absurd hp
      not_mem_nil⟩, fun _ => ⟨([], ids), rfl, hhandled.2.2.own⟩⟩
  | some final =>
    obtain ⟨last, hlast⟩ := exists_lt_sn hsorted
    obtain ⟨hall, s, pending, hrun, hs, hpending⟩ | ⟨hnot, hstrays⟩ :=
      (handled_nil last missing ids).foldlM settings hnone hsorted hlast
    · rw [hfinal] at hs
      exact iff_of_true ⟨_, (commit_eq_ok hfinal).mpr ⟨s, hrun, rfl⟩, hs.finish hpending⟩ hall
    · refine iff_of_false ?_ hnot
      rintro ⟨result, hcommit, hown⟩
      obtain ⟨s, hrun, rfl⟩ := (commit_eq_ok hfinal).mp hcommit
      exact hown.not_keyStrays ((hstrays s hrun).mono (s.calls_finish final.sn))

/-! ### Batches whose keys stray or stay -/

/-- Blocks with dynamic subcolumns are committed from two rows on. -/
def twoRows : CommitSettings ℕ := ⟨2, 100, List.length⟩

/-- A record with one row. -/
def record (sn : ℤ) (idempotentKey : String) (schemaVersion : ℕ) (dynamic : Bool) :
    SchemaRecord ℕ :=
  { sn := sn, idempotentKey := idempotentKey, schemaVersion := schemaVersion,
    block := ⟨[sn.toNat], dynamic⟩ }

/-- A record with a key ends a block without dynamic subcolumns: its key is passed along with that
block. -/
theorem dynamicChange_keyStrays :
    [record 1 "" 0 false, record 2 "k" 0 true].Pairwise (·.sn < ·.sn) ∧
      ¬ ∃ r, commit twoRows ⟨10, []⟩ [record 1 "" 0 false, record 2 "k" 0 true] [] = .ok r ∧
        CarriesOwnRecords (kept ⟨10, []⟩ [record 1 "" 0 false, record 2 "k" 0 true])
          (commitCalls r.1) := by
  refine ⟨by decide, ?_⟩
  have hcommit : commit twoRows ⟨10, []⟩ [record 1 "" 0 false, record 2 "k" 0 true] [] =
      .ok ([.doCommit ⟨⟨[1], false⟩, .mk 1 1, some [(2, "k")], [], 0⟩,
        .doCommit ⟨⟨[2], true⟩, .mk 2 2, some [], [], 0⟩], ⟨10, [(2, "k")]⟩) := by
    decide
  rintro ⟨r, hr, hown⟩
  cases hr
  refine hown.not_keyStrays ⟨_, mem_cons_self, (2, "k"), mem_cons_self, ?_⟩
  decide

-- behind a change of the schema version, the list of keys is gone
example :
    commit twoRows ⟨10, []⟩ [record 1 "" 0 false, record 2 "" 1 false, record 3 "k" 1 false] [] =
      .error .nullKeys := by
  decide

/-- Keys, a duplicate, a control command and changes of the schema version and of the subcolumns,
each of them by a record without a key. -/
def mixedRecords : List (SchemaRecord ℕ) :=
  [record 1 "a" 0 false, record 2 "a" 0 false, record 3 "" 1 false,
    { record 4 "" 1 false with opCode := .truncate }, record 5 "b" 1 true, record 6 "c" 1 true,
    record 8 "d" 1 false]

/-- Rows and commands, with and without keys. -/
theorem commit_carries_mixed :
    mixedRecords.Pairwise (·.sn < ·.sn) ∧
      ∃ r, commit twoRows ⟨10, []⟩ mixedRecords [] = .ok r ∧
        CarriesOwnRecords (kept ⟨10, []⟩ mixedRecords) (commitCalls r.1) :=
  ⟨by decide, (commit_carries_iff twoRows ⟨10, []⟩ mixedRecords [] (by decide)).mpr
    ⟨by decide, by decide⟩⟩

end Proton.StreamShardStore
