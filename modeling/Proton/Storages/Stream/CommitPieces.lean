import Proton.Storages.Stream.StreamShardStore

/-!
# The Pieces of a Batch

A batch of records is cut into pieces: blocks of records that are merged, and control commands
(`pieces`). A block ends before a record of another schema version, before a record that differs in
having dynamic subcolumns, before a control command, and when it has dynamic subcolumns and is big
enough.

The key of a record is collected before it is known whether the record ends the block before it, and
behind a change of the schema version there is no list to collect it. So a key is passed along with
its own record only if it stays (`Piece.KeysStay`), which is a question of each record and what is
not committed yet (`KeyStays`).

## Main results

* `allStay_nextPieces`: the keys stay behind a record exactly if its own key does.
* `keysStay_pieces_cons`: the keys stay in a batch exactly if they stay at each record.
-/

namespace Proton.StreamShardStore

variable {Row : Type}

/-! ### Records and blocks -/

/-- The idempotent keys of some records. -/
def keysOf (records : List (SchemaRecord Row)) : List IdempotentKey :=
  records.filterMap fun r => if r.hasIdempotentKey then some (r.sn, r.idempotentKey) else none

/-- The rows of some records. -/
def rowsOf (records : List (SchemaRecord Row)) : List Row := records.flatMap (·.block.rows)

/-- The records that are not left out as duplicates. -/
def kept : InMemoryIdempotentKeys → List (SchemaRecord Row) → List (SchemaRecord Row)
  | _, [] => []
  | ids, r :: records =>
    if r.hasIdempotentKey then
      match ids.add r.sn r.idempotentKey with
      | none => kept ids records
      | some ids => r :: kept ids records
    else r :: kept ids records

/-! ### Pieces of a batch -/

/-- Why a record is the first one of a block. -/
inductive Opening where
  /-- There was no block before it. -/
  | fresh
  /-- It has dynamic subcolumns and the block before it has none, or the other way round. -/
  | dynamic
  /-- It has another schema version than the block before it. -/
  | schema
  deriving DecidableEq, Repr

/-- Records that are merged into one block. -/
structure Merged (Row : Type) where
  /-- Why the block begins. -/
  opening : Opening
  /-- The first record. -/
  first : SchemaRecord Row
  /-- The other records. -/
  others : List (SchemaRecord Row) := []

namespace Merged

/-- The records. -/
def records (b : Merged Row) : List (SchemaRecord Row) := b.first :: b.others

/-- Another record is merged. -/
def push (b : Merged Row) (r : SchemaRecord Row) : Merged Row :=
  { b with others := b.others ++ [r] }

/-- A block with dynamic subcolumns is big enough. -/
def Big (settings : CommitSettings Row) (b : Merged Row) : Prop :=
  b.first.block.hasDynamicSubcolumns ∧
    (settings.rowThreshold ≤ (rowsOf b.records).length ∨
      settings.byteThreshold ≤ settings.bytes (rowsOf b.records))
deriving Decidable

theorem records_push (b : Merged Row) (r : SchemaRecord Row) :
    (b.push r).records = b.records ++ [r] := rfl

end Merged

/-- A piece of a batch. -/
inductive Piece (Row : Type) where
  /-- Records that are merged into one block. -/
  | block (b : Merged Row)
  /-- A control command, and whether it ends a block. -/
  | command (record : SchemaRecord Row) (ends : Bool)

/-- A block that may be big enough: the pieces that are complete, and the records that are not
committed yet. -/
def closeIfBig (settings : CommitSettings Row) (b : Merged Row) :
    List (Piece Row) × Option (Merged Row) :=
  if b.Big settings then ([.block b], none) else ([], some b)

/-- What a record does to the records that are not committed yet. -/
def nextPieces (settings : CommitSettings Row) (pending : Option (Merged Row))
    (r : SchemaRecord Row) : List (Piece Row) × Option (Merged Row) :=
  if r.opCode = .insertData then
    match pending with
    | none => closeIfBig settings ⟨.fresh, r, []⟩
    | some b =>
      if b.first.schemaVersion = r.schemaVersion then
        if b.first.block.hasDynamicSubcolumns ≠ r.block.hasDynamicSubcolumns then
          ((.block b) :: (closeIfBig settings ⟨.dynamic, r, []⟩).1,
            (closeIfBig settings ⟨.dynamic, r, []⟩).2)
        else closeIfBig settings (b.push r)
      else
        ((.block b) :: (closeIfBig settings ⟨.schema, r, []⟩).1,
          (closeIfBig settings ⟨.schema, r, []⟩).2)
  else (pending.toList.map .block ++ [.command r pending.isSome], none)

/-- **The pieces of a batch**, behind some records that are not committed yet. -/
def pieces (settings : CommitSettings Row) :
    List (SchemaRecord Row) → Option (Merged Row) → List (Piece Row)
  | [], pending => pending.toList.map .block
  | r :: records, pending =>
    (nextPieces settings pending r).1 ++ pieces settings records (nextPieces settings pending r).2

/-- The keys of a piece stay with it: a record that ends a block has none, and neither has a block
behind a change of the schema version. -/
def Piece.KeysStay : Piece Row → Prop
  | .block b =>
    match b.opening with
    | .fresh => True
    | .dynamic => ¬ b.first.hasIdempotentKey
    | .schema => ∀ r ∈ b.records, ¬ r.hasIdempotentKey
  | .command r ends => ends → ¬ r.hasIdempotentKey

instance (p : Piece Row) : Decidable p.KeysStay :=
  match p with
  | .block ⟨.fresh, _, _⟩ => .isTrue trivial
  | .block ⟨.dynamic, first, _⟩ => inferInstanceAs (Decidable (¬ first.hasIdempotentKey))
  | .block ⟨.schema, first, others⟩ =>
    inferInstanceAs (Decidable (∀ r ∈ first :: others, ¬ r.hasIdempotentKey))
  | .command r ends => inferInstanceAs (Decidable (ends → ¬ r.hasIdempotentKey))

/-- A record ends the block before it. -/
def Ends (pending : Option (Merged Row)) (r : SchemaRecord Row) : Prop :=
  ∃ b ∈ pending, r.opCode ≠ .insertData ∨ b.first.schemaVersion ≠ r.schemaVersion ∨
    b.first.block.hasDynamicSubcolumns ≠ r.block.hasDynamicSubcolumns

/-- The key of a record goes with its rows. -/
def KeyStays (pending : Option (Merged Row)) (r : SchemaRecord Row) : Prop :=
  r.hasIdempotentKey → ¬ Ends pending r ∧ ∀ b ∈ pending, b.opening ≠ .schema

variable {pending : Option (Merged Row)} {r : SchemaRecord Row}

/-- A record that ends a block and whose key stays has none. -/
theorem KeyStays.of_ends (h : KeyStays pending r) (hends : Ends pending r) : ¬ r.hasIdempotentKey :=
  fun hkey => (h hkey).1 hends

/-- The keys stay in a block with one more record. -/
theorem keysStay_push {b : Merged Row} :
    (Piece.block (b.push r)).KeysStay ↔
      (Piece.block b).KeysStay ∧ (r.hasIdempotentKey → b.opening ≠ .schema) := by
  obtain ⟨opening, first, others⟩ := b
  cases opening with
  | fresh => simp [Merged.push, Piece.KeysStay]
  | dynamic => simp [Merged.push, Piece.KeysStay]
  | schema =>
    simp only [Piece.KeysStay, Merged.records_push, List.forall_mem_append]
    simp [Merged.push]

/-- The keys stay in the blocks behind a record: in those that are complete, and in the one that is
not. -/
def Piece.AllStay (r : List (Piece Row) × Option (Merged Row)) : Prop :=
  (∀ p ∈ r.1, p.KeysStay) ∧ ∀ b ∈ r.2, (Piece.block b).KeysStay

variable {settings : CommitSettings Row}

/-- Closing a block does not matter to its keys. -/
theorem allStay_closeIfBig {b : Merged Row} :
    Piece.AllStay (closeIfBig settings b) ↔ (Piece.block b).KeysStay := by
  rw [closeIfBig, Piece.AllStay]
  split_ifs <;> simp

/-- The keys stay in a block and behind it. -/
theorem allStay_cons {p : Piece Row} {r : List (Piece Row) × Option (Merged Row)} :
    Piece.AllStay (p :: r.1, r.2) ↔ p.KeysStay ∧ Piece.AllStay r := by
  simp only [Piece.AllStay, List.forall_mem_cons, and_assoc]

/-- If the keys stay in the records that are not committed yet, they stay behind the next record
exactly if its key does. -/
theorem allStay_nextPieces (settings : CommitSettings Row)
    (hpending : ∀ b ∈ pending, (Piece.block b).KeysStay) (r : SchemaRecord Row) :
    Piece.AllStay (nextPieces settings pending r) ↔ KeyStays pending r := by
  cases pending with
  | none =>
    have hstays : KeyStays (none : Option (Merged Row)) r := by
      intro _
      simp [Ends]
    by_cases hdata : r.opCode = .insertData
    · simp only [nextPieces, if_pos hdata, allStay_closeIfBig, Piece.KeysStay, hstays]
    · simp [nextPieces, if_neg hdata, Piece.AllStay, Piece.KeysStay, hstays]
  | some b =>
    have hb := hpending b rfl
    by_cases hdata : r.opCode = .insertData
    · by_cases hversion : b.first.schemaVersion = r.schemaVersion
      · by_cases hdynamic :
            b.first.block.hasDynamicSubcolumns ≠ r.block.hasDynamicSubcolumns
        · have hends : Ends (some b) r := ⟨b, rfl, .inr (.inr hdynamic)⟩
          simp only [nextPieces, if_pos hdata, if_pos hversion, if_pos hdynamic, allStay_cons,
            allStay_closeIfBig, hb, true_and, KeyStays, hends, not_true, false_and]
          rfl
        · have hmerges : ¬ Ends (some b) r := by
            rintro ⟨b', hb', h | h | h⟩
            all_goals cases hb'
            exacts [h hdata, h hversion, hdynamic h]
          simp only [nextPieces, if_pos hdata, if_pos hversion, if_neg hdynamic,
            allStay_closeIfBig, keysStay_push, KeyStays, hb, true_and, hmerges,
            not_false_eq_true, Option.mem_some_iff, forall_eq']
      · have hends : Ends (some b) r := ⟨b, rfl, .inr (.inl hversion)⟩
        simp only [nextPieces, if_pos hdata, if_neg hversion, allStay_cons,
          allStay_closeIfBig, hb, true_and, KeyStays, hends, not_true, false_and]
        simp only [Piece.KeysStay, Merged.records, List.forall_mem_singleton]
    · have hends : Ends (some b) r := ⟨b, rfl, .inl hdata⟩
      simp only [nextPieces, if_neg hdata, KeyStays, hends]
      simp [Piece.AllStay, hb]
      simp [Piece.KeysStay]

/-- If the keys stay behind a record, they stay in the records before it. -/
theorem keysStay_of_nextPieces {b : Merged Row}
    (h : Piece.AllStay (nextPieces settings (some b) r)) : (Piece.block b).KeysStay := by
  simp only [nextPieces] at h
  split_ifs at h with hdata hversion hdynamic
  · exact (allStay_cons.mp h).1
  · exact (keysStay_push.mp (allStay_closeIfBig.mp h)).1
  · exact (allStay_cons.mp h).1
  · exact h.1 _ List.mem_cons_self

variable {records : List (SchemaRecord Row)}

/-- If the keys stay in a batch, they stay in the records before it. -/
theorem keysStay_pending (h : ∀ p ∈ pieces settings records pending, p.KeysStay) :
    ∀ b ∈ pending, (Piece.block b).KeysStay := by
  induction records generalizing pending with
  | nil =>
    rintro b rfl
    exact h _ List.mem_cons_self
  | cons r records ih =>
    rintro b rfl
    rw [pieces, List.forall_mem_append] at h
    exact keysStay_of_nextPieces ⟨h.1, ih h.2⟩

/-- The keys stay in a batch if they stay at each record. -/
theorem keysStay_pieces_cons :
    (∀ p ∈ pieces settings (r :: records) pending, p.KeysStay) ↔
      Piece.AllStay (nextPieces settings pending r) ∧
        ∀ p ∈ pieces settings records (nextPieces settings pending r).2, p.KeysStay := by
  simp only [pieces, List.forall_mem_append]
  constructor
  · rintro ⟨hnow, hlater⟩
    exact ⟨⟨hnow, keysStay_pending hlater⟩, hlater⟩
  · rintro ⟨⟨hnow, _⟩, hlater⟩
    exact ⟨hnow, hlater⟩

end Proton.StreamShardStore
