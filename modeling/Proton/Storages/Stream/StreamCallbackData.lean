import Proton.Lib.Buckets
import Proton.Storages.Stream.StreamShardStore

/-!
# Replaying the Log

This module embeds `StreamCallbackData`, which takes batches of records from the log. As long as
there are missing sequence ranges, the records are kept until the greatest committed sequence
number is reached; then they are categorized by the missing ranges they belong to, and each
category is committed with its ranges. Records that are in no missing range were committed before,
and are left out.

What the store does with the records is a parameter. An exception of the store is logged and
swallowed.
-/

namespace Proton.StreamCallbackData

open StreamShardStore

variable {Row Store : Type}

/-- A sequence number is in a range. -/
def InRange (m : SequenceRange) (sn : ℤ) : Prop := m.startSN ≤ sn ∧ sn ≤ m.endSN
deriving Decidable

/-- Records that are committed together, and their missing ranges: `RecordsSequenceRangesPair`. -/
abbrev Bucket (Row : Type) := List (SchemaRecord Row) × List SequenceRange

variable (ranges : List SequenceRange)

/-- The missing ranges that are collected along with one: those behind it with the same start, if
they are not there yet. -/
def collectRanges (i : ℕ) (m : SequenceRange)
    (found : List SequenceRange) : List SequenceRange :=
  (ranges.drop i).foldl
    (fun found m' => if m'.startSN = m.startSN ∧ m' ∉ found then found ++ [m'] else found) found

/-- A record is put into the bucket of a missing range. The last bucket has no missing range. -/
def pushRecord (i : ℕ) (bucket : Bucket Row)
    (record : SchemaRecord Row) : Bucket Row :=
  match ranges[i]? with
  | none => (bucket.1 ++ [record], bucket.2)
  | some m => (bucket.1 ++ [record], collectRanges ranges i m bucket.2)

/-- The bucket of a sequence number. -/
def bucketIndex (maxCommittedSN sn : ℤ) : Option ℕ :=
  if maxCommittedSN < sn then some ranges.length
  -- records behind the last missing range are committed
  else if ranges.getLast?.any (·.endSN < sn) then none
  else ranges.findIdx? (InRange · sn)

/-- `categorizeRecordsAccordingToSequenceRanges`. -/
def categorizeRecordsAccordingToSequenceRanges (records : List (SchemaRecord Row))
    (ranges : List SequenceRange) (maxCommittedSN : ℤ) : List (Bucket Row) :=
  let buckets := Buckets.fill (fun record => bucketIndex ranges maxCommittedSN record.sn)
    (pushRecord ranges) (List.replicate (ranges.length + 1) ([], [])) records
  buckets.filter fun b => !b.1.isEmpty

/-! ### Batches of the log -/

/-- The state of `StreamCallbackData`, and of the store. -/
structure CallbackState (Row Store : Type) where
  /-- `missing_sequence_ranges`. -/
  missing : List SequenceRange
  /-- `recovery_records`. -/
  recoveryRecords : List (SchemaRecord Row) := []
  /-- The store. -/
  store : Store

/-- `StreamCallbackData::commit`, where `commitRecords` is what the store does with some records and
missing ranges. -/
def commit (commitRecords : Store → Bucket Row → Store) (maxCommittedSN : ℤ)
    (s : CallbackState Row Store) (records : List (SchemaRecord Row)) : CallbackState Row Store :=
  if s.missing.isEmpty then { s with store := commitRecords s.store (records, []) }
  else
    let recoveryRecords := s.recoveryRecords ++ records
    -- wait for the greatest committed sequence number
    if recoveryRecords.getLast?.all (·.sn < maxCommittedSN) then
      { s with recoveryRecords := recoveryRecords }
    else
      { missing := []
        recoveryRecords := []
        store := (categorizeRecordsAccordingToSequenceRanges recoveryRecords s.missing
          maxCommittedSN).foldl commitRecords s.store }

end Proton.StreamCallbackData
