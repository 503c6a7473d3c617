import Mathlib.Algebra.Group.Int.Defs
import Proton.Lib.Records

/-!
# Index Entries

`PersistentMonoMap` is generic in its entry type: a key and a value that both increase, a
lexicographic order, and a serialization of a fixed size. The class `KeyValue` states that
interface. Keys and values are 64-bit integers of either signedness, so they are compared
as integers; the `+ 1` of the key and value types stays a field of its own because it
wraps for the unsigned ones.

The three instances are the ones the source instantiates the map with:
`SequencePosition`, `TimestampSequence` and `EpochSequence`.
-/

open ByteReader Records

namespace Proton

/-- The interface `PersistentMonoMap` requires of its entries. -/
class KeyValue (α : Type) where
  /-- `serialize`, `deserialize` and `exactSerializedSize`. -/
  codec : Codec α
  key : α → ℤ
  value : α → ℤ
  /-- `key + 1` in the key type. -/
  keySucc : ℤ → ℤ
  /-- `value + 1` in the value type. -/
  valueSucc : ℤ → ℤ

namespace KeyValue

variable {α : Type} [KeyValue α]

/-- `operator<`: lexicographic in the key and the value. -/
def lt (a b : α) : Prop :=
  key a < key b ∨ (key a = key b ∧ value a < value b)
deriving Decidable

/-- Entries are ordered by their keys first. -/
theorem lt_of_key_lt {a b : α} (h : key a < key b) : lt a b :=
  .inl h

/-- A larger key is not before a smaller one. -/
theorem not_lt_of_key_lt {a b : α} (h : key a < key b) : ¬ lt b a := by
  unfold lt
  omega

end KeyValue

/-! ### Signed and unsigned 64-bit fields -/

/-- `writeBinary` of a signed 64-bit integer. -/
def int64Bytes (x : Int64) : Bytes :=
  leBytes 8 x.toUInt64.toNat

/-- `readBinary` of a signed 64-bit integer. -/
def int64OfBytes (b : Bytes) : Int64 :=
  (UInt64.ofNat (ofLeBytes b)).toInt64

/-- An `Int64` is read back. -/
theorem int64OfBytes_int64Bytes (x : Int64) : int64OfBytes (int64Bytes x) = x := by
  rw [int64OfBytes, int64Bytes, ofLeBytes_leBytes_of_lt x.toUInt64.toNat_lt,
    UInt64.ofNat_toNat, Int64.toInt64_toUInt64]

/-- `writeBinary` of an unsigned 64-bit integer. -/
def uint64Bytes (x : UInt64) : Bytes :=
  leBytes 8 x.toNat

/-- `readBinary` of an unsigned 64-bit integer. -/
def uint64OfBytes (b : Bytes) : UInt64 :=
  UInt64.ofNat (ofLeBytes b)

/-- A `UInt64` is read back. -/
theorem uint64OfBytes_uint64Bytes (x : UInt64) : uint64OfBytes (uint64Bytes x) = x := by
  rw [uint64OfBytes, uint64Bytes, ofLeBytes_leBytes_of_lt x.toNat_lt, UInt64.ofNat_toNat]

@[simp] theorem length_int64Bytes (x : Int64) : (int64Bytes x).length = 8 :=
  length_leBytes _ _

@[simp] theorem length_uint64Bytes (x : UInt64) : (uint64Bytes x).length = 8 :=
  length_leBytes _ _

/-! ### The three entry types -/

/-- `SequencePosition`: a sequence number and the file position of its entry. -/
structure SequencePosition where
  sn : Int64
  filePosition : UInt64
  deriving DecidableEq, Repr

instance : KeyValue SequencePosition where
  codec :=
    { size := 16
      enc := fun a => int64Bytes a.sn ++ uint64Bytes a.filePosition
      dec := fun b => ⟨int64OfBytes (b.take 8), uint64OfBytes (b.drop 8)⟩
      size_pos := by decide
      length_enc := fun a => by simp
      dec_enc := fun a => by
        simp [List.take_left', List.drop_left', int64OfBytes_int64Bytes,
          uint64OfBytes_uint64Bytes] }
  key a := a.sn.toInt
  value a := a.filePosition.toNat
  keySucc k := k + 1
  valueSucc v := (v + 1) % 2 ^ 64

/-- `TimestampSequence`: a timestamp and the sequence number of its entry. -/
structure TimestampSequence where
  timestamp : Int64
  sn : Int64
  deriving DecidableEq, Repr

instance : KeyValue TimestampSequence where
  codec :=
    { size := 16
      enc := fun a => int64Bytes a.timestamp ++ int64Bytes a.sn
      dec := fun b => ⟨int64OfBytes (b.take 8), int64OfBytes (b.drop 8)⟩
      size_pos := by decide
      length_enc := fun a => by simp
      dec_enc := fun a => by
        simp [List.take_left', List.drop_left', int64OfBytes_int64Bytes] }
  key a := a.timestamp.toInt
  value a := a.sn.toInt
  keySucc k := k + 1
  valueSucc v := v + 1

/-- `EpochSequence`: the epoch is always 1, is written, and is ignored when read. -/
structure EpochSequence where
  sn : Int64
  deriving DecidableEq, Repr

instance : KeyValue EpochSequence where
  codec :=
    { size := 16
      enc := fun a => uint64Bytes 1 ++ int64Bytes a.sn
      dec := fun b => ⟨int64OfBytes (b.drop 8)⟩
      size_pos := by decide
      length_enc := fun a => by simp
      dec_enc := fun a => by
        simp [List.drop_left', int64OfBytes_int64Bytes] }
  key _ := 1
  value a := a.sn.toInt
  keySucc k := (k + 1) % 2 ^ 64
  valueSucc v := v + 1

end Proton
