import Proton.IO.VarInt

/-!
# The Log Entry Codec

This module embeds `Cluster/Common/Entry.{h,cpp}`. An entry is stored as a 32-bit
little-endian length prefix, which does not count itself, followed by a header of
variable-length integers, the type byte, and the length-prefixed payload:

* `Entry.serialize` writes the whole record and back-patches the length prefix, keeping
  its low 32 bits;
* `Entry.deserialize` reads a record back, and with `metadata_only` stops before the
  payload.

The in-memory `prefix_length` of the source is the length of what follows it and is not a
field of its own here: a parsed entry carries the prefix it was read with (`ParsedEntry`).

## Main results

* `Entry.metadata_exact`: the metadata of an entry is a self-delimiting encoding of
  `Entry.metadataLength` bytes.
-/

open ByteReader

namespace Proton

/-- `EntryType`, an `enum class` over one byte: a value read from a file may be one that
has no name. -/
structure EntryType where
  /-- The underlying byte. -/
  raw : UInt8
  deriving DecidableEq, Repr

/-- `EntryType::Normal`. -/
def EntryType.normal : EntryType := ⟨0⟩

/-- The fields of an `Entry` that precede its payload. -/
structure EntryHeader where
  crc : UInt32 := 0
  version : UInt16 := 0
  correlationId : UInt64 := 0
  maxEventTimestamp : Int64 := 0
  appendTimestamp : Int64 := 0
  sn : Int64 := 0
  type : EntryType := .normal
  deriving DecidableEq, Repr

/-- `Entry`. -/
structure Entry extends EntryHeader where
  data : Bytes := []
  deriving DecidableEq, Repr

/-- `prefixLengthSize()`. -/
def prefixLengthSize : ℕ := 4

/-! ### Serialization -/

/-- The header fields in the order `Entry::serialize` writes them. -/
def EntryHeader.serialize (h : EntryHeader) : Bytes :=
  writeVarUInt h.crc.toNat ++ (writeVarUInt h.version.toNat ++
    (writeVarUInt h.correlationId.toNat ++ (writeVarInt h.maxEventTimestamp ++
      (writeVarInt h.appendTimestamp ++ (writeVarInt h.sn ++ leBytes 1 h.type.raw.toNat)))))

variable (e : Entry)

/-- Everything `Entry::serialize` writes after the length prefix. -/
def Entry.serializeRest : Bytes :=
  e.toEntryHeader.serialize ++ (writeVarUInt e.data.length ++ e.data)

/-- `Entry::serialize(version)`: the length prefix is the low 32 bits of the length of
what follows it. -/
def Entry.serialize : Bytes :=
  leBytes prefixLengthSize e.serializeRest.length ++ e.serializeRest

/-- The serialized length fits the 32-bit prefix: the entry is below 4 GiB. -/
def Entry.Fits : Prop :=
  e.serializeRest.length < 2 ^ 32
deriving Decidable

/-- The serialized length of the metadata: the length prefix and the header. -/
def Entry.metadataLength : ℕ :=
  prefixLengthSize + e.toEntryHeader.serialize.length

/-- `approximateSerializedMetadataSize()`: the fixed widths of the prefix, the crc, the
version, the correlation id, the two timestamps, the sequence number and the type. -/
def approximateSerializedMetadataSize : ℕ :=
  4 + 4 + 2 + 8 + 8 + 8 + 8 + 1

/-! ### Deserialization -/

/-- A parsed entry with the length prefix it was read with. -/
structure ParsedEntry where
  prefixLength : ℕ
  entry : Entry
  deriving DecidableEq, Repr

/-- `serializedSize()`. -/
def ParsedEntry.serializedSize (p : ParsedEntry) : ℕ :=
  p.prefixLength + prefixLengthSize

/-- `deserializePrefixLength`. -/
def deserializePrefixLength : Reader ReadError ℕ :=
  readLe .cannotReadAllData prefixLengthSize

/-- The part of `deserializeRest` that reads the header. The 64-bit values read are
narrowed to the width of their field. -/
def deserializeHeader : Reader ReadError EntryHeader := do
  let crc ← readVarUInt
  let version ← readVarUInt
  let correlationId ← readVarUInt
  let maxEventTimestamp ← readVarInt
  let appendTimestamp ← readVarInt
  let sn ← readVarInt
  let type ← readLe .cannotReadAllData 1
  pure
    { crc := UInt32.ofNat crc
      version := UInt16.ofNat version
      correlationId := UInt64.ofNat correlationId
      maxEventTimestamp := maxEventTimestamp
      appendTimestamp := appendTimestamp
      sn := sn
      type := ⟨UInt8.ofNat type⟩ }

/-- `deserializeRest`: with `metadata_only` the payload is left unread. -/
def deserializeRest (metadataOnly : Bool) : Reader ReadError Entry := do
  let header ← deserializeHeader
  if metadataOnly then
    pure { header with data := [] }
  else
    let size ← readVarUInt
    let data ← readStrict .cannotReadAllData size
    pure { header with data := data }

/-- `Entry::deserialize`. -/
def Entry.deserialize (metadataOnly : Bool) : Reader ReadError ParsedEntry := do
  let prefixLength ← deserializePrefixLength
  let entry ← deserializeRest metadataOnly
  pure { prefixLength := prefixLength, entry := entry }

/-- The metadata bytes of an entry: its length prefix and its header. -/
def Entry.metadata : Bytes :=
  leBytes prefixLengthSize e.serializeRest.length ++ e.toEntryHeader.serialize

/-- What a `metadata_only` read of `e` returns: the length prefix and the header, with no
payload. -/
def Entry.parsedMetadata : ParsedEntry :=
  { prefixLength := e.serializeRest.length, entry := { e with data := [] } }

/-! ### The codec is exact -/

/-- **The header is self-delimiting.** -/
theorem deserializeHeader_exact (h : EntryHeader) : Exact deserializeHeader h.serialize h := by
  have hcrc : h.crc.toNat < 2 ^ 64 := h.crc.toNat_lt.trans (by decide)
  have hver : h.version.toNat < 2 ^ 64 := h.version.toNat_lt.trans (by decide)
  have htype : h.type.raw.toNat < 256 ^ 1 := h.type.raw.toNat_lt
  refine (readVarUInt_exact hcrc).bind ?_
  refine (readVarUInt_exact hver).bind ?_
  refine (readVarUInt_exact h.correlationId.toNat_lt).bind ?_
  refine (readVarInt_exact h.maxEventTimestamp).bind ?_
  refine (readVarInt_exact h.appendTimestamp).bind ?_
  refine (readVarInt_exact h.sn).bind ?_
  have hlast := (readLe_exact ReadError.cannotReadAllData htype).map
    (fun t => ({ h with type := ⟨UInt8.ofNat t⟩ } : EntryHeader))
  simpa using hlast

/-- **The metadata of an entry is self-delimiting**: reading it returns the length prefix
and the header, and any proper prefix of it is a read error. -/
theorem Entry.metadata_exact (h : e.Fits) :
    Exact (Entry.deserialize true) e.metadata e.parsedMetadata := by
  unfold Entry.deserialize deserializePrefixLength deserializeRest Entry.metadata
    Entry.parsedMetadata
  refine (readLe_exact _ (by simpa [prefixLengthSize, Entry.Fits] using h)).bind ?_
  have hheader := (deserializeHeader_exact e.toEntryHeader).map
    (fun hd => ({ prefixLength := e.serializeRest.length
                  entry := { hd with data := [] } } : ParsedEntry))
  rw [map_eq_pure_bind] at hheader
  simpa only [bind_assoc, pure_bind, if_true] using hheader

/-! ### Sizes -/

/-- The serialized length is the prefix and what it counts. -/
theorem Entry.length_serialize :
    e.serialize.length = e.serializeRest.length + prefixLengthSize := by
  simp [Entry.serialize, Nat.add_comm]

/-- The size a parsed entry reports is the length of its serialization. -/
theorem Entry.parsedMetadata_serializedSize :
    e.parsedMetadata.serializedSize = e.serialize.length :=
  e.length_serialize.symm

/-- The length of the metadata. -/
theorem Entry.length_metadata : e.metadata.length = e.metadataLength := by
  simp [Entry.metadata, Entry.metadataLength]

/-- An entry is its metadata followed by its payload. -/
theorem Entry.serialize_eq_metadata_append :
    e.serialize = e.metadata ++ (writeVarUInt e.data.length ++ e.data) := by
  simp [Entry.serialize, Entry.serializeRest, Entry.metadata]

/-- An entry takes at least its length prefix. -/
theorem Entry.length_serialize_pos : 0 < e.serialize.length := by
  rw [Entry.length_serialize, prefixLengthSize]
  omega

end Proton
