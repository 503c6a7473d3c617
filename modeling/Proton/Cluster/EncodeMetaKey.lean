import Proton.IO.PrefixTreeEncode

/-!
# Encoding Strings from Views

The string encoders of the prefix tree take a `std::string_view`, but append its last piece
with `std::string::append(const char *)`, which reads on to the next zero byte. For an owned
string that byte is its terminator. For a view into a larger buffer it is somewhere behind
the view, and the bytes in between become part of the encoded string
(`encodeViewAscending_eq`); without a zero byte the read leaves the buffer.

`encodeMetaKey` encodes the identifier of a stream shard through such a view. In a
`StreamIDShard` the identifier is followed by the shard number, so the key of a shard is
decoded to the identifier only when the low byte of the number is zero
(`stringViews_encode_iff`).
-/

open List Option

namespace Proton.PrefixTreeEncode

open ByteReader OrderedBytes

/-! ### Encoding a view -/

/-- What `append(const char *)` reads from `memory`, or nothing if the read leaves it. -/
def cString (memory : Bytes) : Option Bytes :=
  if 0x00 ∈ memory then some (memory.takeWhile (· ≠ 0x00)) else none

/-- `encodeStringAscendingWithoutTerminatorOrPrefix` on a view that is followed by `after` in
memory. -/
def encodeViewWithoutTerminatorOrPrefix (after : Bytes) : Bytes → Option Bytes
  | [] => cString after
  | byte :: data =>
    if byte = 0x00 then
      (encodeViewWithoutTerminatorOrPrefix after data).map fun encoded => byte :: 0xff :: encoded
    else (encodeViewWithoutTerminatorOrPrefix after data).map fun encoded => byte :: encoded

variable (after data : Bytes)

/-- `encodeStringAscending` on a view. -/
def encodeViewAscending : Option Bytes :=
  (encodeViewWithoutTerminatorOrPrefix after data).map fun encoded =>
    ascendingBytesEscapes.marker :: (encoded ++ [0x00, 0x01])

/-- `encodeStringDescending` on a view. -/
def encodeViewDescending : Option Bytes :=
  (encodeViewWithoutTerminatorOrPrefix after data).map fun encoded =>
    descendingBytesEscapes.marker :: complement (encoded ++ [0x00, 0x01])

/-- A C string goes on up to the first zero byte. -/
theorem cString_cons (byte : UInt8) (memory : Bytes) : cString (byte :: memory) =
    if byte = 0x00 then some [] else (cString memory).map (byte :: ·) := by
  by_cases hbyte : byte = 0x00
  · simp [cString, hbyte]
  · have hne : ¬ 0x00 = byte := fun h => hbyte h.symm
    by_cases hmem : 0x00 ∈ memory
    · simp [cString, hbyte, hmem]
    · simp [cString, hbyte, hne]

/-- A C string is empty if the memory starts with a zero byte. -/
theorem cString_eq_nil_iff (memory : Bytes) :
    cString memory = some [] ↔ memory.head? = some 0x00 := by
  cases memory with
  | nil => simp [cString]
  | cons byte memory =>
    rw [cString_cons]
    by_cases hbyte : byte = 0x00 <;> simp [hbyte]

/-- What a C string reads needs no escape. -/
theorem encode_cString {memory extra : Bytes} (h : cString memory = some extra) :
    encodeStringAscendingWithoutTerminatorOrPrefix extra = extra := by
  induction memory generalizing extra with
  | nil => simp [cString] at h
  | cons byte memory ih =>
    rw [cString_cons] at h
    split at h
    next => rw [← some.inj h]; rfl
    next hbyte =>
      obtain ⟨extra, hextra, rfl⟩ := map_eq_some_iff.1 h
      rw [encodeStringAscendingWithoutTerminatorOrPrefix, if_neg hbyte, ih hextra]

/-- A view is encoded as the string that goes on to the next zero byte. -/
theorem encodeViewWithoutTerminatorOrPrefix_eq :
    encodeViewWithoutTerminatorOrPrefix after data = (cString after).map fun extra =>
      encodeStringAscendingWithoutTerminatorOrPrefix (data ++ extra) := by
  induction data with
  | nil =>
    rw [encodeViewWithoutTerminatorOrPrefix]
    cases hextra : cString after with
    | none => rfl
    | some extra => exact congrArg some (encode_cString hextra).symm
  | cons byte data ih =>
    rw [encodeViewWithoutTerminatorOrPrefix, ih]
    by_cases hbyte : byte = 0x00 <;>
      simp [hbyte, encodeStringAscendingWithoutTerminatorOrPrefix, Function.comp_def]

/-- **What is encoded for a view**: the string up to the next zero byte in memory. -/
theorem encodeViewAscending_eq : encodeViewAscending after data =
    (cString after).map fun extra => encodeStringAscending (data ++ extra) := by
  rw [encodeViewAscending, encodeViewWithoutTerminatorOrPrefix_eq, Option.map_map]
  rfl

/-- The bytes behind the view are encoded with it. -/
theorem encodeViewDescending_eq : encodeViewDescending after data =
    (cString after).map fun extra => encodeStringDescending (data ++ extra) := by
  rw [encodeViewDescending, encodeViewWithoutTerminatorOrPrefix_eq, Option.map_map]
  rfl

/-- The encoding of a string can be decoded. -/
theorem encodeStringAscending_injective : Function.Injective encodeStringAscending := by
  intro u v h
  have hu := decodeStringAscending_encode u []
  rw [h, decodeStringAscending_encode] at hu
  exact (Prod.mk.inj (Except.ok.inj hu)).1.symm

/-- A view is encoded like an owned copy when a zero byte follows it, and only then. -/
theorem encodeView_eq_owned_iff :
    (encodeViewAscending after data = encodeViewAscending [0x00] data ∧
      encodeViewDescending after data = encodeViewDescending [0x00] data) ↔
        after.head? = some 0x00 := by
  -- an owned string is followed by its terminator, and encoded as it is
  have howned : cString [0x00] = some [] := (cString_eq_nil_iff [0x00]).2 rfl
  simp only [encodeViewAscending_eq, encodeViewDescending_eq, howned, map_some, append_nil]
  rw [← cString_eq_nil_iff]
  constructor
  · rintro ⟨hascending, -⟩
    obtain ⟨extra, hextra, hencoded⟩ := map_eq_some_iff.1 hascending
    rw [hextra, append_right_eq_self.1 (encodeStringAscending_injective hencoded)]
  · intro hextra
    rw [hextra, map_some, map_some, append_nil]
    exact ⟨rfl, rfl⟩

end Proton.PrefixTreeEncode

namespace Proton

open ByteReader OrderedBytes PrefixTreeEncode

/-! ### Keys of stream shards -/

/-- A shard of a stream. The identifier is a 16-byte number, which is viewed as its bytes. -/
structure StreamIDShard where
  /-- The bytes of the identifier. -/
  id : Bytes
  /-- The number of the shard. -/
  shard : UInt32
  /-- An identifier has 16 bytes. -/
  length_id : id.length = 16

/-- The shard number in memory, right behind the identifier. -/
def StreamIDShard.shardBytes (streamShard : StreamIDShard) : Bytes :=
  [streamShard.shard.toUInt8, (streamShard.shard >>> 8).toUInt8,
    (streamShard.shard >>> 16).toUInt8, (streamShard.shard >>> 24).toUInt8]

/-- `MetaKeySpace::MetaAppliedSN`. -/
def metaAppliedSN : UInt8 := 0xdd

/-- `encodeMetaKey`, for a `StreamIDShard` that is followed by `behind` in memory. -/
def encodeMetaKey (keySpace : UInt8) (behind : Bytes) (streamShard : StreamIDShard) :
    Option Bytes :=
  (encodeViewAscending (streamShard.shardBytes ++ behind) streamShard.id).map fun encoded =>
    encodeVarUIntAscending keySpace.toNat ++
      (encoded ++ encodeVarUIntAscending streamShard.shard.toNat)

/-- `encodeMetaAppliedSequenceKey`. -/
def encodeMetaAppliedSequenceKey (behind : Bytes) (streamShard : StreamIDShard) : Option Bytes :=
  encodeMetaKey metaAppliedSN behind streamShard

/-- The decoders of the parts of a key, in their order. -/
def decodeMetaKey (data : Bytes) : Except DecodeError (ℕ × Bytes × ℕ) := do
  let (keySpace, data) ← decodeVarUIntAscending data
  let (id, data) ← decodeStringAscending data
  let (shard, _) ← decodeVarUIntAscending data
  return (keySpace, id, shard)

/-- The first byte of the shard is its lowest one. -/
theorem StreamIDShard.head?_shardBytes (streamShard : StreamIDShard) (behind : Bytes) :
    (streamShard.shardBytes ++ behind).head? = some 0x00 ↔ streamShard.shard.toNat % 256 = 0 := by
  show some streamShard.shard.toUInt8 = some 0x00 ↔ _
  rw [some_inj, ← UInt8.toNat_inj]
  rfl

/-- The key of a shard is that of a string that goes on behind the identifier. -/
theorem encodeMetaAppliedSequenceKey_eq (behind : Bytes) (streamShard : StreamIDShard) :
    encodeMetaAppliedSequenceKey behind streamShard =
      (cString (streamShard.shardBytes ++ behind)).map fun extra =>
        encodeVarUIntAscending 0xdd ++ (encodeStringAscending (streamShard.id ++ extra) ++
          encodeVarUIntAscending streamShard.shard.toNat) := by
  rw [encodeMetaAppliedSequenceKey, encodeMetaKey, encodeViewAscending_eq, Option.map_map]
  rfl

/-- A number at the end of a key is read back. -/
theorem decodeVarUIntAscending_last {n : ℕ} (h : n < 2 ^ 64) :
    decodeVarUIntAscending (encodeVarUIntAscending n) = .ok (n, []) := by
  have hread := decodeVarUIntAscending_encode h []
  rw [append_nil] at hread
  rw [hread, decoded, if_pos]
  rw [checkedVarUIntAscending]
  split
  next => trivial
  next =>
    have hle := width_le n
    rw [Fits, Word.wrap_of_mem ⟨by simp only [Word.int32]; omega, by simp [Word.int32]; omega⟩]
    simp

/-- Decoding a key, with enough bytes or too many behind its first part. -/
theorem decodeMetaKey_encode (id : Bytes) {shard : ℕ} (h : shard < 2 ^ 64) :
    let behind := encodeStringAscending id ++ encodeVarUIntAscending shard
    decodeMetaKey (encodeVarUIntAscending 0xdd ++ behind) =
      if Fits behind.length (some 1) then .ok (0xdd, id, shard) else .error .insufficientBytes := by
  intro behind
  rw [decodeMetaKey, decodeVarUIntAscending_encode (by decide)]
  rw [show checkedVarUIntAscending 0xdd = some 1 from rfl, decoded]
  split
  next =>
    show (decodeStringAscending behind >>= _) = _
    rw [decodeStringAscending_encode]
    show (decodeVarUIntAscending (encodeVarUIntAscending shard) >>= _) = _
    rw [decodeVarUIntAscending_last h]
    rfl
  next => rfl

/-- A string has at most two bytes for each of its own, and three more. -/
theorem length_encodeStringAscending_le (data : Bytes) :
    (encodeStringAscending data).length ≤ 2 * data.length + 3 := by
  have hbody : (encodeStringAscendingWithoutTerminatorOrPrefix data).length ≤ 2 * data.length := by
    induction data with
    | nil => rfl
    | cons byte data ih =>
      rw [encodeStringAscendingWithoutTerminatorOrPrefix]
      split <;> simp only [length_cons] <;> omega
  simp only [encodeStringAscending, encodeStringAscendingWithTerminator, length_cons,
    length_append, length_nil]
  omega

/-- A tag and at most eight bytes. -/
theorem length_encodeVarUIntAscending_le (n : ℕ) : (encodeVarUIntAscending n).length ≤ 9 := by
  have hle := width_le n
  rw [encodeVarUIntAscending]
  split <;> simp only [length_cons, length_nil, length_lowBytes] <;> omega

/-- The key of a shard is decoded to its identifier and number when the low byte of the
number is zero, and only then. -/
theorem decodeMetaKey_encode_iff (behind : Bytes) (streamShard : StreamIDShard) :
    (∃ key, encodeMetaAppliedSequenceKey behind streamShard = some key ∧
      decodeMetaKey key = .ok (0xdd, streamShard.id, streamShard.shard.toNat)) ↔
        streamShard.shard.toNat % 256 = 0 := by
  have hshard : streamShard.shard.toNat < 2 ^ 64 := lt_trans streamShard.shard.toNat_lt (by decide)
  rw [← streamShard.head?_shardBytes behind, ← cString_eq_nil_iff, encodeMetaAppliedSequenceKey_eq]
  constructor
  · rintro ⟨key, hkey, hdecode⟩
    obtain ⟨extra, hextra, rfl⟩ := map_eq_some_iff.1 hkey
    rw [decodeMetaKey_encode _ hshard] at hdecode
    split at hdecode
    next =>
      have hid := (Prod.mk.inj (Prod.mk.inj (Except.ok.inj hdecode)).2).1
      rw [hextra, append_right_eq_self.1 hid]
    next => cases hdecode
  · intro hextra
    rw [hextra]
    refine ⟨_, rfl, ?_⟩
    rw [decodeMetaKey_encode _ hshard, append_nil, if_pos]
    have hstring := length_encodeStringAscending_le streamShard.id
    have hnumber := length_encodeVarUIntAscending_le streamShard.shard.toNat
    rw [streamShard.length_id] at hstring
    rw [Fits, length_append, Word.wrap_of_mem]
    · omega
    · exact ⟨by simp only [Word.int32]; omega, by simp only [Word.int32]; omega⟩

/-- Two shards with the same key are the same. -/
theorem encodeMetaAppliedSequenceKey_inj {behind behind' : Bytes} {s t : StreamIDShard}
    {key : Bytes} (hs : encodeMetaAppliedSequenceKey behind s = some key)
    (ht : encodeMetaAppliedSequenceKey behind' t = some key) : s = t := by
  rw [encodeMetaAppliedSequenceKey_eq, map_eq_some_iff] at hs ht
  obtain ⟨extra, -, rfl⟩ := hs
  obtain ⟨extra', -, hkey⟩ := ht
  have hstring := congrArg decodeStringAscending (append_cancel_left hkey)
  rw [decodeStringAscending_encode, decodeStringAscending_encode] at hstring
  obtain ⟨hid, hnumber⟩ := Prod.mk.inj (Except.ok.inj hstring)
  have hshard := congrArg decodeVarUIntAscending hnumber
  rw [decodeVarUIntAscending_last (lt_trans t.shard.toNat_lt (by decide)),
    decodeVarUIntAscending_last (lt_trans s.shard.toNat_lt (by decide))] at hshard
  obtain ⟨id, shard, hlength⟩ := s
  obtain ⟨id', shard', hlength'⟩ := t
  obtain rfl : id' = id := (append_inj hid (hlength'.trans hlength.symm)).1
  obtain rfl : shard' = shard := UInt32.toNat_inj.1 (Prod.mk.inj (Except.ok.inj hshard)).1
  rfl

/-- **String keys from views.** A view is encoded like an owned copy of it if and only if a
zero byte follows it in memory. The key of a stream shard therefore is decoded to the shard
if and only if the low byte of the shard number is zero; keys of different shards differ. -/
theorem stringViews_encode_iff (after data behind : Bytes) (streamShard : StreamIDShard) :
    ((encodeViewAscending after data = encodeViewAscending [0x00] data ∧
      encodeViewDescending after data = encodeViewDescending [0x00] data) ↔
        after.head? = some 0x00) ∧
    ((∃ key, encodeMetaAppliedSequenceKey behind streamShard = some key ∧
      decodeMetaKey key = .ok (0xdd, streamShard.id, streamShard.shard.toNat)) ↔
        streamShard.shard.toNat % 256 = 0) ∧
    ∀ behind' other key, encodeMetaAppliedSequenceKey behind streamShard = some key →
      encodeMetaAppliedSequenceKey behind' other = some key → streamShard = other :=
  ⟨encodeView_eq_owned_iff after data, decodeMetaKey_encode_iff behind streamShard,
    fun _ _ _ hkey hother => encodeMetaAppliedSequenceKey_inj hkey hother⟩

/-- The key of shard 1 of the stream `00…00` has the shard number behind the identifier, and
is decoded to an identifier of 17 bytes. -/
theorem encodeMetaAppliedSequenceKey_shard_one :
    encodeMetaAppliedSequenceKey [] ⟨replicate 16 0x00, 1, rfl⟩ =
      some (encodeVarUIntAscending 0xdd ++
        (encodeStringAscending (replicate 16 0x00 ++ [0x01]) ++ [0x89])) ∧
    encodeViewAscending [0x01, 0x00] [0x61] ≠ encodeViewAscending [0x00] [0x61] := by
  decide

end Proton
