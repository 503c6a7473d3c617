import Proton.LocalLog.FileLogEntries

/-!
# Parsing Many Entries

This module embeds `Entry::parseMany`, which parses the complete entries at the start of some
data until one reaches a bound on the sequence number or the entries reach a number of bytes.
The data may end within an entry.

The source passes its argument `version_` in the place of `metadata_only`, so that every version
but `NullVersion` leaves the payloads unread and the next length prefix is taken from one.

## Main results

* `Entry.parseMany_eq`: what a parse of complete entries takes over, of which the data may hold
  only the first bytes.
* `entry_codec_iff`: entries are parsed back with version zero only, and the metadata of an
  entry is parsed from `approximateSerializedMetadataSize` bytes only when it takes no more.
-/

open ByteReader List

namespace Proton

/-! ### The source's function -/

/-- `Nulls::NullVersion`. -/
def nullVersion : UInt16 := 0

/-- What `parseMany` leaves: the entries handed in with those it parsed, the bytes that the
parsed ones take, and the code of the exception that ended it. -/
structure ParsedMany where
  entries : List Entry
  parsedBytes : ℕ
  error : Option ReadError := none
  deriving DecidableEq, Repr

namespace Entry

/-- The loop of `parseMany` over the unread bytes. Every round but the last one takes a length
prefix, so the size of the data bounds the number of rounds. -/
def parseManyLoop (metadataOnly : Bool) (dataSize : ℕ) (maxSn : ℤ) (maxSize : ℕ) :
    ℕ → Bytes → ℕ → List Entry → ParsedMany
  | 0, _, parsedBytes, entries => ⟨entries, parsedBytes, none⟩
  | fuel + 1, rb, parsedBytes, entries =>
    if parsedBytes + prefixLengthSize < dataSize then
      match deserializePrefixLength.run rb with
      | .error err => ⟨entries, parsedBytes, some err⟩
      | .ok (prefixLength, rb) =>
        let serializedSize := prefixLength + prefixLengthSize
        -- a partial entry
        if parsedBytes + serializedSize > dataSize then ⟨entries, parsedBytes, none⟩
        else
          match (deserializeRest metadataOnly).run rb with
          | .error err => ⟨entries, parsedBytes, some err⟩
          | .ok (entry, rb) =>
            if entry.sn.toInt < maxSn then
              let parsedBytes := parsedBytes + serializedSize
              if parsedBytes ≥ maxSize then ⟨entries ++ [entry], parsedBytes, none⟩
              else
                parseManyLoop metadataOnly dataSize maxSn maxSize fuel rb parsedBytes
                  (entries ++ [entry])
            else ⟨entries, parsedBytes, none⟩
    else ⟨entries, parsedBytes, none⟩

/-- `parseMany`: the complete entries of the data below `maxSn`, until they reach `maxSize`
bytes. The version takes the place of `metadata_only`. -/
def parseMany (data : Bytes) (version : UInt16) (maxSn : ℤ) (maxSize : ℕ)
    (entries : List Entry) : ParsedMany :=
  parseManyLoop (version ≠ 0) data.length maxSn maxSize data.length data 0 entries

/-! ### The parts of an entry -/

/-- The part of an entry after its length prefix is self-delimiting. -/
theorem deserializeRest_exact (e : Entry) (h : e.Fits) :
    Exact (deserializeRest false) e.serializeRest e := by
  have hdata : e.data.length < 2 ^ 64 := by
    rw [Fits, serializeRest, length_append, length_append] at h
    omega
  refine (deserializeHeader_exact e.toEntryHeader).bind ?_
  refine (readVarUInt_exact hdata).bind ?_
  have hd := (readStrict_exact ReadError.cannotReadAllData e.data).map
    (fun d => ({ e with data := d } : Entry))
  rwa [map_eq_pure_bind] at hd

/-- What follows the length prefix of an entry is not empty. -/
theorem prefixLengthSize_lt (e : Entry) : prefixLengthSize < e.serialize.length := by
  rw [length_serialize, serializeRest, EntryHeader.serialize]
  simp only [length_append, length_leBytes]
  omega

end Entry

/-! ### What a parse takes over -/

/-- The entries in front of the first one at or above the bound. -/
def belowSn (maxSn : ℤ) (es : List Entry) : List Entry :=
  es.takeWhile fun e => e.sn.toInt < maxSn

/-- The shortest run of entries that reaches `maxSize` bytes, of one entry at least. -/
def untilSize : ℕ → List Entry → List Entry
  | _, [] => []
  | maxSize, e :: es =>
    e :: if maxSize ≤ e.serialize.length then []
      else untilSize (maxSize - e.serialize.length) es

/-- Those of them that are complete in the first `room` bytes. -/
def completeUntilSize : ℕ → ℕ → List Entry → List Entry
  | _, _, [] => []
  | room, maxSize, e :: es =>
    if e.serialize.length ≤ room then
      e :: if maxSize ≤ e.serialize.length then []
        else completeUntilSize (room - e.serialize.length) (maxSize - e.serialize.length) es
    else []

variable {e : Entry} {maxSn : ℤ}

/-- An entry below the bound is kept. -/
theorem belowSn_cons_of_lt (h : e.sn.toInt < maxSn) (es : List Entry) :
    belowSn maxSn (e :: es) = e :: belowSn maxSn es := by
  rw [belowSn, takeWhile_cons, if_pos (decide_eq_true h)]
  rfl

/-- Nothing is kept from the bound on. -/
theorem belowSn_cons_of_le (h : maxSn ≤ e.sn.toInt) (es : List Entry) :
    belowSn maxSn (e :: es) = [] := by
  rw [belowSn, takeWhile_cons_of_neg]
  simpa using h

variable {es : List Entry}

/-- With room for all entries, completeness is no bound. -/
theorem completeUntilSize_of_le {room maxSize : ℕ} (h : (entriesBytes es).length ≤ room) :
    completeUntilSize room maxSize es = untilSize maxSize es := by
  induction es generalizing room maxSize with
  | nil => rfl
  | cons e es ih =>
    rw [entriesBytes_cons, length_append] at h
    rw [completeUntilSize, untilSize, if_pos (by omega), ih (by omega)]

namespace Entry

/-- **The loop of `parseMany`** over complete entries followed by at most as many bytes as a
length prefix takes, of which the first `room` are in the data. -/
theorem parseManyLoop_eq (maxSn : ℤ) {es : List Entry} {tail : Bytes}
    (htail : tail.length ≤ prefixLengthSize) (hfit : ∀ e ∈ es, e.Fits) {room : ℕ}
    (hroom : room ≤ (entriesBytes es ++ tail).length) {fuel : ℕ} (hfuel : room ≤ fuel)
    (maxSize parsed : ℕ) (entries : List Entry) :
    parseManyLoop false (parsed + room) maxSn maxSize fuel
        ((entriesBytes es ++ tail).take room) parsed entries =
      ⟨entries ++ completeUntilSize room (maxSize - parsed) (belowSn maxSn es),
        parsed + (entriesBytes
          (completeUntilSize room (maxSize - parsed) (belowSn maxSn es))).length, none⟩ := by
  induction es generalizing room maxSize parsed fuel entries with
  | nil =>
    rw [entriesBytes_nil, nil_append] at hroom
    cases fuel with
    | zero => simp [parseManyLoop, completeUntilSize, belowSn]
    | succ fuel =>
      rw [parseManyLoop, if_neg (by omega)]
      simp [completeUntilSize, belowSn]
  | cons e es ih =>
    have hlong := e.prefixLengthSize_lt
    have hstop (hincomplete : room < e.serialize.length) :
        completeUntilSize room (maxSize - parsed) (belowSn maxSn (e :: es)) = [] := by
      rcases lt_or_ge e.sn.toInt maxSn with hlt | hge
      · rw [belowSn_cons_of_lt hlt, completeUntilSize, if_neg (by omega)]
      · rw [belowSn_cons_of_le hge, completeUntilSize]
    by_cases hshort : room ≤ prefixLengthSize
    · rw [hstop (by omega)]
      cases fuel with
      | zero => simp [parseManyLoop]
      | succ fuel =>
        rw [parseManyLoop, if_neg (by omega)]
        simp
    obtain ⟨fuel, rfl⟩ : ∃ n, fuel = n + 1 := ⟨fuel - 1, by omega⟩
    have hdata : entriesBytes (e :: es) ++ tail = leBytes prefixLengthSize
        e.serializeRest.length ++ (e.serializeRest ++ (entriesBytes es ++ tail)) := by
      simp only [entriesBytes_cons, serialize, append_assoc]
    have hexact : Exact deserializePrefixLength (leBytes prefixLengthSize e.serializeRest.length)
        e.serializeRest.length :=
      readLe_exact _ (by simpa [prefixLengthSize, Fits] using hfit e mem_cons_self)
    have hread := hexact.run_take_of_le
      (n := room) (e.serializeRest ++ (entriesBytes es ++ tail))
      (by rw [length_leBytes]; omega)
    rw [length_leBytes] at hread
    have hlength := e.length_serialize
    rw [parseManyLoop, if_pos (by omega), hdata, hread]
    simp only [← hlength]
    by_cases hcomplete : e.serialize.length ≤ room
    · have hrest := (deserializeRest_exact e (hfit e mem_cons_self)).run_take_of_le
        (n := room - prefixLengthSize) (entriesBytes es ++ tail) (by omega)
      have hleft : room - prefixLengthSize - e.serializeRest.length =
          room - e.serialize.length := by omega
      rw [if_neg (by omega), hrest, hleft]
      rcases lt_or_ge e.sn.toInt maxSn with hlt | hge
      · rw [belowSn_cons_of_lt hlt, completeUntilSize]
        simp only [hlt, if_true, if_pos hcomplete]
        by_cases hreach : maxSize ≤ parsed + e.serialize.length
        · rw [if_pos hreach, if_pos (by omega)]
          simp
        · rw [entriesBytes_cons, append_assoc, length_append] at hroom
          have hroom' : room - e.serialize.length ≤ (entriesBytes es ++ tail).length := by omega
          have hfuel' : room - e.serialize.length ≤ fuel := by omega
          have hnext := ih (fun x hx => hfit x (mem_cons_of_mem _ hx)) hroom' hfuel'
            maxSize (parsed + e.serialize.length) (entries ++ [e])
          rw [show parsed + e.serialize.length + (room - e.serialize.length) = parsed + room by
            omega] at hnext
          rw [if_neg hreach, if_neg (by omega), hnext, Nat.sub_sub]
          simp [Nat.add_assoc]
      · rw [belowSn_cons_of_le hge, completeUntilSize]
        simp only [not_lt.2 hge]
        simp
    · rw [if_pos (by omega), hstop (by omega)]
      simp

/-- **A parse** takes over the entries that are complete in the data. -/
theorem parseMany_eq {es : List Entry} {tail : Bytes} (htail : tail.length ≤ prefixLengthSize)
    (hfit : ∀ e ∈ es, e.Fits) {room : ℕ} (hroom : room ≤ (entriesBytes es ++ tail).length)
    (maxSn : ℤ) (maxSize : ℕ) (entries : List Entry) :
    parseMany ((entriesBytes es ++ tail).take room) nullVersion maxSn maxSize entries =
      ⟨entries ++ completeUntilSize room maxSize (belowSn maxSn es),
        (entriesBytes (completeUntilSize room maxSize (belowSn maxSn es))).length, none⟩ := by
  have hlength : ((entriesBytes es ++ tail).take room).length = room := length_take_of_le hroom
  have hloop := parseManyLoop_eq maxSn htail hfit hroom (le_refl room) maxSize 0 entries
  rw [Nat.zero_add, Nat.zero_add, Nat.sub_zero] at hloop
  have hflag : decide (nullVersion ≠ 0) = false := rfl
  rw [parseMany, hflag, hlength, hloop]

end Entry

/-! ### The codec -/

/-- Entries that end at the bound on the size are all complete in front of a partial one. -/
theorem completeUntilSize_partial (hsn : ∀ x ∈ es, x.sn.toInt < maxSn) {k : ℕ}
    (hk : k < e.serialize.length) {maxSize : ℕ} (hsize : (entriesBytes es).length ≤ maxSize) :
    completeUntilSize ((entriesBytes es).length + k) maxSize (belowSn maxSn (es ++ [e])) = es := by
  induction es generalizing maxSize with
  | nil =>
    rw [entriesBytes_nil, length_nil, nil_append]
    rcases lt_or_ge e.sn.toInt maxSn with hlt | hge
    · rw [belowSn_cons_of_lt hlt, completeUntilSize, if_neg (by omega)]
    · rw [belowSn_cons_of_le hge, completeUntilSize]
  | cons x es ih =>
    rw [entriesBytes_cons, length_append] at hsize ⊢
    rw [cons_append, belowSn_cons_of_lt (hsn x mem_cons_self), completeUntilSize, if_pos (by omega)]
    split
    next hreached =>
      have hpos := length_le_length_entriesBytes es
      rw [length_eq_zero_iff.1 (show es.length = 0 by omega)]
    next =>
      have hroom : x.serialize.length + (entriesBytes es).length + k - x.serialize.length =
          (entriesBytes es).length + k := by omega
      rw [hroom, ih (fun y hy => hsn y (mem_cons_of_mem _ hy)) (by omega)]

/-- Entries are parsed back, and a partial entry behind them is left. -/
theorem parseMany_entries {k maxSize : ℕ} (hfit : ∀ x ∈ es, x.Fits) (hfit' : e.Fits)
    (hk : k < e.serialize.length) (hsn : ∀ x ∈ es, x.sn.toInt < maxSn)
    (hsize : (entriesBytes es).length ≤ maxSize) :
    Entry.parseMany (entriesBytes es ++ e.serialize.take k) nullVersion maxSn maxSize [] =
      ⟨es, (entriesBytes es).length, none⟩ := by
  have hall : ∀ x ∈ es ++ [e], x.Fits := by
    intro x hx
    rcases mem_append.1 hx with hmem | hmem
    · exact hfit x hmem
    · rw [mem_singleton.1 hmem]
      exact hfit'
  have hbytes : entriesBytes (es ++ [e]) ++ [] = entriesBytes es ++ e.serialize := by
    rw [append_nil, entriesBytes_append, entriesBytes_cons, entriesBytes_nil, append_nil]
  have hparse := Entry.parseMany_eq (Nat.zero_le _) hall
    (show (entriesBytes es).length + k ≤ (entriesBytes (es ++ [e]) ++ []).length by
      rw [hbytes, length_append]; omega) maxSn maxSize []
  rw [hbytes, take_length_add_append, completeUntilSize_partial hsn hk hsize] at hparse
  exact hparse

/-- Fewer bytes than the metadata takes are a read error. -/
theorem deserialize_metadata_of_lt (e : Entry) (h : e.Fits) {n : ℕ} (hlt : n < e.metadataLength) :
    ∃ err, (Entry.deserialize true).run (e.serialize.take n) = .error err := by
  rw [← e.length_metadata] at hlt
  have htake : e.serialize.take n = e.metadata.take n := by
    rw [e.serialize_eq_metadata_append, take_append_of_le_length hlt.le]
  have hne : e.metadata.take n ≠ e.metadata := fun heq => by
    have hlength := congrArg length heq
    rw [length_take] at hlength
    omega
  rw [htake]
  exact (e.metadata_exact h).fails_short _ ⟨_, take_append_drop n _⟩ hne

/-- **The entry codec.** Entries below 4 GiB are parsed back from their bytes and any proper
prefix of one more, with the number of their bytes, by version zero and by no other; the metadata
of an entry is parsed from its first `approximateSerializedMetadataSize` bytes, with the size of
the whole entry, if and only if it takes no more than them. -/
theorem entry_codec_iff (version : UInt16) (e : Entry) :
    ((∀ es next k maxSn maxSize, (∀ x ∈ es, Entry.Fits x) → Entry.Fits next →
        k < next.serialize.length → (∀ x ∈ es, x.sn.toInt < maxSn) →
        (entriesBytes es).length ≤ maxSize →
        Entry.parseMany (entriesBytes es ++ next.serialize.take k) version maxSn maxSize [] =
          ⟨es, (entriesBytes es).length, none⟩) ↔ version = nullVersion) ∧
    (e.Fits →
      ((∃ parsed rest, (Entry.deserialize true).run
          (e.serialize.take approximateSerializedMetadataSize) = .ok (parsed, rest) ∧
        parsed.entry.toEntryHeader = e.toEntryHeader ∧
        parsed.serializedSize = e.serialize.length) ↔
      e.metadataLength ≤ approximateSerializedMetadataSize)) := by
  refine ⟨⟨fun hall => ?_, ?_⟩, fun h => ⟨?_, fun hle => ?_⟩⟩
  · by_contra hne
    have hback := hall [{ data := [0x61] }] {} 0 1 100 (by decide) (by decide) (by decide)
    -- with another version, the payload of an entry is not read
    rw [take_zero, append_nil, Entry.parseMany,
      decide_eq_true (show version ≠ 0 from hne)] at hback
    exact absurd hback (by decide)
  · rintro rfl es next k maxSn maxSize hfit hfit' hk hsn hsize
    exact parseMany_entries hfit hfit' hk hsn hsize
  · rintro ⟨parsed, rest, hread, -⟩
    by_contra hlt
    obtain ⟨err, herr⟩ := deserialize_metadata_of_lt e h (not_le.1 hlt)
    rw [herr] at hread
    cases hread
  · rw [← e.length_metadata] at hle
    have hread := (e.metadata_exact h).run_take_of_le (writeVarUInt e.data.length ++ e.data) hle
    exact ⟨_, _, hread, rfl, e.parsedMetadata_serializedSize⟩

/-- An entry with the largest crc, version, correlation id, timestamps and sequence number. -/
def widestEntry : Entry where
  crc := 0xffffffff
  version := 0xffff
  correlationId := 0xffffffffffffffff
  maxEventTimestamp := Int64.minValue
  appendTimestamp := Int64.minValue
  sn := Int64.maxValue

/-- Its metadata takes 53 bytes, and 43 bytes of it are not enough. -/
theorem widestEntry_metadata : widestEntry.metadataLength = 53 ∧
    (Entry.deserialize true).run
      (widestEntry.serialize.take approximateSerializedMetadataSize) =
        .error .attemptToReadAfterEof := by
  decide

end Proton
