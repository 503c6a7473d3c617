import Mathlib.Data.Prod.Lex
import Proton.IO.PrefixTreeEncode
import Proton.Lib.SortedMap

/-!
# The Hybrid Key List

This module embeds `Common/HybridKeyList/HybridKeyList.h`: keys with the time they were put in,
the oldest of them in an ordered set in memory and, beyond a capacity, the others in a RocksDB
column family under an encoding that starts with the time. Expiry removes keys from the front
of the set, and refills the set from the front of the column family.

RocksDB is an ordered map from byte strings whose operations succeed. A column family other than
the default one is a map of its own; `removeKey` deletes from the default one.
-/

open ByteReader OrderedBytes Proton.PrefixTreeEncode

namespace Proton

/-- Milliseconds since the epoch, in 64 bits. -/
abbrev Millis : Type := { t : ℤ // Word.int64.Mem t }

/-- A time that is read back is a 64-bit number. -/
def Millis.ofInt (t : ℤ) : Millis := ⟨Word.int64.wrap t, Word.wrap_mem t⟩

/-- `key_serializer` and `key_deserializer`. A key takes less than the 2 GiB up to which the
decoder of the time in front of it can count. -/
structure KeyCodec (K : Type) where
  /-- The bytes of a key. -/
  serialize : K → Bytes
  /-- The key of the bytes. -/
  deserialize : Bytes → K
  /-- A key is read back. -/
  deserialize_serialize : ∀ k, deserialize (serialize k) = k
  /-- A key is short enough. -/
  length_lt : ∀ k, (serialize k).length < 2 ^ 30

/-- `KeyWithTimestamp`, in the order of `KeyWithTimestampLess`: first by time, then by key. -/
abbrev KeyWithTimestamp (K : Type) : Type := Millis ×ₗ K

namespace KeyWithTimestamp

variable {K : Type}

/-- The time. -/
def ts (e : KeyWithTimestamp K) : Millis := (ofLex e).1

/-- The key. -/
def k (e : KeyWithTimestamp K) : K := (ofLex e).2

/-- `expired`, with the clock at `now`. -/
def expired (now timeoutThresholdMs : ℤ) (e : KeyWithTimestamp K) : Bool :=
  Word.int64.wrap (e.ts + timeoutThresholdMs) < now

end KeyWithTimestamp

/-- What a list is configured with. -/
structure HybridKeyListConfig (K : Type) where
  /-- The serialization of keys. -/
  codec : KeyCodec K
  /-- `max_hot_key_count`: the capacity of the memory. -/
  maxHotKeyCount : ℕ
  /-- The column family is the default one: `cf_handle_id` is empty. -/
  defaultColumnFamily : Bool := false

/-- `HybridKeyList`. The column family is opened when a key is first spilled. -/
structure HybridKeyList (K : Type) [LinearOrder K] where
  /-- `oldest_keys`. -/
  oldestKeys : SortedMap (KeyWithTimestamp K) Unit := .empty
  /-- The column family behind `cf_handler`. -/
  disk : Option (SortedMap Bytes Unit) := none

namespace HybridKeyList

variable {K : Type} [LinearOrder K] (config : HybridKeyListConfig K)

/-- `encodeKey`. -/
def encodeKey (codec : KeyCodec K) (e : KeyWithTimestamp K) : Bytes :=
  encodeVarIntAscending e.ts ++ codec.serialize e.k

/-- `decodeKey`. -/
def decodeKey (codec : KeyCodec K) (data : Bytes) : Except DecodeError (KeyWithTimestamp K) :=
  match decodeVarIntAscending data with
  | .error err => .error err
  | .ok (ts, rest) => .ok (toLex (Millis.ofInt ts, codec.deserialize rest))

/-- The column family, opened if need be. -/
def opened (s : HybridKeyList K) : SortedMap Bytes Unit := s.disk.getD .empty

/-! ### Putting keys in -/

/-- `emplaceKey` with the clock at `now`. -/
def emplaceKey (now : Millis) (key : K) (s : HybridKeyList K) : HybridKeyList K :=
  if s.oldestKeys.size < config.maxHotKeyCount then
    { s with oldestKeys := s.oldestKeys.insert (toLex (now, key)) () }
  else
    { s with disk := some (s.opened.insert (encodeKey config.codec (toLex (now, key))) ()) }

/-- The loop of `emplaceKeys` that fills the memory, with the keys that are left. It reads behind
the end of the keys when the set takes none of them in: then there is no outcome. -/
def fillMemory (maxHotKeyCount : ℕ) (now : Millis) :
    List K → SortedMap (KeyWithTimestamp K) Unit →
      Option (SortedMap (KeyWithTimestamp K) Unit × List K)
  | [], m => if m.size < maxHotKeyCount then none else some (m, [])
  | key :: keys, m =>
    if m.size < maxHotKeyCount then
      fillMemory maxHotKeyCount now keys (m.insert (toLex (now, key)) ())
    else some (m, key :: keys)

/-- `emplaceKeys` with the clock at `now`. -/
def emplaceKeys (now : Millis) (keys : List K) (s : HybridKeyList K) : Option (HybridKeyList K) :=
  if keys.length + s.oldestKeys.size < config.maxHotKeyCount then
    some { s with
      oldestKeys := (keys.map fun key => toLex (now, key)).foldl
        (fun m e => m.insert e ()) s.oldestKeys }
  else
    match fillMemory config.maxHotKeyCount now keys s.oldestKeys with
    | none => none
    | some (oldestKeys, left) =>
      some
        { oldestKeys := oldestKeys
          disk := some ((left.map fun key => encodeKey config.codec (toLex (now, key))).foldl
            (fun m data => m.insert data ()) s.opened) }

/-! ### Removing keys -/

/-- `removeKey`. The deletion names no column family. -/
def removeKey (key : K) (createUtcTs : Millis) (s : HybridKeyList K) : HybridKeyList K :=
  let e : KeyWithTimestamp K := toLex (createUtcTs, key)
  { oldestKeys := s.oldestKeys.erase e
    disk := s.disk.map fun disk =>
      if config.defaultColumnFamily then disk.erase (encodeKey config.codec e) else disk }

/-- The loop of `refill` over the keys of the column family, with the memory and whether the
keys came to an end. -/
def refillLoop : List Bytes → SortedMap (KeyWithTimestamp K) Unit →
    Except DecodeError (SortedMap (KeyWithTimestamp K) Unit × Bool)
  | [], m => .ok (m, true)
  | data :: rest, m =>
    if m.size < config.maxHotKeyCount then
      match decodeKey config.codec data with
      | .error err => .error err
      | .ok e => refillLoop rest (m.insert e ())
    else .ok (m, false)

/-- `refill`: the oldest keys on disk are read into the memory until it is full. They stay on
disk. -/
def refill (s : HybridKeyList K) : Except DecodeError (HybridKeyList K × Bool) :=
  match refillLoop config (s.opened.toList.map (·.1)) s.oldestKeys with
  | .error err => .error err
  | .ok (oldestKeys, drained) => .ok ({ oldestKeys, disk := some s.opened }, drained)

/-- What `removeTimedOutKeys` is called with. The clock is read once for every key that is
looked at. -/
structure Expiry (K : Type) where
  /-- The readings of the clock. -/
  clock : ℕ → ℤ
  /-- The age from which on keys go. -/
  timeoutThresholdMs : ℤ
  /-- Keys that go whatever their age, and are not returned. -/
  skippedKeys : K → Bool := fun _ => false
  /-- No more keys than this are returned. -/
  maxKeysToRemove : ℕ := 100000

/-- The state of the loop over the memory. -/
structure MemoryLoop (K : Type) [LinearOrder K] where
  /-- `oldest_keys`. -/
  oldestKeys : SortedMap (KeyWithTimestamp K) Unit
  /-- The keys to return. -/
  result : List K
  /-- `expired_encoded_keys`. -/
  expiredEncodedKeys : List Bytes := []
  /-- How often the clock has been read. -/
  readings : ℕ

/-- `remove_expires_from_memory`, over the keys of the set in order. -/
def removeExpiresFromMemory (expiry : Expiry K) (hasOnDiskKeys : Bool) :
    List (KeyWithTimestamp K) → MemoryLoop K → MemoryLoop K
  | [], loop => loop
  | e :: rest, loop =>
    if loop.result.length < expiry.maxKeysToRemove then
      let encoded := if hasOnDiskKeys then [encodeKey config.codec e] else []
      if expiry.skippedKeys e.k then
        removeExpiresFromMemory expiry hasOnDiskKeys rest
          { loop with
            oldestKeys := loop.oldestKeys.erase e
            expiredEncodedKeys := loop.expiredEncodedKeys ++ encoded }
      else if e.expired (expiry.clock loop.readings) expiry.timeoutThresholdMs then
        removeExpiresFromMemory expiry hasOnDiskKeys rest
          { oldestKeys := loop.oldestKeys.erase e
            result := loop.result ++ [e.k]
            expiredEncodedKeys := loop.expiredEncodedKeys ++ encoded
            readings := loop.readings + 1 }
      else { loop with readings := loop.readings + 1 }
    else loop

/-- `remove_from_disk`. -/
def removeFromDisk (encodedKeys : List Bytes) (s : HybridKeyList K) : HybridKeyList K :=
  { s with disk := s.disk.map fun disk => encodedKeys.foldl SortedMap.erase disk }

/-- `refill`, unless there is nothing on disk that is not in memory. -/
def refillUnlessDrained (hasOnDiskKeys onDiskKeysDrained : Bool) (s : HybridKeyList K) :
    Except DecodeError (HybridKeyList K × Bool) :=
  if hasOnDiskKeys && !onDiskKeysDrained then s.refill config else .ok (s, onDiskKeysDrained)

/-- The loop of `removeTimedOutKeys`, with a bound on the number of turns. -/
def removeLoop (expiry : Expiry K) (hasOnDiskKeys : Bool) :
    ℕ → HybridKeyList K → List K → ℕ → Bool →
      Option (Except DecodeError (HybridKeyList K × List K))
  | 0, _, _, _, _ => none
  | fuel + 1, s, result, readings, onDiskKeysDrained =>
    let loop := removeExpiresFromMemory config expiry hasOnDiskKeys
      (s.oldestKeys.toList.map (·.1)) { oldestKeys := s.oldestKeys, result, readings }
    let s := { s with oldestKeys := loop.oldestKeys }
    if loop.expiredEncodedKeys = [] then
      -- no more expired keys
      some ((s.refillUnlessDrained config hasOnDiskKeys onDiskKeysDrained).map
        fun refilled => (refilled.1, loop.result))
    else
      let s := s.removeFromDisk loop.expiredEncodedKeys
      let mayHaveMoreExpiredKeys := s.oldestKeys.size = 0 ∧ onDiskKeysDrained = false
      match s.refillUnlessDrained config hasOnDiskKeys onDiskKeysDrained with
      | .error err => some (.error err)
      | .ok (s, drained) =>
        if ¬ mayHaveMoreExpiredKeys then some (.ok (s, loop.result))
        else if loop.result.length < expiry.maxKeysToRemove then
          removeLoop expiry hasOnDiskKeys fuel s loop.result loop.readings drained
        else if drained then some (.ok (s, loop.result))
        else some ((s.refill config).map fun refilled => (refilled.1, loop.result))

/-- The number of turns that is enough. -/
def turns (s : HybridKeyList K) : ℕ := s.opened.size + 2

/-- `removeTimedOutKeys`: the list afterwards and the keys that were removed. -/
def removeTimedOutKeys (expiry : Expiry K) (s : HybridKeyList K) :
    Option (Except DecodeError (HybridKeyList K × List K)) :=
  if s.oldestKeys.size = 0 then some (.ok (s, []))
  else s.removeLoop config expiry s.disk.isSome s.turns [] 0 false

/-- Keys of one byte. -/
def byteCodec : KeyCodec UInt8 where
  serialize k := [k]
  deserialize data := data.headD 0
  deserialize_serialize _ := rfl
  length_lt _ := by simp

end HybridKeyList

end Proton
