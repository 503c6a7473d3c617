import Mathlib.Data.Int.ConditionallyCompleteOrder
import Proton.Common.HybridKeyList

/-!
# Expiry of the Hybrid Key List

`removeTimedOutKeys` goes through the keys in memory by increasing time, and looks at the disk only
when it has removed all of them. Whether it finds every key that is due depends on what the
memory holds compared with the disk, and no operation keeps the memory ahead of the disk: keys are
put into memory whenever there is room, and removing the last key in memory leaves the disk
unread.

## Main results

* `HybridKeyList.decodeKey_encodeKey`, `HybridKeyList.encodeKey_lt_of_ts_lt`: keys are read back
  from disk, in the order of their times.
* `HybridKeyList.removeLoop_succ`: what one turn of the loop removes.
* `HybridKeyList.Aligned.removeLoop`: a memory that was refilled from the disk is worked off to the
  last key that is due.
* `HybridKeyList.removeTimedOutKeys_exact_iff`: in which lists a call removes the keys that are due.
* `HybridKeyList.spilled_key_stays`: a run that leads to another list.
-/

open ByteReader OrderedBytes Proton.PrefixTreeEncode List SortedMap

namespace Proton

namespace HybridKeyList

/-! ### Keys that are due -/

section Due

variable {K : Type} {now threshold : ℤ}

/-- The key is older than the threshold. -/
def Due (now threshold : ℤ) (e : KeyWithTimestamp K) : Prop := (e.ts : ℤ) < now - threshold

instance (now threshold : ℤ) : DecidablePred (Due (K := K) now threshold) :=
  fun _ => Int.decLt _ _

/-- A key that is not newer than a due one is due. -/
theorem Due.of_ts_le {e e' : KeyWithTimestamp K} (h : Due now threshold e') (hts : e.ts ≤ e'.ts) :
    Due now threshold e := by
  have hle : (e.ts : ℤ) ≤ e'.ts := hts
  simp only [Due] at h ⊢
  omega

end Due

/-! ### Encoded keys -/

section Encoding

variable {K : Type} (codec : KeyCodec K)

/-- The decoder of a time can count the bytes of a key behind it. -/
theorem fits_checked {behind : ℕ} (h : behind < 2 ^ 30) (n : ℤ) :
    Fits behind (checkedVarIntAscending n) := by
  have hbound : ∀ length : ℕ, length ≤ 8 → Fits behind (some length) := by
    intro length hle
    rw [Fits, Word.wrap_of_mem (by constructor <;> simp only [Word.int32] <;> omega)]
    omega
  rw [checkedVarIntAscending, checkedVarUIntAscending]
  split_ifs
  · exact hbound _ (width_le _)
  · trivial
  · exact hbound _ (width_le _)

/-- **A key is read back** with its time. -/
theorem decodeKey_encodeKey (e : KeyWithTimestamp K) :
    decodeKey codec (encodeKey codec e) = .ok e := by
  obtain ⟨hlow, hhigh⟩ := e.ts.2
  simp only [Word.int64] at hlow hhigh
  have hts : Millis.ofInt e.ts = e.ts := Subtype.ext (Word.wrap_of_mem e.ts.2)
  rw [decodeKey, encodeKey, decodeVarIntAscending_encode (by omega) (by omega), decoded,
    if_pos (fits_checked (codec.length_lt e.k) _)]
  simp only [hts, codec.deserialize_serialize]
  rfl

/-- Keys with different timestamps or different bytes have different encodings. -/
theorem encodeKey_injective : Function.Injective (encodeKey codec) := by
  intro e e' h
  have hok : (.ok e : Except DecodeError (KeyWithTimestamp K)) = .ok e' := by
    rw [← decodeKey_encodeKey codec e, ← decodeKey_encodeKey codec e', h]
  exact Except.ok.inj hok

/-- The encoding of an older key comes first. -/
theorem encodeKey_lt_of_ts_lt {e e' : KeyWithTimestamp K} (h : e.ts < e'.ts) :
    encodeKey codec e < encodeKey codec e' := by
  have hlow := e.ts.2.1
  have hhigh := e'.ts.2.2
  simp only [Word.int64] at hlow hhigh
  exact (before_encodeVarIntAscending h (by omega) (by omega)).lt_append _ _

/-- A list of encoded keys encodes a list of keys. -/
theorem exists_map_encodeKey (codec : KeyCodec K) :
    ∀ l : List Bytes, (∀ data ∈ l, ∃ e, encodeKey codec e = data) →
      ∃ es : List (KeyWithTimestamp K), l = es.map (encodeKey codec)
  | [], _ => ⟨[], rfl⟩
  | data :: l, hl => by
    obtain ⟨e, rfl⟩ := hl data mem_cons_self
    obtain ⟨es, rfl⟩ := exists_map_encodeKey codec l fun data hdata =>
      hl data (mem_cons_of_mem _ hdata)
    exact ⟨e :: es, rfl⟩

end Encoding

variable {K : Type} [LinearOrder K] {config : HybridKeyListConfig K} {s s' : HybridKeyList K}
  {e : KeyWithTimestamp K}

/-- In the order of the set the times do not decrease. -/
theorem ts_le_of_lt {e' : KeyWithTimestamp K} (h : e < e') : e.ts ≤ e'.ts := by
  rcases Prod.Lex.lt_iff.mp h with hlt | ⟨heq, -⟩
  · exact le_of_lt hlt
  · exact le_of_eq heq

/-! ### What a list holds -/

/-- The key is on disk. -/
def OnDisk (config : HybridKeyListConfig K) (s : HybridKeyList K) (e : KeyWithTimestamp K) : Prop :=
  encodeKey config.codec e ∈ s.opened.keys

/-- The key is held, in memory or on disk. -/
def Held (config : HybridKeyListConfig K) (s : HybridKeyList K) (e : KeyWithTimestamp K) : Prop :=
  e ∈ s.oldestKeys.keys ∨ s.OnDisk config e

/-- A key can only be on a disk that was opened. -/
theorem isSome_disk_of_onDisk (h : s.OnDisk config e) : s.disk.isSome := by
  rw [OnDisk, opened] at h
  cases hdisk : s.disk with
  | none => simp [hdisk, SortedMap.keys] at h
  | some disk => rfl

/-- What holds of a list whatever is done to it. -/
structure Valid (config : HybridKeyListConfig K) (s : HybridKeyList K) : Prop where
  /-- The column family holds nothing but encoded keys. -/
  encoded : ∀ data ∈ s.opened.keys, ∃ e, encodeKey config.codec e = data
  /-- The memory keeps its capacity. -/
  capacity : s.oldestKeys.size ≤ config.maxHotKeyCount

/-- Removing keys does no harm. -/
theorem Valid.of_subset (h : s.Valid config)
    (hdisk : s'.opened.keys ⊆ s.opened.keys) (hmem : s'.oldestKeys.keys ⊆ s.oldestKeys.keys) :
    s'.Valid config where
  encoded data hdata := h.encoded data (hdisk hdata)
  capacity := (size_le_of_keys_subset hmem).trans h.capacity

/-- The keys on disk, by increasing time. -/
theorem Valid.exists_entries (h : s.Valid config) :
    ∃ es : List (KeyWithTimestamp K),
      s.opened.toList.map (·.1) = es.map (encodeKey config.codec) ∧
      es.Pairwise (fun e e' => e.ts ≤ e'.ts) ∧ ∀ e, e ∈ es ↔ s.OnDisk config e := by
  obtain ⟨es, hes⟩ := exists_map_encodeKey config.codec (s.opened.toList.map (·.1))
    fun data hdata => h.encoded data (mem_keys_iff_mem_map.mpr hdata)
  have hsorted : (es.map (encodeKey config.codec)).Pairwise (· < ·) := by
    rw [← hes]
    exact pairwise_map.mpr s.opened.sorted
  refine ⟨es, hes, ?_, ?_⟩
  · refine (pairwise_map.mp hsorted).imp fun {e e'} hlt => ?_
    by_contra hts
    exact absurd (encodeKey_lt_of_ts_lt config.codec (not_le.mp hts)) (not_lt.mpr hlt.le)
  · intro e
    rw [OnDisk, mem_keys_iff_mem_map, hes]
    exact (mem_map_of_injective (encodeKey_injective config.codec)).symm

/-! ### One pass over the memory -/

/-- A call without a limit on the number of keys, and without keys to skip. -/
def Expiry.all (now threshold : ℤ) (maxKeysToRemove : ℕ) : Expiry K :=
  { clock := fun _ => now, timeoutThresholdMs := threshold, maxKeysToRemove }

variable {now threshold : ℤ} {maxKeysToRemove : ℕ} {es removed : List (KeyWithTimestamp K)}

variable (config)

/-- **The pass over the memory** takes out the keys that are due. -/
theorem removeExpiresFromMemory_eq (now : ℤ) (hasOnDiskKeys : Bool) (loop : MemoryLoop K)
    (hmem : ∀ e ∈ es, Word.int64.Mem (e.ts + threshold))
    (hsorted : es.Pairwise fun e e' => e.ts ≤ e'.ts)
    (hroom : loop.result.length + es.length ≤ maxKeysToRemove) :
    ∃ readings, removeExpiresFromMemory config (.all now threshold maxKeysToRemove)
        hasOnDiskKeys es loop =
      { oldestKeys := (es.filter (Due now threshold ·)).foldl erase loop.oldestKeys
        result := loop.result ++ (es.filter (Due now threshold ·)).map (·.k)
        expiredEncodedKeys := loop.expiredEncodedKeys ++
          if hasOnDiskKeys then (es.filter (Due now threshold ·)).map (encodeKey config.codec)
          else []
        readings } := by
  induction es generalizing loop with
  | nil => exact ⟨loop.readings, by simp [removeExpiresFromMemory]⟩
  | cons e rest ih =>
    obtain ⟨hhead, htail⟩ := pairwise_cons.mp hsorted
    have hlt : loop.result.length < maxKeysToRemove := by
      rw [length_cons] at hroom
      omega
    -- unless the sum of the time and the threshold overflows, a key is expired when it is due
    have hexpired : e.expired now threshold = true ↔ Due now threshold e := by
      rw [KeyWithTimestamp.expired, Word.wrap_of_mem (hmem e mem_cons_self), decide_eq_true_iff,
        Due]
      omega
    rw [removeExpiresFromMemory, if_pos (by exact hlt)]
    simp only [Expiry.all, hexpired]
    by_cases hdue : Due now threshold e
    · rw [if_pos hdue, filter_cons_of_pos (by simpa using hdue)]
      obtain ⟨readings, hrest⟩ := ih
        { oldestKeys := loop.oldestKeys.erase e
          result := loop.result ++ [e.k]
          expiredEncodedKeys := loop.expiredEncodedKeys ++
            if hasOnDiskKeys then [encodeKey config.codec e] else []
          readings := loop.readings + 1 }
        (fun e' h => hmem e' (mem_cons_of_mem _ h)) htail
        (by simp only [length_append, length_cons, length_nil] at hroom ⊢; omega)
      rw [Expiry.all] at hrest
      rw [hrest]
      cases hasOnDiskKeys <;> simp
    · -- the set is sorted by time: no key behind this one is due either
      rw [if_neg hdue]
      have hnone : (e :: rest).filter (Due now threshold ·) = [] := by
        refine filter_eq_nil_iff.mpr fun e' h => ?_
        rw [decide_eq_true_iff]
        rcases mem_cons.mp h with rfl | h
        · exact hdue
        · exact fun h' => hdue (h'.of_ts_le (hhead e' h))
      rw [hnone]
      cases hasOnDiskKeys <;> simp

/-! ### Refilling the memory -/

/-- The loop moves keys into memory up to the limit, or until no key is left on disk. -/
theorem refillLoop_spec (es : List (KeyWithTimestamp K)) (m : SortedMap (KeyWithTimestamp K) Unit) :
    ∃ front rest m' drained,
      refillLoop config (es.map (encodeKey config.codec)) m = .ok (m', drained) ∧
      es = front ++ rest ∧ (∀ e, e ∈ m'.keys ↔ e ∈ m.keys ∨ e ∈ front) ∧
      (drained = true → rest = []) ∧ (drained = false → config.maxHotKeyCount ≤ m'.size) ∧
      (m.size ≤ config.maxHotKeyCount → m'.size ≤ config.maxHotKeyCount) := by
  induction es generalizing m with
  | nil => exact ⟨[], [], m, true, rfl, rfl, by simp, fun _ => rfl, nofun, id⟩
  | cons e es ih =>
    rw [map_cons, refillLoop]
    split_ifs with hlt
    · obtain ⟨front, rest, m', drained, heq, rfl, hkeys, hdrained, hfull, hcap⟩ :=
        ih (m.insert e ())
      refine ⟨e :: front, rest, m', drained, ?_, rfl, ?_, hdrained, hfull, fun _ => ?_⟩
      · simp only [decodeKey_encodeKey, heq]
      · intro e'
        rw [hkeys, mem_keys_insert, mem_cons, or_assoc, or_left_comm]
      · exact hcap ((m.size_insert_le e ()).trans hlt)
    · exact ⟨[], e :: es, m, false, rfl, rfl, by simp, nofun, fun _ => not_lt.mp hlt, id⟩

/-- What `refill` makes of a list. -/
structure Refilled (s s' : HybridKeyList K) (drained : Bool) : Prop where
  disk : s'.disk = some s.opened
  kept : ∀ e ∈ s.oldestKeys.keys, e ∈ s'.oldestKeys.keys
  taken : ∀ e ∈ s'.oldestKeys.keys, e ∈ s.oldestKeys.keys ∨ s.OnDisk config e
  /-- The keys that are read are the oldest ones. -/
  oldest : ∀ e ∈ s'.oldestKeys.keys, e ∉ s.oldestKeys.keys →
    ∀ e', s.OnDisk config e' → e' ∉ s'.oldestKeys.keys → e.ts ≤ e'.ts
  all : drained = true → ∀ e, s.OnDisk config e → e ∈ s'.oldestKeys.keys
  full : drained = false → config.maxHotKeyCount ≤ s'.oldestKeys.size
  capacity : s'.oldestKeys.size ≤ config.maxHotKeyCount

variable {config}

/-- A valid list is refilled without an exception. -/
theorem Valid.refill (h : s.Valid config) :
    ∃ s' drained, s.refill config = .ok (s', drained) ∧ Refilled config s s' drained := by
  obtain ⟨es, hes, hsorted, hmem⟩ := h.exists_entries
  obtain ⟨front, rest, m', drained, heq, rfl, hkeys, hdrained, hfull, hcap⟩ :=
    refillLoop_spec config es s.oldestKeys
  refine ⟨{ oldestKeys := m', disk := some s.opened }, drained, ?_, rfl, ?_, ?_, ?_, ?_, hfull,
    hcap h.capacity⟩
  · simp only [HybridKeyList.refill, hes, heq]
  · exact fun e he => (hkeys e).mpr (.inl he)
  · exact fun e he => ((hkeys e).mp he).imp_right fun hfront =>
      (hmem e).mp (mem_append_left _ hfront)
  · intro e he hnot e' hdisk hout
    have hfront : e ∈ front := ((hkeys e).mp he).resolve_left hnot
    have hrest : e' ∈ rest := ((mem_append.mp ((hmem e').mpr hdisk)).resolve_left
      fun hin => hout ((hkeys e').mpr (.inr hin)))
    exact (pairwise_append.mp hsorted).2.2 e hfront e' hrest
  · intro hd e hdisk
    have hin := (hmem e).mpr hdisk
    rw [hdrained hd, append_nil] at hin
    exact (hkeys e).mpr (.inr hin)

/-! ### One turn of the loop -/

/-- The keys in memory that are due, in order. -/
def dueKeys (now threshold : ℤ) (s : HybridKeyList K) : List (KeyWithTimestamp K) :=
  (s.oldestKeys.toList.map (·.1)).filter (Due now threshold ·)

/-- The list without the keys in memory that are due. -/
def swept (config : HybridKeyListConfig K) (now threshold : ℤ) (s : HybridKeyList K) :
    HybridKeyList K :=
  { s with oldestKeys := (s.dueKeys now threshold).foldl erase s.oldestKeys
    : HybridKeyList K }.removeFromDisk ((s.dueKeys now threshold).map (encodeKey config.codec))

/-- The due keys are those of the memory that reach the threshold. -/
theorem mem_dueKeys :
    e ∈ s.dueKeys now threshold ↔ e ∈ s.oldestKeys.keys ∧ Due now threshold e := by
  rw [dueKeys, mem_filter, decide_eq_true_iff, mem_keys_iff_mem_map]

/-- No key is due twice. -/
theorem nodup_dueKeys : (s.dueKeys now threshold).Nodup := s.oldestKeys.nodup_keys.filter _

/-- At most all keys in memory are due. -/
theorem length_dueKeys_le : (s.dueKeys now threshold).length ≤ s.oldestKeys.size := by
  refine le_trans (length_filter_le _ _) ?_
  rw [length_map, size]

/-- What is left on disk after some keys are removed. -/
theorem mem_opened_removeFromDisk {encodedKeys : List Bytes} {data : Bytes} :
    data ∈ (s.removeFromDisk encodedKeys).opened.keys ↔
      data ∉ encodedKeys ∧ data ∈ s.opened.keys := by
  rw [opened, opened, removeFromDisk]
  cases s.disk with
  | none => simp [SortedMap.keys]
  | some disk => simp only [Option.map_some, Option.getD_some, mem_keys_foldl_erase]

/-- A sweep takes the due keys off the disk. -/
theorem mem_opened_swept {data : Bytes} :
    data ∈ (s.swept config now threshold).opened.keys ↔
      data ∉ (s.dueKeys now threshold).map (encodeKey config.codec) ∧ data ∈ s.opened.keys :=
  mem_opened_removeFromDisk

/-- A sweep takes the due keys out of the memory. -/
theorem mem_oldestKeys_swept :
    e ∈ (s.swept config now threshold).oldestKeys.keys ↔
      e ∈ s.oldestKeys.keys ∧ ¬ Due now threshold e := by
  rw [swept, removeFromDisk, mem_keys_foldl_erase, mem_dueKeys]
  tauto

/-- The keys on disk after a sweep. -/
theorem onDisk_swept :
    (s.swept config now threshold).OnDisk config e ↔
      s.OnDisk config e ∧ e ∉ s.dueKeys now threshold := by
  rw [OnDisk, OnDisk, mem_opened_swept,
    mem_map_of_injective (encodeKey_injective config.codec), and_comm]

/-- A sweep removes the due keys in memory, and no other key. -/
theorem held_swept :
    (s.swept config now threshold).Held config e ↔
      s.Held config e ∧ e ∉ s.dueKeys now threshold := by
  rw [Held, Held, mem_oldestKeys_swept, onDisk_swept, mem_dueKeys]
  tauto

/-- A sweep empties the memory if every key in it is due. -/
theorem size_swept_eq_zero_iff :
    (s.swept config now threshold).oldestKeys.size = 0 ↔
      ∀ e ∈ s.oldestKeys.keys, Due now threshold e := by
  simp only [size_eq_zero_iff, mem_oldestKeys_swept, not_and, not_not]

/-- A sweep neither opens nor closes the disk. -/
theorem isSome_disk_swept : (s.swept config now threshold).disk.isSome = s.disk.isSome := by
  rw [swept, removeFromDisk, Option.isSome_map]

/-- A sweep keeps the list valid. -/
theorem Valid.swept (h : s.Valid config) (now threshold : ℤ) :
    (s.swept config now threshold).Valid config :=
  h.of_subset (fun _ hdata => (mem_opened_swept.mp hdata).2)
    fun _ he => (mem_oldestKeys_swept.mp he).1

variable {drained drained' has : Bool}

/-- A refill keeps the list valid. -/
theorem Refilled.valid (h : Refilled config s s' drained) (hvalid : s.Valid config) :
    s'.Valid config where
  encoded := by
    rw [opened, h.disk]
    exact hvalid.encoded
  capacity := h.capacity

/-- A refill leaves the keys on disk. -/
theorem Refilled.onDisk_iff (h : Refilled config s s' drained) :
    s'.OnDisk config e ↔ s.OnDisk config e := by
  rw [OnDisk, OnDisk, opened, h.disk, Option.getD_some]

/-- A refill neither adds a key nor removes one. -/
theorem Refilled.held_iff (h : Refilled config s s' drained) :
    s'.Held config e ↔ s.Held config e := by
  have htaken := h.taken e
  have hkept := h.kept e
  rw [Held, Held, h.onDisk_iff]
  tauto

/-- What is left after the refill at the end of a turn. -/
def TurnEnds (config : HybridKeyListConfig K) (s s' : HybridKeyList K) (drained drained' : Bool) :
    Prop :=
  if s.disk.isSome && !drained then Refilled config s s' drained' else s' = s ∧ drained' = drained

/-- The end of a turn of the loop: a valid list is refilled unless the disk is drained. -/
theorem Valid.refillUnlessDrained (h : s.Valid config) (drained : Bool) :
    ∃ s' drained', s.refillUnlessDrained config s.disk.isSome drained = .ok (s', drained') ∧
      TurnEnds config s s' drained drained' := by
  rw [HybridKeyList.refillUnlessDrained]
  by_cases hrefill : (s.disk.isSome && !drained) = true
  · obtain ⟨s', drained', heq, hrefilled⟩ := h.refill
    exact ⟨s', drained', by rw [if_pos hrefill, heq], by rwa [TurnEnds, if_pos hrefill]⟩
  · exact ⟨s, drained, by rw [if_neg hrefill], by rw [TurnEnds, if_neg hrefill]; exact ⟨rfl, rfl⟩⟩

/-- Without keys on disk, or without keys that are due, the disk stays as it is. -/
theorem swept_of_not (h : ¬ (s.disk.isSome = true ∧ s.dueKeys now threshold ≠ [])) :
    { s with oldestKeys := (s.dueKeys now threshold).foldl erase s.oldestKeys } =
      s.swept config now threshold := by
  rw [swept, removeFromDisk]
  rcases not_and_or.mp h with hdisk | hdue
  · rw [Bool.not_eq_true, Option.isSome_eq_false_iff, Option.isNone_iff_eq_none] at hdisk
    rw [hdisk]
    rfl
  · rw [not_not.mp hdue]
    simp

/-- **One turn of the loop** takes out the keys in memory that are due; another turn follows when
nothing is left in memory and the disk may hold more. -/
theorem removeLoop_succ (now : ℤ) (hvalid : s.Valid config)
    (hmem : ∀ e ∈ s.oldestKeys.keys, Word.int64.Mem (e.ts + threshold))
    {result : List K} (hroom : result.length + s.oldestKeys.size < maxKeysToRemove)
    (fuel readings : ℕ) (drained : Bool) :
    ∃ s' drained' readings', TurnEnds config (s.swept config now threshold) s' drained drained' ∧
      removeLoop config (.all now threshold maxKeysToRemove) s.disk.isSome (fuel + 1) s result
          readings drained =
        if s.disk.isSome ∧ s.dueKeys now threshold ≠ [] ∧
            (s.swept config now threshold).oldestKeys.size = 0 ∧ drained = false then
          removeLoop config (.all now threshold maxKeysToRemove) s.disk.isSome fuel s'
            (result ++ (s.dueKeys now threshold).map (·.k)) readings' drained'
        else some (.ok (s', result ++ (s.dueKeys now threshold).map (·.k))) := by
  have hlength : result.length + (s.oldestKeys.toList.map (·.1)).length ≤ maxKeysToRemove := by
    rw [length_map]
    exact hroom.le
  obtain ⟨readings', hloop⟩ := removeExpiresFromMemory_eq config now s.disk.isSome
    { oldestKeys := s.oldestKeys, result, readings }
    (fun e he => hmem e (mem_keys_iff_mem_map.mpr he))
    ((pairwise_map.mpr s.oldestKeys.sorted).imp ts_le_of_lt) hlength
  rw [← dueKeys, nil_append] at hloop
  obtain ⟨s', drained', hrefill, hends⟩ := (hvalid.swept now threshold).refillUnlessDrained drained
  rw [isSome_disk_swept] at hrefill
  refine ⟨s', drained', readings', hends, ?_⟩
  rw [removeLoop, hloop]
  by_cases hturn : s.disk.isSome = true ∧ s.dueKeys now threshold ≠ []
  · obtain ⟨hdisk, hdue⟩ := hturn
    have hne : (s.dueKeys now threshold).map (encodeKey config.codec) ≠ [] := by simpa using hdue
    have hlt : (result ++ (s.dueKeys now threshold).map (·.k)).length < maxKeysToRemove := by
      have hle : (s.dueKeys now threshold).length ≤ s.oldestKeys.size := length_dueKeys_le
      rw [length_append, length_map]
      omega
    simp only [hdisk, if_true, hne, if_false, true_and] at hrefill ⊢
    rw [← swept]
    simp only [hrefill]
    by_cases hmore : (s.swept config now threshold).oldestKeys.size = 0 ∧ drained = false
    · rw [if_neg (not_not.mpr hmore), if_pos (by exact hlt)]
      exact (if_pos ⟨hdue, hmore⟩).symm
    · rw [if_pos hmore]
      exact (if_neg fun h => hmore h.2).symm
  · have hnil : (if s.disk.isSome = true then
        (s.dueKeys now threshold).map (encodeKey config.codec) else []) = [] := by
      split_ifs with hdisk
      · rw [not_and_not_right.mp hturn hdisk, map_nil]
      · rfl
    rw [if_pos hnil, swept_of_not hturn, hrefill]
    exact (if_neg fun h => hturn ⟨h.1, h.2.1⟩).symm

/-- The end of a turn neither adds a key nor removes one. -/
theorem TurnEnds.held_iff (h : TurnEnds config s s' drained drained') :
    s'.Held config e ↔ s.Held config e := by
  rw [TurnEnds] at h
  split_ifs at h
  · exact h.held_iff
  · rw [h.1]

/-! ### Whole calls -/

/-- The keys that were removed are those that were due, each once, and the others are still
held. -/
structure Expires (config : HybridKeyListConfig K) (now threshold : ℤ) (s s' : HybridKeyList K)
    (removed : List (KeyWithTimestamp K)) : Prop where
  nodup : removed.Nodup
  mem_iff : ∀ e, e ∈ removed ↔ s.Held config e ∧ Due now threshold e
  held_iff : ∀ e, s'.Held config e ↔ s.Held config e ∧ ¬ Due now threshold e

/-- The last turn is exact when the memory has every key on disk that is due. -/
theorem Expires.of_swept
    (hends : ∀ e, s'.Held config e ↔ (s.swept config now threshold).Held config e)
    (hdisk : ∀ e, s.OnDisk config e → Due now threshold e → e ∈ s.oldestKeys.keys) :
    Expires config now threshold s s' (s.dueKeys now threshold) where
  nodup := nodup_dueKeys
  mem_iff e := by
    rw [mem_dueKeys, Held]
    tauto
  held_iff e := by
    rw [hends, held_swept, mem_dueKeys, Held]
    tauto

/-- What a turn removed goes before what the next turns remove. -/
theorem Expires.append {s'' : HybridKeyList K}
    (hends : Refilled config (s.swept config now threshold) s' drained)
    (h : Expires config now threshold s' s'' removed) :
    Expires config now threshold s s'' (s.dueKeys now threshold ++ removed) := by
  have hheld : ∀ e, s'.Held config e ↔ s.Held config e ∧ e ∉ s.dueKeys now threshold :=
    fun e => hends.held_iff.trans held_swept
  refine ⟨nodup_dueKeys.append h.nodup fun e hdue hremoved => ?_, fun e => ?_, fun e => ?_⟩
  · exact ((hheld e).mp ((h.mem_iff e).mp hremoved).1).2 hdue
  · rw [mem_append, h.mem_iff, hheld, mem_dueKeys]
    tauto
  · rw [h.held_iff, hheld, mem_dueKeys]
    tauto

/-- The memory has the oldest keys of those on disk, and some if there are any. -/
structure Aligned (config : HybridKeyListConfig K) (s : HybridKeyList K) (drained : Bool) :
    Prop where
  valid : s.Valid config
  disk : s.disk.isSome = true
  onDisk : ∀ e ∈ s.oldestKeys.keys, s.OnDisk config e
  oldest : ∀ e ∈ s.oldestKeys.keys, ∀ e', s.OnDisk config e' → e' ∉ s.oldestKeys.keys →
    e.ts ≤ e'.ts
  some : s.oldestKeys.size = 0 → ∀ e, ¬ s.OnDisk config e
  all : drained = true → ∀ e, s.OnDisk config e → e ∈ s.oldestKeys.keys

/-- A refill leaves the number of keys on disk. -/
theorem Refilled.size_opened (h : Refilled config s s' drained) :
    s'.opened.size = s.opened.size := by
  rw [opened, h.disk, Option.getD_some]

/-- A refill of an empty memory takes the oldest keys. -/
theorem Refilled.aligned (h : Refilled config s s' drained) (hvalid : s.Valid config)
    (hempty : s.oldestKeys.size = 0) (hcapacity : 0 < config.maxHotKeyCount) :
    Aligned config s' drained where
  valid := h.valid hvalid
  disk := by rw [h.disk]; rfl
  onDisk e he := h.onDisk_iff.mpr
    ((h.taken e he).resolve_left (size_eq_zero_iff.mp hempty e))
  oldest e he e' hdisk := h.oldest e he (size_eq_zero_iff.mp hempty e) e'
    (h.onDisk_iff.mp hdisk)
  some hsize e hdisk := by
    cases hdrained : drained with
    | false =>
      have := h.full hdrained
      omega
    | true =>
      exact size_eq_zero_iff.mp hsize e (h.all hdrained e (h.onDisk_iff.mp hdisk))
  all hdrained e hdisk := h.all hdrained e (h.onDisk_iff.mp hdisk)

/-- The keys that a turn takes from the memory leave the disk as well. -/
theorem length_dueKeys_add_size_le (now threshold : ℤ)
    (h : ∀ e ∈ s.oldestKeys.keys, s.OnDisk config e) :
    (s.dueKeys now threshold).length + (s.swept config now threshold).opened.size ≤
      s.opened.size := by
  have hnodup : ((s.dueKeys now threshold).map (encodeKey config.codec)).Nodup :=
    nodup_dueKeys.map (encodeKey_injective config.codec)
  have hdisjoint : Disjoint ((s.dueKeys now threshold).map (encodeKey config.codec)).toFinset
      (s.swept config now threshold).opened.keys := by
    refine Finset.disjoint_left.mpr fun data hdue hswept => ?_
    exact (mem_opened_swept.mp hswept).1 (mem_toFinset.mp hdue)
  rw [← length_map (encodeKey config.codec), ← toFinset_card_of_nodup hnodup,
    ← card_keys, ← card_keys, ← Finset.card_union_of_disjoint hdisjoint]
  refine Finset.card_le_card (Finset.union_subset (fun data hdue => ?_) fun data hswept => ?_)
  · obtain ⟨e, he, rfl⟩ := mem_map.mp (mem_toFinset.mp hdue)
    exact h e (mem_dueKeys.mp he).1
  · exact (mem_opened_swept.mp hswept).2

/-- When no turn follows, the memory has every key on disk that is due. -/
theorem Aligned.mem_oldestKeys (h : Aligned config s drained)
    (hmore : ¬ (s.disk.isSome ∧ s.dueKeys now threshold ≠ [] ∧
      (s.swept config now threshold).oldestKeys.size = 0 ∧ drained = false))
    (hdisk : s.OnDisk config e) (hdue : Due now threshold e) : e ∈ s.oldestKeys.keys := by
  by_contra hout
  -- every key in memory is older than `e`
  have hall : ∀ e' ∈ s.oldestKeys.keys, Due now threshold e' := fun e' he' =>
    hdue.of_ts_le (h.oldest e' he' e hdisk hout)
  obtain ⟨e', he'⟩ : ∃ e', e' ∈ s.oldestKeys.keys := by
    by_contra hnone
    exact h.some (size_eq_zero_iff.mpr (not_exists.mp hnone)) e hdisk
  have hdrained : drained = false := by
    cases hd : drained with
    | false => rfl
    | true => exact absurd (h.all hd e hdisk) hout
  exact hmore ⟨h.disk, ne_nil_of_mem (mem_dueKeys.mpr ⟨he', hall e' he'⟩),
    size_swept_eq_zero_iff.mpr hall, hdrained⟩

/-- **From an aligned list on**, the loop takes out what is due. -/
theorem Aligned.removeLoop {fuel : ℕ} :
    ∀ {s : HybridKeyList K} {drained : Bool} {result : List K} (readings : ℕ),
      Aligned config s drained → s.opened.size < fuel →
      (∀ e, s.Held config e → Word.int64.Mem (e.ts + threshold)) →
      result.length + s.opened.size < maxKeysToRemove →
      ∃ s' removed, Expires config now threshold s s' removed ∧
        removeLoop config (.all now threshold maxKeysToRemove) s.disk.isSome fuel s result
          readings drained = .some (.ok (s', result ++ removed.map (·.k))) := by
  induction fuel with
  | zero => exact fun _ _ hfuel => absurd hfuel (Nat.not_lt_zero _)
  | succ fuel ih =>
    intro s drained result readings h hfuel hmem hroom
    have hsize : s.oldestKeys.size ≤ s.opened.size := by
      rw [← card_keys, ← card_keys]
      exact Finset.card_le_card_of_injOn (encodeKey config.codec) h.onDisk
        (encodeKey_injective config.codec).injOn
    have hlength := length_dueKeys_add_size_le now threshold h.onDisk
    have hfirst : result.length + s.oldestKeys.size < maxKeysToRemove := by omega
    obtain ⟨s', drained', readings', hends, heq⟩ := removeLoop_succ now h.valid
      (fun e he => hmem e (.inl he)) hfirst fuel readings drained
    rw [heq]
    split_ifs with hmore
    · obtain ⟨-, hdue, hempty, rfl⟩ := hmore
      rw [TurnEnds, isSome_disk_swept, h.disk] at hends
      have hdue : 0 < (s.dueKeys now threshold).length := length_pos_iff.mpr hdue
      have hcapacity : 0 < config.maxHotKeyCount :=
        hdue.trans_le (length_dueKeys_le.trans h.valid.capacity)
      have haligned := hends.aligned (h.valid.swept now threshold) hempty hcapacity
      have hopened := hends.size_opened
      obtain ⟨s'', removed, hexpires, hrest⟩ := ih readings' haligned (by omega)
        (fun e he => hmem e (held_swept.mp (hends.held_iff.mp he)).1)
        (show (result ++ (s.dueKeys now threshold).map (·.k)).length + s'.opened.size < _ by
          rw [length_append, length_map]
          omega)
      refine ⟨s'', s.dueKeys now threshold ++ removed, hexpires.append hends, ?_⟩
      rw [h.disk, ← haligned.disk, hrest, map_append, append_assoc]
    · exact ⟨s', _, .of_swept (fun _ => hends.held_iff) fun e => h.mem_oldestKeys hmore, rfl⟩

/-- A call that finds nothing in memory, nothing on disk or a key in memory that is not due takes
out the keys in memory that are due. -/
theorem Valid.removeTimedOutKeys_stops (h : s.Valid config)
    (hmem : ∀ e ∈ s.oldestKeys.keys, Word.int64.Mem (e.ts + threshold))
    (hroom : s.oldestKeys.size < maxKeysToRemove)
    (hstop : ¬ (s.oldestKeys.size ≠ 0 ∧ s.disk.isSome ∧
      ∀ e ∈ s.oldestKeys.keys, Due now threshold e)) :
    ∃ s', (∀ e, s'.Held config e ↔ (s.swept config now threshold).Held config e) ∧
      s.removeTimedOutKeys config (.all now threshold maxKeysToRemove) =
        some (.ok (s', (s.dueKeys now threshold).map (·.k))) := by
  by_cases hempty : s.oldestKeys.size = 0
  · have hnil : s.dueKeys now threshold = [] := eq_nil_iff_forall_not_mem.mpr fun e he =>
      size_eq_zero_iff.mp hempty e (mem_dueKeys.mp he).1
    refine ⟨s, fun e => ?_, ?_⟩
    · rw [held_swept, hnil]
      simp
    · rw [HybridKeyList.removeTimedOutKeys, if_pos hempty, hnil, map_nil]
  · have hroom : ([] : List K).length + s.oldestKeys.size < maxKeysToRemove := by
      rwa [length_nil, Nat.zero_add]
    obtain ⟨s', drained, readings, hends, heq⟩ :=
      removeLoop_succ now h hmem hroom (s.opened.size + 1) 0 false
    refine ⟨s', fun e => hends.held_iff, ?_⟩
    rw [HybridKeyList.removeTimedOutKeys, if_neg hempty, turns, heq]
    exact if_neg fun hmore =>
      hstop ⟨hempty, hmore.1, size_swept_eq_zero_iff.mp hmore.2.2.1⟩

/-- A call that finds every key in memory due goes on with the disk to its end. -/
theorem Valid.removeTimedOutKeys_continues (h : s.Valid config)
    (hmem : ∀ e, s.Held config e → Word.int64.Mem (e.ts + threshold))
    (hroom : s.oldestKeys.size + s.opened.size < maxKeysToRemove) (hdisk : s.disk.isSome)
    (hall : ∀ e ∈ s.oldestKeys.keys, Due now threshold e) (hsome : s.oldestKeys.size ≠ 0) :
    ∃ s' removed, Expires config now threshold s s' removed ∧
      s.removeTimedOutKeys config (.all now threshold maxKeysToRemove) =
        some (.ok (s', removed.map (·.k))) := by
  have hnil : ([] : List K).length + s.oldestKeys.size < maxKeysToRemove := by
    rw [length_nil]
    omega
  obtain ⟨s', drained, readings, hends, heq⟩ :=
    removeLoop_succ now h (fun e he => hmem e (.inl he)) hnil (s.opened.size + 1) 0 false
  obtain ⟨e, he⟩ : ∃ e, e ∈ s.oldestKeys.keys := by
    by_contra hnone
    exact hsome (size_eq_zero_iff.mpr (not_exists.mp hnone))
  have hempty : (s.swept config now threshold).oldestKeys.size = 0 :=
    size_swept_eq_zero_iff.mpr hall
  rw [if_pos ⟨hdisk, ne_nil_of_mem (mem_dueKeys.mpr ⟨he, hall e he⟩), hempty, rfl⟩] at heq
  rw [TurnEnds, isSome_disk_swept, hdisk] at hends
  have haligned := hends.aligned (h.swept now threshold) hempty
    (lt_of_lt_of_le (Nat.pos_of_ne_zero hsome) h.capacity)
  have hopened : s'.opened.size ≤ s.opened.size := by
    rw [hends.size_opened]
    exact size_le_of_keys_subset fun _ hdata => (mem_opened_swept.mp hdata).2
  have hlength : ([] ++ (s.dueKeys now threshold).map KeyWithTimestamp.k).length + s'.opened.size <
      maxKeysToRemove := by
    have hdue : (s.dueKeys now threshold).length ≤ s.oldestKeys.size := length_dueKeys_le
    rw [nil_append, length_map]
    omega
  obtain ⟨s'', removed, hexpires, hrest⟩ := haligned.removeLoop readings
    (Nat.lt_succ_of_le hopened)
    (fun e he => hmem e (held_swept.mp (hends.held_iff.mp he)).1) hlength
  refine ⟨s'', s.dueKeys now threshold ++ removed, hexpires.append hends, ?_⟩
  rw [HybridKeyList.removeTimedOutKeys, if_neg hsome, turns, heq, hdisk, ← haligned.disk, hrest,
    map_append, nil_append]

/-- A call that leaves a key on disk behind, which is due, is not exact: it has returned too few
keys. -/
theorem Expires.mem_oldestKeys (h : Expires config now threshold s s' removed)
    (heq : (s.dueKeys now threshold).map (·.k) = removed.map (·.k)) (hdisk : s.OnDisk config e)
    (hdue : Due now threshold e) : e ∈ s.oldestKeys.keys := by
  by_contra hout
  have hnodup : (e :: s.dueKeys now threshold).Nodup :=
    nodup_cons.mpr ⟨fun hin => hout (mem_dueKeys.mp hin).1, nodup_dueKeys⟩
  have hsubset : (e :: s.dueKeys now threshold) ⊆ removed := by
    refine cons_subset.mpr ⟨(h.mem_iff e).mpr ⟨.inr hdisk, hdue⟩, fun e' he' => ?_⟩
    exact (h.mem_iff e').mpr ((mem_dueKeys.mp he').imp_left .inl)
  have hle := (subperm_of_subset hnodup hsubset).length_le
  have hlength := congrArg length heq
  simp only [length_map, length_cons] at hle hlength
  omega

/-! ### Runs -/

/-- The lists that are reached, with a bound on the readings of the clock so far. -/
inductive Reachable (config : HybridKeyListConfig K) : ℤ → HybridKeyList K → Prop
  | created {clock : ℤ} : Reachable config clock {}
  | emplaceKey {clock : ℤ} {s : HybridKeyList K} (now : Millis) (key : K) :
      Reachable config clock s → clock ≤ now → Reachable config now (s.emplaceKey config now key)
  | emplaceKeys {clock : ℤ} {s s' : HybridKeyList K} (now : Millis) (keys : List K) :
      Reachable config clock s → clock ≤ now → keys.Nodup →
      s.emplaceKeys config now keys = some s' → Reachable config now s'
  | removeKey {clock : ℤ} {s : HybridKeyList K} (key : K) (createUtcTs : Millis) :
      Reachable config clock s → Reachable config clock (s.removeKey config key createUtcTs)
  | removeTimedOutKeys {clock clock' : ℤ} {s s' : HybridKeyList K} {removed : List K}
      (expiry : Expiry K) : Reachable config clock s → Monotone expiry.clock →
      (∀ i, clock ≤ expiry.clock i ∧ expiry.clock i ≤ clock') →
      s.removeTimedOutKeys config expiry = some (.ok (s', removed)) → Reachable config clock' s'

/-- A batch fills the memory up to the limit. -/
theorem size_fillMemory_le {maxHotKeyCount : ℕ} {now : Millis} {keys left : List K}
    {m m' : SortedMap (KeyWithTimestamp K) Unit} (hsize : m.size ≤ maxHotKeyCount)
    (h : fillMemory maxHotKeyCount now keys m = some (m', left)) : m'.size ≤ maxHotKeyCount := by
  induction keys generalizing m with
  | nil =>
    rw [fillMemory] at h
    split_ifs at h
    cases h
    exact hsize
  | cons key keys ih =>
    rw [fillMemory] at h
    split_ifs at h with hlt
    · exact ih ((m.size_insert_le _ ()).trans hlt) h
    · cases h
      exact hsize

/-- Expiring keys adds none to the memory. -/
theorem removeExpiresFromMemory_subset {expiry : Expiry K} {hasOnDiskKeys : Bool}
    {loop : MemoryLoop K} :
    (removeExpiresFromMemory config expiry hasOnDiskKeys es loop).oldestKeys.keys ⊆
      loop.oldestKeys.keys := by
  induction es generalizing loop with
  | nil => exact subset_rfl
  | cons e es ih =>
    have herase : (loop.oldestKeys.erase e).keys ⊆ loop.oldestKeys.keys := fun _ he =>
      (mem_keys_erase.mp he).2
    rw [removeExpiresFromMemory]
    generalize (if hasOnDiskKeys then [encodeKey config.codec e] else []) = encoded
    split_ifs
    · exact ih.trans herase
    · exact ih.trans herase
    · exact subset_rfl
    · exact subset_rfl

section

variable (h : s.Valid config)
include h

/-- A new key keeps the list valid. -/
theorem Valid.emplaceKey (now : Millis) (key : K) :
    (s.emplaceKey config now key).Valid config := by
  rw [HybridKeyList.emplaceKey]
  split_ifs with hlt
  · exact ⟨h.encoded, (s.oldestKeys.size_insert_le _ ()).trans hlt⟩
  · refine ⟨fun data hdata => ?_, h.capacity⟩
    rcases mem_keys_insert.mp hdata with rfl | hin
    · exact ⟨_, rfl⟩
    · exact h.encoded data hin

/-- A batch of new keys keeps the list valid. -/
theorem Valid.emplaceKeys {now : Millis} {keys : List K}
    (heq : s.emplaceKeys config now keys = some s') : s'.Valid config := by
  rw [HybridKeyList.emplaceKeys] at heq
  split_ifs at heq with hlt
  · cases heq
    refine ⟨h.encoded, (size_foldl_insert_le _ _).trans ?_⟩
    rw [length_map]
    omega
  · cases hfill : fillMemory config.maxHotKeyCount now keys s.oldestKeys with
    | none =>
      rw [hfill] at heq
      cases heq
    | some filled =>
      rw [hfill] at heq
      cases heq
      refine ⟨fun data hdata => ?_, size_fillMemory_le h.capacity hfill⟩
      rcases mem_keys_foldl_insert.mp hdata with hin | hin
      · obtain ⟨key, -, rfl⟩ := mem_map.mp hin
        exact ⟨_, rfl⟩
      · exact h.encoded data hin

/-- The removal of a key keeps the list valid. -/
theorem Valid.removeKey (key : K) (createUtcTs : Millis) :
    (s.removeKey config key createUtcTs).Valid config := by
  refine h.of_subset (fun data hdata => ?_) fun e he => (mem_keys_erase.mp he).2
  rw [opened, HybridKeyList.removeKey] at hdata
  rw [opened]
  cases hdisk : s.disk with
  | none => simp [hdisk, SortedMap.keys] at hdata
  | some disk =>
    simp only [hdisk] at hdata ⊢
    split_ifs at hdata
    · exact (mem_keys_erase.mp hdata).2
    · exact hdata

/-- The removal of keys from the disk keeps the list valid. -/
theorem Valid.removeFromDisk (encodedKeys : List Bytes) :
    (s.removeFromDisk encodedKeys).Valid config :=
  h.of_subset (fun _ hdata => (mem_opened_removeFromDisk.mp hdata).2) subset_rfl

/-- The list after a refill that succeeds is valid. -/
theorem Valid.of_refill (heq : s.refill config = .ok (s', drained)) :
    s'.Valid config := by
  obtain ⟨s'', drained', heq', hrefilled⟩ := h.refill
  rw [heq'] at heq
  cases heq
  exact hrefilled.valid h

/-- The list after a turn of the loop is valid. -/
theorem Valid.of_refillUnlessDrained
    (heq : s.refillUnlessDrained config has drained = .ok (s', drained')) : s'.Valid config := by
  rw [HybridKeyList.refillUnlessDrained] at heq
  split_ifs at heq
  · exact h.of_refill heq
  · cases heq
    exact h

end

/-- A refill whose list is returned has succeeded. -/
theorem ok_of_map_ok {refilled : Except DecodeError (HybridKeyList K × Bool)}
    {result removed : List K}
    (h : refilled.map (fun refilled => (refilled.1, result)) = .ok (s', removed)) :
    ∃ drained, refilled = .ok (s', drained) := by
  cases refilled with
  | error err => cases h
  | ok refilled =>
    cases h
    exact ⟨refilled.2, rfl⟩

/-- The loop that removes expired keys keeps the list valid, by induction on its turns. -/
theorem valid_of_removeLoop {expiry : Expiry K} {fuel : ℕ} :
    ∀ {s s' : HybridKeyList K} {result removed : List K} {readings : ℕ} {drained : Bool},
      s.Valid config →
      removeLoop config expiry has fuel s result readings drained = some (.ok (s', removed)) →
      s'.Valid config := by
  induction fuel with
  | zero => exact fun _ heq => nomatch heq
  | succ fuel ih =>
    intro s s' result removed readings drained h heq
    rw [removeLoop] at heq
    generalize hloop : removeExpiresFromMemory config expiry has (s.oldestKeys.toList.map (·.1))
      { oldestKeys := s.oldestKeys, result, readings } = loop at heq
    have hleft : ({ s with oldestKeys := loop.oldestKeys } : HybridKeyList K).Valid config :=
      h.of_subset subset_rfl (by rw [← hloop]; exact removeExpiresFromMemory_subset)
    dsimp only at heq
    by_cases hnone : loop.expiredEncodedKeys = []
    · rw [if_pos hnone] at heq
      obtain ⟨drained', hrefill⟩ := ok_of_map_ok (Option.some.inj heq)
      exact hleft.of_refillUnlessDrained hrefill
    · rw [if_neg hnone] at heq
      cases hrefill : refillUnlessDrained config has drained
          (removeFromDisk loop.expiredEncodedKeys
            { s with oldestKeys := loop.oldestKeys }) with
      | error err =>
        rw [hrefill] at heq
        cases heq
      | ok refilled =>
        have hrefilled := (hleft.removeFromDisk _).of_refillUnlessDrained hrefill
        rw [hrefill] at heq
        dsimp only at heq
        split_ifs at heq
        · exact ih hrefilled heq
        · cases heq
          exact hrefilled
        · obtain ⟨drained', hlast⟩ := ok_of_map_ok (Option.some.inj heq)
          exact hrefilled.of_refill hlast
        · cases heq
          exact hrefilled

/-- Every list that is reached is valid. -/
theorem Reachable.valid {clock : ℤ} (h : Reachable config clock s) : s.Valid config := by
  induction h with
  | created => exact ⟨by simp [opened, SortedMap.keys], Nat.zero_le _⟩
  | emplaceKey now key _ _ ih => exact ih.emplaceKey now key
  | emplaceKeys now keys _ _ _ heq ih => exact ih.emplaceKeys heq
  | removeKey key createUtcTs _ ih => exact ih.removeKey key createUtcTs
  | removeTimedOutKeys expiry _ _ _ heq ih =>
    rw [HybridKeyList.removeTimedOutKeys] at heq
    split_ifs at heq
    · cases heq
      exact ih
    · exact valid_of_removeLoop ih heq

/-- **When a call returns and removes the keys that are due**, and only those, in a list that is
reached by any run: every key in memory is due, and there is one, or every key on disk that is
due is in memory as well. -/
theorem removeTimedOutKeys_exact_iff {clock : ℤ} (hrun : Reachable config clock s)
    (hmem : ∀ e, s.Held config e → Word.int64.Mem (e.ts + threshold))
    (hroom : s.oldestKeys.size + s.opened.size < maxKeysToRemove) :
    (∃ s' removed, Expires config now threshold s s' removed ∧
      s.removeTimedOutKeys config (.all now threshold maxKeysToRemove) =
        some (.ok (s', removed.map (·.k)))) ↔
    (s.oldestKeys.size ≠ 0 ∧ ∀ e ∈ s.oldestKeys.keys, Due now threshold e) ∨
      ∀ e, s.OnDisk config e → Due now threshold e → e ∈ s.oldestKeys.keys := by
  have h := hrun.valid
  by_cases hcont : s.oldestKeys.size ≠ 0 ∧ s.disk.isSome ∧
      ∀ e ∈ s.oldestKeys.keys, Due now threshold e
  · obtain ⟨hsome, hdisk, hall⟩ := hcont
    exact iff_of_true (h.removeTimedOutKeys_continues hmem hroom hdisk hall hsome)
      (.inl ⟨hsome, hall⟩)
  · -- the call ends after one turn at most, with the keys in memory that are due
    obtain ⟨s', hheld, heq⟩ := h.removeTimedOutKeys_stops (fun e he => hmem e (.inl he))
      (lt_of_le_of_lt (Nat.le_add_right _ _) hroom) hcont
    rw [heq]
    constructor
    · rintro ⟨s'', removed, hexpires, hsame⟩
      have hkeys := (Prod.mk.inj (Except.ok.inj (Option.some.inj hsame))).2
      exact .inr fun e => hexpires.mem_oldestKeys hkeys
    · intro hcond
      refine ⟨s', _, .of_swept hheld ?_, rfl⟩
      rcases hcond with ⟨hsome, hall⟩ | hdisk
      · exact fun e hdisk => absurd ⟨hsome, isSome_disk_of_onDisk hdisk, hall⟩ hcont
      · exact hdisk

/-! ### A memory of one key -/

/-- Keys of one byte, one of them in memory. -/
def oneHotKey : HybridKeyListConfig UInt8 := { codec := byteCodec, maxHotKeyCount := 1 }

/-- One key in memory and a younger one on disk. -/
def oneSpilled : HybridKeyList UInt8 :=
  (({} : HybridKeyList UInt8).emplaceKey oneHotKey (.ofInt 1) 1).emplaceKey oneHotKey (.ofInt 2) 2

/-- The list with one key in memory and one on disk comes from two insertions. -/
theorem reachable_oneSpilled : Reachable oneHotKey 2 oneSpilled :=
  .emplaceKey (.ofInt 2) 2 (.emplaceKey (.ofInt 1) 1 (.created : Reachable oneHotKey 0 {})
    (by decide)) (by decide)

/-- The older key is in memory. -/
theorem mem_oldestKeys_oneSpilled {e : KeyWithTimestamp UInt8} :
    e ∈ oneSpilled.oldestKeys.keys ↔ e = toLex (.ofInt 1, 1) := by
  exact mem_singleton

/-- The newer key is on disk. -/
theorem onDisk_oneSpilled {e : KeyWithTimestamp UInt8} :
    oneSpilled.OnDisk oneHotKey e ↔ e = toLex (.ofInt 2, 2) := by
  exact mem_singleton.trans (encodeKey_injective byteCodec).eq_iff

/-- Both keys expire. -/
theorem oneSpilled_expires :
    ∃ s' removed, Expires oneHotKey 10 1 oneSpilled s' removed ∧
      oneSpilled.removeTimedOutKeys oneHotKey (.all 10 1 100) =
        some (.ok (s', removed.map (·.k))) := by
  refine (removeTimedOutKeys_exact_iff reachable_oneSpilled (fun e he => ?_) (by decide)).mpr
    (.inl ⟨by decide, fun e he => ?_⟩)
  · rcases he with he | he
    · rw [mem_oldestKeys_oneSpilled] at he
      subst he
      decide
    · rw [onDisk_oneSpilled] at he
      subst he
      decide
  · rw [mem_oldestKeys_oneSpilled] at he
    subst he
    decide

/-- Once the key in memory is removed by its owner, the key on disk stays for good. -/
theorem spilled_key_stays :
    ∃ s : HybridKeyList UInt8, Reachable oneHotKey 2 s ∧ ∃ e, s.Held oneHotKey e ∧ Due 10 1 e ∧
      s.removeTimedOutKeys oneHotKey (.all 10 1 100) = some (.ok (s, [])) := by
  refine ⟨oneSpilled.removeKey oneHotKey 1 (.ofInt 1), .removeKey 1 _ reachable_oneSpilled,
    toLex (.ofInt 2, 2), .inr (onDisk_oneSpilled.mpr rfl), by decide, rfl⟩

/-- **A refill of a reachable list** can decode every key that it reads, loses none, keeps the
capacity, and takes the oldest ones. -/
theorem refill_of_reachable {clock : ℤ} (hrun : Reachable config clock s) :
    ∃ s' drained, s.refill config = .ok (s', drained) ∧
      (∀ e, s'.Held config e ↔ s.Held config e) ∧
      s'.oldestKeys.size ≤ config.maxHotKeyCount ∧
      ∀ e ∈ s'.oldestKeys.keys, e ∉ s.oldestKeys.keys →
        ∀ e', s'.Held config e' → e' ∉ s'.oldestKeys.keys → e.ts ≤ e'.ts := by
  obtain ⟨s', drained, heq, h⟩ := hrun.valid.refill
  refine ⟨s', drained, heq, fun e => h.held_iff, h.capacity, fun e he hnew e' hheld hout => ?_⟩
  exact h.oldest e he hnew e' (h.onDisk_iff.mp (hheld.resolve_left hout)) hout

/-- Once the key in memory is removed, a refill reads the key on disk. -/
theorem refill_oneSpilled :
    let s := oneSpilled.removeKey oneHotKey 1 (.ofInt 1)
    ∃ s' drained, s.refill oneHotKey = .ok (s', drained) ∧
      toLex (.ofInt 2, 2) ∈ s'.oldestKeys.keys ∧ ∀ e, s'.Held oneHotKey e ↔ s.Held oneHotKey e := by
  obtain ⟨s', drained, heq, hheld, -⟩ :=
    refill_of_reachable (.removeKey 1 (.ofInt 1) reachable_oneSpilled)
  refine ⟨s', drained, heq, ?_, hheld⟩
  cases heq
  decide

end HybridKeyList

end Proton
