import Mathlib.Tactic.Ring
import Proton.Lib.ByteReader

/-!
# Variable-Length Integers

This module embeds `IO/VarInt.h` and the fixed-width reads and writes of `IO/ReadHelpers.h`
that the log format uses. Unsigned 64-bit values are naturals below `2 ^ 64`, written seven
bits per byte with the continuation bit `0x80` on every byte but the last; signed values go
through the zig-zag map first.

`readVarUInt` reads at most ten bytes and ors the payloads in at shifts `0, 7, …, 63`,
keeping 64 bits. It throws `ATTEMPT_TO_READ_AFTER_EOF` when the buffer ends inside a value;
a fixed-width read throws `CANNOT_READ_ALL_DATA` instead.

## Main results

* `readVarUInt_exact`, `readVarInt_exact`: the encodings are self-delimiting, every proper
  prefix of one is a read error.
-/

open ByteReader Nat

namespace Proton

/-- The error codes a read buffer throws. -/
inductive ReadError where
  /-- `ATTEMPT_TO_READ_AFTER_EOF`, thrown inside a variable-length integer. -/
  | attemptToReadAfterEof
  /-- `CANNOT_READ_ALL_DATA`, thrown by a read of a fixed number of bytes. -/
  | cannotReadAllData
  deriving DecidableEq, Repr

/-! ### Unsigned values -/

/-- The loop of `writeVarUInt`, with the number of continuation bytes still allowed. -/
def writeVarUIntLoop : ℕ → ℕ → Bytes
  | 0, x => [UInt8.ofNat x]
  | k + 1, x =>
    if 0x7F < x then
      UInt8.ofNat (0x80 ||| (x &&& 0x7F)) :: writeVarUIntLoop k (x >>> 7)
    else
      [UInt8.ofNat x]

/-- `writeVarUInt`: a 64-bit value needs at most nine continuation bytes. -/
def writeVarUInt (x : ℕ) : Bytes :=
  writeVarUIntLoop 9 x

/-- One byte of the buffer, or `throwReadAfterEOF`. -/
def readByte : Reader ReadError UInt8
  | [] => .error .attemptToReadAfterEof
  | b :: rest => .ok (b, rest)

/-- The loop of `readVarUInt` from its `i`-th byte, with `k` bytes still allowed. -/
def readVarUIntLoop : ℕ → ℕ → ℕ → Reader ReadError ℕ
  | 0, _, x => pure x
  | k + 1, i, x => do
    let byte ← readByte
    let x := (x ||| ((byte.toNat &&& 0x7F) <<< (7 * i))) % 2 ^ 64
    if byte.toNat &&& 0x80 = 0 then pure x else readVarUIntLoop k (i + 1) x

/-- `readVarUInt`: at most ten bytes. -/
def readVarUInt : Reader ReadError ℕ :=
  readVarUIntLoop 10 0 0

/-- A single byte is a self-delimiting encoding of itself. -/
theorem readByte_exact (b : UInt8) : Exact readByte [b] b where
  run_append _ := rfl
  fails_short t ht hne := by
    rcases List.prefix_cons_iff.mp ht with rfl | ⟨u, rfl, hu⟩
    · exact ⟨_, rfl⟩
    · rw [List.prefix_nil] at hu
      exact absurd (by rw [hu]) hne

/-- A continuation byte carries the low seven bits and the bit `0x80`. -/
private theorem continuation_byte (x : ℕ) :
    (UInt8.ofNat (0x80 ||| (x &&& 0x7F))).toNat = x % 128 + 128 := by
  have h7 : x &&& 0x7F = x % 128 := and_two_pow_sub_one_eq_mod x 7
  have hor : 0x80 ||| x % 128 = 1 <<< 7 + x % 128 :=
    (shiftLeft_add_eq_or_of_lt (mod_lt x (by norm_num : 0 < 2 ^ 7)) 1).symm
  rw [UInt8.toNat_ofNat', h7]
  omega

/-- Testing the continuation bit of a byte value. -/
private theorem and_0x80_eq_zero_iff {n : ℕ} (h : n < 256) : n &&& 0x80 = 0 ↔ n < 128 := by
  have := (by decide +kernel : ∀ i : Fin 256, i.val &&& 0x80 = 0 ↔ i.val < 128)
  exact this ⟨n, h⟩

/-- Or-ing a payload in above the bits read so far is an addition. -/
private theorem or_payload {acc s v : ℕ} (hacc : acc < 2 ^ s) :
    acc ||| (v <<< s) = acc + v * 2 ^ s := by
  rw [Nat.or_comm, ← Nat.shiftLeft_add_eq_or_of_lt hacc, Nat.shiftLeft_eq, Nat.add_comm]

/-- **The reader loop inverts the writer loop.** With `i` bytes read, `acc` their value and
`v` the value still to come, the two loops agree as long as the total fits in 64 bits. -/
theorem readVarUIntLoop_exact (k i acc v : ℕ) (hv : v < 2 ^ (7 * (k + 1)))
    (hacc : acc < 2 ^ (7 * i)) (hfit : acc + v * 2 ^ (7 * i) < 2 ^ 64) :
    Exact (readVarUIntLoop (k + 1) i acc) (writeVarUIntLoop k v) (acc + v * 2 ^ (7 * i)) := by
  induction k generalizing i acc v with
  | zero =>
    have hv' : v < 128 := by simpa using hv
    have hb : (UInt8.ofNat v).toNat = v := by rw [UInt8.toNat_ofNat']; omega
    have h7 : v &&& 0x7F = v % 128 := and_two_pow_sub_one_eq_mod v 7
    have h80 : v &&& 0x80 = 0 := (and_0x80_eq_zero_iff (by omega)).mpr hv'
    refine (readByte_exact (UInt8.ofNat v)).bind (v := []) ?_
    rw [hb, h80, if_pos rfl, h7, or_payload hacc, mod_eq_of_lt hv', mod_eq_of_lt hfit]
    exact Exact.pure _
  | succ k ih =>
    rw [writeVarUIntLoop]
    by_cases h : 0x7F < v
    · rw [if_pos h]
      have hb := continuation_byte v
      have h7 : (v % 128 + 128) &&& 0x7F = v % 128 :=
        (and_two_pow_sub_one_eq_mod (v % 128 + 128) 7).trans (by omega)
      have h80 : ¬ (v % 128 + 128) &&& 0x80 = 0 := by
        rw [and_0x80_eq_zero_iff (by omega)]
        omega
      have hsplit : v % 128 * 2 ^ (7 * i) + v / 128 * 2 ^ (7 * (i + 1))
          = v * 2 ^ (7 * i) := by
        have hpow : 2 ^ (7 * (i + 1)) = 128 * 2 ^ (7 * i) := by ring
        rw [hpow, ← mul_assoc, ← add_mul]
        congr 1
        omega
      have hle : v % 128 * 2 ^ (7 * i) ≤ 127 * 2 ^ (7 * i) := mul_le_mul_right _ (by omega)
      have hacc' : acc + v % 128 * 2 ^ (7 * i) < 2 ^ (7 * (i + 1)) := by
        have hpow : 2 ^ (7 * (i + 1)) = 128 * 2 ^ (7 * i) := by ring
        omega
      refine (readByte_exact _).bind ?_
      rw [hb, h7, if_neg h80, or_payload hacc, mod_eq_of_lt (by omega), shiftRight_eq_div_pow]
      have := ih (i + 1) (acc + v % 128 * 2 ^ (7 * i)) (v / 2 ^ 7)
        (by
          rw [div_lt_iff_lt_mul (by norm_num), ← pow_add]
          exact hv)
        hacc' (by rw [show (2 : ℕ) ^ 7 = 128 from rfl]; omega)
      rwa [show (2 : ℕ) ^ 7 = 128 from rfl, add_assoc, hsplit] at this
    · rw [if_neg h]
      have hb : (UInt8.ofNat v).toNat = v := by rw [UInt8.toNat_ofNat']; omega
      have h7 : v &&& 0x7F = v % 128 := and_two_pow_sub_one_eq_mod v 7
      have h80 : v &&& 0x80 = 0 := (and_0x80_eq_zero_iff (by omega)).mpr (by omega)
      refine (readByte_exact (UInt8.ofNat v)).bind (v := []) ?_
      rw [hb, h80, if_pos rfl, h7, or_payload hacc, mod_eq_of_lt (by omega : v < 128),
        mod_eq_of_lt hfit]
      exact Exact.pure _

/-- **The unsigned encoding is self-delimiting.** -/
theorem readVarUInt_exact {x : ℕ} (h : x < 2 ^ 64) : Exact readVarUInt (writeVarUInt x) x := by
  have hx := readVarUIntLoop_exact 9 0 0 x (by omega) (by norm_num) (by omega)
  simpa [readVarUInt, writeVarUInt] using hx

/-! ### Signed values -/

/-- The zig-zag map `(x << 1) ^ (x >> 63)` of `writeVarInt`. -/
def zigZag (x : Int64) : UInt64 :=
  ((x <<< 1) ^^^ (x >>> 63)).toUInt64

/-- The inverse map `(u >> 1) ^ -(u & 1)` of `readVarInt`. -/
def unZigZag (u : UInt64) : Int64 :=
  ((u >>> 1) ^^^ (0 - (u &&& 1))).toInt64

/-- An arithmetic shift by 63 spreads the sign bit over the word. -/
private theorem sshiftRight_63 (x : BitVec 64) :
    x.sshiftRight 63 = if x.msb then BitVec.allOnes 64 else 0#64 := by
  ext i hi
  have h63 : x.msb = x[63] := by simp [BitVec.msb_eq_getLsbD_last]
  rw [BitVec.getElem_sshiftRight]
  split
  · have hi0 : i = 0 := by omega
    cases h : x.msb <;> simp_all
  · cases h : x.msb <;> simp [-BitVec.reduceAllOnes]

/-- The zig-zag map is undone bit by bit, separately for each sign. -/
private theorem zigZag_bits (x : BitVec 64) :
    (x <<< 1 ^^^ x.sshiftRight 63) >>> 1 ^^^ -((x <<< 1 ^^^ x.sshiftRight 63) &&& 1#64) = x := by
  rw [sshiftRight_63]
  have h63 : x.msb = x[63] := by simp [BitVec.msb_eq_getLsbD_last]
  cases h : x.msb with
  | false =>
    have h1 : (x <<< 1) &&& 1#64 = 0#64 := by
      ext i hi
      cases i <;> simp
    simp only [Bool.false_eq_true, if_false, BitVec.xor_zero, h1, BitVec.neg_zero]
    ext i hi
    by_cases hi63 : i = 63
    · subst hi63
      simp_all
    · have : i + 1 < 64 := by omega
      simp [BitVec.getElem_ushiftRight, this, add_comm]
  | true =>
    have h1 : (x <<< 1 ^^^ BitVec.allOnes 64) &&& 1#64 = 1#64 := by
      ext i hi
      cases i <;> simp
    have h2 : -(1#64) = BitVec.allOnes 64 := by decide
    simp only [if_true, h1, h2]
    ext i hi
    by_cases hi63 : i = 63
    · subst hi63
      simp_all
    · have : i + 1 < 64 := by omega
      simp [-BitVec.reduceAllOnes, BitVec.getElem_ushiftRight, this, add_comm]

/-- The zig-zag map is injective, with `unZigZag` as its left inverse. -/
theorem unZigZag_zigZag (x : Int64) : unZigZag (zigZag x) = x := by
  apply Int64.toBitVec_inj.mp
  simpa [unZigZag, zigZag] using zigZag_bits x.toBitVec

/-- `writeVarInt`. -/
def writeVarInt (x : Int64) : Bytes :=
  writeVarUInt (zigZag x).toNat

/-- `readVarInt`. -/
def readVarInt : Reader ReadError Int64 :=
  (fun u => unZigZag (UInt64.ofNat u)) <$> readVarUInt

/-- **The signed encoding is self-delimiting.** -/
theorem readVarInt_exact (x : Int64) : Exact readVarInt (writeVarInt x) x := by
  have h := (readVarUInt_exact (zigZag x).toNat_lt).map (fun u => unZigZag (UInt64.ofNat u))
  rwa [UInt64.ofNat_toNat, unZigZag_zigZag] at h

end Proton
