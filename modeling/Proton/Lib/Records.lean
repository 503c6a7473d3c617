import Proton.Lib.ByteReader

/-!
# Files of Fixed-Width Records

A `Codec α` writes every value of `α` in the same number of bytes. A file of such records
denotes the list `Codec.decode` of its complete records; trailing bytes that do not fill a
record denote nothing. The lemmas say how the denoted list follows the three things a
program does to such a file: append a record (`decode_append_enc`), truncate at a record
boundary (`decode_take`), and read the record at an offset (`getElem_decode`).
-/

open ByteReader List Nat

namespace Records

/-- A fixed-width codec. Only values that were written need to be read back; `dec` may map
any other bytes of the right length to whatever it likes. -/
structure Codec (α : Type) where
  size : ℕ
  enc : α → Bytes
  dec : Bytes → α
  size_pos : 0 < size
  length_enc : ∀ a, (enc a).length = size
  dec_enc : ∀ a, dec (enc a) = a

namespace Codec

variable {α : Type} (c : Codec α)

variable (file : Bytes)

/-- The complete records of a file, in order. -/
def decode : List α :=
  (range (file.length / c.size)).map fun i => c.dec ((file.drop (i * c.size)).take c.size)

@[simp] theorem length_decode : (c.decode file).length = file.length / c.size := by
  simp [decode]

@[simp] theorem decode_nil : c.decode [] = [] := by
  simp [decode]

/-- The record at index `i` stands at byte `i * size`. -/
theorem getElem_decode {i : ℕ} (h : i < (c.decode file).length) :
    (c.decode file)[i] = c.dec ((file.drop (i * c.size)).take c.size) := by
  simp [decode]

/-- The number of bytes in front of a complete record. -/
theorem mul_size_add_le {i : ℕ} (h : i < (c.decode file).length) :
    i * c.size + c.size ≤ file.length := by
  rw [length_decode] at h
  calc i * c.size + c.size = (i + 1) * c.size := (succ_mul _ _).symm
    _ ≤ file.length / c.size * c.size := mul_le_mul_right _ h
    _ ≤ file.length := div_mul_le_self _ _

/-- **Truncation at a record boundary** keeps the records in front of it. -/
theorem decode_take (i : ℕ) : c.decode (file.take (i * c.size)) = (c.decode file).take i := by
  have hlen : min (i * c.size) file.length / c.size = min i (file.length / c.size) := by
    rcases le_total (i * c.size) file.length with h | h
    · rw [Nat.min_eq_left h, Nat.mul_div_cancel _ c.size_pos, Nat.min_eq_left]
      exact (le_div_iff_mul_le c.size_pos).mpr h
    · rw [min_eq_right h, min_eq_right]
      exact Nat.div_le_of_le_mul (by rwa [Nat.mul_comm])
  refine ext_getElem (by simp [hlen]) fun j h₁ h₂ => ?_
  rw [getElem_take, getElem_decode, getElem_decode]
  have hj : j < i := by
    rw [length_take] at h₂
    omega
  have hle : j * c.size + c.size ≤ i * c.size := by
    calc j * c.size + c.size = (j + 1) * c.size := (succ_mul _ _).symm
      _ ≤ i * c.size := mul_le_mul_right _ hj
  rw [drop_take, take_take, min_eq_left (by omega)]

/-- **Appending to a file of complete records** appends the denoted lists. -/
theorem decode_append {file : Bytes} (h : c.size ∣ file.length) (rest : Bytes) :
    c.decode (file ++ rest) = c.decode file ++ c.decode rest := by
  obtain ⟨n, hn⟩ := h
  have hdiv : file.length / c.size = n := by rw [hn, Nat.mul_div_cancel_left _ c.size_pos]
  refine ext_getElem ?_ fun j h₁ h₂ => ?_
  · simp only [length_decode, length_append, hn, Nat.mul_add_div c.size_pos,
      Nat.mul_div_cancel_left _ c.size_pos]
  rw [getElem_decode, getElem_append]
  split
  case isTrue hj =>
    have hle := c.mul_size_add_le file hj
    rw [getElem_decode, drop_append_of_le_length (by omega),
      take_append_of_le_length (by rw [length_drop]; omega)]
  case isFalse hj =>
    rw [length_decode, hdiv, not_lt] at hj
    have hge : file.length ≤ j * c.size := by
      rw [hn, mul_comm]
      exact mul_le_mul_right _ hj
    have hsub : j * c.size - file.length = (j - n) * c.size := by
      rw [hn, Nat.sub_mul, Nat.mul_comm c.size n]
    rw [getElem_decode, drop_append, drop_of_length_le hge, nil_append, hsub]
    simp only [length_decode, hdiv]

/-- **Appending a record.** -/
theorem decode_append_enc {file : Bytes} (h : c.size ∣ file.length) (a : α) :
    c.decode (file ++ c.enc a) = c.decode file ++ [a] := by
  have hone : c.decode (c.enc a) = [a] := by
    simp [decode, c.length_enc, Nat.div_self c.size_pos, c.dec_enc, take_of_length_le]
  rw [c.decode_append h, hone]

/-- Dropping the bytes that do not fill a record changes nothing. -/
theorem decode_take_complete :
    c.decode (file.take (file.length / c.size * c.size)) = c.decode file := by
  rw [decode_take, take_of_length_le (by simp)]

/-- The length of a file of complete records. -/
theorem length_eq_of_dvd {file : Bytes} (h : c.size ∣ file.length) :
    file.length = (c.decode file).length * c.size := by
  rw [length_decode, Nat.div_mul_cancel h]

end Codec

end Records
