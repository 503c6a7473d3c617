import Mathlib.Data.UInt
import Mathlib.Tactic.Linarith
import Mathlib.Tactic.LinearCombination
import Mathlib.Tactic.Positivity
import Mathlib.Tactic.Ring

/-!
# Byte Strings that Sort like their Values

Encodings that are concatenated have to be ordered whatever follows them, so plain
lexicographic order of the encodings is not enough. The notion that composes is `Before u v`:
the two strings first differ at a position both of them have, and `u` has the smaller element
there. It implies the lexicographic order of all extensions (`Before.lt_append`), and an
encoder that takes a strict order to `Before` may be followed by anything
(`OrderEncoding.lt_append_iff`).

The module also has the big-endian low bytes of an integer (`lowBytes`), which are ordered
like the residues (`before_lowBytes`) and read back by `ofBytes`, and the ones' complement of
a byte string, which reverses `Before` (`Before.complement`).
-/

/-- Bytes are ordered by their value. -/
instance linearOrderUInt8 : LinearOrder UInt8 where
  le_refl a := UInt8.le_refl a
  le_trans a b c := UInt8.le_trans
  le_antisymm a b := UInt8.le_antisymm
  le_total a b := UInt8.le_total a b
  lt_iff_le_not_ge a b := by
    rw [UInt8.lt_iff_toNat_lt, UInt8.le_iff_toNat_le, UInt8.le_iff_toNat_le]
    omega
  toDecidableLE := inferInstance
  toDecidableEq := inferInstance
  toDecidableLT := inferInstance

open List Int UInt8

namespace OrderedBytes

variable {α β : Type*}

/-! ### First differences -/

/-- `u` and `v` first differ at a position of both, where `u` is smaller. -/
def Before [LT β] (u v : List β) : Prop :=
  ∃ p a b u' v', u = p ++ a :: u' ∧ v = p ++ b :: v' ∧ a < b

section Before

variable [LT β] {u v : List β} {a b : β}

/-- A smaller first symbol decides. -/
theorem Before.of_lt (h : a < b) (u v : List β) : Before (a :: u) (b :: v) :=
  ⟨[], a, b, u, v, rfl, rfl, h⟩

variable (h : Before u v)
include h

/-- Equal first symbols do not decide. -/
theorem Before.cons (a : β) : Before (a :: u) (a :: v) := by
  obtain ⟨q, b, c, u', v', rfl, rfl, hlt⟩ := h
  exact ⟨a :: q, b, c, u', v', rfl, rfl, hlt⟩

/-- What is decided stays so with further symbols. -/
theorem Before.append_right (s t : List β) : Before (u ++ s) (v ++ t) := by
  obtain ⟨q, a, b, u', v', rfl, rfl, hlt⟩ := h
  exact ⟨q, a, b, u' ++ s, v' ++ t, by simp, by simp, hlt⟩

/-- What first differs is ordered. -/
theorem Before.lt : u < v := by
  obtain ⟨q, a, b, u', v', rfl, rfl, hlt⟩ := h
  induction q with
  | nil => exact List.Lex.rel hlt
  | cons c q ih => exact List.Lex.cons ih

/-- The order of what first differs does not depend on what follows. -/
theorem Before.lt_append (s t : List β) : u ++ s < v ++ t :=
  (h.append_right s t).lt

end Before

/-! ### Order encodings -/

/-- An encoder that takes the strict order of its values to `Before`. -/
def OrderEncoding [LT β] (lt : α → α → Prop) (encode : α → List β) : Prop :=
  ∀ x y, lt x y → Before (encode x) (encode y)

/-- Equal beginnings do not matter. -/
theorem append_lt_append_left_iff [LT β] [Std.Irrefl (α := β) (· < ·)] (p s t : List β) :
    p ++ s < p ++ t ↔ s < t := by
  induction p with
  | nil => rfl
  | cons a p ih =>
    rw [cons_append, cons_append, cons_lt_cons_iff, ih]
    simp [Std.Irrefl.irrefl (r := (· < ·)) a]

/-- **Concatenation.** The order of an encoded value followed by anything is the order of
the value and then of what follows. -/
theorem OrderEncoding.lt_append_iff [LT β] [Std.Asymm (α := β) (· < ·)] {lt : α → α → Prop}
    {encode : α → List β} (h : OrderEncoding lt encode) (htri : ∀ x y, lt x y ∨ x = y ∨ lt y x)
    (hirr : ∀ x, ¬ lt x x) (x y : α) (s t : List β) :
    encode x ++ s < encode y ++ t ↔ lt x y ∨ (x = y ∧ s < t) := by
  rcases htri x y with hlt | rfl | hgt
  · exact iff_of_true ((h x y hlt).lt_append s t) (.inl hlt)
  · rw [append_lt_append_left_iff]
    simp [hirr x]
  · have hrev := (h y x hgt).lt_append t s
    refine iff_of_false (List.lt_asymm hrev) ?_
    rintro (hlt | ⟨rfl, -⟩)
    · exact List.lt_asymm hrev ((h x y hlt).lt_append s t)
    · exact hirr x hgt

/-! ### Low bytes -/

/-- The byte at position `j` of the two's complement of `n`. -/
def byteAt (n : ℤ) (j : ℕ) : UInt8 := UInt8.ofNat (n / 256 ^ j % 256).toNat

/-- The low `k` bytes of `n`, the most significant first. -/
def lowBytes (n : ℤ) : ℕ → List UInt8
  | 0 => []
  | k + 1 => byteAt n k :: lowBytes n k

variable (bytes : List UInt8)

/-- The number a string of bytes spells, the most significant first. -/
def ofBytes : ℕ := bytes.foldl (fun v byte => v * 256 + byte.toNat) 0

@[simp] theorem length_lowBytes (n : ℤ) (k : ℕ) : (lowBytes n k).length = k := by
  induction k with
  | zero => rfl
  | succ k ih => rw [lowBytes, length_cons, ih]

/-- The byte at a position is a digit to the base 256. -/
theorem toNat_byteAt (n : ℤ) (j : ℕ) : ((byteAt n j).toNat : ℤ) = n / 256 ^ j % 256 := by
  have hlow := emod_nonneg (n / 256 ^ j) (by decide : (256 : ℤ) ≠ 0)
  rw [byteAt, toNat_ofNat', Nat.mod_eq_of_lt (by omega), toNat_of_nonneg hlow]

/-- The residue modulo `256 ^ (k + 1)` in terms of its top byte. -/
theorem emod_pow_succ (n : ℤ) (k : ℕ) :
    n % 256 ^ (k + 1) = n / 256 ^ k % 256 * 256 ^ k + n % 256 ^ k := by
  have hpos : (0 : ℤ) < 256 ^ k := by positivity
  have hquot := emod_add_mul_ediv (n / 256 ^ k) 256
  have hn := emod_add_mul_ediv n (256 ^ k)
  have hlow := emod_nonneg n hpos.ne'
  have hhigh := emod_lt_of_pos n hpos
  have hbyte := emod_nonneg (n / 256 ^ k) (by decide : (256 : ℤ) ≠ 0)
  have hbyte' := emod_lt_of_pos (n / 256 ^ k) (by decide : (0 : ℤ) < 256)
  have hsplit : n = n / 256 ^ k % 256 * 256 ^ k + n % 256 ^ k +
      256 ^ (k + 1) * (n / 256 ^ k / 256) := by
    linear_combination -hn - 256 ^ k * hquot
  conv_lhs => rw [hsplit]
  rw [add_mul_emod_self_left, emod_eq_of_lt]
  · positivity
  · rw [pow_succ]
    nlinarith

/-- **The low bytes sort like the residues.** -/
theorem before_lowBytes {n m : ℤ} {k : ℕ} (h : n % 256 ^ k < m % 256 ^ k) :
    Before (lowBytes n k) (lowBytes m k) := by
  induction k with
  | zero => simp at h
  | succ k ih =>
    have hpos : (0 : ℤ) < 256 ^ k := by positivity
    have hlow := emod_nonneg n hpos.ne'
    have hhigh := emod_lt_of_pos m hpos
    rw [emod_pow_succ, emod_pow_succ, ← toNat_byteAt, ← toNat_byteAt] at h
    rw [lowBytes]
    rcases lt_trichotomy (byteAt n k).toNat (byteAt m k).toNat with hlt | heq | hgt
    · exact .of_lt (lt_iff_toNat_lt.2 hlt) _ _
    · rw [UInt8.toNat_inj.1 heq]
      refine (ih ?_).cons _
      rw [heq] at h
      omega
    · -- a larger top byte makes the residue larger
      have hstep : ((byteAt m k).toNat + 1 : ℤ) * 256 ^ k ≤ (byteAt n k).toNat * 256 ^ k :=
        mul_le_mul_of_nonneg_right (by omega) hpos.le
      linarith

/-- Reading further bytes behind a number. -/
theorem foldl_ofBytes (v : ℕ) :
    bytes.foldl (fun v byte => v * 256 + byte.toNat) v =
      v * 256 ^ bytes.length + ofBytes bytes := by
  induction bytes generalizing v with
  | nil => simp [ofBytes]
  | cons byte bytes ih =>
    have hfirst : ofBytes (byte :: bytes) = byte.toNat * 256 ^ bytes.length + ofBytes bytes := by
      rw [ofBytes, foldl_cons, ih, Nat.zero_add]
    rw [foldl_cons, ih, hfirst, length_cons]
    ring

/-- The first byte is the highest digit. -/
theorem ofBytes_cons (byte : UInt8) (bytes : List UInt8) :
    ofBytes (byte :: bytes) = byte.toNat * 256 ^ bytes.length + ofBytes bytes := by
  rw [ofBytes, foldl_cons, foldl_ofBytes, Nat.zero_add]

/-- The low bytes spell the residue. -/
theorem ofBytes_lowBytes (n : ℤ) (k : ℕ) : (ofBytes (lowBytes n k) : ℤ) = n % 256 ^ k := by
  induction k with
  | zero => simp [lowBytes, ofBytes]
  | succ k ih =>
    rw [lowBytes, ofBytes_cons, length_lowBytes, emod_pow_succ, ← ih, ← toNat_byteAt]
    push_cast
    ring

/-! ### Ones' complement -/

/-- The ones' complement of every byte. -/
def complement : List UInt8 := bytes.map (~~~ ·)

@[simp] theorem length_complement :
    (complement bytes).length = bytes.length := length_map _

@[simp] theorem complement_complement : complement (complement bytes) = bytes := by
  simp [complement, Function.comp_def]

/-- A number and its complement add up to the last number of that many bytes. -/
theorem ofBytes_complement :
    ofBytes (complement bytes) + ofBytes bytes + 1 = 256 ^ bytes.length := by
  induction bytes with
  | nil => rfl
  | cons byte bytes ih =>
    have hbyte : (~~~byte).toNat + byte.toNat = 255 := by
      have hlt := byte.toNat_lt
      rw [toNat_not]
      simp only [size]
      omega
    have hsum : complement (byte :: bytes) = ~~~byte :: complement bytes := rfl
    rw [hsum, ofBytes_cons, ofBytes_cons, length_complement, length_cons, pow_succ, ← ih]
    have hscaled := congrArg (· * 256 ^ bytes.length) hbyte
    simp only [← ih] at hscaled
    linarith

/-- The ones' complement reverses the order. -/
theorem Before.complement {u v : List UInt8} (h : Before u v) :
    Before (complement v) (complement u) := by
  obtain ⟨p, a, b, u', v', rfl, rfl, hlt⟩ := h
  refine ⟨OrderedBytes.complement p, ~~~b, ~~~a, OrderedBytes.complement v',
    OrderedBytes.complement u', by simp [OrderedBytes.complement],
    by simp [OrderedBytes.complement], ?_⟩
  have ha := a.toNat_lt
  have hb := b.toNat_lt
  rw [lt_iff_toNat_lt] at hlt ⊢
  rw [toNat_not, toNat_not]
  simp only [size]
  omega

end OrderedBytes
