import Proton.IO.PrefixTreeEncode

/-!
# The End of a Prefix Scan

`keyPrefixEnd` turns a key prefix into the bound a scan of the keys with that prefix stops at.
It adds one to the last byte and carries to the left, and cuts the string behind the byte that
took the carry.

A prefix of `0xff` bytes has no such byte: the carry turns it into a string of zero bytes,
which is returned although it is below the prefix itself. The position the loop starts from
is an `int32_t`, so a prefix of more than two gigabytes is only carried through up to a
position before its end. Both show in the condition of `isPrefix_iff_lt_keyPrefixEnd`, which
is exact.
-/

open List

namespace Proton.PrefixTreeEncode

open ByteReader OrderedBytes

/-! ### The carry -/

/-- `KEY_MAX`. -/
def keyMax : Bytes := [0xff, 0xff]

/-- The loop of `keyPrefixEnd`, which runs from the back: a byte is reached when all bytes
behind it have wrapped to zero, and the string ends behind the first one that has not. -/
def carry : Bytes → Option Bytes
  | [] => none
  | byte :: bytes =>
    match carry bytes with
    | some carried => some (byte :: carried)
    | none => if byte + 1 ≠ 0 then some [byte + 1] else none

/-- The number of bytes the loop can reach, from its start at
`static_cast<int32_t>(prefix.size()) - 1`. -/
def reached (key : Bytes) : ℕ := (Word.int32.wrap (key.length - 1) + 1).toNat

/-- `keyPrefixEnd`. When the loop runs to its end, each byte it passed was incremented. -/
def keyPrefixEnd (key : Bytes) : Bytes :=
  if key = [] then keyMax
  else
    match carry (key.take (reached key)) with
    | some carried => carried
    | none => (key.take (reached key)).map (· + 1) ++ key.drop (reached key)

/-- Only the last byte overflows. -/
theorem add_one_eq_zero_iff (byte : UInt8) : byte + 1 = 0 ↔ byte = 0xff := by
  constructor
  · intro h
    have hback : byte + 1 - 1 = 0 - 1 := congrArg (· - 1) h
    rwa [UInt8.add_sub_cancel] at hback
  · rintro rfl
    rfl

/-- Below the largest byte, nothing is between a byte and the next. -/
theorem lt_add_one_iff {byte other : UInt8} (h : byte ≠ 0xff) :
    other < byte + 1 ↔ other ≤ byte := by
  have hlt := byte.toNat_lt
  have hne : byte.toNat ≠ 255 := fun heq => h (UInt8.toNat_inj.1 heq)
  rw [UInt8.lt_iff_toNat_lt, UInt8.le_iff_toNat_le, UInt8.toNat_add]
  simp only [UInt8.reduceToNat]
  omega

theorem le_max (byte : UInt8) : byte ≤ 0xff := by
  have hlt := byte.toNat_lt
  rw [UInt8.le_iff_toNat_le]
  simp only [UInt8.reduceToNat]
  omega

/-- The carry runs through the largest bytes. -/
theorem carry_replicate (n : ℕ) : carry (List.replicate n 0xff) = none := by
  induction n with
  | zero => rfl
  | succ n ih =>
    rw [replicate_succ, carry, ih]
    rfl

/-- The carry stops at the last byte that is not the largest one. -/
theorem carry_append {byte : UInt8} (h : byte ≠ 0xff) (front : Bytes) (n : ℕ) :
    carry (front ++ byte :: replicate n 0xff) = some (front ++ [byte + 1]) := by
  induction front with
  | nil =>
    rw [nil_append, carry, carry_replicate]
    exact if_pos fun hzero => h ((add_one_eq_zero_iff byte).1 hzero)
  | cons first front ih =>
    rw [cons_append, carry, ih]
    rfl

/-- A string is all largest bytes, or has a last byte that is not. -/
theorem all_max_or_split (key : Bytes) :
    key = replicate key.length 0xff ∨
      ∃ front byte n, byte ≠ 0xff ∧ key = front ++ byte :: replicate n 0xff := by
  induction key with
  | nil => exact .inl rfl
  | cons first key ih =>
    rcases ih with hall | ⟨front, byte, n, hbyte, rfl⟩
    · by_cases hfirst : first = 0xff
      · left
        rw [length_cons, replicate_succ, hfirst, ← hall]
      · exact .inr ⟨[], first, key.length, hfirst, by rw [nil_append, ← hall]⟩
    · exact .inr ⟨first :: front, byte, n, hbyte, rfl⟩

/-! ### The bound -/

/-- Byte strings are ordered by their first bytes first. -/
theorem cons_le_cons (a b : UInt8) (u v : Bytes) : a :: u ≤ b :: v ↔ a < b ∨ a = b ∧ u ≤ v := by
  rw [← not_lt, cons_lt_cons_iff]
  rcases lt_trichotomy a b with hlt | rfl | hgt
  · simp [hlt, lt_asymm hlt, hlt.ne']
  · simp
  · simp [hgt, lt_asymm hgt, hgt.ne']

/-- A run of largest bytes is a lower bound of the strings that start with it only. -/
theorem isPrefix_replicate_iff (n : ℕ) (key : Bytes) :
    replicate n 0xff <+: key ↔ replicate n 0xff ≤ key := by
  induction n generalizing key with
  | zero => exact iff_of_true nil_prefix (not_lt.1 (not_lt_nil key))
  | succ n ih =>
    rw [replicate_succ]
    cases key with
    | nil => simp
    | cons byte key =>
      rw [cons_prefix_cons, ih, cons_le_cons]
      constructor
      · rintro ⟨heq, hle⟩
        exact .inr ⟨heq, hle⟩
      · rintro (hlt | ⟨heq, hle⟩)
        · exact absurd (le_max byte) (not_le.2 hlt)
        · exact ⟨heq, hle⟩

/-- The strings from a prefix up to its carry are those that start with it. -/
theorem isPrefix_iff_of_carry {byte : UInt8} (hbyte : byte ≠ 0xff) (front : Bytes) (n : ℕ)
    (key : Bytes) : front ++ byte :: replicate n 0xff <+: key ↔
      front ++ byte :: replicate n 0xff ≤ key ∧ key < front ++ [byte + 1] := by
  induction front generalizing key with
  | nil =>
    cases key with
    | nil => simp
    | cons first key =>
      rw [nil_append, nil_append, cons_prefix_cons, isPrefix_replicate_iff,
        cons_le_cons, cons_lt_cons_iff, lt_add_one_iff hbyte]
      constructor
      · rintro ⟨rfl, hle⟩
        exact ⟨.inr ⟨rfl, hle⟩, .inl (le_refl _)⟩
      · rintro ⟨hlow, hhigh⟩
        have hle : first ≤ byte := hhigh.resolve_right fun h => not_lt_nil _ h.2
        rcases hlow with hlt | ⟨rfl, htail⟩
        · exact absurd hle (not_le.2 hlt)
        · exact ⟨rfl, htail⟩
  | cons first front ih =>
    cases key with
    | nil => simp
    | cons other key =>
      rw [cons_append, cons_append, cons_prefix_cons, ih, cons_le_cons, cons_lt_cons_iff]
      constructor
      · rintro ⟨rfl, hle, hlt⟩
        exact ⟨.inr ⟨rfl, hle⟩, .inr ⟨rfl, hlt⟩⟩
      · rintro ⟨hlow, hhigh⟩
        rcases hlow with hlt | ⟨rfl, hle⟩
        · rcases hhigh with hgt | ⟨rfl, -⟩
          · exact absurd hgt (lt_asymm hlt)
          · exact absurd hlt (lt_irrefl _)
        · exact ⟨rfl, hle, (hhigh.resolve_left (lt_irrefl _)).2⟩

/-- The largest string of a length. -/
theorem le_replicate_max (key : Bytes) : key ≤ List.replicate key.length 0xff := by
  induction key with
  | nil => exact le_refl _
  | cons byte key ih =>
    rw [length_cons, replicate_succ, cons_le_cons]
    rcases (le_max byte).lt_or_eq with hlt | heq
    · exact .inl hlt
    · exact .inr ⟨heq, ih⟩

/-- Where the carry runs through, the prefix itself is not below the bound. -/
theorem not_lt_keyPrefixEnd {start : Bytes} (hne : start ≠ []) {n : ℕ}
    (hall : start.take (reached start) = replicate n 0xff) : ¬ start < keyPrefixEnd start := by
  rw [keyPrefixEnd, if_neg hne, hall, carry_replicate]
  have hstart : start = replicate n 0xff ++ start.drop (reached start) := by
    rw [← hall, take_append_drop]
  cases n with
  | zero =>
    rw [replicate_zero, nil_append] at hstart
    rw [← hstart]
    exact lt_irrefl start
  | succ n =>
    rw [hstart]
    show ¬ (0xff :: _ : Bytes) < 0x00 :: _
    rw [cons_lt_cons_iff]
    rintro (hlt | ⟨heq, -⟩)
    · exact absurd hlt (by decide)
    · exact absurd heq (by decide)

/-- **The bound of a prefix scan.** The strings between a prefix and its end are exactly those
that start with it, if and only if the carry can stop: the bytes the loop reaches are not all
`0xff`, and the bytes it does not reach are. -/
theorem isPrefix_iff_lt_keyPrefixEnd {start : Bytes} (hne : start ≠ []) :
    (∀ key, start <+: key ↔ start ≤ key ∧ key < keyPrefixEnd start) ↔
      (∃ byte ∈ start.take (reached start), byte ≠ 0xff) ∧
        ∀ byte ∈ start.drop (reached start), byte = 0xff := by
  have hstart := take_append_drop (reached start) start
  rcases all_max_or_split (start.take (reached start)) with hall | ⟨front, byte, n, hbyte, hsplit⟩
  · refine iff_of_false (fun hexact => ?_) ?_
    · exact not_lt_keyPrefixEnd hne hall ((hexact start).1 (prefix_refl start)).2
    · rintro ⟨⟨byte, hmem, hbyte⟩, -⟩
      rw [hall] at hmem
      exact hbyte (eq_of_mem_replicate hmem)
  · have hend : keyPrefixEnd start = front ++ [byte + 1] := by
      rw [keyPrefixEnd, if_neg hne, hsplit, carry_append hbyte]
    rw [hend]
    have hmem : byte ∈ start.take (reached start) := by
      rw [hsplit]
      exact mem_append_right _ mem_cons_self
    constructor
    · intro hexact
      refine ⟨⟨byte, hmem, hbyte⟩, ?_⟩
      -- the largest key of the same length that agrees on the bytes the loop reaches
      have hlow : start ≤ start.take (reached start) ++
          replicate (start.drop (reached start)).length 0xff := by
        conv_lhs => rw [← hstart]
        rw [← not_lt, append_lt_append_left_iff, not_lt]
        exact le_replicate_max _
      have hhigh := ((isPrefix_iff_of_carry hbyte front n _).1 (prefix_append _
        (replicate (start.drop (reached start)).length 0xff))).2
      rw [← hsplit] at hhigh
      have heq := ((hexact _).2 ⟨hlow, hhigh⟩).eq_of_length (by
        conv_lhs => rw [← hstart]
        simp only [length_append, length_replicate])
      intro other hother
      rw [← append_cancel_left (hstart.trans heq).symm] at hother
      exact eq_of_mem_replicate hother
    · rintro ⟨-, hrest⟩ key
      have hwhole : start = front ++ byte ::
          replicate (n + (start.drop (reached start)).length) 0xff := by
        conv_lhs => rw [← hstart]
        rw [hsplit, eq_replicate_of_mem hrest, append_assoc, cons_append,
          ← replicate_add, length_replicate]
      conv_lhs => rw [hwhole]
      rw [isPrefix_iff_of_carry hbyte, ← hwhole]

/-- A prefix whose last byte is the largest one carries. -/
theorem isPrefix_iff_lt_keyPrefixEnd_carry :
    ([0x12, 0xff] : Bytes) ≠ [] ∧
      ∀ key, [0x12, 0xff] <+: key ↔ [0x12, 0xff] ≤ key ∧ key < keyPrefixEnd [0x12, 0xff] := by
  have hreached : reached [0x12, 0xff] = 2 := rfl
  refine ⟨cons_ne_nil _ _, (isPrefix_iff_lt_keyPrefixEnd (cons_ne_nil _ _)).2 ⟨?_, ?_⟩⟩
  · exact ⟨0x12, mem_cons_self, by decide⟩
  · exact nofun

/-- The end of the prefix `0xff` is the zero byte, and the key `0xff` is not below it. -/
theorem keyPrefixEnd_max : keyPrefixEnd [0xff] = [0x00] ∧
    ¬ ∀ key, [0xff] <+: key ↔ [0xff] ≤ key ∧ key < keyPrefixEnd [0xff] := by
  refine ⟨by decide, fun hexact => ?_⟩
  exact absurd ((hexact [0xff]).1 (prefix_refl _)).2 (by decide)

end Proton.PrefixTreeEncode
