import Proton.Lib.ByteReader
import Proton.Lib.MachineWord
import Proton.Lib.OrderedBytes

/-!
# The Prefix Tree Encoding of Keys

Keys are tuples of byte strings and integers, each ascending or descending, and their
encodings are concatenated. The unsigned lexicographic order of the encoded bytes is the
order of the tuples (`PrefixTreeEncode.encode_lt_iff`), because each component encoder
tells two values apart at a byte both encodings have (`PrefixTreeEncode.orderEncoding`).

Decoding a tuple from its encoding followed by more bytes returns it, except for one check:
the integer decoders compare the number of bytes left with the length they need after
truncating it to `int32_t`. With two gigabytes behind an integer the truncated number is
negative and the decoder reports insufficient bytes
(`PrefixTreeEncode.decodeKey_encode_iff`).

`varIntLength` and `varUIntLength` read the tag without a cast to `uint8_t`. Where `char` is
signed, every tag is negative: `varUIntLength` takes each encoding for one byte, and
`varIntLength` finds the length of none (`PrefixTreeEncode.varLength_encode_iff`).
-/

open List Int Nat

namespace Proton.PrefixTreeEncode

open ByteReader OrderedBytes

/-! ### Constants -/

/-- `INT_MIN_BASE`. -/
def intMinBase : ℕ := 0x80

/-- `INT_MAX_WIDTH`. -/
def intMaxWidth : ℕ := 8

/-- `INT_ZERO`. -/
def intZero : ℕ := intMinBase + intMaxWidth

/-- `INT_MAX_BASE`. -/
def intMaxBase : ℕ := 0xfd

/-- `INT_SMALL`. -/
def intSmall : ℕ := intMaxBase - intZero - intMaxWidth

@[simp] theorem intMinBase_eq : intMinBase = 128 := rfl

@[simp] theorem intZero_eq : intZero = 136 := rfl

@[simp] theorem intSmall_eq : intSmall = 109 := rfl

/-- The bytes of the escape sequences, and the marker in front of a string. -/
structure Escapes where
  escape : UInt8
  escapedTerm : UInt8
  escaped00 : UInt8
  escapedFF : UInt8
  marker : UInt8

/-- `ASCENDING_BYTES_ESCAPES`. -/
def ascendingBytesEscapes : Escapes := ⟨0x00, 0x01, 0xff, 0x00, 0x12⟩

/-- `DESCENDING_BYTES_ESCAPES`. -/
def descendingBytesEscapes : Escapes := ⟨~~~0x00, ~~~0x01, ~~~0xff, ~~~0x00, 0x13⟩

/-- Why a decoder throws. -/
inductive DecodeError
  | missingMarker
  | missingTerminator
  | malformedEscape
  | unknownEscape
  | insufficientBytes
  | invalidLength
  | overflow
deriving DecidableEq, Repr

/-! ### Strings -/

/-- `encodeStringAscendingWithoutTerminatorOrPrefix`: a zero byte is followed by
`ESCAPED_00`. The last piece is appended as a C string, which is all of it because it has no
zero byte and the data is an owned string. -/
def encodeStringAscendingWithoutTerminatorOrPrefix : Bytes → Bytes
  | [] => []
  | byte :: data =>
    if byte = 0x00 then
      byte :: 0xff :: encodeStringAscendingWithoutTerminatorOrPrefix data
    else byte :: encodeStringAscendingWithoutTerminatorOrPrefix data

variable (data : Bytes)

/-- `encodeStringAscendingWithTerminator`. -/
def encodeStringAscendingWithTerminator : Bytes :=
  encodeStringAscendingWithoutTerminatorOrPrefix data ++ [0x00, 0x01]

/-- `encodeStringAscending`. -/
def encodeStringAscending : Bytes :=
  ascendingBytesEscapes.marker :: encodeStringAscendingWithTerminator data

/-- `encodeStringDescending`: the ascending encoding with its marker replaced and the rest
complemented. -/
def encodeStringDescending : Bytes :=
  descendingBytesEscapes.marker :: complement (encodeStringAscendingWithTerminator data)

/-- The loop of `decodeStringInternal`, which searches for the escape byte and appends what
is before it to `decoded`. -/
def decodeStringLoop (escapes : Escapes) (decoded : Bytes) :
    Bytes → Except DecodeError (Bytes × Bytes)
  | [] => .error .missingTerminator
  | [byte] => if byte = escapes.escape then .error .malformedEscape else .error .missingTerminator
  | byte :: next :: data =>
    if byte = escapes.escape then
      if next = escapes.escapedTerm then .ok (decoded, data)
      else if next ≠ escapes.escaped00 then .error .unknownEscape
      else decodeStringLoop escapes (decoded ++ [escapes.escapedFF]) data
    else decodeStringLoop escapes (decoded ++ [byte]) (next :: data)

/-- `decodeStringInternal`, from an empty `decoded`. -/
def decodeStringInternal (escapes : Escapes) : Bytes → Except DecodeError (Bytes × Bytes)
  | [] => .error .missingMarker
  | byte :: data =>
    if byte ≠ escapes.marker then .error .missingMarker else decodeStringLoop escapes [] data

/-- `decodeStringAscending`. -/
def decodeStringAscending : Except DecodeError (Bytes × Bytes) :=
  decodeStringInternal ascendingBytesEscapes data

/-- `decodeStringDescending`. -/
def decodeStringDescending : Except DecodeError (Bytes × Bytes) := do
  let decoded ← decodeStringInternal descendingBytesEscapes data
  return (complement decoded.1, decoded.2)

/-! ### Integers -/

/-- The number of bytes of the band of `n`. -/
def width (n : ℕ) : ℕ :=
  if n ≤ 0xff then 1
  else if n ≤ 0xffff then 2
  else if n ≤ 0xffffff then 3
  else if n ≤ 0xffffffff then 4
  else if n ≤ 0xffffffffff then 5
  else if n ≤ 0xffffffffffff then 6
  else if n ≤ 0xffffffffffffff then 7
  else 8

/-- `encodeVarUIntAscending`. -/
def encodeVarUIntAscending (n : ℕ) : Bytes :=
  if n ≤ intSmall then [UInt8.ofNat (intZero + n)]
  else UInt8.ofNat (intMaxBase - (8 - width n)) :: lowBytes n (width n)

/-- `encodeVarUIntDescending`: the low bytes of `~n`. -/
def encodeVarUIntDescending (n : ℕ) : Bytes :=
  if n = 0 then [UInt8.ofNat (intMinBase + 8)]
  else UInt8.ofNat (intMinBase + (8 - width n)) :: lowBytes (2 ^ 64 - 1 - n) (width n)

/-- `encodeVarIntAscending`: a negative number is in the band of its absolute value. -/
def encodeVarIntAscending (n : ℤ) : Bytes :=
  if n < 0 then
    UInt8.ofNat (intMinBase + (8 - width n.natAbs)) :: lowBytes n (width n.natAbs)
  else encodeVarUIntAscending n.toNat

/-- `encodeVarIntDescending`, the ascending encoding of `~n`. -/
def encodeVarIntDescending (n : ℤ) : Bytes := encodeVarIntAscending (-n - 1)

/-- The bounds check of the integer decoders: `static_cast<int32_t>(data.size()) < length`. -/
def tooShort (length : ℕ) : Bool := Word.int32.wrap data.length < length

/-- `decodeVarUIntAscending`. A tag below `INT_ZERO` is returned as a negative length in
`uint64_t`. -/
def decodeVarUIntAscending : Bytes → Except DecodeError (ℕ × Bytes)
  | [] => .error .insufficientBytes
  | tag :: data =>
    let length : ℤ := tag.toNat - intZero
    if length ≤ intSmall then .ok ((length % 2 ^ 64).toNat, data)
    else
      let width := (length - intSmall).toNat
      if width > 8 then .error .invalidLength
      else if tooShort data width then .error .insufficientBytes
      else .ok (ofBytes (data.take width), data.drop width)

/-- `decodeVarUIntDescending`. -/
def decodeVarUIntDescending : Bytes → Except DecodeError (ℕ × Bytes)
  | [] => .error .insufficientBytes
  | tag :: data =>
    let length : ℤ := intZero - tag.toNat
    if length < 0 ∨ length > 8 then .error .invalidLength
    else if tooShort data length.toNat then .error .insufficientBytes
    else .ok (ofBytes (complement (data.take length.toNat)), data.drop length.toNat)

/-- `decodeVarIntAscending`: the bytes of a negative number are complemented and so is the
`int64_t` they are shifted into. The number of bytes is not bounded. -/
def decodeVarIntAscending : Bytes → Except DecodeError (ℤ × Bytes)
  | [] => .error .insufficientBytes
  | tag :: data =>
    let length : ℤ := tag.toNat - intZero
    if length < 0 then
      let width := (-length).toNat
      if tooShort data width then .error .insufficientBytes
      else .ok (-Word.int64.wrap (ofBytes (complement (data.take width))) - 1, data.drop width)
    else
      match decodeVarUIntAscending (tag :: data) with
      | .error e => .error e
      | .ok (n, rest) => if n > 2 ^ 63 - 1 then .error .overflow else .ok (n, rest)

/-- `decodeVarIntDescending`. -/
def decodeVarIntDescending : Except DecodeError (ℤ × Bytes) := do
  let decoded ← decodeVarIntAscending data
  return (-decoded.1 - 1, decoded.2)

/-! ### Bands -/

variable {n m i k : ℕ}

/-- One more band in front of larger ones. -/
theorem band_bounds (h : n ≤ m) {b c f g : ℕ} (hrest : c + 1 ≤ f ∧ f ≤ g ∧ g ≤ 8) :
    c ≤ (if n ≤ b then c else f) ∧
      (if n ≤ b then c else f) ≤ (if m ≤ b then c else g) ∧ (if m ≤ b then c else g) ≤ 8 := by
  split_ifs <;> omega

/-- A larger number has no smaller band. -/
theorem width_bounds (h : n ≤ m) : 1 ≤ width n ∧ width n ≤ width m ∧ width m ≤ 8 :=
  band_bounds h <| band_bounds h <| band_bounds h <| band_bounds h <| band_bounds h <|
    band_bounds h <| band_bounds h ⟨le_rfl, le_rfl, le_rfl⟩

/-- Larger numbers do not have fewer bytes. -/
theorem width_mono (h : n ≤ m) : width n ≤ width m := (width_bounds h).2.1

/-- Every number has a byte. -/
theorem width_pos (n : ℕ) : 1 ≤ width n := (width_bounds le_rfl).1

/-- No number has more than eight bytes. -/
theorem width_le (n : ℕ) : width n ≤ 8 := (width_bounds le_rfl).2.2

/-- A `UInt64` fits its bytes. -/
theorem lt_pow_width (h : n < 2 ^ 64) : n < 256 ^ width n := by
  simp only [width]
  split_ifs <;> omega

/-- A number is its own residue in its band. -/
theorem emod_pow_width (h : n < 2 ^ 64) : (n : ℤ) % 256 ^ width n = n := by
  have hlt := lt_pow_width h
  exact emod_eq_of_lt (by omega) (by exact_mod_cast hlt)

/-- The residue of `~n` in the band of `n`. -/
theorem complement_emod_pow_width (h : n < 2 ^ 64) :
    (2 ^ 64 - 1 - n : ℤ) % 256 ^ width n = 256 ^ width n - 1 - n := by
  have hlt : (n : ℤ) < 256 ^ width n := by exact_mod_cast lt_pow_width h
  obtain ⟨k, hk⟩ : ∃ k : ℤ, (2 ^ 64 : ℤ) = 256 ^ width n + 256 ^ width n * k := by
    refine ⟨256 ^ (8 - width n) - 1, ?_⟩
    have hsplit : (256 : ℤ) ^ width n * 256 ^ (8 - width n) = 2 ^ 64 := by
      rw [← pow_add, Nat.add_sub_cancel' (width_le n)]
      rfl
    rw [← hsplit]
    ring
  rw [hk, show (256 ^ width n + 256 ^ width n * k - 1 - n : ℤ) =
    256 ^ width n - 1 - n + 256 ^ width n * k by ring, add_mul_emod_self_left]
  exact emod_eq_of_lt (by omega) (by omega)

/-- The residue of a negative number in the band of its absolute value. -/
theorem neg_emod_pow_width {n : ℤ} (hneg : n < 0) (h : n.natAbs < 2 ^ 64) :
    n % 256 ^ width n.natAbs = n + 256 ^ width n.natAbs := by
  have hlt : (n.natAbs : ℤ) < 256 ^ width n.natAbs := by exact_mod_cast lt_pow_width h
  rw [← add_mul_emod_self_left n (256 ^ width n.natAbs) 1, mul_one]
  exact emod_eq_of_lt (by omega) (by omega)

/-! ### Order -/

/-- Two tags, and what follows when they are equal. -/
theorem before_of_tag {j : ℕ} {u v : Bytes} (hle : i ≤ j) (hj : j < 256) (h : i = j → Before u v) :
    Before (UInt8.ofNat i :: u) (UInt8.ofNat j :: v) := by
  rcases hle.lt_or_eq with hlt | rfl
  · refine .of_lt ?_ u v
    rw [UInt8.lt_iff_toNat_lt, UInt8.toNat_ofNat', UInt8.toNat_ofNat',
      mod_eq_of_lt (by omega), mod_eq_of_lt hj]
    exact hlt
  · exact (h rfl).cons _

/-- A small number is in the tag. -/
theorem encodeVarUIntAscending_of_le (h : n ≤ 109) :
    encodeVarUIntAscending n = [UInt8.ofNat (136 + n)] := if_pos h

/-- A larger number follows a tag with its width. -/
theorem encodeVarUIntAscending_of_lt (h : 109 < n) :
    encodeVarUIntAscending n = UInt8.ofNat (253 - (8 - width n)) :: lowBytes n (width n) :=
  if_neg (not_le.2 h)

/-- Unsigned integers, ascending. -/
theorem before_encodeVarUIntAscending (hlt : n < m) (hm : m < 2 ^ 64) :
    Before (encodeVarUIntAscending n) (encodeVarUIntAscending m) := by
  have hle := width_le m
  have hpos := width_pos m
  have hmono := width_mono hlt.le
  by_cases hsmall : m ≤ 109
  · rw [encodeVarUIntAscending_of_le hsmall, encodeVarUIntAscending_of_le (hlt.le.trans hsmall)]
    exact before_of_tag (by omega) (by omega) (by omega)
  · rw [encodeVarUIntAscending_of_lt (not_le.1 hsmall)]
    by_cases hn : n ≤ 109
    · rw [encodeVarUIntAscending_of_le hn]
      exact before_of_tag (by omega) (by omega) (by omega)
    · rw [encodeVarUIntAscending_of_lt (not_le.1 hn)]
      refine before_of_tag (by omega) (by omega) fun heq => ?_
      have hsame : width n = width m := by omega
      rw [hsame]
      refine before_lowBytes ?_
      have hres := emod_pow_width (hlt.trans hm)
      rw [hsame] at hres
      rw [hres, emod_pow_width hm]
      exact_mod_cast hlt

/-- Unsigned integers, descending. -/
theorem before_encodeVarUIntDescending (hlt : n < m) (hm : m < 2 ^ 64) :
    Before (encodeVarUIntDescending m) (encodeVarUIntDescending n) := by
  have hle := width_le m
  have hpos := width_pos m
  have hmono := width_mono hlt.le
  simp only [encodeVarUIntDescending, intMinBase_eq]
  split_ifs with hm' hn
  · omega
  · omega
  · exact before_of_tag (by omega) (by omega) (by omega)
  · refine before_of_tag (by omega) (by omega) fun heq => ?_
    have hsame : width n = width m := by omega
    rw [hsame]
    refine before_lowBytes ?_
    have hn := complement_emod_pow_width (hlt.trans hm)
    rw [hsame] at hn
    rw [complement_emod_pow_width hm]
    omega

/-- Signed integers, ascending. -/
theorem before_encodeVarIntAscending {n m : ℤ} (hlt : n < m) (hn : -2 ^ 63 ≤ n)
    (hm : m < 2 ^ 63) : Before (encodeVarIntAscending n) (encodeVarIntAscending m) := by
  have hle := width_le n.natAbs
  have hpos := width_pos n.natAbs
  rw [encodeVarIntAscending, encodeVarIntAscending]
  split_ifs with hneg hneg'
  · have hmono : width m.natAbs ≤ width n.natAbs := width_mono (by omega)
    simp only [intMinBase_eq]
    refine before_of_tag (by omega) (by omega) fun heq => ?_
    have hsame : width n.natAbs = width m.natAbs := by
      omega
    rw [hsame]
    refine before_lowBytes ?_
    have hres := neg_emod_pow_width hneg (by omega)
    rw [hsame] at hres
    rw [neg_emod_pow_width hneg' (by omega)]
    omega
  · -- a negative tag is below `INT_ZERO`
    rw [intMinBase_eq]
    by_cases hsmall : m.toNat ≤ 109
    · rw [encodeVarUIntAscending_of_le hsmall]
      exact before_of_tag (by omega) (by omega) (by omega)
    · rw [encodeVarUIntAscending_of_lt (not_le.1 hsmall)]
      exact before_of_tag (by omega) (by omega) (by omega)
  · omega
  · exact before_encodeVarUIntAscending (by omega) (by omega)

/-- A byte other than the terminator is not escaped. -/
theorem encodeStringAscendingWithTerminator_cons {byte : UInt8} (h : byte ≠ 0x00)
    (data : Bytes) : encodeStringAscendingWithTerminator (byte :: data) =
      byte :: encodeStringAscendingWithTerminator data := by
  rw [encodeStringAscendingWithTerminator, encodeStringAscendingWithoutTerminatorOrPrefix, if_neg h]
  rfl

/-- The terminator is the smallest byte. -/
theorem pos_of_ne_zero {byte : UInt8} (h : byte ≠ 0x00) : 0x00 < byte := by
  exact Nat.pos_of_ne_zero fun h0 => h (UInt8.toNat_inj.1 h0)

/-- Byte strings, ascending: an escaped zero byte is above the terminator and below every
other byte. -/
theorem before_encodeStringAscendingWithTerminator {u v : Bytes} (h : u < v) :
    Before (encodeStringAscendingWithTerminator u) (encodeStringAscendingWithTerminator v) := by
  induction h with
  | nil =>
    case _ b v =>
    by_cases hb : b = 0x00
    · subst hb
      exact (Before.of_lt (by decide) _ _).cons _
    · rw [encodeStringAscendingWithTerminator_cons hb]
      exact .of_lt (pos_of_ne_zero hb) _ _
  | cons h ih =>
    case _ a u v =>
    by_cases ha : a = 0x00
    · subst ha
      exact (ih.cons _).cons _
    · rw [encodeStringAscendingWithTerminator_cons ha, encodeStringAscendingWithTerminator_cons ha]
      exact ih.cons _
  | rel h =>
    case _ a u b v =>
    have hb : b ≠ 0x00 := fun hb => by
      subst hb
      exact absurd (UInt8.lt_iff_toNat_lt.1 h) (not_lt_zero _)
    rw [encodeStringAscendingWithTerminator_cons hb]
    by_cases ha : a = 0x00
    · subst ha
      exact .of_lt (pos_of_ne_zero hb) _ _
    · rw [encodeStringAscendingWithTerminator_cons ha]
      exact .of_lt h _ _

/-! ### Decoding strings -/

/-- The loop decodes an encoded string under a relabelling `r` of the bytes, which is the
identity for the ascending encoding and the complement for the descending one. -/
theorem decodeStringLoop_map {r : UInt8 → UInt8} (hr : Function.Injective r) (marker : UInt8)
    (decoded data rest : Bytes) :
    decodeStringLoop ⟨r 0x00, r 0x01, r 0xff, r 0x00, marker⟩ decoded
      ((encodeStringAscendingWithTerminator data).map r ++ rest) =
        .ok (decoded ++ data.map r, rest) := by
  induction data generalizing decoded with
  | nil =>
    show decodeStringLoop _ decoded (r 0x00 :: r 0x01 :: rest) = _
    rw [decodeStringLoop, if_pos rfl, if_pos rfl, map_nil, append_nil]
  | cons byte data ih =>
    by_cases hbyte : byte = 0x00
    · subst hbyte
      show decodeStringLoop _ decoded (r 0x00 :: r 0xff ::
        ((encodeStringAscendingWithTerminator data).map r ++ rest)) = _
      have hterm : r 0xff ≠ r 0x01 := fun h => absurd (hr h) (by decide)
      rw [decodeStringLoop, if_pos rfl, if_neg hterm, ih]
      simp
    · -- a byte that is no escape is decoded as it is
      have hescape : r byte ≠ r 0x00 := fun h => hbyte (hr h)
      obtain ⟨next, coded, hcoded⟩ := exists_cons_of_ne_nil
        (show (encodeStringAscendingWithTerminator data).map r ++ rest ≠ [] by
          simp [encodeStringAscendingWithTerminator])
      rw [encodeStringAscendingWithTerminator_cons hbyte, map_cons, cons_append, hcoded,
        decodeStringLoop, if_neg hescape, ← hcoded, ih]
      simp

/-- The ascending encoding of a string is decoded. -/
theorem decodeStringAscending_encode (data rest : Bytes) :
    decodeStringAscending (encodeStringAscending data ++ rest) = .ok (data, rest) := by
  have hloop := decodeStringLoop_map Function.injective_id 0x12 [] data rest
  rw [map_id, map_id] at hloop
  exact hloop

/-- The descending encoding of a string is decoded. -/
theorem decodeStringDescending_encode (data rest : Bytes) :
    decodeStringDescending (encodeStringDescending data ++ rest) = .ok (data, rest) := by
  have hinj : Function.Injective fun byte : UInt8 => ~~~byte := fun a b h => by
    rw [← UInt8.not_not (a := a), ← UInt8.not_not (a := b)]
    exact congrArg (~~~ ·) h
  have hloop : decodeStringInternal descendingBytesEscapes (encodeStringDescending data ++ rest) =
      .ok (complement data, rest) := decodeStringLoop_map hinj 0x13 [] data rest
  rw [decodeStringDescending, hloop]
  exact congrArg (fun d => Except.ok (d, rest)) (complement_complement data)

/-! ### Decoding integers -/

/-- The number of bytes a decoder checks for: none for a value in the tag of the ascending
encodings. -/
def checkedVarUIntAscending (n : ℕ) : Option ℕ := if n ≤ intSmall then none else some (width n)

@[inherit_doc checkedVarUIntAscending]
def checkedVarUIntDescending (n : ℕ) : Option ℕ := some (if n = 0 then 0 else width n)

@[inherit_doc checkedVarUIntAscending]
def checkedVarIntAscending (n : ℤ) : Option ℕ :=
  if n < 0 then some (width n.natAbs) else checkedVarUIntAscending n.toNat

@[inherit_doc checkedVarUIntAscending]
def checkedVarIntDescending (n : ℤ) : Option ℕ := checkedVarIntAscending (-n - 1)

/-- With `behind` bytes after the integer, the truncated number of bytes left is enough. -/
def Fits (behind : ℕ) : Option ℕ → Prop
  | none => True
  | some length => (length : ℤ) ≤ Word.int32.wrap (length + behind)

instance (behind : ℕ) : (checked : Option ℕ) → Decidable (Fits behind checked)
  | none => isTrue trivial
  | some _ => inferInstanceAs (Decidable (_ ≤ _))

/-- The check of the length is passed if the bytes behind the number make up for it. -/
theorem tooShort_iff (n : ℤ) (k : ℕ) (rest : Bytes) :
    tooShort (lowBytes n k ++ rest) k = true ↔ ¬ Fits rest.length (some k) := by
  simp [tooShort, Fits]

/-- The bytes of a number in front of others. -/
theorem take_lowBytes (n : ℤ) (k : ℕ) (rest : Bytes) :
    (lowBytes n k ++ rest).take k = lowBytes n k := by
  rw [take_append_of_le_length (length_lowBytes n k).ge, take_of_length_le (length_lowBytes n k).le]

/-- The bytes behind those of a number. -/
theorem drop_lowBytes (n : ℤ) (k : ℕ) (rest : Bytes) : (lowBytes n k ++ rest).drop k = rest := by
  rw [drop_append_of_le_length (length_lowBytes n k).ge,
    drop_of_length_le (length_lowBytes n k).le, nil_append]

/-- What a decoder returns for the encoding of `value`. -/
def decoded {α : Type} (value : α) (rest : Bytes) (checked : Option ℕ) :
    Except DecodeError (α × Bytes) :=
  if Fits rest.length checked then .ok (value, rest) else .error .insufficientBytes

/-- A tag is a byte. -/
theorem toNat_tag (h : i < 256) : (UInt8.ofNat i).toNat = i := by
  rw [UInt8.toNat_ofNat', mod_eq_of_lt h]

/-- A tag for a small number is decoded without further bytes. -/
theorem decodeVarUIntAscending_small (h : n ≤ 109) (data : Bytes) :
    decodeVarUIntAscending (UInt8.ofNat (136 + n) :: data) = .ok (n, data) := by
  have hlength : ((UInt8.ofNat (136 + n)).toNat : ℤ) - intZero = n := by
    rw [toNat_tag (by omega), intZero_eq]
    omega
  simp only [decodeVarUIntAscending, hlength]
  rw [if_pos (by rw [intSmall_eq]; omega), emod_eq_of_lt (by omega) (by omega), toNat_natCast]

/-- A tag for `k` bytes reads them, after the check of the length. -/
theorem decodeVarUIntAscending_band (hpos : 1 ≤ k) (hle : k ≤ 8) (data : Bytes) :
    decodeVarUIntAscending (UInt8.ofNat (253 - (8 - k)) :: data) =
      if tooShort data k then .error .insufficientBytes
      else .ok (ofBytes (data.take k), data.drop k) := by
  have hlength : ((UInt8.ofNat (253 - (8 - k))).toNat : ℤ) - intZero = k + 109 := by
    rw [toNat_tag (by omega), intZero_eq]
    omega
  have hwidth : ((k : ℤ) + 109 - intSmall).toNat = k := by
    rw [intSmall_eq]
    omega
  simp only [decodeVarUIntAscending, hlength, hwidth]
  rw [if_neg (by rw [intSmall_eq]; omega), if_neg (by omega)]

/-- The ascending encoding is decoded if the check of the length is passed. -/
theorem decodeVarUIntAscending_encode (h : n < 2 ^ 64) (rest : Bytes) :
    decodeVarUIntAscending (encodeVarUIntAscending n ++ rest) =
      decoded n rest (checkedVarUIntAscending n) := by
  by_cases hsmall : n ≤ 109
  · have hchecked : checkedVarUIntAscending n = none := if_pos hsmall
    rw [encodeVarUIntAscending_of_le hsmall, hchecked]
    exact decodeVarUIntAscending_small hsmall rest
  · have hchecked : checkedVarUIntAscending n = some (width n) := if_neg hsmall
    have hvalue : ofBytes (lowBytes n (width n)) = n := by
      exact_mod_cast (ofBytes_lowBytes n (width n)).trans (emod_pow_width h)
    rw [encodeVarUIntAscending_of_lt (not_le.1 hsmall), hchecked, cons_append,
      decodeVarUIntAscending_band (width_pos n) (width_le n), take_lowBytes, drop_lowBytes,
      hvalue, decoded]
    simp only [tooShort_iff, ite_not]

/-- In the descending encoding, the bytes are complemented. -/
theorem decodeVarUIntDescending_band (hle : k ≤ 8) (data : Bytes) :
    decodeVarUIntDescending (UInt8.ofNat (128 + (8 - k)) :: data) =
      if tooShort data k then .error .insufficientBytes
      else .ok (ofBytes (complement (data.take k)), data.drop k) := by
  have hlength : (intZero : ℤ) - (UInt8.ofNat (128 + (8 - k))).toNat = k := by
    rw [toNat_tag (by omega), intZero_eq]
    omega
  simp only [decodeVarUIntDescending, hlength, toNat_natCast]
  rw [if_neg (by omega)]

/-- The complemented low bytes spell the complemented residue. -/
theorem ofBytes_complement_lowBytes (n : ℤ) (k : ℕ) :
    (ofBytes (complement (lowBytes n k)) : ℤ) = 256 ^ k - 1 - n % 256 ^ k := by
  have hsum := ofBytes_complement (lowBytes n k)
  rw [length_lowBytes] at hsum
  have hcast : (ofBytes (complement (lowBytes n k)) : ℤ) + ofBytes (lowBytes n k) + 1 =
      256 ^ k := by exact_mod_cast hsum
  rw [ofBytes_lowBytes] at hcast
  omega

/-- The descending encoding is decoded if the check of the length is passed. -/
theorem decodeVarUIntDescending_encode (h : n < 2 ^ 64) (rest : Bytes) :
    decodeVarUIntDescending (encodeVarUIntDescending n ++ rest) =
      decoded n rest (checkedVarUIntDescending n) := by
  have hband (k : ℕ) (m : ℤ) (hk : k ≤ 8)
      (hvalue : ofBytes (complement (lowBytes m k)) = n) :
      decodeVarUIntDescending ((UInt8.ofNat (128 + (8 - k)) :: lowBytes m k) ++ rest) =
        decoded n rest (some k) := by
    rw [cons_append, decodeVarUIntDescending_band hk, take_lowBytes, drop_lowBytes, hvalue, decoded]
    simp only [tooShort_iff, ite_not]
  rw [encodeVarUIntDescending, checkedVarUIntDescending]
  split_ifs with hzero
  · exact hband 0 0 (zero_le 8) hzero.symm
  · refine hband (width n) _ (width_le n) ?_
    have hvalue := ofBytes_complement_lowBytes (2 ^ 64 - 1 - n) (width n)
    rw [complement_emod_pow_width h] at hvalue
    omega

/-- The bytes of a negative number are complemented. -/
theorem decodeVarIntAscending_band (hpos : 1 ≤ k) (hle : k ≤ 8) (data : Bytes) :
    decodeVarIntAscending (UInt8.ofNat (128 + (8 - k)) :: data) =
      if tooShort data k then .error .insufficientBytes
      else .ok (-Word.int64.wrap (ofBytes (complement (data.take k))) - 1, data.drop k) := by
  have hlength : ((UInt8.ofNat (128 + (8 - k))).toNat : ℤ) - intZero = -k := by
    rw [toNat_tag (by omega), intZero_eq]
    omega
  simp only [decodeVarIntAscending, hlength, neg_neg, toNat_natCast]
  rw [if_pos (by omega)]

/-- A tag from `INT_ZERO` on is decoded as an unsigned integer. -/
theorem decodeVarIntAscending_tag {i : ℕ} (hlow : 136 ≤ i) (hhigh : i < 256) (data : Bytes) :
    decodeVarIntAscending (UInt8.ofNat i :: data) =
      match decodeVarUIntAscending (UInt8.ofNat i :: data) with
      | .error e => .error e
      | .ok (n, rest) => if n > 2 ^ 63 - 1 then .error .overflow else .ok (n, rest) := by
  have hlength : ¬ ((UInt8.ofNat i).toNat : ℤ) - intZero < 0 := by
    rw [toNat_tag hhigh, intZero_eq]
    omega
  simp only [decodeVarIntAscending]
  rw [if_neg hlength]

/-- The tag of a number says how many bytes follow. -/
theorem encodeVarUIntAscending_tag (n : ℕ) : ∃ i data, 136 ≤ i ∧ i ≤ 253 ∧
    data.length = i - 245 ∧ encodeVarUIntAscending n = UInt8.ofNat i :: data := by
  by_cases hsmall : n ≤ 109
  · exact ⟨136 + n, [], by omega, by omega, by simp; omega, encodeVarUIntAscending_of_le hsmall⟩
  · have hpos := width_pos n
    have hle := width_le n
    exact ⟨253 - (8 - width n), _, by omega, by omega, by rw [length_lowBytes]; omega,
      encodeVarUIntAscending_of_lt (not_le.1 hsmall)⟩

/-- The ascending encoding of an `Int64` is decoded under the same check. -/
theorem decodeVarIntAscending_encode {n : ℤ} (hlow : -2 ^ 63 ≤ n) (hhigh : n < 2 ^ 63)
    (rest : Bytes) : decodeVarIntAscending (encodeVarIntAscending n ++ rest) =
      decoded n rest (checkedVarIntAscending n) := by
  rw [encodeVarIntAscending, checkedVarIntAscending]
  split_ifs with hneg
  · have hspelled := ofBytes_complement_lowBytes n (width n.natAbs)
    rw [neg_emod_pow_width hneg (by omega)] at hspelled
    have hvalue : -Word.int64.wrap (ofBytes (complement (lowBytes n (width n.natAbs)))) - 1 =
        n := by
      rw [Word.wrap_of_mem ⟨by simp only [Word.int64]; omega, by simp only [Word.int64]; omega⟩]
      omega
    rw [cons_append, intMinBase_eq,
      decodeVarIntAscending_band (width_pos _) (width_le _), take_lowBytes, drop_lowBytes,
      hvalue, decoded]
    simp only [tooShort_iff, ite_not]
  · have hunsigned := decodeVarUIntAscending_encode (n := n.toNat) (by omega) rest
    obtain ⟨i, data, hi, hi', -, heq⟩ := encodeVarUIntAscending_tag n.toNat
    rw [heq, cons_append] at hunsigned ⊢
    rw [decodeVarIntAscending_tag hi (by omega), hunsigned, decoded, decoded]
    split_ifs with hfits
    · simp only
      rw [if_neg (by omega), toNat_of_nonneg (not_lt.1 hneg)]
    · rfl

/-- The descending encoding of an `Int64` is decoded under the same check. -/
theorem decodeVarIntDescending_encode {n : ℤ} (hlow : -2 ^ 63 ≤ n) (hhigh : n < 2 ^ 63)
    (rest : Bytes) : decodeVarIntDescending (encodeVarIntDescending n ++ rest) =
      decoded n rest (checkedVarIntDescending n) := by
  rw [decodeVarIntDescending, encodeVarIntDescending,
    decodeVarIntAscending_encode (by omega) (by omega), checkedVarIntDescending, decoded,
    decoded]
  split_ifs
  · have hback : -(-n - 1) - 1 = n := by omega
    exact congrArg (fun m => Except.ok (m, rest)) hback
  · rfl

/-! ### Lengths -/

/-- `static_cast<int32_t>(data[0])`, where `char` may be signed. -/
def charValue (signed : Bool) (byte : UInt8) : ℤ :=
  if signed ∧ 128 ≤ byte.toNat then byte.toNat - 256 else byte.toNat

/-- `varIntLength`. -/
def varIntLength (signed : Bool) : Bytes → Except DecodeError ℕ
  | [] => .error .insufficientBytes
  | tag :: data =>
    let length := charValue signed tag - intZero
    if 0 ≤ length ∧ length ≤ intSmall then .ok 1
    else
      let length := if 0 ≤ length then 1 + length - intSmall else 1 - length
      if Word.int32.wrap (data.length + 1) < length then .error .insufficientBytes
      else .ok length.toNat

/-- `varUIntLength`. -/
def varUIntLength (signed : Bool) : Bytes → Except DecodeError ℕ
  | [] => .error .insufficientBytes
  | tag :: data =>
    let length := charValue signed tag - intZero
    if length ≤ intSmall then .ok 1
    else
      let length := length - intSmall
      if 8 < length then .error .invalidLength
      else if Word.int32.wrap (data.length + 1) ≤ length then .error .insufficientBytes
      else .ok (1 + length).toNat

/-- With the bytes behind it, an encoding of several bytes is not longer than the truncated number
of bytes. -/
def LengthFits (encoded behind : Bytes) : Prop :=
  encoded.length = 1 ∨ (encoded.length : ℤ) ≤ Word.int32.wrap (encoded ++ behind).length

/-- The tag of an `Int64` says how many bytes follow. -/
theorem encodeVarIntAscending_tag (n : ℤ) : ∃ i data, 128 ≤ i ∧ i ≤ 253 ∧
    data.length = 136 - i + (i - 245) ∧ encodeVarIntAscending n = UInt8.ofNat i :: data := by
  rw [encodeVarIntAscending]
  split_ifs
  · have hpos := width_pos n.natAbs
    have hle := width_le n.natAbs
    exact ⟨_, _, by rw [intMinBase_eq]; omega, by rw [intMinBase_eq]; omega,
      by rw [length_lowBytes, intMinBase_eq]; omega, rfl⟩
  · obtain ⟨i, data, hlow, hhigh, hlength, heq⟩ := encodeVarUIntAscending_tag n.toNat
    exact ⟨i, data, by omega, hhigh, by omega, heq⟩

/-- A tag is negative as a signed `char`. -/
theorem charValue_tag {i : ℕ} (hlow : 128 ≤ i) (hhigh : i ≤ 253) (signed : Bool) :
    charValue signed (UInt8.ofNat i) = i - if signed then 256 else 0 := by
  rw [charValue, toNat_tag (by omega)]
  cases signed
  · simp
  · simp [hlow]

/-- **The lengths** of the encodings are found if and only if `char` is unsigned and the truncated
number of bytes is enough; an encoding of one byte is also found by `varUIntLength` if `char` is
signed. -/
theorem varLength_encode_iff (signed : Bool) (n : Int64) (m : UInt64) (behind : Bytes) :
    (varIntLength signed (encodeVarIntAscending n.toInt ++ behind) =
        .ok (encodeVarIntAscending n.toInt).length ↔
      signed = false ∧ LengthFits (encodeVarIntAscending n.toInt) behind) ∧
    (varUIntLength signed (encodeVarUIntAscending m.toNat ++ behind) =
        .ok (encodeVarUIntAscending m.toNat).length ↔
      if signed then (encodeVarUIntAscending m.toNat).length = 1
      else LengthFits (encodeVarUIntAscending m.toNat) behind) := by
  constructor
  · obtain ⟨i, data, hlow, hhigh, hlength, heq⟩ := encodeVarIntAscending_tag n.toInt
    rw [heq, LengthFits, cons_append, varIntLength, charValue_tag hlow hhigh]
    push_cast [length_cons, intZero_eq, intSmall_eq]
    generalize Word.int32.wrap _ = size
    cases signed with
    | false =>
      simp only [Bool.false_eq_true, if_false, sub_zero, true_and]
      by_cases hsmall : data.length = 0
      · rw [if_pos (by omega), hsmall]
        exact iff_of_true rfl (.inl rfl)
      · have hfound : (if 0 ≤ (i : ℤ) - 136 then 1 + ((i : ℤ) - 136) - 109 else 1 - (i - 136)) =
            data.length + 1 := by
          split_ifs <;> omega
        rw [if_neg (by omega), hfound]
        split_ifs
        · exact iff_of_false nofun (by omega)
        · exact iff_of_true (congrArg _ (by omega)) (by omega)
    | true =>
      -- a length of a negative tag is much too long
      simp only [if_true]
      refine iff_of_false (fun h => ?_) nofun
      split_ifs at h <;> have hlen := Except.ok.inj h <;> omega
  · obtain ⟨i, data, hlow, hhigh, hlength, heq⟩ := encodeVarUIntAscending_tag m.toNat
    rw [heq, LengthFits, cons_append, varUIntLength, charValue_tag (by omega) hhigh]
    push_cast [length_cons, intZero_eq, intSmall_eq]
    generalize Word.int32.wrap _ = size
    cases signed with
    | false =>
      simp only [Bool.false_eq_true, if_false, sub_zero]
      by_cases hsmall : data.length = 0
      · rw [if_pos (by omega), hsmall]
        exact iff_of_true rfl (.inl rfl)
      · have hfound : (i : ℤ) - 136 - 109 = data.length := by omega
        rw [if_neg (by omega), hfound, if_neg (by omega)]
        split_ifs
        · exact iff_of_false nofun (by omega)
        · exact iff_of_true (congrArg _ (by omega)) (by omega)
    | true =>
      simp only [if_true]
      rw [if_pos (by omega), Except.ok.injEq]
      omega

/-- With a signed `char`, the second byte of 110 is not counted, and the length of 0 is more than
the bytes there are. -/
theorem varLength_signed :
    varUIntLength true (encodeVarUIntAscending 110) = .ok 1 ∧
      (encodeVarUIntAscending 110).length = 2 ∧
      varIntLength true (encodeVarIntAscending 0) = .error .insufficientBytes := by
  decide

/-! ### Keys -/

/-- The types of the components of a key. -/
inductive Kind
  | string
  | varInt
  | varUInt

/-- The directions a component is ordered in. -/
inductive Direction
  | ascending
  | descending

/-- The values of a component: owned strings, `int64_t` and `uint64_t`. -/
def Kind.Value : Kind → Type
  | string => Bytes
  | varInt => { n : ℤ // -2 ^ 63 ≤ n ∧ n < 2 ^ 63 }
  | varUInt => { n : ℕ // n < 2 ^ 64 }

/-- The order of the values. -/
def Kind.Lt : (kind : Kind) → kind.Value → kind.Value → Prop
  | string, u, v => List.Lex (· < ·) (u : Bytes) v
  | varInt, n, m => n.1 < m.1
  | varUInt, n, m => n.1 < m.1

/-- A component of a key: its type and its direction. -/
structure Component where
  kind : Kind
  direction : Direction

/-- The order of a component, in its direction. -/
def Component.Lt : (c : Component) → c.kind.Value → c.kind.Value → Prop
  | ⟨kind, .ascending⟩, v, w => kind.Lt v w
  | ⟨kind, .descending⟩, v, w => kind.Lt w v

/-- The encoder of a component. -/
def Component.encode : (c : Component) → c.kind.Value → Bytes
  | ⟨.string, .ascending⟩, data => encodeStringAscending data
  | ⟨.string, .descending⟩, data => encodeStringDescending data
  | ⟨.varInt, .ascending⟩, n => encodeVarIntAscending n.1
  | ⟨.varInt, .descending⟩, n => encodeVarIntDescending n.1
  | ⟨.varUInt, .ascending⟩, n => encodeVarUIntAscending n.1
  | ⟨.varUInt, .descending⟩, n => encodeVarUIntDescending n.1

/-- The number of bytes the decoder of a component checks for. -/
def Component.checked : (c : Component) → c.kind.Value → Option ℕ
  | ⟨.string, _⟩, _ => none
  | ⟨.varInt, .ascending⟩, n => checkedVarIntAscending n.1
  | ⟨.varInt, .descending⟩, n => checkedVarIntDescending n.1
  | ⟨.varUInt, .ascending⟩, n => checkedVarUIntAscending n.1
  | ⟨.varUInt, .descending⟩, n => checkedVarUIntDescending n.1

/-- The value a component decoder returns, as the plain type of the source. -/
def Kind.Plain : Kind → Type
  | string => Bytes
  | varInt => ℤ
  | varUInt => ℕ

/-- A value as the source sees it. -/
def Kind.Value.plain : {kind : Kind} → kind.Value → kind.Plain
  | .string, data => data
  | .varInt, n => n.1
  | .varUInt, n => n.1

/-- The decoder of a component. -/
def Component.decode : (c : Component) → Bytes → Except DecodeError (c.kind.Plain × Bytes)
  | ⟨.string, .ascending⟩, data => decodeStringAscending data
  | ⟨.string, .descending⟩, data => decodeStringDescending data
  | ⟨.varInt, .ascending⟩, data => decodeVarIntAscending data
  | ⟨.varInt, .descending⟩, data => decodeVarIntDescending data
  | ⟨.varUInt, .ascending⟩, data => decodeVarUIntAscending data
  | ⟨.varUInt, .descending⟩, data => decodeVarUIntDescending data

/-- The keys of a shape. -/
def Key : List Component → Type
  | [] => Unit
  | c :: shape => c.kind.Value × Key shape

/-- The component-wise order of keys. -/
def Key.Lt : {shape : List Component} → Key shape → Key shape → Prop
  | [], _, _ => False
  | c :: _, (v, a), (w, b) => c.Lt v w ∨ (v = w ∧ Key.Lt a b)

/-- The concatenated encodings of the components. -/
def Key.encode : {shape : List Component} → Key shape → Bytes
  | [], _ => []
  | c :: _, (v, a) => c.encode v ++ Key.encode a

/-- Decoded keys. -/
def PlainKey : List Component → Type
  | [] => Unit
  | c :: shape => c.kind.Plain × PlainKey shape

/-- A key as the source sees it. -/
def Key.plain : {shape : List Component} → Key shape → PlainKey shape
  | [], _ => ()
  | _ :: _, (v, a) => (v.plain, Key.plain a)

/-- Decoding the components one after another. -/
def decodeKey : (shape : List Component) → Bytes → Except DecodeError (PlainKey shape × Bytes)
  | [], data => .ok ((), data)
  | c :: shape, data =>
    match c.decode data with
    | .error e => .error e
    | .ok (v, rest) =>
      match decodeKey shape rest with
      | .error e => .error e
      | .ok (a, rest) => .ok ((v, a), rest)

/-- At every integer of the key, the truncated number of bytes left is enough; `behind` is
the number of bytes after the key. -/
def Key.LengthsFit (behind : ℕ) : {shape : List Component} → Key shape → Prop
  | [], _ => True
  | c :: _, (v, a) => Fits ((Key.encode a).length + behind) (c.checked v) ∧ Key.LengthsFit behind a

/-! ### The order of keys -/

/-- The values of a kind are totally ordered. -/
theorem Kind.lt_trichotomy (kind : Kind) (v w : kind.Value) :
    kind.Lt v w ∨ v = w ∨ kind.Lt w v := by
  cases kind with
  | string => exact trichotomous_of (List.Lex (α := UInt8) (· < ·)) v w
  | varInt =>
    rcases Int.lt_trichotomy v.1 w.1 with h | h | h
    · exact .inl h
    · exact .inr (.inl (Subtype.ext h))
    · exact .inr (.inr h)
  | varUInt =>
    rcases Nat.lt_trichotomy v.1 w.1 with h | h | h
    · exact .inl h
    · exact .inr (.inl (Subtype.ext h))
    · exact .inr (.inr h)

/-- The order of a kind is strict. -/
theorem Kind.lt_irrefl (kind : Kind) (v : kind.Value) : ¬ kind.Lt v v := by
  cases kind with
  | string => exact fun h => List.lt_asymm (α := UInt8) h h
  | varInt => exact Int.lt_irrefl _
  | varUInt => exact Nat.lt_irrefl _

/-- **Every component encoder is an order encoding.** -/
theorem orderEncoding (c : Component) : OrderEncoding c.Lt c.encode := by
  intro v w h
  obtain ⟨kind, direction⟩ := c
  cases kind <;> cases direction
  · exact (before_encodeStringAscendingWithTerminator h).cons _
  · exact (before_encodeStringAscendingWithTerminator h).complement.cons _
  · exact before_encodeVarIntAscending h v.2.1 w.2.2
  · have hlt : w.1 < v.1 := h
    have hv := v.2.2
    have hw := w.2.1
    exact before_encodeVarIntAscending (by omega) (by omega) (by omega)
  · exact before_encodeVarUIntAscending h w.2
  · exact before_encodeVarUIntDescending h v.2

/-- The values of a component are totally ordered, in either direction. -/
theorem Component.lt_trichotomy (c : Component) (v w : c.kind.Value) :
    c.Lt v w ∨ v = w ∨ c.Lt w v := by
  obtain ⟨kind, direction⟩ := c
  cases direction with
  | ascending => exact kind.lt_trichotomy v w
  | descending => exact (kind.lt_trichotomy w v).imp_right (.imp_left Eq.symm)

/-- The order of a component is strict. -/
theorem Component.lt_irrefl (c : Component) (v : c.kind.Value) : ¬ c.Lt v v := by
  obtain ⟨kind, direction⟩ := c
  cases direction <;> exact kind.lt_irrefl v

/-- **The encoded keys sort like the keys.** -/
theorem encode_lt_iff {shape : List Component} (a b : Key shape) :
    a.encode < b.encode ↔ a.Lt b := by
  induction shape with
  | nil => exact iff_of_false not_lex_nil id
  | cons c shape ih =>
    obtain ⟨v, a⟩ := a
    obtain ⟨w, b⟩ := b
    rw [Key.encode, Key.encode, (orderEncoding c).lt_append_iff c.lt_trichotomy c.lt_irrefl,
      ih, Key.Lt]

/-! ### Decoding keys -/

/-- A component is decoded if its own check of the length is passed. -/
theorem Component.decode_encode (c : Component) (v : c.kind.Value) (rest : Bytes) :
    c.decode (c.encode v ++ rest) = decoded v.plain rest (c.checked v) := by
  obtain ⟨kind, direction⟩ := c
  cases kind <;> cases direction
  · exact decodeStringAscending_encode v rest
  · exact decodeStringDescending_encode v rest
  · exact decodeVarIntAscending_encode v.2.1 v.2.2 rest
  · exact decodeVarIntDescending_encode v.2.1 v.2.2 rest
  · exact decodeVarUIntAscending_encode v.2 rest
  · exact decodeVarUIntDescending_encode v.2 rest

/-- **A key is read back** from its encoding and more bytes, if and only if the truncated
lengths fit. -/
theorem decodeKey_encode_iff {shape : List Component} (a : Key shape) (rest : Bytes) :
    decodeKey shape (a.encode ++ rest) = .ok (a.plain, rest) ↔ a.LengthsFit rest.length := by
  induction shape with
  | nil => exact iff_of_true rfl trivial
  | cons c shape ih =>
    obtain ⟨v, a⟩ := a
    rw [Key.LengthsFit, ← ih, Key.encode, append_assoc, decodeKey, c.decode_encode,
      decoded, length_append]
    split_ifs with hfits
    · dsimp only
      rw [and_iff_right hfits]
      cases decodeKey shape (a.encode ++ rest) with
      | error e => exact iff_of_false (fun h => nomatch h) (fun h => nomatch h)
      | ok read =>
        obtain ⟨b, rest'⟩ := read
        constructor
        · intro h
          obtain ⟨hkey, rfl⟩ := Prod.mk.inj (Except.ok.inj h)
          rw [(Prod.mk.inj hkey).2]
        · intro h
          obtain ⟨rfl, rfl⟩ := Prod.mk.inj (Except.ok.inj h)
          rfl
    · exact iff_of_false (fun h => nomatch h) fun h => hfits h.1

/-- **The key encoding**: the encoded keys sort like the keys and are read back, if and only
if at every integer the truncated number of bytes left is enough. -/
theorem key_encoding_iff {shape : List Component} (a b : Key shape) (rest : Bytes) :
    ((a.encode < b.encode ↔ a.Lt b) ∧
        decodeKey shape (a.encode ++ rest) = .ok (a.plain, rest)) ↔
      a.LengthsFit rest.length := by
  rw [and_iff_right (encode_lt_iff a b), decodeKey_encode_iff]

/-- A key with one integer of a tag and a byte. -/
def twoByteKey : Key [⟨.varUInt, .ascending⟩] := (⟨110, by decide⟩, ())

/-- With two gigabytes behind it, an integer is not read back. -/
theorem decodeKey_two_gigabytes :
    decodeKey _ (twoByteKey.encode ++ replicate (2 ^ 31) 0) ≠
      .ok (twoByteKey.plain, replicate (2 ^ 31) 0) := by
  intro h
  have hfits := (decodeKey_encode_iff twoByteKey _).1 h
  rw [length_replicate] at hfits
  exact absurd hfits.1 (by decide)

end Proton.PrefixTreeEncode
