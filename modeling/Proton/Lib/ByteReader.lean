import Mathlib.Algebra.Group.Nat.Defs
import Mathlib.Data.List.Infix

/-!
# Byte Readers and Exact Encodings

A `Reader ε α` consumes a prefix of a byte string and returns a value together with the
unread rest, or fails with an error of type `ε`. The notion the development builds on is
`Exact p w a`: the byte string `w` is a self-delimiting encoding of `a` for the reader
`p`, in the sense that `p` returns `a` after consuming exactly `w`, whatever follows, and
fails on every proper prefix of `w`.

Exactness composes along `bind` (`Exact.bind`), so a record codec is exact as soon as its
fields are. A window over the encoding that covers it is read back
(`Exact.run_take_of_le`).

The module also fixes the little-endian encoding of fixed-width naturals (`leBytes`,
`ofLeBytes`) and the strict read of a given number of bytes (`readStrict`).
-/

open List

namespace ByteReader

/-- A byte string. -/
abbrev Bytes := List UInt8

/-- A reader: a state-passing computation over the unread bytes that may fail. -/
abbrev Reader (ε : Type) := StateT Bytes (Except ε)

variable {ε α β : Type}

/-- `w` is a **self-delimiting encoding** of `a` for the reader `p`: `p` consumes exactly
`w`, whatever bytes follow it, and fails on every proper prefix of `w`. -/
structure Exact (p : Reader ε α) (w : Bytes) (a : α) : Prop where
  /-- The complete encoding is read back and nothing past it is consumed. -/
  run_append : ∀ rest, p.run (w ++ rest) = .ok (a, rest)
  /-- A proper prefix of the encoding is an error, never a wrong value. -/
  fails_short : ∀ t, t <+: w → t ≠ w → ∃ e, p.run t = .error e

/-- A reader that returns at once reads the empty encoding. -/
theorem Exact.pure (a : α) : Exact (pure a : Reader ε α) [] a where
  run_append _ := rfl
  fails_short _ ht hne := absurd (prefix_nil.mp ht) hne

/-- **Exactness composes**: reading `a` from `w` and then `b` from `v` reads `b` from
`w ++ v`. -/
theorem Exact.bind {p : Reader ε α} {f : α → Reader ε β} {w v : Bytes} {a : α} {b : β}
    (hp : Exact p w a) (hf : Exact (f a) v b) : Exact (p >>= f) (w ++ v) b where
  run_append rest := by
    rw [StateT.run_bind, append_assoc, hp.run_append]
    exact hf.run_append rest
  fails_short t ht hne := by
    rw [StateT.run_bind]
    -- a proper prefix of `w ++ v` either stops inside `w` or reaches into `v`
    rcases prefix_or_prefix_of_prefix ht (prefix_append w v) with h | ⟨u, rfl⟩
    · by_cases hw : t = w
      · subst hw
        have hv : v ≠ [] := by
          rintro rfl
          simp at hne
        obtain ⟨e, he⟩ := hf.fails_short [] nil_prefix hv.symm
        refine ⟨e, ?_⟩
        have := hp.run_append []
        rw [append_nil] at this
        rw [this]
        exact he
      · obtain ⟨e, he⟩ := hp.fails_short t h hw
        exact ⟨e, by rw [he]; rfl⟩
    · rw [prefix_append_right_inj] at ht
      obtain ⟨e, he⟩ := hf.fails_short u ht (fun h => hne (by rw [h]))
      exact ⟨e, by rw [hp.run_append]; exact he⟩

/-- A reader followed by a pure map reads the same bytes. -/
theorem Exact.map {p : Reader ε α} {w : Bytes} {a : α} (hp : Exact p w a) (g : α → β) :
    Exact (g <$> p) w (g a) := by
  have h := hp.bind (f := fun x => Pure.pure (g x)) (Exact.pure (g a))
  rw [append_nil] at h
  rwa [map_eq_pure_bind]

/-- **Reading through a window.** A window of `n` bytes over `w ++ rest` is read back when
it covers `w`. -/
theorem Exact.run_take_of_le {p : Reader ε α} {w : Bytes} {a : α} (h : Exact p w a)
    {n : ℕ} (rest : Bytes) (hn : w.length ≤ n) :
    p.run ((w ++ rest).take n) = .ok (a, rest.take (n - w.length)) := by
  rw [take_append, take_of_length_le hn]
  exact h.run_append _

/-! ### Strict reads and little-endian numbers -/

/-- Read exactly `n` bytes, or fail with `e` when fewer are left. -/
def readStrict (e : ε) (n : ℕ) : Reader ε Bytes := fun s =>
  if s.length < n then .error e else .ok (s.take n, s.drop n)

/-- A strict read of `w.length` bytes reads `w`. -/
theorem readStrict_exact (e : ε) (w : Bytes) : Exact (readStrict e w.length) w w where
  run_append rest := by
    simp [readStrict, StateT.run]
  fails_short t ht hne := by
    have hlt : t.length < w.length := by
      refine lt_of_le_of_ne ht.length_le fun h => hne ?_
      exact ht.eq_of_length h
    simp [readStrict, StateT.run, hlt]

/-- The low `k` bytes of `x`, least significant first. -/
def leBytes : ℕ → ℕ → Bytes
  | 0, _ => []
  | k + 1, x => UInt8.ofNat (x % 256) :: leBytes k (x / 256)

/-- The number a little-endian byte string denotes. -/
def ofLeBytes : Bytes → ℕ
  | [] => 0
  | b :: bs => b.toNat + 256 * ofLeBytes bs

@[simp] theorem length_leBytes (k x : ℕ) : (leBytes k x).length = k := by
  induction k generalizing x with
  | zero => rfl
  | succ k ih => simp [leBytes, ih]

/-- Decoding the low `k` bytes of `x` gives `x` modulo `256 ^ k`. -/
theorem ofLeBytes_leBytes (k x : ℕ) : ofLeBytes (leBytes k x) = x % 256 ^ k := by
  induction k generalizing x with
  | zero => simp [leBytes, ofLeBytes, Nat.mod_one]
  | succ k ih =>
    rw [leBytes, ofLeBytes, ih, Nat.pow_succ', Nat.mod_mul, UInt8.toNat_ofNat']
    omega

/-- A value that fits in `k` bytes survives the round trip. -/
theorem ofLeBytes_leBytes_of_lt {k x : ℕ} (h : x < 256 ^ k) : ofLeBytes (leBytes k x) = x := by
  rw [ofLeBytes_leBytes, Nat.mod_eq_of_lt h]

/-- Read a `k`-byte little-endian number, or fail with `e`. -/
def readLe (e : ε) (k : ℕ) : Reader ε ℕ := ofLeBytes <$> readStrict e k

/-- `readLe` reads back what `leBytes` wrote. -/
theorem readLe_exact (e : ε) {k x : ℕ} (h : x < 256 ^ k) : Exact (readLe e k) (leBytes k x) x := by
  have hs := (readStrict_exact e (leBytes k x)).map ofLeBytes
  rw [length_leBytes, ofLeBytes_leBytes_of_lt h] at hs
  exact hs

end ByteReader
