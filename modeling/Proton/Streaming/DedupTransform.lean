import Mathlib.Data.Finset.Basic
import Mathlib.Data.Finset.Lattice.Lemmas

/-!
# Deduplication

`KeySet` remembers a hash of each row that was kept, in a set and in a queue by age, and drops the
rows whose hash is in the set. Entries leave from the front of the queue, by number and by age.

The set is the set of the distinct keys of the queue at all times (`KeySet.Consistent.run`). The
hash is taken over the bytes of the columns one after the other, without their lengths, so that
rows with different values can have one key (`KeySet.shifted_bytes_dropped`); where the bytes tell
the rows apart, only duplicates of rows in the queue are dropped (`KeySet.filter_exact`).
-/

namespace Proton.Streaming

variable {V K : Type*}

/-- The limits of a `KeySet`, `getDataAt` of the columns and the hash. -/
structure DedupParams (V K : Type*) where
  maxEntries : ℕ
  timeoutIntervalMs : ℤ
  dataAt : V → List UInt8
  hash : List UInt8 → K

/-- The key of a row: one hash of the bytes of all columns. -/
def DedupParams.key (params : DedupParams V K) (row : List V) : K :=
  params.hash (row.flatMap params.dataAt)

/-- A `KeyTime`, with the row that was kept: no function reads it. -/
structure KeyTime (V K : Type*) where
  key : K
  time : ℤ
  row : List V

/-- `KeySet`. -/
structure KeySet (V K : Type*) where
  keySet : Finset K := ∅
  keys : List (KeyTime V K) := []

namespace KeySet

variable [DecidableEq K]

/-- The loops that remove entries from the front; `gone i` is the test in turn `i`. -/
def popWhile (gone : ℕ → List (KeyTime V K) → Bool) :
    ℕ → List (KeyTime V K) → Finset K → KeySet V K
  | _, [], set => ⟨set, []⟩
  | i, e :: rest, set =>
    if gone i (e :: rest) then popWhile gone (i + 1) rest (set.erase e.key) else ⟨set, e :: rest⟩

variable (params : DedupParams V K)

/-- Remove keys which reach limits. -/
def dropExcess (s : KeySet V K) : KeySet V K :=
  if 0 < params.maxEntries then
    popWhile (fun _ keys => params.maxEntries < keys.length) 0 s.keys s.keySet
  else s

/-- Remove keys which reach timeout; `now i` is the clock in turn `i`. -/
def dropTimedOut (now : ℕ → ℤ) (s : KeySet V K) : KeySet V K :=
  if 0 < params.timeoutIntervalMs then
    popWhile (fun i keys => keys.head?.any fun e => params.timeoutIntervalMs < now i - e.time) 0
      s.keys s.keySet
  else s

/-- The loop over the rows, each with the time at which it is entered. -/
def insertRows (s : KeySet V K) : List (ℤ × List V) → List Bool × KeySet V K
  | [] => ([], s)
  | (now, row) :: rows =>
    if params.key row ∈ s.keySet then
      let (filter, s) := s.insertRows rows
      (false :: filter, s)
    else
      let (filter, s) := insertRows
        ⟨insert (params.key row) s.keySet, s.keys ++ [⟨params.key row, now, row⟩]⟩ rows
      (true :: filter, s)

/-- `populateKeySetsAndCalculateResults`. -/
def populate (now : ℕ → ℤ) (rows : List (ℤ × List V)) (s : KeySet V K) : List Bool × KeySet V K :=
  insertRows params (dropTimedOut params now (dropExcess params s)) rows

/-- `serialize`: the set, and the entries of the queue. -/
def serialize (s : KeySet V K) : Finset K × List (KeyTime V K) := (s.keySet, s.keys)

/-- `deserialize`: the saved set is merged into the set, and the saved entries go to the end of the
queue. -/
def deserialize (saved : Finset K × List (KeyTime V K)) (s : KeySet V K) : KeySet V K :=
  ⟨s.keySet ∪ saved.1, s.keys ++ saved.2⟩

/-- What happens to a `KeySet`. -/
inductive Event (V : Type*)
  /-- a chunk comes -/
  | chunk (now : ℕ → ℤ) (rows : List (ℤ × List V))
  /-- the transform is checkpointed, and a new one recovers -/
  | recover

/-- The state after an event. -/
def apply (s : KeySet V K) : Event V → KeySet V K
  | .chunk now rows => (populate params now rows s).2
  | .recover => deserialize (serialize s) {}

/-- The state after a sequence of events. -/
def run (events : List (Event V)) : KeySet V K := events.foldl (apply params) {}

/-! ### The set and the queue -/

/-- The set is the set of the keys of the queue, which are distinct and those of the rows. -/
structure Consistent (seen : List V → Prop) (s : KeySet V K) : Prop where
  keySet : s.keySet = (s.keys.map KeyTime.key).toFinset
  nodup : (s.keys.map KeyTime.key).Nodup
  key : ∀ e ∈ s.keys, e.key = params.key e.row ∧ seen e.row

variable {params} {s : KeySet V K} {seen : List V → Prop} {rows : List (ℤ × List V)}

/-- What the removal loops keep. -/
theorem Consistent.popWhile (gone : ℕ → List (KeyTime V K) → Bool) (i : ℕ)
    {keys : List (KeyTime V K)} {set : Finset K} (h : Consistent params seen ⟨set, keys⟩) :
    Consistent params seen (popWhile gone i keys set) := by
  induction keys generalizing i set with
  | nil => exact h
  | cons e rest ih =>
    rw [KeySet.popWhile]
    split_ifs
    · obtain ⟨hset, hnodup, hkey⟩ := h
      obtain ⟨hnot, hnodup⟩ := List.nodup_cons.1 hnodup
      refine ih _ ⟨?_, hnodup, fun e he => hkey e (List.mem_cons_of_mem _ he)⟩
      simp only [List.map_cons, List.toFinset_cons] at hset
      simp only [hset]
      exact Finset.erase_insert (by simpa using hnot)
    · exact h

/-- What the loop over the rows keeps. -/
theorem Consistent.insertRows (h : Consistent params seen s) (hrows : ∀ r ∈ rows, seen r.2) :
    Consistent params seen (s.insertRows params rows).2 := by
  induction rows generalizing s with
  | nil => exact h
  | cons r rows ih =>
    obtain ⟨hr, hrows⟩ := List.forall_mem_cons.1 hrows
    rw [KeySet.insertRows]
    split_ifs with hmem
    · exact ih h hrows
    · refine ih ⟨?_, ?_, ?_⟩ hrows
      · ext k
        simp only [h.keySet, Finset.mem_insert, List.mem_toFinset, List.map_append,
          List.mem_append, List.map_cons, List.map_nil, List.mem_singleton]
        exact or_comm
      · rw [h.keySet, List.mem_toFinset] at hmem
        simpa [List.nodup_append, h.nodup] using hmem
      · intro e he
        obtain he | rfl := by simpa using he
        · exact h.key e he
        · exact ⟨rfl, hr⟩

/-- What a chunk keeps. -/
theorem Consistent.populate (h : Consistent params seen s) (now : ℕ → ℤ)
    (hrows : ∀ r ∈ rows, seen r.2) :
    Consistent params seen (populate params now rows s).2 := by
  refine Consistent.insertRows ?_ hrows
  have hexcess : Consistent params seen (dropExcess params s) := by
    rw [dropExcess]
    split_ifs
    · exact h.popWhile _ 0
    · exact h
  rw [dropTimedOut]
  split_ifs
  · exact hexcess.popWhile _ 0
  · exact hexcess

/-- A new transform recovers the state. -/
theorem deserialize_serialize (s : KeySet V K) : deserialize (serialize s) {} = s := by
  rw [deserialize, serialize, Finset.empty_union, List.nil_append]

/-- What a sequence of events keeps. -/
theorem Consistent.run (events : List (Event V))
    (hevents : ∀ now rows, .chunk now rows ∈ events → ∀ r ∈ rows, seen r.2) :
    Consistent params seen (run params events) := by
  refine List.foldlRecOn events _ ⟨rfl, .nil, by simp⟩ fun s h event hmem => ?_
  cases event with
  | chunk now rows => exact h.populate now (hevents now rows hmem)
  | recover =>
    rw [apply, deserialize_serialize]
    exact h

/-! ### The filter -/

/-- The filter for a row depends on the rows before it through the state. -/
theorem insertRows_append (front back : List (ℤ × List V)) :
    (s.insertRows params (front ++ back)).1[front.length]? =
      ((s.insertRows params front).2.insertRows params back).1[0]? := by
  induction front generalizing s with
  | nil => rfl
  | cons r front ih =>
    rw [List.cons_append, insertRows, insertRows]
    split_ifs
    · simpa using ih
    · simpa using ih

/-- **Only duplicates are dropped**: after every sequence of chunks and recoveries the set is the
set of the distinct keys of the queue; and if the hash is injective and the bytes tell the rows
apart, a row is dropped exactly if an equal row was kept that is in the queue when the row comes. -/
theorem filter_exact (hhash : Function.Injective params.hash)
    {events : List (Event V)}
    (hevents : ∀ now rows, .chunk now rows ∈ events → ∀ r ∈ rows, seen r.2)
    (hseen : ∀ row row', seen row → seen row' →
      row.flatMap params.dataAt = row'.flatMap params.dataAt → row = row') :
    (run params events).keySet = ((run params events).keys.map KeyTime.key).toFinset ∧
    ((run params events).keys.map KeyTime.key).Nodup ∧
    ∀ now front time row back, (∀ r ∈ front, seen r.2) → seen row →
      ((populate params now (front ++ (time, row) :: back) (run params events)).1[front.length]? =
          some false ↔
        ∃ e ∈ (populate params now front (run params events)).2.keys, e.row = row) := by
  have hrun : Consistent params seen (run params events) := .run events hevents
  refine ⟨hrun.keySet, hrun.nodup, fun now front time row back hfront hrow => ?_⟩
  have hbefore := hrun.populate now hfront
  rw [populate, insertRows_append, ← populate]
  generalize (populate params now front (run params events)).2 = before at hbefore
  have hmem : params.key row ∈ before.keySet ↔ ∃ e ∈ before.keys, e.row = row := by
    simp only [hbefore.keySet, List.mem_toFinset, List.mem_map]
    refine exists_congr fun e => and_congr_right fun he => ?_
    obtain ⟨hekey, hseen'⟩ := hbefore.key e he
    rw [hekey]
    exact ⟨fun h => hseen _ _ hseen' hrow (hhash h), fun h => h ▸ rfl⟩
  rw [insertRows, ← hmem]
  split_ifs with h
  · exact iff_of_true rfl h
  · exact iff_of_false (by simp) h

/-- String columns, no limit and no timeout, with the bytes as their own hash. -/
def unlimited : DedupParams (List UInt8) (List UInt8) where
  maxEntries := 0
  timeoutIntervalMs := -1000
  dataAt := id
  hash := id

/-- A row that is equal to the one before it is dropped. -/
theorem filter_exact_oneColumn :
    (populate unlimited (fun _ => 0) [(0, [[97]]), (1, [[97]])] (run unlimited [])).1[1]? =
      some false := by
  have hexact := @filter_exact _ _ _ unlimited (fun row => row.length = 1) Function.injective_id []
    (by simp) fun row row' hrow hrow' h => by
      obtain ⟨a, rfl⟩ := List.length_eq_one_iff.1 hrow
      obtain ⟨b, rfl⟩ := List.length_eq_one_iff.1 hrow'
      simpa [unlimited] using h
  exact (hexact.2.2 (fun _ => 0) [(0, [[97]])] 1 [[97]] [] (by simp) rfl).2
    ⟨_, List.mem_singleton_self _, rfl⟩

/-- The row `a, bc` is dropped after the row `ab, c`, which is not equal to it. -/
theorem shifted_bytes_dropped :
    (populate unlimited (fun _ => 0) [(0, [[97, 98], [99]]), (0, [[97], [98, 99]])]
      (run unlimited [])).1 = [true, false] := by
  decide

end KeySet

end Proton.Streaming
