import Proton.LocalLog.Indexes.MemoryAgreement

/-!
# PersistentMonoMap Refines a Sorted List

The abstract model of `PersistentMonoMap` is a list of entries that is strictly increasing
in key and in value: indexing appends an entry whose key exceeds the last one, a trim keeps
the entries below a bound, and the lookups are the searches `firstAtLeast` and `lastAtMost`
over the list. This module shows that the segmented, partly loaded implementation computes
the same as long as its active segment is not empty while there are rolled ones.

The source gets into that state when a trim removes exactly the entries of the active
segment, or of the segments from some later one on: the active segment is then empty, an
offered entry is compared with nothing, and a lookup reads the front of an empty container.
`BoundarySafe` excludes such a trim.

## Main results

* `Sorted.findAtLeast`, `Sorted.findAtMost`: the two searches agree with the list.
* `Sorted.trimBy`, `Sorted.maybeIndex`: one step of the map is one step of the list.
* `refines_sorted_list`: the refinement holds in every state of a run whose steps are
  `Admissible`.
-/

open ByteReader Records SortedSearch List Option

namespace Proton.PersistentMonoMap

open KeyValue

variable {α : Type} [KeyValue α]

/-- The entries of rolled files, one file after the other. -/
def filesEntries (files : List (ℕ × Bytes)) : List α :=
  files.flatMap fun f => storedEntries f.2

/-- The entries of the rolled segments, and of the active one. -/
theorem entries_eq (m : PersistentMonoMap α) :
    m.entries = filesEntries m.segmentFiles ++ m.active := by
  simp [entries, rolled, filesEntries, flatMap_map]

@[simp] theorem filesEntries_nil : (filesEntries [] : List α) = [] := rfl

@[simp] theorem filesEntries_cons (f : ℕ × Bytes) (files : List (ℕ × Bytes)) :
    (filesEntries (f :: files) : List α) = storedEntries f.2 ++ filesEntries files := rfl

@[simp] theorem filesEntries_append (files files' : List (ℕ × Bytes)) :
    (filesEntries (files ++ files') : List α) = filesEntries files ++ filesEntries files' :=
  flatMap_append

/-- **The state of the abstract list**: increasing in key and value, and no rolled segments
behind an empty active one. -/
structure Sorted (m : PersistentMonoMap α) : Prop where
  consistent : Consistent m
  key : Increasing key m.entries
  value : Increasing value m.entries
  noGap : m.active = [] → m.segmentFiles = []

/-! ### Loading -/

/-- First entries of nonempty files that increase as a whole. -/
theorem firstEntriesIncrease_of_increasing {files : List (ℕ × Bytes)}
    (hne : ∀ f ∈ files, (storedEntries f.2 : List α) ≠ [])
    (hinc : Increasing key (filesEntries files : List α)) :
    firstEntriesIncrease (files.map fun f =>
      (f.1, withOffsets ((storedEntries f.2 : List α).take 1))) = true := by
  induction files with
  | nil => rfl
  | cons f files ih =>
    cases files with
    | nil =>
      obtain ⟨a, es, hes⟩ := exists_cons_of_ne_nil (hne f (by simp))
      simp [hes, firstEntriesIncrease]
    | cons g files =>
      have ih' := ih (fun f' hf' => hne f' (mem_cons_of_mem _ hf')) (increasing_append.mp hinc).2.1
      obtain ⟨a, es, hes⟩ := exists_cons_of_ne_nil (hne f (by simp))
      obtain ⟨b, es', hes'⟩ := exists_cons_of_ne_nil (hne g (by simp))
      have hab : key a < key b :=
        (increasing_append.mp hinc).2.2 a (by simp [hes]) b (by simp [hes'])
      simp only [map_cons, hes, hes', withOffsets, take_succ_cons, take_zero,
        mapIdx_cons, mapIdx_nil, firstEntriesIncrease, Nat.zero_mul] at ih' ⊢
      simp [lt_of_key_lt hab, ih']

variable {m m' : PersistentMonoMap α}

/-- A map whose stored keys increase loads without an error. -/
theorem Consistent.ensureLoaded_snd (h : Consistent m) (hkey : Increasing key m.entries) :
    m.ensureLoaded.2 = none := by
  unfold ensureLoaded
  split
  · rfl
  · rw [entries_eq, increasing_append] at hkey
    rw [h.recover_eq, if_pos]
    exact firstEntriesIncrease_of_increasing (fun f hf => (h.segmentFiles f hf).nonempty) hkey.1

/-- A sorted map loads without an error. -/
theorem Sorted.ensureLoaded_snd (h : Sorted m) : m.ensureLoaded.2 = none :=
  h.consistent.ensureLoaded_snd h.key

/-- The cache has the entries of the active segment. -/
theorem Mirrored.map_cache (h : Mirrored m) : m.cache.map (·.entry) = m.active := by
  rw [h.cache_eq, map_entry_withOffsets]

/-- Loading the active segment does not fail and keeps the entries. -/
theorem Sorted.ensureLoaded (h : Sorted m) :
    ∃ m₁, m.ensureLoaded = (m₁, none) ∧ Opened m m₁ ∧ m₁.entries = m.entries :=
  have ho := h.consistent.opened_ensureLoaded
  ⟨_, Prod.ext rfl h.ensureLoaded_snd, ho, entries_congr ho.segmentFiles_eq ho.active_eq⟩

/-- Loading does not change the list. -/
theorem Opened.sorted (ho : Opened m m') (h : Sorted m) : Sorted m' := by
  have heq := entries_congr ho.segmentFiles_eq ho.active_eq
  refine ⟨ho.consistent, heq ▸ h.key, heq ▸ h.value, ?_⟩
  rw [ho.active_eq, ho.segmentFiles_eq]
  exact h.noGap

/-! ### Searching the rolled segments -/

section Search

variable {m : PersistentMonoMap α} {proj : α → ℤ} {t : ℤ}

variable {segs : List (ℕ × EntryContainer α)}

/-- A search over loadable segments ends without an error. -/
theorem searchRolled_total (proj : α → ℤ) (t : ℤ)
    (hsegs : ∀ s ∈ segs, s.2 ≠ [] ∧ ∃ c, m.loadRolledLogSegmentFully s.1 s.2 = .ok c) :
    (m.searchRolled proj t segs = .ok none ∧
        ∀ s ∈ segs, ∃ kvo ∈ s.2.head?, t < proj kvo.entry) ∨
      ∃ id c, m.searchRolled proj t segs = .ok (some (id, c)) := by
  induction segs with
  | nil => exact .inl ⟨rfl, by simp⟩
  | cons s segs ih =>
    obtain ⟨id, c⟩ := s
    obtain ⟨hne, loaded, hload⟩ := hsegs _ mem_cons_self
    cases c with
    | nil => exact absurd rfl hne
    | cons first tail =>
      rw [searchRolled]
      by_cases heq : proj first.entry = t
      · exact .inr ⟨id, first :: tail, by rw [if_pos heq]⟩
      by_cases hlt : proj first.entry < t
      · exact .inr ⟨id, loaded, by rw [if_neg heq, if_pos hlt]; simp only [hload]⟩
      rw [if_neg heq, if_neg hlt]
      rcases ih fun s hs => hsegs s (mem_cons_of_mem _ hs) with ⟨hnone, hall⟩ | h
      · refine .inl ⟨hnone, fun s hs => ?_⟩
        rcases mem_cons.mp hs with rfl | hs
        · exact ⟨first, rfl, by omega⟩
        · exact hall s hs
      · exact .inr h

variable {s : ℕ × EntryContainer α}

/-- The first cached entry of a segment is the first stored one. -/
theorem Mirrors.head? {f : ℕ × Bytes} (h : Mirrors s f) {kvo : KeyValueWithLogOffset α}
    (hkvo : kvo ∈ s.2.head?) : ∃ es, (storedEntries f.2 : List α) = kvo.entry :: es := by
  rw [head?_eq_getElem?] at hkvo
  obtain ⟨hget, -, -⟩ := h.getElem? hkvo
  cases hcons : (storedEntries f.2 : List α) with
  | nil => simp [hcons] at hget
  | cons b es => exact ⟨es, by simpa [hcons] using hget⟩

/-- A rolled segment is never cached without an entry. -/
theorem Consistent.container_ne_nil (h : Consistent m) (hl : m.currentLogSegLoaded = true)
    (hs : s ∈ m.segIdToEntryOffsetMap) : s.2 ≠ [] := by
  obtain ⟨id, c⟩ := s
  obtain ⟨before, after, hsegs⟩ := append_of_mem hs
  obtain ⟨file, filesBefore, filesAfter, hsplit⟩ := h.splitAt hl hsegs
  have hfile := h.segmentFiles (id, file) (by simp [hsplit.files_eq])
  obtain ⟨a, es, hes⟩ := exists_cons_of_ne_nil hfile.nonempty
  rcases hsplit.mirrors.container with hc | hc
  · simp only at hc
    simp [hc, hes, withOffsets]
  · simp only at hc
    simp [hc, hes, withOffsets]

/-- Segments that start above `t` hold only entries above `t`. -/
theorem filesEntries_gt {files : List (ℕ × Bytes)} (hmir : List.Forall₂ Mirrors segs files)
    (hinc : Increasing proj (filesEntries files : List α))
    (hfirst : ∀ s ∈ segs, ∃ kvo ∈ s.2.head?, t < proj kvo.entry) :
    ∀ a ∈ (filesEntries files : List α), t < proj a := by
  induction hmir with
  | nil => simp
  | @cons s f segs files hs _ ih =>
    obtain ⟨kvo, hkvo, hgt⟩ := hfirst s mem_cons_self
    rw [filesEntries_cons, increasing_append] at hinc
    intro a ha
    rw [filesEntries_cons] at ha
    rcases mem_append.mp ha with ha | ha
    · obtain ⟨es, hes⟩ := hs.head? hkvo
      rw [hes] at ha hinc
      exact hinc.1.lt_of_cons hgt a ha
    · exact ih hinc.2.1 (fun s' hs' => hfirst s' (mem_cons_of_mem _ hs')) a ha

/-- What the search over the rolled segments hits: the segment `id` of the split, with the
container `c'` to search in. All later files are above `t`, and searching the container is
searching the file. -/
structure RolledHit (m : PersistentMonoMap α) (proj : α → ℤ) (t : ℤ) (id : ℕ)
    (c' : EntryContainer α) (c : EntryContainer α) (file : Bytes)
    (before after : List (ℕ × EntryContainer α)) (filesBefore filesAfter : List (ℕ × Bytes)) :
    Prop where
  split : SplitAt m id c file before after filesBefore filesAfter
  search_eq : m.searchRolled proj t m.segIdToEntryOffsetMap.reverse = .ok (some (id, c'))
  below : ∀ a ∈ (filesEntries filesBefore : List α), proj a < t
  above : ∀ a ∈ (filesEntries filesAfter : List α), t < proj a
  increasing : Increasing proj (c'.map (·.entry))
  first_le : ∃ kvo ∈ c'.head?, proj kvo.entry ≤ t
  firstAtLeast_eq : firstAtLeast proj t (c'.map (·.entry)) =
    firstAtLeast proj t (storedEntries file)
  lastAtMost_eq : lastAtMost proj t (c'.map (·.entry)) =
    lastAtMost proj t (storedEntries file)

/-- **The search over the rolled segments**: nothing starts at or below `t`, or there is a
hit. -/
theorem Consistent.searchRolled_cases (h : Consistent m) (hl : m.currentLogSegLoaded = true)
    (hinc : Increasing proj (filesEntries m.segmentFiles : List α)) :
    (m.searchRolled proj t m.segIdToEntryOffsetMap.reverse = .ok none ∧
        ∀ a ∈ (filesEntries m.segmentFiles : List α), t < proj a) ∨
      ∃ id c' c file before after filesBefore filesAfter,
        RolledHit m proj t id c' c file before after filesBefore filesAfter := by
  have hm := h.loaded hl
  have hloadable : ∀ s ∈ m.segIdToEntryOffsetMap.reverse,
      s.2 ≠ [] ∧ ∃ c, m.loadRolledLogSegmentFully s.1 s.2 = .ok c := by
    rintro ⟨id, c⟩ hs
    obtain ⟨before, after, hsegs⟩ := append_of_mem (mem_reverse.mp hs)
    obtain ⟨file, filesBefore, filesAfter, hsplit⟩ := h.splitAt hl hsegs
    have hfile := h.segmentFiles (id, file) (by simp [hsplit.files_eq])
    exact ⟨h.container_ne_nil hl (mem_reverse.mp hs), _,
      loadRolledLogSegmentFully_eq hsplit.findSegment_files hfile hsplit.mirrors⟩
  rcases searchRolled_total proj t hloadable with ⟨hnone, hall⟩ | ⟨id, c', hsome⟩
  · refine .inl ⟨hnone, filesEntries_gt hm.segments hinc fun s hs => ?_⟩
    exact hall s (mem_reverse.mpr hs)
  right
  obtain ⟨later, first, tail, earlier, hsegs, hlater, hhit⟩ := searchRolled_some hsome
  have hsplit : m.segIdToEntryOffsetMap =
      earlier.reverse ++ (id, first :: tail) :: later.reverse := by
    rw [← reverse_reverse m.segIdToEntryOffsetMap, hsegs]
    simp
  obtain ⟨file, filesBefore, filesAfter, hs⟩ := h.splitAt hl hsplit
  have hfile := h.segmentFiles (id, file) (by simp [hs.files_eq])
  rw [hs.files_eq, filesEntries_append, filesEntries_cons, increasing_append,
    increasing_append] at hinc
  obtain ⟨-, ⟨hincFile, hincAfter, -⟩, hbefore⟩ := hinc
  obtain ⟨es, hes⟩ := hs.mirrors.head? (show first ∈ (first :: tail).head? from rfl)
  have hle : proj first.entry ≤ t := by
    rcases hhit with ⟨heq, -⟩ | ⟨hlt, -⟩
    · exact heq.le
    · exact hlt.le
  have hbelow : ∀ a ∈ (filesEntries filesBefore : List α), proj a < t := fun a ha =>
    (hbefore a ha first.entry (by simp [hes])).trans_le hle
  have habove := filesEntries_gt hs.after_mirrors hincAfter fun s hs' =>
    hlater s (mem_reverse.mp hs')
  refine ⟨id, c', first :: tail, file, earlier.reverse, later.reverse, filesBefore, filesAfter, ?_⟩
  rcases hhit with ⟨heq, rfl⟩ | ⟨hlt, hload⟩
  · -- the segment starts at `t`: its first entry is the answer, loaded fully or not
    have hinc : Increasing proj ((first :: tail).map (·.entry)) := by
      rcases hs.mirrors.container with hc | hc <;>
        · simp only at hc
          rw [hc, map_entry_withOffsets]
          first
            | exact hincFile
            | exact hincFile.sublist (take_sublist _ _)
    have hlast : ∀ {l : List α}, Increasing proj (first.entry :: l) →
        lastAtMost proj t (first.entry :: l) = some first.entry := fun hl =>
      lastAtMost_of_split (l := []) heq.le fun b hb => heq ▸ (pairwise_cons.mp hl).1 b hb
    refine ⟨hs, hsome, hbelow, habove, hinc, ⟨first, rfl, hle⟩, ?_, ?_⟩
    · rw [hes, map_cons, firstAtLeast_cons_of_le heq.ge, firstAtLeast_cons_of_le heq.ge]
    · rw [hes, map_cons, hlast hinc, hlast (hes ▸ hincFile)]
  · rw [loadRolledLogSegmentFully_eq hs.findSegment_files hfile hs.mirrors,
      Except.ok.injEq] at hload
    subst hload
    refine ⟨hs, hsome, hbelow, habove, ?_, ⟨⟨first.entry, 0⟩, ?_, hle⟩, ?_, ?_⟩
    · rwa [map_entry_withOffsets]
    · simp [hes, withOffsets]
    · rw [map_entry_withOffsets]
    · rw [map_entry_withOffsets]

/-- The outcome of a lookup, as an entry. -/
def Finds (res : Except MonoMapError (Option (FoundKeyValue α))) (a : Option α) : Prop :=
  ∃ r, res = .ok r ∧ r.map (·.entryOffset.entry) = a

omit [KeyValue α] in
/-- The first entry of a segment is found. -/
theorem finds_front {id : ℕ} {kvo : KeyValueWithLogOffset α} {c : EntryContainer α} :
    Finds (front id (kvo :: c)) (some kvo.entry) :=
  ⟨_, rfl, rfl⟩

/-- Without segments there are no entries. -/
theorem filesEntries_of_mirrors_nil {files : List (ℕ × Bytes)}
    (h : List.Forall₂ (Mirrors (α := α)) [] files) : (filesEntries files : List α) = [] := by
  rw [forall₂_nil_left_iff.mp h]
  rfl

/-- The front of the first of segments that are all above `t`. -/
theorem finds_front_of_above {files : List (ℕ × Bytes)}
    (hmir : List.Forall₂ Mirrors (s :: segs) files) (hne : s.2 ≠ [])
    (habove : ∀ a ∈ (filesEntries files : List α), t < proj a) (l : List α) :
    Finds (front s.1 s.2) (firstAtLeast proj t (filesEntries files ++ l)) := by
  obtain ⟨f, files, hsf, -, rfl⟩ := forall₂_cons_left_iff.mp hmir
  obtain ⟨first, kvos, hc⟩ := exists_cons_of_ne_nil hne
  obtain ⟨es, hes⟩ := hsf.head? (show first ∈ s.2.head? by rw [hc]; rfl)
  rw [filesEntries_cons, hes] at habove ⊢
  rw [cons_append, cons_append, firstAtLeast_cons_of_le (habove first.entry (by simp)).le, hc]
  exact finds_front

/-- The first segment after `id`. -/
theorem SplitAt.find?_next {id : ℕ} {c c' : EntryContainer α} {file : Bytes}
    {before after : List (ℕ × EntryContainer α)} {filesBefore filesAfter : List (ℕ × Bytes)}
    (hs : SplitAt m id c file before after filesBefore filesAfter) :
    (before ++ (id, c') :: after).find? (fun s => id < s.1) = after.head? := by
  have hbefore : before.find? (fun s => decide (id < s.1)) = none := by
    rw [find?_eq_none]
    intro s hmem
    have := hs.before_lt' s.1 (mem_map_of_mem hmem)
    simp only [decide_eq_true_eq]
    omega
  rw [find?_append, hbefore, find?_cons_of_neg (by simp)]
  cases after with
  | nil => rfl
  | cons s after =>
    have := hs.after_gt' s.1 (by simp)
    rw [find?_cons_of_pos (by simpa using this)]
    rfl

/-- **The slow path of the search for the first entry at or above `t`.** -/
theorem Sorted.findRolledAtLeast (h : Sorted m) (hl : m.currentLogSegLoaded = true)
    (hinc : Increasing proj m.entries) (hactive : ∀ a ∈ m.active.head?, t < proj a) :
    Finds (m.findRolledAtLeast proj t).2 (firstAtLeast proj t m.entries) := by
  have hm := h.consistent.loaded hl
  rw [entries_eq] at hinc ⊢
  have hincFiles := (increasing_append.mp hinc).1
  -- the active segment, when the search comes down to it
  have hfront : m.active ≠ [] → Finds (front 0 m.cache) (firstAtLeast proj t m.active) := by
    intro hne
    obtain ⟨a, es, hes⟩ := exists_cons_of_ne_nil hne
    rw [hm.cache_eq, hes, withOffsets, mapIdx_cons,
      firstAtLeast_cons_of_le (hactive a (by simp [hes])).le]
    exact finds_front
  unfold PersistentMonoMap.findRolledAtLeast
  rcases h.consistent.searchRolled_cases (t := t) hl hincFiles with
    ⟨hnone, hall⟩ | ⟨id, c', c, file, before, after, filesBefore, filesAfter, hhit⟩
  · rw [hnone]
    cases hsegs : m.segIdToEntryOffsetMap with
    | nil =>
      rw [filesEntries_of_mirrors_nil (hsegs ▸ hm.segments), nil_append]
      by_cases hact : m.active = []
      · have hcache : m.cache = [] := by rw [hm.cache_eq, hact]; rfl
        rw [hact]
        exact ⟨none, if_pos hcache, rfl⟩
      · have hne : m.cache ≠ [] := by simpa [hm.cache_eq, withOffsets] using hact
        simp only [if_neg hne]
        exact hfront hact
    | cons s segs =>
      have hne := h.consistent.container_ne_nil hl (s := s) (by simp [hsegs])
      exact finds_front_of_above (hsegs ▸ hm.segments) hne hall _
  · rw [hhit.search_eq]
    dsimp only
    rw [hhit.split.setSegment, hhit.split.files_eq, filesEntries_append, filesEntries_cons,
      append_assoc, firstAtLeast_append_of_lt hhit.below]
    have hlb : c'[containerLowerBound proj t c']?.map (·.entry) =
        firstAtLeast proj t (storedEntries file) := by
      rw [← hhit.firstAtLeast_eq, ← getElem?_lowerBound, getElem?_map, lowerBound_map]
      rfl
    cases hget : c'[containerLowerBound proj t c']? with
    | some kvo =>
      rw [hget] at hlb
      rw [append_assoc, firstAtLeast_append_of_some hlb.symm]
      exact ⟨_, rfl, rfl⟩
    | none =>
      rw [hget] at hlb
      have hlt : ∀ a ∈ (storedEntries file : List α), proj a < t := by
        have := hlb.symm
        rw [map_none, firstAtLeast] at this
        simpa using this
      rw [append_assoc, firstAtLeast_append_of_lt hlt]
      rw [hhit.split.find?_next]
      cases hafter : after with
      | nil =>
        rw [filesEntries_of_mirrors_nil (hafter ▸ hhit.split.after_mirrors), nil_append]
        refine hfront fun hact => ?_
        have := h.noGap hact
        rw [hhit.split.files_eq] at this
        simp at this
      | cons s segs =>
        have hne := h.consistent.container_ne_nil hl (s := s) (by simp [hhit.split.segs_eq, hafter])
        exact finds_front_of_above (hafter ▸ hhit.split.after_mirrors) hne hhit.above _

/-- **The search for the first entry at or above `t`** agrees with the list. -/
theorem Sorted.findAtLeast (h : Sorted m) (hl : m.currentLogSegLoaded = true)
    (hinc : Increasing proj m.entries) :
    Finds (m.findAtLeast proj t).2 (firstAtLeast proj t m.entries) := by
  have hm := h.consistent.loaded hl
  have hslow := h.findRolledAtLeast (t := t) hl hinc
  have hentries := hm.map_cache
  unfold PersistentMonoMap.findAtLeast
  cases hcache : m.cache with
  | nil =>
    have hnil : m.active = [] := by rw [← hentries, hcache]; rfl
    exact hslow (by simp [hnil])
  | cons first tail =>
    obtain ⟨back, hback⟩ : ∃ back, (first :: tail).getLast? = some back :=
      ⟨_, getLast?_eq_getLast_of_ne_nil (by simp)⟩
    have hlast : back.entry ∈ m.active.getLast? := by
      rw [← hentries, hcache, getLast?_map, hback]
      rfl
    have hhead : m.active = first.entry :: tail.map (·.entry) := by
      rw [← hentries, hcache, map_cons]
    rw [entries_eq] at hinc ⊢
    obtain ⟨-, hincActive, hcross⟩ := increasing_append.mp hinc
    simp only [head?_cons, hback]
    split
    case isTrue hlt =>
      refine ⟨none, rfl, (firstAtLeast_eq_none ?_).symm⟩
      refine hinc.lt_of_getLast ?_ hlt
      rw [getLast?_append, hlast]
      rfl
    case isFalse =>
      split
      case isTrue hle =>
        have hbelow : ∀ a ∈ (filesEntries m.segmentFiles : List α), proj a < t := fun a ha =>
          (hcross a ha first.entry (by simp [hhead])).trans_le hle
        refine ⟨_, rfl, ?_⟩
        rw [firstAtLeast_append_of_lt hbelow, ← getElem?_lowerBound, ← hentries, hcache,
          getElem?_map, lowerBound_map, Option.map_map]
        rfl
      case isFalse hgt =>
        rw [← entries_eq]
        refine hslow ?_
        intro a ha
        rw [hhead, head?_cons, mem_some_iff] at ha
        subst ha
        omega

omit [KeyValue α] in
/-- The binary search in a container that starts at or below `t`. -/
theorem finds_binSearch {kvos : EntryContainer α} (hinc : Increasing proj (kvos.map (·.entry)))
    (hfirst : ∃ kvo ∈ kvos.head?, proj kvo.entry ≤ t) (id : ℕ) :
    Finds (binSearch proj t kvos id) (lastAtMost proj t (kvos.map (·.entry))) ∧
      (lastAtMost proj t (kvos.map (·.entry))).isSome := by
  obtain ⟨first, hhead, hle⟩ := hfirst
  have hget : ∀ i : ℕ, (kvos.map (·.entry))[i]? =
      (kvos[i]?).map fun kvo : KeyValueWithLogOffset α => kvo.entry := fun _ => getElem?_map
  have hlb : SortedSearch.lowerBound proj t (kvos.map (·.entry)) =
      containerLowerBound proj t kvos :=
    lowerBound_map _ _
  have hspec := lastAtMost_eq_getElem? (t := t) hinc
  rw [hlb, hget, hget] at hspec
  have hne : kvos ≠ [] := by rintro rfl; simp at hhead
  rw [hspec]
  unfold binSearch
  dsimp only
  cases hi : kvos[containerLowerBound proj t kvos]? with
  | none =>
    -- everything is below `t`
    have hlen : containerLowerBound proj t kvos = kvos.length := by
      have h₁ := getElem?_eq_none_iff.mp hi
      have h₂ : containerLowerBound proj t kvos ≤ kvos.length := lowerBound_le_length
      omega
    have hpos := length_pos_iff.mpr hne
    have hback : kvos.getLast? = kvos[containerLowerBound proj t kvos - 1]? := by
      rw [getLast?_eq_getElem?, hlen]
    obtain ⟨back, hlast⟩ : ∃ back, kvos.getLast? = some back :=
      ⟨_, getLast?_eq_getLast_of_ne_nil hne⟩
    have hzero : containerLowerBound proj t kvos ≠ 0 := by omega
    simp only [hzero, ← hback, hlast]
    exact ⟨⟨_, rfl, rfl⟩, rfl⟩
  | some kvo =>
    by_cases heq : proj kvo.entry = t
    · simp only [map_some, any_some, heq]
      exact ⟨⟨_, rfl, rfl⟩, rfl⟩
    · -- the entry at the bound is above `t`, so it is not the first one
      have hzero : containerLowerBound proj t kvos ≠ 0 := by
        intro hz
        rw [hz, ← head?_eq_getElem?] at hi
        rw [hi, mem_some_iff] at hhead
        subst hhead
        have hge : t ≤ proj kvo.entry := by
          have hfirst : firstAtLeast proj t (kvos.map (·.entry)) = some kvo.entry := by
            rw [← getElem?_lowerBound, hlb, hget, hz, ← head?_eq_getElem?, hi]
            rfl
          simpa using find?_some hfirst
        omega
      have hlt : containerLowerBound proj t kvos - 1 < kvos.length := by
        have h₂ : containerLowerBound proj t kvos ≤ kvos.length := lowerBound_le_length
        omega
      simp only [map_some, any_some, heq, hzero, getElem?_eq_getElem hlt]
      exact ⟨⟨_, rfl, rfl⟩, rfl⟩

/-- **The search for the last entry at or below `t`** agrees with the list. -/
theorem Sorted.findAtMost (h : Sorted m) (hl : m.currentLogSegLoaded = true)
    (hinc : Increasing proj m.entries) :
    Finds (m.findAtMost proj t).2 (lastAtMost proj t m.entries) := by
  have hentries := (h.consistent.loaded hl).map_cache
  rw [entries_eq] at hinc ⊢
  obtain ⟨hincFiles, hincActive, hcross⟩ := increasing_append.mp hinc
  have hslow : (∀ a ∈ m.active, t < proj a) →
      Finds (PersistentMonoMap.findAtMost.slow proj t m).2
        (lastAtMost proj t (filesEntries m.segmentFiles ++ m.active)) := by
    intro hactive
    rw [lastAtMost_append_of_gt hactive]
    unfold PersistentMonoMap.findAtMost.slow
    rcases h.consistent.searchRolled_cases (t := t) hl hincFiles with
      ⟨hnone, hall⟩ | ⟨id, c', c, file, before, after, filesBefore, filesAfter, hhit⟩
    · rw [hnone]
      exact ⟨none, rfl, (lastAtMost_eq_none hall).symm⟩
    · rw [hhit.search_eq]
      obtain ⟨hfinds, hsome⟩ := finds_binSearch hhit.increasing hhit.first_le id
      rw [hhit.lastAtMost_eq] at hfinds hsome
      obtain ⟨b, hb⟩ := isSome_iff_exists.mp hsome
      rw [hhit.split.files_eq, filesEntries_append, filesEntries_cons, ← append_assoc,
        lastAtMost_append_of_gt hhit.above, lastAtMost_append_of_some hb, ← hb]
      exact hfinds
  unfold PersistentMonoMap.findAtMost
  cases hcache : m.cache with
  | nil =>
    have hnil : m.active = [] := by rw [← hentries, hcache]; rfl
    exact hslow (by simp [hnil])
  | cons first tail =>
    have hhead : m.active = first.entry :: tail.map (·.entry) := by
      rw [← hentries, hcache, map_cons]
    simp only [head?_cons]
    split
    case isTrue hle =>
      have hincCache : Increasing proj ((first :: tail).map (·.entry)) := by
        rwa [← hcache, hentries]
      obtain ⟨hfinds, hsome⟩ := finds_binSearch hincCache ⟨first, rfl, hle⟩ 0
      rw [← hcache, hentries] at hfinds hsome
      obtain ⟨b, hb⟩ := isSome_iff_exists.mp hsome
      rw [lastAtMost_append_of_some hb, ← hb, ← hcache]
      exact hfinds
    case isFalse hgt =>
      refine hslow ?_
      rw [hhead] at hincActive ⊢
      exact hincActive.lt_of_cons (by omega)

end Search

/-! ### The lookups -/

omit [KeyValue α] in
/-- What is found, without its position. -/
theorem Finds.map_eq {res : Except MonoMapError (Option (FoundKeyValue α))} {a : Option α}
    (h : Finds res a) : res.map (·.map (·.entryOffset.entry)) = .ok a := by
  obtain ⟨r, rfl, rfl⟩ := h
  rfl

/-- A search only loads segments. -/
theorem Consistent.findAtMost (h : Consistent m) (hl : m.currentLogSegLoaded = true)
    (proj : α → ℤ) (t : ℤ) : Refreshed m (m.findAtMost proj t).1 := by
  have hself := h.refreshed_self hl
  have hslow : Refreshed m (PersistentMonoMap.findAtMost.slow proj t m).1 := by
    unfold PersistentMonoMap.findAtMost.slow
    split
    · exact hself
    · exact hself
    next hsearch => exact (h.setSegment_searchRolled hl hsearch).1
  unfold PersistentMonoMap.findAtMost
  split
  · split
    · exact hself
    · exact hslow
  · exact hslow

variable {proj : α → ℤ}

/-- **`lowerBound`**, by key or by value, is `firstAtLeast`. -/
theorem Sorted.lowerBoundBy (h : Sorted m) (hinc : Increasing proj m.entries) (t : ℤ) :
    (m.lowerBoundBy proj t).2 = .ok (firstAtLeast proj t m.entries) ∧
      Opened m (m.lowerBoundBy proj t).1 := by
  obtain ⟨m₁, hload, ho, heq⟩ := h.ensureLoaded
  rw [← heq] at hinc ⊢
  have hfinds := (ho.sorted h).findAtLeast (t := t) ho.loaded hinc
  simp only [PersistentMonoMap.lowerBoundBy, hload]
  exact ⟨hfinds.map_eq, ho.refreshed (ho.consistent.findAtLeast ho.loaded proj t).1⟩

/-- **`leftLowerBound`**, by key or by value, is `lastAtMost`. -/
theorem Sorted.leftLowerBoundBy (h : Sorted m) (hinc : Increasing proj m.entries) (t : ℤ) :
    (m.leftLowerBoundBy proj t).2 = .ok (lastAtMost proj t m.entries) ∧
      Opened m (m.leftLowerBoundBy proj t).1 := by
  obtain ⟨m₁, hload, ho, heq⟩ := h.ensureLoaded
  rw [← heq] at hinc ⊢
  have hfinds := (ho.sorted h).findAtMost (t := t) ho.loaded hinc
  simp only [PersistentMonoMap.leftLowerBoundBy, hload]
  exact ⟨hfinds.map_eq, ho.refreshed (ho.consistent.findAtMost ho.loaded proj t)⟩

/-! ### The steps -/

/-- The last stored entry is the last one of the active segment. -/
theorem Sorted.getLast?_entries (h : Sorted m) : m.entries.getLast? = m.active.getLast? := by
  rw [entries_eq]
  cases hact : m.active with
  | nil => rw [h.noGap hact]; rfl
  | cons a es => rw [getLast?_append_of_ne_nil _ (by simp)]

/-- **Indexing is appending an entry above the last one.** -/
theorem Sorted.maybeIndex (h : Sorted m) (hsize : SizeAgrees m) {entry : α}
    (hmono : ∀ b ∈ m.entries.getLast?, KeyValue.key b < KeyValue.key entry →
      KeyValue.value b < KeyValue.value entry) :
    Sorted (m.maybeIndex entry).1 ∧
      (((m.maybeIndex entry).2 = .ok false ∧ (m.maybeIndex entry).1.entries = m.entries ∧
          ¬ ∀ b ∈ m.entries.getLast?, KeyValue.key b < KeyValue.key entry) ∨
        ((m.maybeIndex entry).2 = .ok true ∧
          (m.maybeIndex entry).1.entries = m.entries ++ [entry] ∧
          ∀ b ∈ m.entries.getLast?, KeyValue.key b < KeyValue.key entry)) := by
  obtain ⟨hc, -, -, hcases⟩ := h.consistent.maybeIndex hsize entry
  rcases hcases with ⟨err, herr, -⟩ | ⟨-, hres, ho, hkey⟩ | ⟨-, hres, hentries, hne, hkey⟩
  · rw [h.ensureLoaded_snd] at herr
    cases herr
  · rw [← h.getLast?_entries] at hkey
    exact ⟨ho.sorted h, .inl ⟨hres, entries_congr ho.segmentFiles_eq ho.active_eq, hkey⟩⟩
  · rw [← h.getLast?_entries] at hkey
    refine ⟨⟨hc, ?_, ?_, fun hnil => absurd hnil hne⟩, .inr ⟨hres, hentries, hkey⟩⟩
    · rw [hentries]
      exact h.key.concat hkey
    · rw [hentries]
      exact h.value.concat fun b hb => hmono b hb (hkey b hb)

/-- The segments: the rolled ones in the order of their ids, then the active one. -/
def segments (m : PersistentMonoMap α) : List (List α) :=
  m.rolled.map Prod.snd ++ [m.active]

/-- The first entry at or above `t` is not the first one of a segment other than the oldest. -/
def BoundarySafe (proj : α → ℤ) (m : PersistentMonoMap α) (t : ℤ) : Prop :=
  ∀ before seg after, m.segments = before ++ seg :: after → before ≠ [] →
    ∀ a ∈ seg.head?, firstAtLeast proj t m.entries ≠ some a

/-- Only the segments other than the oldest have to be looked at. -/
theorem boundarySafe_of_tail {proj : α → ℤ} {t : ℤ} (h : ∀ seg ∈ m.segments.tail, ∀ a ∈ seg.head?,
    firstAtLeast proj t m.entries ≠ some a) : BoundarySafe proj m t := by
  intro before seg after heq hne
  obtain ⟨first, rest, rfl⟩ := exists_cons_of_ne_nil hne
  refine h seg ?_
  rw [heq, cons_append, tail_cons]
  exact mem_append_right _ mem_cons_self

omit [KeyValue α] in
/-- A trim that kept nothing of its segment started a segment. -/
theorem head?_eq_of_take_eq_nil {es : List α} {n : ℕ} {a : α} (hget : es[n]? = some a)
    (hnil : es.take n = []) : es.head? = some a := by
  have hlt := (List.getElem?_eq_some_iff.mp hget).1
  have hzero : n = 0 := by
    have := congrArg List.length hnil
    rw [length_take, length_nil] at this
    omega
  rw [head?_eq_getElem?, ← hzero, hget]

/-- What a trim at a found entry keeps is what stands before it. -/
theorem Trimmed.entries_eq {found : FoundKeyValue α} (h : Trimmed m m' found) :
    ∃ rest, m.entries = m'.entries ++ found.entryOffset.entry :: rest := by
  have hsplit : ∀ {es : List α} {n : ℕ} {a : α}, es[n]? = some a →
      es = es.take n ++ a :: es.drop (n + 1) := by
    intro es n a hget
    obtain ⟨hlt, rfl⟩ := List.getElem?_eq_some_iff.mp hget
    rw [← drop_eq_getElem_cons hlt, take_append_drop]
  rw [PersistentMonoMap.entries_eq, PersistentMonoMap.entries_eq]
  rcases h.kept with ⟨hfiles, hget, hactive, -⟩ | ⟨file, filesAfter, -, hfiles, hget, hactive, -⟩
  · refine ⟨m.active.drop (found.truncationPoint + 1), ?_⟩
    rw [hfiles, hactive, append_assoc, ← hsplit hget]
  · refine ⟨(storedEntries file).drop (found.truncationPoint + 1) ++
      (filesEntries filesAfter ++ m.active), ?_⟩
    rw [hfiles, hactive, filesEntries_append, filesEntries_cons]
    conv_lhs => rw [hsplit hget]
    simp only [append_assoc, cons_append]

/-- A trim that does not start at the beginning of a later segment leaves no gap. -/
theorem Trimmed.noGap {found : FoundKeyValue α} {t : ℤ} (h : Trimmed m m' found)
    (hsafe : BoundarySafe proj m t)
    (hfirst : firstAtLeast proj t m.entries = some found.entryOffset.entry)
    (hnil : m'.active = []) : m'.segmentFiles = [] := by
  by_contra hne
  have hbefore : m'.rolled.map Prod.snd ≠ [] := by simpa [rolled] using hne
  rcases h.kept with ⟨hfiles, hget, hactive, -⟩ | ⟨file, filesAfter, -, hfiles, hget, hactive, -⟩
  · refine hsafe (m'.rolled.map Prod.snd) m.active [] ?_ hbefore _
      (head?_eq_of_take_eq_nil hget (hactive ▸ hnil)) hfirst
    rw [segments, rolled, rolled, hfiles]
  · refine hsafe (m'.rolled.map Prod.snd) (storedEntries file)
      ((filesAfter.map fun f => storedEntries f.2) ++ [m.active]) ?_ hbefore _
      (head?_eq_of_take_eq_nil hget (hactive ▸ hnil)) hfirst
    rw [segments, rolled, rolled, hfiles]
    simp

/-- **A trim keeps exactly the entries below the bound.** -/
theorem Sorted.trimBy (h : Sorted m) (hsize : SizeAgrees m) (hinc : Increasing proj m.entries)
    {t : ℤ} (hsafe : BoundarySafe proj m t) :
    Sorted (PersistentMonoMap.trimBy proj m t).1 ∧
      (PersistentMonoMap.trimBy proj m t).2 = none ∧
      (PersistentMonoMap.trimBy proj m t).1.entries = m.entries.filter fun a => proj a < t := by
  have hnone := h.ensureLoaded_snd
  have ho := h.consistent.opened_ensureLoaded
  have heq := entries_congr ho.segmentFiles_eq ho.active_eq
  obtain ⟨r, hr, hentry⟩ := (ho.sorted h).findAtLeast (t := t) ho.loaded (heq.symm ▸ hinc)
  rw [heq] at hentry
  rcases h.consistent.trimBy hsize proj t with
    ⟨-, err, -, herr | herr⟩ | ⟨hopened, hres, hfind⟩ | ⟨found, hfind, hres, htrim⟩
  · rw [hnone] at herr
    cases herr
  · rw [hr] at herr
    cases herr
  · rw [hr, Except.ok.injEq] at hfind
    subst hfind
    refine ⟨hopened.sorted h, hres, ?_⟩
    rw [entries_congr hopened.segmentFiles_eq hopened.active_eq]
    exact (filter_lt_of_none hentry.symm).symm
  · rw [hr, Except.ok.injEq] at hfind
    subst hfind
    have hrefreshed := ho.refreshed (ho.consistent.findAtLeast ho.loaded proj t).1
    have heq₂ := entries_congr hrefreshed.segmentFiles_eq hrefreshed.active_eq
    have hsafe₂ : BoundarySafe proj (m.ensureLoaded.1.findAtLeast proj t).1 t := by
      unfold BoundarySafe segments rolled
      rw [heq₂, hrefreshed.segmentFiles_eq, hrefreshed.active_eq]
      exact hsafe
    obtain ⟨rest, hrest⟩ := htrim.entries_eq
    rw [heq₂] at hrest
    have hsub : (PersistentMonoMap.trimBy proj m t).1.entries.Sublist m.entries := by
      rw [hrest]
      exact sublist_append_left _ _
    refine ⟨⟨htrim.consistent, h.key.sublist hsub, h.value.sublist hsub,
      htrim.noGap hsafe₂ (by rw [heq₂]; exact hentry.symm)⟩, hres, ?_⟩
    rw [hrest] at hinc hentry ⊢
    exact (filter_lt_of_firstAtLeast hinc hentry.symm).symm

/-- Removing the first rolled segments leaves a part of the list. -/
theorem HeadTrimmed.entries_sublist (ht : HeadTrimmed m m') : m'.entries.Sublist m.entries := by
  obtain ⟨n, hn⟩ := ht.segmentFiles_eq
  have hfiles : (filesEntries m.segmentFiles : List α) =
      filesEntries (m.segmentFiles.take n) ++ filesEntries (m.segmentFiles.drop n) := by
    rw [← filesEntries_append, take_append_drop]
  rw [entries_eq, entries_eq, hn, ht.active_eq, hfiles, append_assoc]
  exact sublist_append_right _ _

/-- Removing the first rolled segments keeps the list sorted. -/
theorem HeadTrimmed.sorted (ht : HeadTrimmed m m') (h : Sorted m) : Sorted m' := by
  obtain ⟨n, hn⟩ := ht.segmentFiles_eq
  have hsub := ht.entries_sublist
  refine ⟨ht.consistent, h.key.sublist hsub, h.value.sublist hsub, fun hnil => ?_⟩
  rw [ht.active_eq] at hnil
  rw [hn, h.noGap hnil, drop_nil]

/-! ### Whole runs -/

/-- The steps of a run over which the map refines the list. An entry above the last one in
key is above it in value; entries are offered and trimmed only while the believed size of
the active file is right; and no trim starts at the first entry of a later segment. -/
def Admissible (m : PersistentMonoMap α) : Operation α → Prop
  | .maybeIndex entry => SizeAgrees m ∧ ∀ b ∈ m.entries.getLast?,
      key b < key entry → value b < value entry
  | .trim startKey => SizeAgrees m ∧ BoundarySafe key m startKey
  | .trimByValue startValue => SizeAgrees m ∧ BoundarySafe value m startValue
  | .restart garbage => garbage = []
  | _ => True

/-- An admissible step. -/
def AdmissibleStep (m m' : PersistentMonoMap α) : Prop :=
  ∃ op, Admissible m op ∧ (m.apply op).1 = m'

/-- **The map computes what the sorted list of its stored entries computes.** -/
structure RefinesSortedList (m : PersistentMonoMap α) : Prop where
  increasing : Increasing key m.entries
  maybeIndex : ∀ entry, Admissible m (.maybeIndex entry) →
    ((m.maybeIndex entry).2 = .ok true ∧ (m.maybeIndex entry).1.entries = m.entries ++ [entry] ∧
        ∀ b ∈ m.entries.getLast?, key b < key entry) ∨
      ((m.maybeIndex entry).2 = .ok false ∧ (m.maybeIndex entry).1.entries = m.entries ∧
        ¬ ∀ b ∈ m.entries.getLast?, key b < key entry)
  trim : ∀ k, Admissible m (.trim k) → (m.trim k).2 = none ∧
    (m.trim k).1.entries = m.entries.filter fun a => key a < k
  trimByValue : ∀ v, Admissible m (.trimByValue v) → (m.trimByValue v).2 = none ∧
    (m.trimByValue v).1.entries = m.entries.filter fun a => value a < v
  lowerBound : ∀ k, (m.lowerBound k).2 = .ok (firstAtLeast key k m.entries)
  leftLowerBound : ∀ k, (m.leftLowerBound k).2 = .ok (lastAtMost key k m.entries)
  lowerBoundByValue : ∀ v,
    (m.lowerBoundByValue v).2 = .ok (firstAtLeast value v m.entries)
  leftLowerBoundByValue : ∀ v,
    (m.leftLowerBoundByValue v).2 = .ok (lastAtMost value v m.entries)

/-- **Every sorted map refines the list** of its entries. -/
theorem Sorted.refines (h : Sorted m) : RefinesSortedList m where
  increasing := h.key
  maybeIndex _ hadm := (h.maybeIndex hadm.1 hadm.2).2.symm
  trim _ hadm := (h.trimBy hadm.1 h.key hadm.2).2
  trimByValue _ hadm := (h.trimBy hadm.1 h.value hadm.2).2
  lowerBound k := (h.lowerBoundBy h.key k).1
  leftLowerBound k := (h.leftLowerBoundBy h.key k).1
  lowerBoundByValue v := (h.lowerBoundBy h.value v).1
  leftLowerBoundByValue v := (h.leftLowerBoundBy h.value v).1

/-- **One step** of the run keeps the list sorted. -/
theorem Sorted.apply (h : Sorted m) {op : Operation α} (hadm : Admissible m op) :
    Sorted (m.apply op).1 := by
  cases op with
  | maybeIndex entry =>
    have hstep := (h.maybeIndex hadm.1 hadm.2).1
    simp only [PersistentMonoMap.apply]
    split
    next heq => rw [heq] at hstep; exact hstep
    next heq => rw [heq] at hstep; exact hstep
  | trim startKey => exact (h.trimBy hadm.1 h.key hadm.2).1
  | trimByValue startValue => exact (h.trimBy hadm.1 h.value hadm.2).1
  | trimHead targetKey => exact (h.consistent.trimHeadBy _ _ targetKey).sorted h
  | trimHeadByValue targetValue => exact (h.consistent.trimHeadBy _ _ targetValue).sorted h
  | recover => exact h.consistent.opened_ensureLoaded.sorted h
  | restart garbage =>
    obtain rfl : garbage = [] := hadm
    simp only [PersistentMonoMap.apply, append_nil]
    exact ⟨consistent_ofFiles h.consistent.maxSize_pos h.consistent.segmentFiles
      h.consistent.ids_increasing h.consistent.active_ordered, h.key, h.value, h.noGap⟩

/-- A map over no files. -/
theorem sorted_ofFiles_nil {maxSize : ℕ} (hpos : 0 < maxSize) :
    Sorted (ofFiles maxSize [] [] : PersistentMonoMap α) := by
  have hnil : (ofFiles maxSize [] [] : PersistentMonoMap α).entries = [] := by
    exact (codec : Codec α).decode_nil
  refine ⟨consistent_ofFiles_nil hpos, ?_, ?_, fun _ => rfl⟩
  · rw [hnil]; exact .nil
  · rw [hnil]; exact .nil

/-- **`PersistentMonoMap` refines a sorted list** in every state of a run from no files
whose steps are admissible. -/
theorem refines_sorted_list {maxSize : ℕ} (hpos : 0 < maxSize) {m : PersistentMonoMap α}
    (hrun : Relation.ReflTransGen AdmissibleStep (ofFiles maxSize [] []) m) :
    RefinesSortedList m := by
  have hsorted : Sorted m := by
    induction hrun with
    | refl => exact sorted_ofFiles_nil hpos
    | tail _ hstep ih =>
      obtain ⟨op, hadm, rfl⟩ := hstep
      exact ih.apply hadm
  exact hsorted.refines

/-- Two entries to a file: five entries roll two segments, and a trim from key 4 on cuts the second
one. The restarted map takes two more entries, which roll another segment, and trims its head. -/
theorem refines_sorted_list_trimmed :
    let m := applyAll (ofFiles 32 [] []) [.maybeIndex ⟨1, 10⟩, .maybeIndex ⟨2, 20⟩,
      .maybeIndex ⟨3, 30⟩, .maybeIndex ⟨4, 40⟩, .maybeIndex ⟨5, 50⟩, .trim 4, .restart [],
      .maybeIndex ⟨6, 60⟩, .maybeIndex (⟨7, 70⟩ : SequencePosition), .trimHead 4]
    m.segments = [[⟨3, 30⟩, ⟨6, 60⟩], [⟨7, 70⟩]] ∧ RefinesSortedList m :=
  ⟨by decide, refines_sorted_list (by decide : 0 < 32) <|
    .head ⟨.maybeIndex ⟨1, 10⟩, ⟨nofun, by decide⟩, rfl⟩ <|
    .head ⟨.maybeIndex ⟨2, 20⟩, ⟨fun _ => by decide, by decide⟩, rfl⟩ <|
    .head ⟨.maybeIndex ⟨3, 30⟩, ⟨fun _ => by decide, by decide⟩, rfl⟩ <|
    .head ⟨.maybeIndex ⟨4, 40⟩, ⟨fun _ => by decide, by decide⟩, rfl⟩ <|
    .head ⟨.maybeIndex ⟨5, 50⟩, ⟨fun _ => by decide, by decide⟩, rfl⟩ <|
    .head ⟨.trim 4, ⟨fun _ => by decide, boundarySafe_of_tail (by decide)⟩, rfl⟩ <|
    .head ⟨.restart [], rfl, rfl⟩ <|
    .head ⟨.maybeIndex ⟨6, 60⟩, ⟨nofun, by decide⟩, rfl⟩ <|
    .head ⟨.maybeIndex ⟨7, 70⟩, ⟨fun _ => by decide, by decide⟩, rfl⟩ <|
    .head ⟨.trimHead 4, trivial, rfl⟩ .refl⟩

/-- With two entries to a file, trimming the third of three entries empties the active
segment. An entry with the key of the first one is then stored behind the second one, and a
lookup above all keys reads the front of an empty container. -/
theorem trim_at_segment_start_breaks_refinement :
    let m := (indexAll (ofFiles 32 [] [])
      [⟨1, 10⟩, ⟨2, 20⟩, (⟨3, 30⟩ : SequencePosition)]).trim 3
    m.2 = none ∧ m.1.entries = [⟨1, 10⟩, ⟨2, 20⟩] ∧
      (m.1.maybeIndex ⟨1, 30⟩).2 = .ok true ∧
      (m.1.maybeIndex ⟨1, 30⟩).1.entries = [⟨1, 10⟩, ⟨2, 20⟩, ⟨1, 30⟩] ∧
      ¬ Increasing key (m.1.maybeIndex ⟨1, 30⟩).1.entries ∧
      (m.1.lowerBound 3).2 = .error .undefinedBehaviour := by
  refine ⟨by decide, by decide, by decide, by decide, ?_, by decide⟩
  unfold Increasing
  decide

end Proton.PersistentMonoMap
