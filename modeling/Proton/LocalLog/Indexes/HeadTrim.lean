import Proton.LocalLog.Indexes.Refinement

/-!
# Trimming the Head of PersistentMonoMap

`trimHead(t)` garbage-collects leading rolled segments. It looks at the first keys of the rolled
segments only, which are in memory, and loads one segment: the last one that starts below `t`,
unless the next one starts at `t` or `t + 1` and so shows where it ends. A segment that starts at
`t` is never looked into and stays, even when it holds nothing else.

## Main results

* `Consistent.trimHeadBy_cut`: where a head trim cuts the rolled segments.
* `Ascending.apply`: the steps of a run that keep the stored entries in order.
* `trimHead_conservative`: in every state of such a run, a head trim keeps what is above the
  target and removes what is below it.
-/

open ByteReader Records SortedSearch List

namespace Proton.PersistentMonoMap

open KeyValue

variable {α : Type} [KeyValue α]

/-! ### What a head trim leaves -/

/-- **A conservative head trim**: without an error, a suffix of the stored entries stays that has
all entries above the target and the active segment; and a rolled segment with no entry above
the target and some entry below it goes. -/
structure TrimsHead (proj : α → ℤ) (t : ℤ) (m : PersistentMonoMap α)
    (res : PersistentMonoMap α × Option MonoMapError) : Prop where
  no_error : res.2 = none
  suffix : res.1.entries <:+ m.entries
  keeps : ∀ e ∈ m.entries, t < proj e → e ∈ res.1.entries
  active_eq : res.1.active = m.active
  removes : ∀ s ∈ m.rolled, (∀ e ∈ s.2, proj e ≤ t) → (∃ e ∈ s.2, proj e < t) →
    s ∉ res.1.rolled

/-- Where the rolled files are cut: the ones that go have no entry above the target, and each one
that stays has such an entry or none below the target. -/
structure Cut (proj : α → ℤ) (t : ℤ) (m m' : PersistentMonoMap α) : Prop where
  active_eq : m'.active = m.active
  files : ∃ gone, m.segmentFiles = gone ++ m'.segmentFiles ∧
    ∀ e ∈ (filesEntries gone : List α), proj e ≤ t
  stays : ∀ f ∈ m'.segmentFiles, (∃ e ∈ (storedEntries f.2 : List α), t < proj e) ∨
    ∀ e ∈ (storedEntries f.2 : List α), t ≤ proj e

section HeadTrim

variable {m m' : PersistentMonoMap α} {proj : α → ℤ} {t : ℤ}

/-- A cut trims the head. -/
theorem Cut.trimsHead (h : Cut proj t m m') : TrimsHead proj t m (m', none) := by
  obtain ⟨gone, hfiles, hgone⟩ := h.files
  have hentries : m.entries = filesEntries gone ++ m'.entries := by
    rw [entries_eq, entries_eq, hfiles, filesEntries_append, h.active_eq, append_assoc]
  refine ⟨rfl, ⟨filesEntries gone, hentries.symm⟩, ?_, h.active_eq, ?_⟩
  · intro e he hlt
    rw [hentries] at he
    rcases mem_append.1 he with he | he
    · have := hgone e he
      omega
    · exact he
  · rintro s - hall ⟨e, he, hlt⟩ hs
    obtain ⟨f, hf, rfl⟩ := mem_map.1 hs
    rcases h.stays f hf with ⟨a, ha, hgt⟩ | hge
    · have := hall a ha
      omega
    · have := hge e he
      omega

/-! ### The rolled segments that start below the target -/

variable {segs : List (ℕ × EntryContainer α)}

omit [KeyValue α] in
/-- The loop of `trimHead` stops in front of the first segment that starts at or above the
target. -/
theorem segmentsBelow_eq (proj : α → ℤ) (t : ℤ) (hne : ∀ s ∈ segs, s.2 ≠ []) :
    ∃ below above, segs = below ++ above ∧ segmentsBelow proj t segs = .ok below.length ∧
      (∀ s ∈ below, ∃ kvo ∈ s.2.head?, proj kvo.entry < t) ∧
      ∀ s ∈ above.head?, ∃ kvo ∈ s.2.head?, t ≤ proj kvo.entry := by
  induction segs with
  | nil => exact ⟨[], [], rfl, rfl, nofun, nofun⟩
  | cons s segs ih =>
    obtain ⟨id, c⟩ := s
    obtain ⟨first, kvos, rfl⟩ := exists_cons_of_ne_nil (hne _ mem_cons_self)
    rw [segmentsBelow]
    by_cases hge : proj first.entry ≥ t
    · refine ⟨[], _, rfl, by rw [if_pos hge]; rfl, nofun, ?_⟩
      rintro _ ⟨⟩
      exact ⟨first, rfl, hge⟩
    · obtain ⟨below, above, hsegs, hcount, hlow, hhigh⟩ :=
        ih fun s hs => hne s (mem_cons_of_mem _ hs)
      refine ⟨(id, first :: kvos) :: below, above, by rw [hsegs, cons_append], ?_, ?_, hhigh⟩
      · rw [if_neg hge, hcount]
        rfl
      · intro s hs
        rcases mem_cons.1 hs with rfl | hs
        · exact ⟨first, rfl, by omega⟩
        · exact hlow s hs

/-- Entries of segments of which the first one starts at or above `b` are at or above it. -/
theorem le_of_head {files : List (ℕ × Bytes)} {b : ℤ} (hmir : List.Forall₂ Mirrors segs files)
    (hinc : Increasing proj (filesEntries files : List α))
    (hhead : ∀ s ∈ segs.head?, ∃ kvo ∈ s.2.head?, b ≤ proj kvo.entry) :
    ∀ f ∈ files, ∀ e ∈ (storedEntries f.2 : List α), b ≤ proj e := by
  cases hmir with
  | nil => exact nofun
  | @cons s g segs files hs hrest =>
    obtain ⟨kvo, hkvo, hb⟩ := hhead s rfl
    obtain ⟨es, hes⟩ := hs.head? hkvo
    rw [filesEntries_cons, hes, cons_append, Increasing, pairwise_cons] at hinc
    intro f hf e he
    have hmem : e ∈ (filesEntries (g :: files) : List α) := mem_flatMap.2 ⟨f, hf, he⟩
    rw [filesEntries_cons, hes] at hmem
    rcases mem_cons.1 hmem with rfl | hmem
    · exact hb
    · exact hb.trans (le_of_lt (hinc.1 e hmem))

/-- A segment that does not start above the bound has an entry that is not above it. -/
theorem exists_le_of_not_startsAfter {files : List (ℕ × Bytes)} {b : ℤ}
    (hmir : List.Forall₂ Mirrors segs files) (hne : ∀ s ∈ segs, s.2 ≠ [])
    (h : ¬ startsAfter proj b segs.head? = true) :
    ∃ a ∈ (filesEntries files : List α), proj a ≤ b := by
  cases hmir with
  | nil => exact absurd rfl h
  | @cons s f segs files hs hrest =>
    obtain ⟨first, kvos, hc⟩ := exists_cons_of_ne_nil (hne s mem_cons_self)
    obtain ⟨es, hes⟩ := hs.head? (show first ∈ s.2.head? by rw [hc]; rfl)
    refine ⟨first.entry, by simp [hes], ?_⟩
    simpa [startsAfter, hc] using h

/-! ### The cut -/

/-- Removing the files that may go. -/
theorem Opened.cut_removeFirst {gone stay : List (ℕ × Bytes)} (ho : Opened m m')
    (hfiles : m.segmentFiles = gone ++ stay)
    (hgone : ∀ e ∈ (filesEntries gone : List α), proj e ≤ t)
    (hstays : ∀ f ∈ stay, (∃ e ∈ (storedEntries f.2 : List α), t < proj e) ∨
      ∀ e ∈ (storedEntries f.2 : List α), t ≤ proj e) {n : ℕ} (hn : n = gone.length) :
    Cut proj t m (m'.removeFirst n) := by
  obtain ⟨-, -, hleft⟩ := ho.consistent.removeFirst ho.loaded n
  have hstay : (m'.removeFirst n).segmentFiles = stay := by
    rw [hleft, ho.segmentFiles_eq, hfiles, hn, drop_left]
  refine ⟨ho.active_eq, ⟨gone, ?_, hgone⟩, ?_⟩
  · rw [hstay, hfiles]
  · rw [hstay]
    exact hstays

section Segment

variable {id : ℕ} {c : EntryContainer α} {file : Bytes}
  {before after : List (ℕ × EntryContainer α)} {filesBefore filesAfter : List (ℕ × Bytes)}
  (hs : SplitAt m id c file before after filesBefore filesAfter) (ho : Opened m m')
  (hgone : ∀ e ∈ (filesEntries filesBefore : List α), proj e ≤ t)
  (hstays : ∀ f ∈ filesAfter, ∀ e ∈ (storedEntries f.2 : List α), t ≤ proj e)

include hs ho hgone hstays

/-- A segment with an entry above the target stays. -/
theorem SplitAt.cut_before (hfile : ∃ e ∈ (storedEntries file : List α), t < proj e) :
    Cut proj t m (m'.removeFirst before.length) := by
  refine ho.cut_removeFirst hs.files_eq hgone ?_ hs.before_mirrors.length_eq
  intro f hf
  rcases mem_cons.1 hf with rfl | hf
  · exact .inl hfile
  · exact .inr (hstays f hf)

/-- A segment without an entry above the target may go. -/
theorem SplitAt.cut_through (hfile : ∀ e ∈ (storedEntries file : List α), proj e ≤ t) :
    Cut proj t m (m'.removeFirst (before.length + 1)) := by
  have hfiles : m.segmentFiles = (filesBefore ++ [(id, file)]) ++ filesAfter := by
    rw [hs.files_eq, append_assoc, singleton_append]
  refine ho.cut_removeFirst hfiles ?_ (fun f hf => .inr (hstays f hf))
    (by simp [hs.before_mirrors.length_eq])
  intro e he
  rw [filesEntries_append, filesEntries_cons, filesEntries_nil, append_nil] at he
  rcases mem_append.1 he with he | he
  · exact hgone e he
  · exact hfile e he

end Segment

/-- The last cached entry of a file that is loaded fully is the last stored one. -/
theorem exists_getLast_withOffsets {es : List α} (hne : es ≠ []) :
    ∃ back, (withOffsets es).getLast? = some back ∧ es.getLast? = some back.entry := by
  have hlast : es.getLast? = (withOffsets es).getLast?.map (·.entry) := by
    rw [← getLast?_map, map_entry_withOffsets]
  rw [getLast?_eq_some_getLast hne] at hlast
  obtain ⟨back, hback, heq⟩ := Option.map_eq_some_iff.1 hlast.symm
  exact ⟨back, hback, by rw [getLast?_eq_some_getLast hne, heq]⟩

/-- **`trimHead` over the rolled segments.** The last segment that starts below the target is
judged by its last entry or by the first one of the next segment. -/
theorem Consistent.trimHeadRolled_cut (h : Consistent m) (hl : m.currentLogSegLoaded = true)
    (hinc : Increasing proj (filesEntries m.segmentFiles : List α)) {succ : ℤ → ℤ}
    (hsucc : succ t = t + 1) :
    ∃ m', trimHeadRolled proj succ m t = (m', none) ∧ Cut proj t m m' := by
  have ho : Opened m m := ⟨h, hl, id, rfl, rfl, rfl⟩
  obtain ⟨below, above, hsegs, hcount, hlow, hhigh⟩ :=
    segmentsBelow_eq proj t fun s hs => h.container_ne_nil hl hs
  rw [trimHeadRolled, hcount]
  rcases eq_nil_or_concat' below with rfl | ⟨before, ⟨id, c⟩, rfl⟩
  · refine ⟨m, rfl, rfl, ⟨[], rfl, nofun⟩, fun f hf => .inr ?_⟩
    rw [nil_append] at hsegs
    exact le_of_head (hsegs ▸ (h.loaded hl).segments) hinc hhigh f hf
  rw [append_assoc, singleton_append] at hsegs
  obtain ⟨file, filesBefore, filesAfter, hs⟩ := h.splitAt hl hsegs
  obtain ⟨first, hfirst, hbelow⟩ := hlow (id, c) (by simp)
  obtain ⟨es, hes⟩ := hs.mirrors.head? hfirst
  rw [hs.files_eq, filesEntries_append, filesEntries_cons, increasing_append,
    increasing_append] at hinc
  obtain ⟨-, ⟨hincFile, hincAfter, hnext⟩, hbefore⟩ := hinc
  -- what stands in front of the segment is below its first entry, and so below the target
  have hgone : ∀ e ∈ (filesEntries filesBefore : List α), proj e ≤ t := by
    intro e he
    have := hbefore e he first.entry (by simp [hes])
    omega
  have hstays := le_of_head hs.after_mirrors hincAfter hhigh
  have hget : m.segIdToEntryOffsetMap[before.length]? = some (id, c) := by
    rw [hsegs]
    simp
  have hgetNext : m.segIdToEntryOffsetMap[before.length + 1]? = above.head? := by
    rw [hsegs, getElem?_append_right (by omega)]
    simp [head?_eq_getElem?]
  rw [length_append, length_singleton]
  simp only [hgetNext, hget]
  split
  · have hload := loadRolledLogSegmentFully_eq hs.findSegment_files
      (h.segmentFiles _ (by simp [hs.files_eq])) hs.mirrors
    have hr := ho.refreshed (h.setSegment hl (mem_of_getElem? hget) (.inr hload)).1
    obtain ⟨back, hback, hlast⟩ := exists_getLast_withOffsets
      (show storedEntries file ≠ [] from hes ▸ cons_ne_nil _ _)
    simp only [hload, hback]
    split
    next hgt =>
      exact ⟨_, rfl, hs.cut_before hr hgone hstays ⟨back.entry, mem_of_getLast? hlast, hgt⟩⟩
    next hle =>
      exact ⟨_, rfl, hs.cut_through hr hgone hstays fun e he =>
        (hincFile.le_getLast hlast e he).trans (not_lt.1 hle)⟩
  next hstarts =>
    obtain ⟨a, ha, hle⟩ := exists_le_of_not_startsAfter hs.after_mirrors
      (fun s hs' => h.container_ne_nil hl (by simp [hsegs, hs'])) hstarts
    refine ⟨_, rfl, hs.cut_through ho hgone hstays fun e he => ?_⟩
    have := hnext e he a ha
    omega

/-- **`trimHead` and `trimHeadByValue`** of a map whose stored entries increase. -/
theorem Consistent.trimHeadBy_cut (h : Consistent m) (hkey : Increasing key m.entries)
    (hinc : Increasing proj m.entries) {succ : ℤ → ℤ} (hsucc : succ t = t + 1) :
    ∃ m', PersistentMonoMap.trimHeadBy proj succ m t = (m', none) ∧ Cut proj t m m' := by
  have ho := h.opened_ensureLoaded
  have hnone := h.ensureLoaded_snd hkey
  have hcache := (ho.consistent.loaded ho.loaded).cache_eq
  rw [entries_eq, increasing_append] at hinc
  obtain ⟨hincFiles, -, hlt⟩ := hinc
  rw [PersistentMonoMap.trimHeadBy]
  rcases hload : m.ensureLoaded with ⟨m₁, err⟩
  simp only [hload] at ho hnone hcache
  subst hnone
  dsimp only
  split
  next hstarts =>
    -- the first entry of the active segment bounds all rolled ones
    obtain ⟨first, hfirst, hle⟩ := (Option.any_eq_true _ _).1 hstarts
    obtain ⟨es, hes⟩ := Mirrors.head? (s := (0, m₁.cache)) (f := (0, m₁.logFile))
      ⟨rfl, .inl hcache⟩ hfirst
    have hmem : first.entry ∈ m.active := by
      rw [← ho.active_eq, active, hes]
      exact mem_cons_self
    have hlength := (ho.consistent.loaded ho.loaded).segments.length_eq
    rw [ho.segmentFiles_eq] at hlength
    refine ⟨_, rfl, ho.cut_removeFirst (append_nil _).symm (fun e he => ?_)
      (fun e he => absurd he not_mem_nil) hlength⟩
    have := hlt e he first.entry hmem
    rw [decide_eq_true_eq] at hle
    omega
  · obtain ⟨m', heq, hcut⟩ := ho.consistent.trimHeadRolled_cut ho.loaded
      (ho.segmentFiles_eq ▸ hincFiles) hsucc
    exact ⟨m', heq, ho.active_eq ▸ hcut.active_eq, ho.segmentFiles_eq ▸ hcut.files, hcut.stays⟩

end HeadTrim

/-! ### Whole runs -/

/-- The stored entries are in order. An empty active segment behind rolled ones is allowed. -/
structure Ascending (m : PersistentMonoMap α) : Prop where
  consistent : Consistent m
  key : Increasing key m.entries
  value : Increasing value m.entries

/-- The steps of a run that keep the stored entries in order. An entry that is offered is above
the stored ones in key and value, or it is not above the last one of the active segment and not
taken; entries are offered and tails trimmed only while the believed size of the active file is
right; and a restart finds the complete entries as they were. -/
def KeepsOrder (m : PersistentMonoMap α) : Operation α → Prop
  | .maybeIndex entry => SizeAgrees m ∧
      ((∀ b ∈ m.entries, key b < key entry ∧
          value b < value entry) ∨
        ∃ b ∈ m.active.getLast?, key entry ≤ key b)
  | .trim _ => SizeAgrees m
  | .trimByValue _ => SizeAgrees m
  | .restart garbage => (storedEntries (m.logFile ++ garbage) : List α) = m.active
  | _ => True

/-- A step that keeps the stored entries in order. -/
def OrderlyStep (m m' : PersistentMonoMap α) : Prop :=
  ∃ op, KeepsOrder m op ∧ (m.apply op).1 = m'

section Run

variable {m m' : PersistentMonoMap α}

/-- A part of the stored entries is in order. -/
theorem Ascending.sublist (h : Ascending m) (hc : Consistent m')
    (hsub : m'.entries.Sublist m.entries) : Ascending m' :=
  ⟨hc, h.key.sublist hsub, h.value.sublist hsub⟩

/-- Opening keeps the entries ascending. -/
theorem Opened.ascending (ho : Opened m m') (h : Ascending m) : Ascending m' := by
  refine h.sublist ho.consistent ?_
  rw [entries_congr ho.segmentFiles_eq ho.active_eq]

/-- Offering an entry. -/
theorem Ascending.maybeIndex (h : Ascending m) {entry : α}
    (hkeeps : KeepsOrder m (.maybeIndex entry)) : Ascending (m.maybeIndex entry).1 := by
  obtain ⟨hsize, habove⟩ := hkeeps
  obtain ⟨hc, -, -, hcases⟩ := h.consistent.maybeIndex hsize entry
  rcases hcases with ⟨err, -, -, ho⟩ | ⟨-, -, ho, -⟩ | ⟨-, -, hentries, -, htaken⟩
  · exact ho.ascending h
  · exact ho.ascending h
  · have hall : ∀ b ∈ m.entries, KeyValue.key b < KeyValue.key entry ∧
        KeyValue.value b < KeyValue.value entry := by
      rcases habove with hall | ⟨b, hb, hle⟩
      · exact hall
      · exact absurd (htaken b hb) (not_lt.2 hle)
    refine ⟨hc, ?_, ?_⟩
    · rw [hentries]
      exact h.key.concat fun b hb => (hall b (mem_of_getLast? hb)).1
    · rw [hentries]
      exact h.value.concat fun b hb => (hall b (mem_of_getLast? hb)).2

/-- Trimming the tail. -/
theorem Ascending.trimBy (h : Ascending m) (hsize : SizeAgrees m) (proj : α → ℤ) (t : ℤ) :
    Ascending (PersistentMonoMap.trimBy proj m t).1 := by
  rcases h.consistent.trimBy hsize proj t with ⟨ho, -⟩ | ⟨ho, -⟩ | ⟨found, -, -, htrim⟩
  · exact ho.ascending h
  · exact ho.ascending h
  · have ho := h.consistent.opened_ensureLoaded
    have hr := ho.refreshed (ho.consistent.findAtLeast ho.loaded proj t).1
    obtain ⟨rest, hrest⟩ := htrim.entries_eq
    rw [entries_congr hr.segmentFiles_eq hr.active_eq] at hrest
    refine h.sublist htrim.consistent ?_
    rw [hrest]
    exact sublist_append_left _ _

/-- Removing leading rolled files. -/
theorem HeadTrimmed.ascending (ht : HeadTrimmed m m') (h : Ascending m) : Ascending m' :=
  h.sublist ht.consistent ht.entries_sublist

/-- **One step** keeps the stored entries in order. -/
theorem Ascending.apply (h : Ascending m) {op : Operation α} (hkeeps : KeepsOrder m op) :
    Ascending (m.apply op).1 := by
  cases op with
  | maybeIndex entry =>
    have hstep := h.maybeIndex hkeeps
    simp only [PersistentMonoMap.apply]
    split
    next heq => rw [heq] at hstep; exact hstep
    next heq => rw [heq] at hstep; exact hstep
  | trim startKey => exact h.trimBy hkeeps KeyValue.key startKey
  | trimByValue startValue => exact h.trimBy hkeeps KeyValue.value startValue
  | trimHead targetKey => exact (h.consistent.trimHeadBy _ _ targetKey).ascending h
  | trimHeadByValue targetValue => exact (h.consistent.trimHeadBy _ _ targetValue).ascending h
  | recover => exact h.consistent.opened_ensureLoaded.ascending h
  | restart garbage =>
    have hactive : (m.apply (.restart garbage)).1.active = m.active := hkeeps
    refine h.sublist (consistent_ofFiles h.consistent.maxSize_pos h.consistent.segmentFiles
      h.consistent.ids_increasing ?_) ?_
    · change Ordered (m.apply (.restart garbage)).1.active
      rw [hactive]
      exact h.consistent.active_ordered
    · have heq : (m.apply (.restart garbage)).1.entries = m.entries := entries_congr rfl hactive
      rw [heq]

/-- **Trimming the head is conservative** in every state of a run from no files whose steps keep
the stored entries in order, for every target whose successor is a key or value: nothing above the
target goes, the active segment stays, and every rolled segment goes that has no entry above the
target and one below it. -/
theorem trimHead_conservative {maxSize : ℕ} (hpos : 0 < maxSize)
    (hrun : Relation.ReflTransGen OrderlyStep (ofFiles maxSize [] []) m) :
    (∀ t, keySucc α t = t + 1 → TrimsHead key t m (m.trimHead t)) ∧
      ∀ t, valueSucc α t = t + 1 →
        TrimsHead value t m (m.trimHeadByValue t) := by
  have h : Ascending m := by
    induction hrun with
    | refl =>
      have h : Sorted (ofFiles maxSize [] [] : PersistentMonoMap α) := sorted_ofFiles_nil hpos
      exact ⟨h.consistent, h.key, h.value⟩
    | tail _ hstep ih =>
      obtain ⟨op, hkeeps, rfl⟩ := hstep
      exact ih.apply hkeeps
  constructor
  · intro t hsucc
    obtain ⟨m', heq, hcut⟩ := h.consistent.trimHeadBy_cut h.key h.key hsucc
    rw [trimHead, heq]
    exact hcut.trimsHead
  · intro t hsucc
    obtain ⟨m', heq, hcut⟩ := h.consistent.trimHeadBy_cut h.key h.value hsucc
    rw [trimHeadByValue, heq]
    exact hcut.trimsHead

end Run

/-- A run of two entries, one to a file: the segment of the first one goes. -/
theorem trimHead_conservative_two_entries :
    let m := indexAll (ofFiles 16 [] []) [⟨1, 10⟩, (⟨3, 30⟩ : SequencePosition)]
    m.rolled = [(1, [⟨1, 10⟩])] ∧ (m.trimHead 2).1.rolled = [] ∧ TrimsHead key 2 m (m.trimHead 2) :=
  have first : OrderlyStep (ofFiles 16 [] [])
      (indexAll (ofFiles 16 [] []) [(⟨1, 10⟩ : SequencePosition)]) :=
    ⟨.maybeIndex ⟨1, 10⟩, ⟨nofun, .inl (by decide)⟩, rfl⟩
  have second : OrderlyStep (indexAll (ofFiles 16 [] []) [(⟨1, 10⟩ : SequencePosition)])
      (indexAll (ofFiles 16 [] []) [⟨1, 10⟩, ⟨3, 30⟩]) :=
    ⟨.maybeIndex ⟨3, 30⟩, ⟨fun _ => by decide, .inl (by decide)⟩, rfl⟩
  ⟨by decide, by decide,
    (trimHead_conservative (by decide : 0 < 16) (.tail (.single first) second)).1 2 rfl⟩

/-- With one entry to a file, trimming the head of 1, 3, 5 up to 3 leaves the rolled segment of
the entry 3, which has no key above the target. -/
theorem trimHead_keeps_segment_at_target :
    let m := indexAll (ofFiles 16 [] []) [⟨1, 10⟩, ⟨3, 30⟩, (⟨5, 50⟩ : SequencePosition)]
    m.rolled = [(1, [⟨1, 10⟩]), (2, [⟨3, 30⟩])] ∧ (m.trimHead 3).2 = none ∧
      (m.trimHead 3).1.rolled = [(2, [⟨3, 30⟩])] := by
  decide

end Proton.PersistentMonoMap
