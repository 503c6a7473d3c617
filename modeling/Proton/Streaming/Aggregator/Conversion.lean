import Proton.Lib.ExceptRel
import Proton.Lib.Listing
import Proton.Streaming.Aggregator.MemoryAggregator

/-!
# What a Conversion Emits

A conversion visits groups one after the other, hands some of them to a callback and resets what it
read. Here it is described group by group: which states a group emits, and what becomes of it. The
description does not depend on the order of the visits, nor on whether a hash table has one level
or two, nor on whether all groups are visited or only those of cached keys that include every group
with something to emit.

There is one exception. The callback for retracted states finishes a full block when the next group
is visited, and the conversion drops all finished blocks if no row follows. `KeepsBlocks` says when
this does not happen in any order.

## Main results

* `convertState_spec`: the groups of the visited keys are converted.
* `flatten_convertToBlockImplFinal`: the blocks have the rows of all calls.
* `doConvertToBlocks_spec`: every group is converted.
-/

open List SortedMap

namespace Proton.Streaming.MemoryAggregator

variable {K A S V : Type}

/-! ### Groups one after the other -/

section State

variable [LinearOrder K] {type : AggregatingConvertType} {keys keys' : List K}
  {data data' data'' : SortedMap K (AggregateData S)} {calls calls' : List (K × AggregateStates S)}

/-- The groups of `keys` were converted, with these calls of the callback. -/
structure Converted (type : AggregatingConvertType) (keys : List K)
    (data data' : SortedMap K (AggregateData S)) (calls : List (K × AggregateStates S)) : Prop where
  /-- What becomes of a group. -/
  find : ∀ k, data'.find? k =
    if k ∈ keys then (data.find? k).map fun d => (convertGroup type d).1 else data.find? k
  /-- The calls. -/
  calls : Listing (fun k =>
    if k ∈ keys then (data.find? k).bind fun d => (convertGroup type d).2 else none) calls

/-- A converted group has nothing to convert. -/
theorem convertGroup_convertGroup (h : type ≠ .normal) (d : AggregateData S) :
    convertGroup type (convertGroup type d).1 = ((convertGroup type d).1, none) := by
  cases type with
  | normal => exact absurd rfl h
  | updates =>
    simp only [convertGroup]
    split_ifs <;> simp_all
  | retract => rfl
  | updatesAfterRetract =>
    simp only [convertGroup]
    split_ifs <;> simp_all

namespace Converted

/-- Nothing was converted. -/
theorem nil : Converted type [] data data [] :=
  ⟨fun k => by simp, Listing.nil.congr fun k => by simp⟩

/-- One group. -/
theorem single {k : K} {d : AggregateData S} (h : data.find? k = some d) :
    Converted type [k] data (data.insert k (convertGroup type d).1)
      ((convertGroup type d).2.toList.map (k, ·)) := by
  refine ⟨fun j => ?_, (Listing.single k (convertGroup type d).2).congr fun j => ?_⟩
  · rw [SortedMap.insert, find?_alter]
    by_cases hj : j = k
    · simp [hj, h]
    · simp [hj]
  · by_cases hj : j = k
    · simp [hj, h]
    · simp [hj]

/-- A conversion neither adds groups nor removes them. -/
theorem isSome_find? (h : Converted type keys data data' calls) (k : K) :
    (data'.find? k).isSome = (data.find? k).isSome := by
  rw [h.find]
  split_ifs <;> simp

/-- **Some groups after others.** A group is not visited twice, or has nothing to convert then. -/
theorem append (h : Converted type keys data data' calls)
    (h' : Converted type keys' data' data'' calls')
    (hagain : type ≠ .normal ∨ keys.Disjoint keys') :
    Converted type (keys ++ keys') data data'' (calls ++ calls') := by
  have hconv : ∀ k ∈ keys, k ∈ keys' → ∀ d, data.find? k = some d →
      convertGroup type (convertGroup type d).1 = ((convertGroup type d).1, none) := by
    intro k hk hk' d _
    rcases hagain with htype | hdisj
    · exact convertGroup_convertGroup htype d
    · exact absurd hk' (hdisj hk)
  constructor
  · intro k
    rw [h'.find, h.find]
    by_cases hk : k ∈ keys <;> by_cases hk' : k ∈ keys'
    · cases hd : data.find? k with
      | none => simp [hk]
      | some d => simp [hk, hconv k hk hk' d hd]
    · simp [hk']
    · simp [hk]
    · simp [hk]
  · refine (h.calls.append h'.calls fun k => ?_).congr fun k => ?_
    · rw [h.find]
      by_cases hk : k ∈ keys <;> by_cases hk' : k ∈ keys'
      · cases hd : data.find? k with
        | none => simp
        | some d => simp [hk, hconv k hk hk' d hd]
      · simp [hk']
      · simp [hk]
      · simp [hk]
    · rw [h.find]
      by_cases hk : k ∈ keys <;> by_cases hk' : k ∈ keys'
      · cases hd : data.find? k with
        | none => simp
        | some d => simp [hk, hconv k hk hk' d hd]
      · simp [hk']
      · simp [hk]
      · simp [hk]

end Converted

/-- **The loop of a conversion**, over keys of the hash table. -/
theorem convertState_spec {has : K → Bool} (hkeys : ∀ k ∈ keys, has k ∧ (data.find? k).isSome)
    (hagain : type ≠ .normal ∨ keys.Nodup) :
    ∃ data' calls, convertState type has keys data = .ok (data', calls) ∧
      Converted type keys data data' calls := by
  induction keys generalizing data with
  | nil => exact ⟨data, [], rfl, .nil⟩
  | cons k keys ih =>
    obtain ⟨hhas, hsome⟩ := hkeys k mem_cons_self
    obtain ⟨d, hd⟩ := Option.isSome_iff_exists.1 hsome
    have hfirst : Converted type [k] data _ _ := .single hd
    have hkeys' : ∀ j ∈ keys, has j ∧
        ((data.insert k (convertGroup type d).1).find? j).isSome := by
      intro j hj
      obtain ⟨hhas', hsome'⟩ := hkeys j (mem_cons_of_mem _ hj)
      exact ⟨hhas', by rwa [hfirst.isSome_find?]⟩
    obtain ⟨data', calls, hrest, hconv⟩ := ih hkeys' (hagain.imp_right List.Nodup.of_cons)
    refine ⟨data', (convertGroup type d).2.toList.map (k, ·) ++ calls, ?_,
      hfirst.append hconv (hagain.imp_right fun h => ?_)⟩
    · rw [convertState, if_pos hhas, hd]
      dsimp only
      rw [hrest]
      rfl
    · exact disjoint_singleton.2 (nodup_cons.1 h).1 |>.symm

end State

/-! ### Blocks -/

section Blocks

variable (params : AggregatorParams K A S V) (type : AggregatingConvertType) (single : Bool)
  (calls : List (K × AggregateStates S)) {size m : ℕ}

/-- The row of a call. -/
def callRow (call : K × AggregateStates S) : K × V := (call.1, params.result call.2.states)

/-- Whether a call adds a row. -/
def addsRow (d : AggregateStates S) : Bool :=
  !(type = .retract ∧ d.empty)

/-- No row is lost between the finished blocks and the columns of the next one. -/
theorem flatten_foldl_fillColumns (s : List (List (K × V)) × List (K × V)) :
    let filled := calls.foldl (fillColumns params type single m) s
    filled.1.flatten ++ filled.2 =
      s.1.flatten ++ s.2 ++
        (calls.filter fun call => addsRow type call.2).map (callRow params) := by
  induction calls generalizing s with
  | nil => simp
  | cons call calls ih =>
    simp only [foldl_cons, filter_cons]
    rw [ih]
    simp only [fillColumns, addsRow]
    split_ifs <;> simp_all [callRow]

/-- **How far the columns are filled.** The finished blocks are full, and columns are left empty
only when a call without a row follows. -/
theorem length_foldl_fillColumns (hpos : 0 < m) :
    let filled := calls.foldl (fillColumns params type single m) ([], [])
    let rows := (calls.filter fun call => addsRow type call.2).length
    (single → filled.1 = []) ∧ (single = false → filled.2.length ≤ m) ∧
      (∃ q, filled.1.flatten.length = q * m) ∧
      (filled.2 = [] → rows = 0 ∨ ∃ call ∈ calls, addsRow type call.2 = false) := by
  induction calls using reverseRecOn with
  | nil => exact ⟨fun _ => rfl, fun _ => Nat.zero_le _, ⟨0, by simp⟩, fun _ => .inl rfl⟩
  | append_singleton calls call ih =>
    obtain ⟨hsingle, hle, ⟨q, hq⟩, hempty⟩ := ih
    set s := calls.foldl (fillColumns params type single m) ([], []) with hs
    simp only [foldl_append, foldl_cons]
    -- the call either finds room in the columns or finishes a full block first
    by_cases hfull : (!single) = true ∧ m ≤ s.2.length
    · have hsingle' : single = false := by simpa using hfull.1
      have hlen : s.2.length = m := le_antisymm (hle hsingle') hfull.2
      by_cases hrow : type = .retract ∧ call.2.empty
      · have hfill : fillColumns params type single m s call = (s.1 ++ [s.2], []) := by
          simp [fillColumns, hfull, hrow]
        rw [hfill]
        refine ⟨by simp [hsingle'], by simp, ⟨q + 1, ?_⟩, fun _ => .inr ⟨call, by simp, ?_⟩⟩
        · simp [hq, hlen, Nat.succ_mul]
        · simp [addsRow, hrow]
      · have hfill : fillColumns params type single m s call =
            (s.1 ++ [s.2], [callRow params call]) := by
          simp [fillColumns, hfull, hrow, callRow]
        rw [hfill]
        refine ⟨by simp [hsingle'], fun _ => by simpa using Nat.succ_le_of_lt hpos, ⟨q + 1, ?_⟩,
          by simp⟩
        simp [hq, hlen, Nat.succ_mul]
    · by_cases hrow : type = .retract ∧ call.2.empty
      · have hfill : fillColumns params type single m s call = s := by
          simp only [fillColumns, if_neg hfull, if_pos hrow]
        rw [hfill]
        exact ⟨hsingle, hle, ⟨q, hq⟩, fun _ => .inr ⟨call, by simp, by simp [addsRow, hrow]⟩⟩
      · have hfill : fillColumns params type single m s call =
            (s.1, s.2 ++ [callRow params call]) := by
          simp only [fillColumns, if_neg hfull, if_neg hrow, callRow]
        rw [hfill]
        refine ⟨hsingle, fun hmany => ?_, ⟨q, hq⟩, by simp⟩
        have hroom : s.2.length < m := by
          by_contra hge
          exact hfull ⟨by simp [hmany], not_lt.1 hge⟩
        simpa using Nat.succ_le_of_lt hroom

/-- **All rows are in the blocks**, unless the rows fill blocks exactly and a call without a row
may come last. -/
theorem flatten_convertToBlockImplFinal
    (hkept : single = false → (min params.maxBlockSize size + 1) ∣
        (calls.filter fun call => addsRow type call.2).length →
      (∃ call ∈ calls, addsRow type call.2 = false) →
      (calls.filter fun call => addsRow type call.2).length = 0) :
    (convertToBlockImplFinal params type single size calls).flatten =
      (calls.filter fun call => addsRow type call.2).map (callRow params) := by
  set maxBlockSize := (if single = true then size else min params.maxBlockSize size) + 1 with hmax
  have hpos : 0 < maxBlockSize := Nat.succ_pos _
  have hflat := flatten_foldl_fillColumns params type single calls (m := maxBlockSize) ([], [])
  obtain ⟨hsingle, -, ⟨q, hq⟩, hempty⟩ := length_foldl_fillColumns params type single calls hpos
  set s := calls.foldl (fillColumns params type single maxBlockSize) ([], []) with hs
  simp only [flatten_nil, nil_append] at hflat
  change (if s.2.isEmpty then [] else s.1 ++ [s.2]).flatten = _
  by_cases hcols : s.2 = []
  · rw [if_pos (by simp [hcols]), ← hflat, hcols, append_nil]
    have hlen : s.1.flatten.length = (calls.filter fun call => addsRow type call.2).length := by
      rw [← length_map (f := callRow params), ← hflat, hcols, append_nil]
    refine (length_eq_zero_iff.1 ?_).symm
    rcases hempty hcols with hzero | hskip
    · rw [hlen, hzero]
    · cases single with
      | true => rw [hsingle rfl]; rfl
      | false =>
        rw [hlen]
        refine hkept rfl ?_ hskip
        rw [← hlen, hq]
        exact Dvd.intro_left q rfl
  · rw [if_neg (by simpa using hcols), ← hflat]
    simp

end Blocks

/-! ### All groups -/

section All

variable [LinearOrder K] (params : AggregatorParams K A S V) {type : AggregatingConvertType}
  {data data' : SortedMap K (AggregateData S)} {calls : List (K × AggregateStates S)}
  {keys : List K} {layout : Layout K}

/-- The states that a group emits. -/
def emittedStates (type : AggregatingConvertType) (d : AggregateData S) :
    Option (AggregateStates S) :=
  (convertGroup type d).2.filter (addsRow type)

/-- The row of a key, from what its group emits. -/
def emittedRow (type : AggregatingConvertType) (data : SortedMap K (AggregateData S)) (k : K) :
    Option V :=
  ((data.find? k).bind (emittedStates type)).map fun d => params.result d.states

/-- The number of groups with retracted states that are not empty. -/
def retractedGroups (data : SortedMap K (AggregateData S)) : ℕ :=
  (data.toList.filter fun e => e.2.retract.any fun d => !d.empty).length

/-- No order of the groups makes the conversion of retracted states drop its blocks: their rows do
not fill the blocks, or there are no empty ones among the retracted states. -/
def KeepsBlocks (data : SortedMap K (AggregateData S)) : Prop :=
  (min params.maxBlockSize data.size + 1) ∣ retractedGroups data →
    (∃ e ∈ data.toList, e.2.retract.any (·.empty)) → retractedGroups data = 0
deriving Decidable

/-- The keys include every group with something to convert. -/
def Covers (type : AggregatingConvertType) (keys : List K)
    (data : SortedMap K (AggregateData S)) : Prop :=
  ∀ k d, data.find? k = some d → k ∉ keys → convertGroup type d = (d, none)

/-- The visits were enough for all groups. -/
theorem Converted.find?_of_covers (h : Converted type keys data data' calls)
    (hcovers : Covers type keys data) (k : K) :
    data'.find? k = (data.find? k).map fun d => (convertGroup type d).1 := by
  rw [h.find]
  split_ifs with hk
  · rfl
  · cases hd : data.find? k with
    | none => rfl
    | some d => simp [hcovers k d hd hk]

/-- If all groups are visited, those with an output are listed. -/
theorem Converted.listing_of_covers (h : Converted type keys data data' calls)
    (hcovers : Covers type keys data) :
    Listing (fun k => (data.find? k).bind fun d => (convertGroup type d).2) calls := by
  refine h.calls.congr fun k => ?_
  split_ifs with hk
  · rfl
  · cases hd : data.find? k with
    | none => rfl
    | some d => simp [hcovers k d hd hk]

/-- The rows of the calls. -/
theorem listing_rows
    (h : Listing (fun k => (data.find? k).bind fun d => (convertGroup type d).2) calls) :
    Listing (emittedRow params type data)
      ((calls.filter fun call => addsRow type call.2).map (callRow params)) := by
  refine ((h.filter (addsRow type)).map fun d => params.result d.states).congr fun k => ?_
  rw [emittedRow]
  cases data.find? k with
  | none => rfl
  | some d => rfl

/-- The rows of the retracted states. -/
theorem length_retracted (h : Listing (fun k => (data.find? k).bind (·.retract)) calls) :
    (calls.filter fun call => addsRow .retract call.2).length = retractedGroups data := by
  have hrows := ((Listing.toList data).bind fun d => d.retract.filter (addsRow .retract))
  have hcalls : Listing (fun k => (data.find? k).bind fun d => d.retract.filter (addsRow .retract))
      (calls.filter fun call => addsRow .retract call.2) := by
    refine (h.filter (addsRow .retract)).congr fun k => ?_
    cases data.find? k <;> rfl
  rw [(hcalls.perm hrows).length_eq, length_filterMap_eq_countP, countP_eq_length_filter]
  refine congrArg length (filter_congr fun e _ => ?_)
  cases e.2.retract with
  | none => rfl
  | some d => cases hd : d.empty <;> simp [addsRow, hd]

/-- A call without a row is for empty retracted states. -/
theorem exists_empty_of_call (h : Listing (fun k => (data.find? k).bind (·.retract)) calls)
    (hcall : ∃ call ∈ calls, addsRow .retract call.2 = false) :
    ∃ e ∈ data.toList, e.2.retract.any (·.empty) := by
  obtain ⟨call, hmem, hrow⟩ := hcall
  obtain ⟨d, hd, hretract⟩ := Option.bind_eq_some_iff.1 ((h.mem_iff call.1 call.2).1 hmem)
  refine ⟨(call.1, d), find?_eq_some.1 hd, ?_⟩
  simpa [hretract, addsRow] using hrow

/-- Every updated group is in a marked bucket. -/
def Marked (v : DataVariants K S) : Prop :=
  ∀ buckets, v.updatedBuckets = some buckets →
    ∀ k d, v.data.find? k = some d → d.updated → params.bucket k ∈ buckets

/-- All groups were converted to these rows. -/
structure Emits (type : AggregatingConvertType) (v v' : DataVariants K S) (rows : List (K × V)) :
    Prop where
  /-- What becomes of the groups. -/
  find : ∀ k, v'.data.find? k = (v.data.find? k).map fun d => (convertGroup type d).1
  /-- The rows, unless finished blocks of retracted rows are dropped. -/
  rows : (type = .retract → v.updatedBuckets = none → KeepsBlocks params v.data) →
    Listing (emittedRow params type v.data) rows
  /-- The hash table keeps its levels. -/
  level : v'.updatedBuckets.isSome = v.updatedBuckets.isSome
  /-- The buckets of updated groups stay marked. -/
  marked : Marked params v'

variable {v : DataVariants K S}

/-- The keys of a data variant are those of its groups. -/
theorem mem_keys_iff {k : K} : k ∈ v.keys ↔ (v.data.find? k).isSome := by
  rw [DataVariants.keys, ← mem_keys_iff_mem_map, SortedMap.mem_keys]

/-- Visiting all keys visits all groups. -/
theorem covers_of_keys (h : ∀ k, (v.data.find? k).isSome → k ∈ keys) : Covers type keys v.data := by
  intro k d hd hk
  exact absurd (h k (by rw [hd]; rfl)) hk

/-- **A hash table with one level.** -/
theorem prepareBlockAndFillSingleLevel_spec {cached : List K} (hlevel : v.updatedBuckets = none)
    (hcached : ∀ k ∈ cached, (v.data.find? k).isSome)
    (hcovers : cached = [] ∨ type ≠ .normal ∧ Covers type cached v.data) :
    ∃ v' blocks, prepareBlockAndFillSingleLevel params type layout cached v = .ok (v', blocks) ∧
      Emits params type v v' blocks.flatten := by
  have horder : ∀ k, k ∈ layout.order v.keys ↔ (v.data.find? k).isSome := fun k => by
    rw [(layout.perm v.keys).mem_iff, mem_keys_iff]
  obtain ⟨keys, hkeys, hsome, hagain, hall⟩ : ∃ keys,
      (if cached.isEmpty then layout.order v.keys else cached) = keys ∧
      (∀ k ∈ keys, (v.data.find? k).isSome) ∧ (type ≠ .normal ∨ keys.Nodup) ∧
      Covers type keys v.data := by
    rcases hcovers with hnil | ⟨htype, hcovers⟩
    · refine ⟨layout.order v.keys, by simp [hnil], fun k => (horder k).1, .inr ?_,
        covers_of_keys fun k => (horder k).2⟩
      exact (layout.perm v.keys).nodup_iff.2 v.data.nodup_keys
    · by_cases hnil : cached = []
      · refine ⟨layout.order v.keys, by simp [hnil], fun k => (horder k).1, .inl htype,
          covers_of_keys fun k => (horder k).2⟩
      · exact ⟨cached, by simp [hnil], hcached, .inl htype, hcovers⟩
  have hhas : ∀ k ∈ keys, (fun _ : K => true) k ∧ (v.data.find? k).isSome :=
    fun k hk => ⟨rfl, hsome k hk⟩
  obtain ⟨data', calls, hrun, hconv⟩ := convertState_spec hhas hagain
  have hlisting := hconv.listing_of_covers hall
  refine ⟨{ v with data := data' }, convertToBlockImplFinal params type false v.data.size calls,
    ?_, hconv.find?_of_covers hall, fun hkept => ?_, rfl, ?_⟩
  · rw [prepareBlockAndFillSingleLevel, hkeys, hrun]
    rfl
  · rw [flatten_convertToBlockImplFinal]
    · exact listing_rows params hlisting
    · intro _ hdvd hskip
      by_cases htype : type = .retract
      · subst htype
        rw [length_retracted hlisting] at hdvd ⊢
        exact hkept rfl hlevel hdvd (exists_empty_of_call hlisting hskip)
      · obtain ⟨call, -, hrow⟩ := hskip
        simp [addsRow, htype] at hrow
  · intro buckets hbuckets
    rw [hlevel] at hbuckets
    cases hbuckets

variable (type layout) in
/-- **One bucket of a hash table with two levels**, if there are no cached keys. -/
theorem convertOneBucketToBlockImpl_spec (bucket : Bucket) {c : TwoLevelConversion K S V}
    (hcached : c.cached = []) :
    ∃ c' keys calls, convertOneBucketToBlockImpl params type layout c bucket = .ok c' ∧
      Converted type keys c.data c'.data calls ∧ c'.cached = [] ∧
      c'.blocks.flatten = c.blocks.flatten ++
        (calls.filter fun call => addsRow type call.2).map (callRow params) ∧
      (∀ k, k ∈ keys ↔ (c.data.find? k).isSome ∧ params.bucket k = bucket ∧
        (convertsUpdates type → bucket ∈ c.updatedBuckets)) ∧
      c'.updatedBuckets =
        if convertsUpdates type then c.updatedBuckets.filter (· ≠ bucket)
        else c.updatedBuckets := by
  set impl := (c.data.toList.map (·.1)).filter (params.bucket · = bucket) with himpl
  have hmem : ∀ k, k ∈ impl ↔ (c.data.find? k).isSome ∧ params.bucket k = bucket := by
    intro k
    rw [mem_filter, ← mem_keys_iff_mem_map, SortedMap.mem_keys, decide_eq_true_eq]
  rw [convertOneBucketToBlockImpl]
  by_cases hskip : (convertsUpdates type && decide (bucket ∉ c.updatedBuckets)) = true
  · -- the bucket is not marked
    obtain ⟨hupdates, hunmarked⟩ := (Bool.and_eq_true _ _).mp hskip
    have hunmarked : bucket ∉ c.updatedBuckets := of_decide_eq_true hunmarked
    refine ⟨c, [], [], if_pos hskip, .nil, hcached, by simp, fun k => ?_, ?_⟩
    · simp [hupdates, hunmarked]
    · rw [if_pos hupdates, filter_eq_self.2]
      intro b hb
      simp only [decide_eq_true_eq]
      rintro rfl
      exact hunmarked hb
  · have hmarked : convertsUpdates type → bucket ∈ c.updatedBuckets := by
      intro hupdates
      simpa [hupdates] using hskip
    rw [if_neg hskip, ← himpl]
    by_cases hnil : impl = []
    · refine ⟨_, [], [], if_pos (by simp [hnil]), .nil, hcached, by simp, fun k => ?_, rfl⟩
      have hk : ¬((c.data.find? k).isSome ∧ params.bucket k = bucket) := by
        rw [← hmem, hnil]
        exact not_mem_nil
      rw [← and_assoc]
      simp only [not_mem_nil, false_iff, not_and]
      exact fun h => absurd h hk
    · have horder : ∀ k, k ∈ layout.order impl ↔ k ∈ impl := fun k => (layout.perm impl).mem_iff
      have hagain : type ≠ .normal ∨ (layout.order impl).Nodup :=
        .inr ((layout.perm impl).nodup_iff.2 (c.data.nodup_keys.filter _))
      have hhas : ∀ k ∈ layout.order impl,
          decide (params.bucket k = bucket) = true ∧ (c.data.find? k).isSome := by
        intro k hk
        obtain ⟨hsome, hbucket⟩ := (hmem k).1 ((horder k).1 hk)
        exact ⟨decide_eq_true hbucket, hsome⟩
      obtain ⟨data', calls, hrun, hconv⟩ := convertState_spec hhas hagain
      refine ⟨{ data := data', updatedBuckets := _, cached := [], blocks := c.blocks ++
        convertToBlockImplFinal params type true impl.length calls }, layout.order impl, calls, ?_,
        hconv, rfl, ?_, fun k => ?_, rfl⟩
      · rw [if_neg (by simpa using hnil)]
        simp only [hcached, isEmpty_nil, if_true]
        rw [hrun]
        rfl
      · rw [flatten_append, flatten_convertToBlockImplFinal]
        intro h
        cases h
      · rw [horder, hmem, ← and_assoc]
        exact ⟨fun h => ⟨h, hmarked⟩, fun h => h.1⟩

variable (type layout) in
/-- **The buckets one after the other.** -/
theorem foldlM_convertOneBucketToBlockImpl {buckets : List Bucket} (hnodup : buckets.Nodup)
    (c : TwoLevelConversion K S V) (hcached : c.cached = []) :
    ∃ c' keys calls, buckets.foldlM (convertOneBucketToBlockImpl params type layout) c = .ok c' ∧
      Converted type keys c.data c'.data calls ∧
      c'.blocks.flatten = c.blocks.flatten ++
        (calls.filter fun call => addsRow type call.2).map (callRow params) ∧
      (∀ k, k ∈ keys ↔ (c.data.find? k).isSome ∧ params.bucket k ∈ buckets ∧
        (convertsUpdates type → params.bucket k ∈ c.updatedBuckets)) ∧
      (convertsUpdates type = false → c'.updatedBuckets = c.updatedBuckets) := by
  induction buckets generalizing c with
  | nil => exact ⟨c, [], [], rfl, .nil, by simp, by simp, fun _ => rfl⟩
  | cons bucket buckets ih =>
    obtain ⟨hbucket, hrest⟩ := nodup_cons.1 hnodup
    obtain ⟨c₁, keys₁, calls₁, hrun₁, hconv₁, hcached₁, hflat₁, hkeys₁, hmarks₁⟩ :=
      convertOneBucketToBlockImpl_spec params type layout bucket hcached
    obtain ⟨c₂, keys₂, calls₂, hrun₂, hconv₂, hflat₂, hkeys₂, hmarks₂⟩ := ih hrest c₁ hcached₁
    -- the buckets after the first one keep their marks
    have hmark : ∀ b ∈ buckets, b ∈ c₁.updatedBuckets ↔ b ∈ c.updatedBuckets := by
      intro b hb
      have hne : b ≠ bucket := fun h => hbucket (h ▸ hb)
      rw [hmarks₁]
      split_ifs
      · simp [hne]
      · rfl
    have hkeys : ∀ k, k ∈ keys₂ ↔ (c.data.find? k).isSome ∧ params.bucket k ∈ buckets ∧
        (convertsUpdates type → params.bucket k ∈ c.updatedBuckets) := by
      intro k
      rw [hkeys₂, hconv₁.isSome_find?]
      refine and_congr_right fun _ => and_congr_right fun hb => ?_
      rw [hmark _ hb]
    have hdisj : keys₁.Disjoint keys₂ := by
      intro k h₁ h₂
      have hfirst := ((hkeys₁ k).1 h₁).2.1
      exact hbucket (hfirst ▸ ((hkeys k).1 h₂).2.1)
    refine ⟨c₂, keys₁ ++ keys₂, calls₁ ++ calls₂, ?_, hconv₁.append hconv₂ (.inr hdisj), ?_,
      fun k => ?_, fun htype => ?_⟩
    · rw [foldlM_cons, hrun₁]
      exact hrun₂
    · rw [hflat₂, hflat₁, filter_append, map_append, append_assoc]
    · rw [mem_append, hkeys₁, hkeys, mem_cons]
      constructor
      · rintro (⟨hsome, rfl, hmarked⟩ | ⟨hsome, hb, hmarked⟩)
        · exact ⟨hsome, .inl rfl, hmarked⟩
        · exact ⟨hsome, .inr hb, hmarked⟩
      · rintro ⟨hsome, rfl | hb, hmarked⟩
        · exact .inl ⟨hsome, rfl, hmarked⟩
        · exact .inr ⟨hsome, hb, hmarked⟩
    · rw [hmarks₂ htype, hmarks₁, htype]
      rfl

/-- A conversion of updates leaves no updated group. -/
theorem updated_convertGroup (h : convertsUpdates type) (d : AggregateData S) :
    (convertGroup type d).1.updated = false := by
  cases type with
  | normal => cases h
  | updates => by_cases hupdated : d.updated <;> simp [convertGroup, hupdated]
  | retract => cases h
  | updatesAfterRetract => by_cases hupdated : d.updated <;> simp [convertGroup, hupdated]

/-- Another conversion keeps which groups are updated. -/
theorem updated_convertGroup_of_not (h : convertsUpdates type = false) (d : AggregateData S) :
    (convertGroup type d).1.updated = d.updated := by
  cases type with
  | normal => rfl
  | updates => cases h
  | retract => rfl
  | updatesAfterRetract => cases h

/-- Groups that are not updated have no updates to convert. -/
theorem convertGroup_of_not_updated (h : convertsUpdates type) {d : AggregateData S}
    (hd : d.updated = false) : convertGroup type d = (d, none) := by
  cases type with
  | normal => cases h
  | updates => simp [convertGroup, hd]
  | retract => cases h
  | updatesAfterRetract => simp [convertGroup, hd]

variable (layout) in
/-- **A conversion, group by group.** Cached keys have to include every group with something to
convert, and the hash table must have one level then. -/
theorem doConvertToBlocks_spec {cached : List K} (hmarked : Marked params v)
    (hcached : ∀ k ∈ cached, (v.data.find? k).isSome)
    (hcovers : cached = [] ∨ v.updatedBuckets = none ∧ type ≠ .normal ∧ Covers type cached v.data) :
    ∃ v' blocks, doConvertToBlocks params type layout cached v = .ok (v', blocks) ∧
      Emits params type v v' blocks.flatten := by
  rw [doConvertToBlocks]
  by_cases hempty : v.keys = []
  · -- there are no groups
    have hnone : ∀ k, v.data.find? k = none := fun k => by
      rw [← Option.not_isSome_iff_eq_none, ← mem_keys_iff, hempty]
      exact not_mem_nil
    refine ⟨v, [], if_pos (by simp [hempty]), fun k => by simp [hnone], fun _ => ?_, rfl, hmarked⟩
    exact Listing.nil.congr fun k => by simp [emittedRow, hnone]
  rw [if_neg (by simpa using hempty)]
  cases hlevel : v.updatedBuckets with
  | none =>
    exact prepareBlockAndFillSingleLevel_spec params hlevel hcached (hcovers.imp_right fun h => h.2)
  | some buckets =>
    have hnil : cached = [] := by
      rcases hcovers with hnil | ⟨hone, -⟩
      · exact hnil
      · rw [hlevel] at hone
        cases hone
    subst hnil
    obtain ⟨c, keys, calls, hrun, hconv, hflat, hkeys, hmarks⟩ :=
      foldlM_convertOneBucketToBlockImpl params type layout (nodup_finRange 256)
        { data := v.data, updatedBuckets := buckets, cached := [], blocks := [] } rfl
    have hall : Covers type keys v.data := by
      intro k d hd hk
      rw [hkeys] at hk
      by_cases htype : convertsUpdates type
      · refine convertGroup_of_not_updated htype (Bool.not_eq_true _ ▸ fun hupdated => hk ?_)
        exact ⟨by rw [hd]; rfl, mem_finRange _, fun _ => hmarked buckets hlevel k d hd hupdated⟩
      · exact absurd ⟨by rw [hd]; rfl, mem_finRange _, fun h => absurd h htype⟩ hk
    refine ⟨⟨c.data, some c.updatedBuckets⟩, c.blocks, ?_, hconv.find?_of_covers hall,
      fun _ => ?_, ?_, ?_⟩
    · dsimp only
      rw [hrun]
      rfl
    · rw [hflat]
      exact listing_rows params (hconv.listing_of_covers hall)
    · rw [hlevel]
      rfl
    · intro buckets' hbuckets' k d hd hupdated
      cases hbuckets'
      rw [hconv.find?_of_covers hall, Option.map_eq_some_iff] at hd
      obtain ⟨d, hd, rfl⟩ := hd
      by_cases htype : convertsUpdates type
      · rw [updated_convertGroup htype] at hupdated
        cases hupdated
      · rw [Bool.not_eq_true] at htype
        rw [updated_convertGroup_of_not htype] at hupdated
        rw [hmarks htype]
        exact hmarked buckets hlevel k d hd hupdated

end All

end Proton.Streaming.MemoryAggregator
