import Mathlib.Data.List.TakeWhile
import Proton.LocalLog.EntryParsing
import Proton.LocalLog.LogSegment

/-!
# Parsing a File through a Buffer

This module embeds `FileLogEntries::deserialize`. It reads a view of a file through a buffer of
limited size: the complete entries in the buffer are parsed, the partial one behind them is moved
to its start, and more of the view is read behind it. The buffer grows when a single entry does
not fit it. Parsing stops behind the entry that reaches the size asked for, or in front of the
first entry at the bound on the sequence number.

A view is meant to hold complete entries. The reads go one byte beyond its end; that byte never
starts an entry, because a parse wants more than a length prefix.

The budget of bytes is checked after every parse, also when the buffer held no complete entry.
With a budget of zero the loop therefore ends without the entry that a single parse returns.

## Main results

* `FileLogEntries.deserializeLoop_eq`: the rounds take over what a single parse does.
* `FileLogEntries.deserialize_eq_parseMany_iff`: when the size of the buffer does not show in the
  result.
-/

open ByteReader List Nat

namespace Proton

/-- **What a parse leaves over**: unless it reached the size, the next entry is not complete in
the buffer. -/
theorem completeUntilSize_split (room maxSize : ℕ) (es : List Entry) :
    ∃ rest, es = completeUntilSize room maxSize es ++ rest ∧
      (entriesBytes (completeUntilSize room maxSize es)).length ≤ room ∧
      (maxSize ≤ (entriesBytes (completeUntilSize room maxSize es)).length →
        0 < maxSize → untilSize maxSize es = completeUntilSize room maxSize es) ∧
      ((entriesBytes (completeUntilSize room maxSize es)).length < maxSize →
        untilSize maxSize es = completeUntilSize room maxSize es ++
          untilSize (maxSize - (entriesBytes (completeUntilSize room maxSize es)).length) rest ∧
        (room < (entriesBytes es).length ∨ rest = [])) := by
  induction es generalizing room maxSize with
  | nil => exact ⟨[], rfl, zero_le _, fun _ _ => rfl, fun _ => ⟨rfl, .inr rfl⟩⟩
  | cons e es ih =>
    rw [completeUntilSize, untilSize]
    by_cases hroom : e.serialize.length ≤ room
    · rw [if_pos hroom]
      by_cases hmax : maxSize ≤ e.serialize.length
      · rw [if_pos hmax, if_pos hmax]
        refine ⟨es, rfl, by simpa using hroom, fun _ _ => rfl, fun hlt => ?_⟩
        simp only [entriesBytes_cons, entriesBytes_nil, append_nil] at hlt
        omega
      · obtain ⟨rest, hsplit, hle, hreached, hshort⟩ := ih (room - e.serialize.length)
          (maxSize - e.serialize.length)
        rw [if_neg hmax, if_neg hmax]
        refine ⟨rest, by rw [cons_append, ← hsplit], ?_, ?_, ?_⟩
        · rw [entriesBytes_cons, length_append]
          omega
        · intro hle' _
          rw [entriesBytes_cons, length_append] at hle'
          rw [hreached (by omega) (by omega)]
        · intro hlt
          rw [entriesBytes_cons, length_append] at hlt
          obtain ⟨huntil, hrest⟩ := hshort (by omega)
          refine ⟨?_, hrest.imp_left fun hlt' => ?_⟩
          · rw [huntil, entriesBytes_cons, length_append, Nat.sub_sub, cons_append]
          · rw [entriesBytes_cons, length_append]
            omega
    · rw [if_neg hroom]
      refine ⟨e :: es, rfl, zero_le _, fun hle hpos => ?_, fun _ => ⟨rfl, .inl ?_⟩⟩
      · rw [entriesBytes_nil, length_nil] at hle
        omega
      · rw [entriesBytes_cons, length_append]
        omega

namespace FileLogEntries

/-! ### The source's functions -/

/-- The local variables of `deserialize` that its loop changes. `readBuf` holds the bytes read
into the buffer so far, `bufSize` is its size. -/
structure ReadState where
  bufSize : ℕ
  readBuf : Bytes
  nextConsumingPos : ℕ
  unconsumed : ℕ
  currentFileOffset : ℕ
  deriving DecidableEq, Repr

/-- The first part of `read_more_data`: double the buffer, or move what is unconsumed to its
start when there is no room behind it. -/
def ReadState.makeRoom (r : ReadState) (resize : Bool) : ReadState :=
  if resize then { r with bufSize := r.bufSize * 2 }
  else if r.bufSize = r.nextConsumingPos + r.unconsumed then
    { r with readBuf := r.readBuf.drop r.nextConsumingPos, nextConsumingPos := 0 }
  else r

/-- `read_more_data`: `none` at the end of the file. -/
def readMoreData (f : FileLogEntries) (r : ReadState) (resize : Bool) : Option ReadState :=
  let r := r.makeRoom resize
  let used := r.nextConsumingPos + r.unconsumed
  let data := f.readAt (min (f.endPos - r.currentFileOffset + 1) (r.bufSize - used))
    r.currentFileOffset
  if data = [] then none
  else
    some { r with
      readBuf := r.readBuf.take used ++ data
      unconsumed := r.unconsumed + data.length
      currentFileOffset := r.currentFileOffset + data.length }

/-- The loop of `deserialize`, with what is parsed so far. Every round but the first follows a
read of at least one byte, so the size of the file bounds their number. -/
def deserializeLoop (f : FileLogEntries) (maxSn : ℤ) :
    ℕ → ReadState → ℕ → ParsedMany → ParsedMany
  | 0, _, _, parsed => parsed
  | fuel + 1, r, maxBytesToParse, parsed =>
    let more := Entry.parseMany
      ((r.readBuf.drop r.nextConsumingPos).take (r.unconsumed - r.nextConsumingPos))
      nullVersion maxSn maxBytesToParse parsed.entries
    match more.error with
    | some err => ⟨[], parsed.parsedBytes, some err⟩
    | none =>
      let parsed : ParsedMany := ⟨more.entries, parsed.parsedBytes + more.parsedBytes, none⟩
      if maxBytesToParse ≤ more.parsedBytes then parsed
      else if ∃ back ∈ parsed.entries.getLast?, maxSn ≤ back.sn.toInt + 1 then parsed
      else if r.currentFileOffset ≥ f.endPos then parsed
      else
        let consumed := r.nextConsumingPos + more.parsedBytes
        let r := { r with nextConsumingPos := consumed, unconsumed := r.unconsumed - consumed }
        match f.readMoreData r (r.unconsumed ≥ r.bufSize) with
        | none => parsed
        | some r => deserializeLoop f maxSn fuel r (maxBytesToParse - more.parsedBytes) parsed

/-- `deserialize`: the entries of the view below `maxSn`, until they reach `maxSize` bytes. -/
def deserialize (f : FileLogEntries) (maxSn : ℤ) (maxSize maxBufferSize : ℕ) : ParsedMany :=
  let maxToRead := min (f.endPos - f.startPos) maxBufferSize
  let data := f.readAt maxToRead f.startPos
  if data = [] then ⟨[], 0, none⟩
  else
    f.deserializeLoop maxSn (f.size + 1)
      { bufSize := maxToRead
        readBuf := data
        nextConsumingPos := 0
        unconsumed := data.length
        currentFileOffset := f.startPos + data.length } maxSize ⟨[], 0, none⟩

/-! ### The buffer -/

section Read

variable {f : FileLogEntries} {r : ReadState} {maxSn : ℤ}

/-- The buffer holds the next bytes of the view, which ends behind the entries that are still to
be parsed. -/
structure Buffered (f : FileLogEntries) (r : ReadState) (rest : List Entry) : Prop where
  consumed : r.nextConsumingPos = 0
  unconsumed : r.unconsumed = r.readBuf.length
  bytes : ∃ before after, f.file = before ++ (entriesBytes rest ++ after) ∧
    f.endPos = before.length + (entriesBytes rest).length ∧
    r.readBuf <+: entriesBytes rest ++ after ∧
    r.currentFileOffset = before.length + r.readBuf.length

/-- Between two rounds the buffer is full, unless the view is read to its end. -/
structure Filled (f : FileLogEntries) (r : ReadState) (rest : List Entry) : Prop extends
    Buffered f r rest where
  pos : 0 < r.bufSize
  offset_le : r.currentFileOffset ≤ f.endPos + 1
  full : r.currentFileOffset < f.endPos → r.readBuf.length = r.bufSize

section ReadMore

variable {done rest : List Entry} (h : Filled f r (done ++ rest))
  (hlt : r.currentFileOffset < f.endPos) (hle : (entriesBytes done).length ≤ r.readBuf.length)

include h hlt hle

/-- Making room behind the entries that were parsed. -/
theorem Filled.makeRoom :
    ∃ r', { r with
        nextConsumingPos := (entriesBytes done).length
        unconsumed := r.readBuf.length - (entriesBytes done).length }.makeRoom
          (r.readBuf.length - (entriesBytes done).length ≥ r.bufSize) = r' ∧
      Buffered f r' rest ∧ r'.readBuf.length < r'.bufSize ∧
      r'.currentFileOffset = r.currentFileOffset := by
  have hfull := h.full hlt
  have hpos := h.pos
  obtain ⟨before, after, hfile, hend, hprefix, hoffset⟩ := h.bytes
  refine ⟨_, rfl, ?_⟩
  by_cases hnil : done = []
  · subst hnil
    rw [entriesBytes_nil, length_nil, Nat.sub_zero, ReadState.makeRoom,
      if_pos (decide_eq_true hfull.ge)]
    refine ⟨⟨rfl, rfl, before, after, hfile, hend, hprefix, hoffset⟩, ?_, rfl⟩
    simp only
    omega
  · have hbytes : 0 < (entriesBytes done).length :=
      (length_pos_iff.mpr hnil).trans_le (length_le_length_entriesBytes done)
    rw [ReadState.makeRoom, if_neg (by simp only [decide_eq_true_eq]; omega),
      if_pos (by simp only; omega)]
    refine ⟨⟨rfl, by simp, before ++ entriesBytes done, after, ?_, ?_, ?_, ?_⟩, ?_, rfl⟩
    · rw [hfile, entriesBytes_append, append_assoc, append_assoc]
    · rw [hend, entriesBytes_append, length_append, length_append, add_assoc]
    · rw [entriesBytes_append, append_assoc] at hprefix
      have hdrop := hprefix.drop (entriesBytes done).length
      rwa [drop_left] at hdrop
    · simp only [length_append, length_drop]
      omega
    · simp only [length_drop]
      omega

/-- **Reading more** of a view that is not read to its end. -/
theorem Filled.readMoreData :
    ∃ r', f.readMoreData { r with
        nextConsumingPos := (entriesBytes done).length
        unconsumed := r.readBuf.length - (entriesBytes done).length }
          (r.readBuf.length - (entriesBytes done).length ≥ r.bufSize) = some r' ∧
      Filled f r' rest ∧ r.currentFileOffset < r'.currentFileOffset := by
  obtain ⟨r₁, hroom, hr₁, hspace, hoffset₁⟩ := h.makeRoom hlt hle
  obtain ⟨before, after, hfile, hend, ⟨unread, hunread⟩, hoffset⟩ := hr₁.bytes
  rw [FileLogEntries.readMoreData]
  simp only [hroom]
  rw [hr₁.consumed, hr₁.unconsumed, zero_add, take_length]
  have hsplit : f.file = (before ++ r₁.readBuf) ++ unread := by
    rw [hfile, ← hunread, append_assoc]
  have hdata : ∀ n, f.readAt n r₁.currentFileOffset = unread.take n := by
    intro n
    rw [readAt, hsplit, hoffset, ← length_append, drop_left]
  have hleft : f.endPos - r₁.currentFileOffset ≤ unread.length := by
    have := congrArg length hunread
    simp only [length_append] at this
    omega
  rw [hdata]
  have hlength := length_take (i := min (f.endPos - r₁.currentFileOffset + 1)
    (r₁.bufSize - r₁.readBuf.length)) (l := unread)
  rw [if_neg (by rw [← length_eq_zero_iff]; omega)]
  refine ⟨_, rfl, ⟨⟨rfl, by simp, before, after, hfile, hend, ?_, ?_⟩, ?_, ?_, ?_⟩, ?_⟩
  · rw [← hunread]
    exact (prefix_append_right_inj _).mpr ⟨_, take_append_drop _ _⟩
  · simp only [length_append]
    omega
  · simp only
    omega
  · simp only
    omega
  · simp only [length_append]
    omega
  · simp only
    omega

end ReadMore

/-- One parse of the buffer. -/
theorem Filled.parseMany {rest : List Entry} (h : Filled f r rest) (hfit : ∀ e ∈ rest, e.Fits)
    (maxSn : ℤ) (maxSize : ℕ) (entries : List Entry) :
    Entry.parseMany
        ((r.readBuf.drop r.nextConsumingPos).take (r.unconsumed - r.nextConsumingPos))
        nullVersion maxSn maxSize entries =
      ⟨entries ++ completeUntilSize r.readBuf.length maxSize (belowSn maxSn rest),
        (entriesBytes (completeUntilSize r.readBuf.length maxSize (belowSn maxSn rest))).length,
        none⟩ := by
  obtain ⟨before, after, hfile, hend, hprefix, hoffset⟩ := h.bytes
  have hle := h.offset_le
  have hlength := hprefix.length_le
  rw [length_append] at hlength
  -- at most one byte behind the view is in the buffer
  have hshort : r.readBuf.length ≤ (entriesBytes rest ++ after.take 1).length := by
    rw [length_append, length_take]
    omega
  have hbuf : r.readBuf = (entriesBytes rest ++ after.take 1).take r.readBuf.length := by
    have hshorter : entriesBytes rest ++ after.take 1 <+: entriesBytes rest ++ after :=
      (prefix_append_right_inj _).mpr ⟨_, take_append_drop _ _⟩
    exact prefix_iff_eq_take.mp (prefix_of_prefix_length_le hprefix hshorter hshort)
  have htail : (after.take 1).length ≤ prefixLengthSize := by
    rw [length_take, prefixLengthSize]
    omega
  have hparse := Entry.parseMany_eq htail hfit hshort maxSn maxSize entries
  rw [← hbuf] at hparse
  rwa [h.consumed, h.unconsumed, drop_zero, Nat.sub_zero, take_length]

/-- Behind the last entry below the bound there is none. -/
theorem rest_eq_nil_of_getLast {sn : ℤ} {entries rest : List Entry} {back : Entry}
    (hsn : ContiguousFrom sn (entries ++ rest)) (hmaxSn : ∀ e ∈ rest, e.sn.toInt < maxSn)
    (hback : entries.getLast? = some back) (hle : maxSn ≤ back.sn.toInt + 1) : rest = [] := by
  rw [contiguousFrom_append] at hsn
  cases rest with
  | nil => rfl
  | cons e rest =>
    have hlast := hsn.1.getLast hback
    have hnext : e.sn.toInt = sn + entries.length := hsn.2.1
    have := hmaxSn e mem_cons_self
    omega

/-- The entries below the bound come first. -/
theorem exists_append_belowSn (maxSn : ℤ) (es : List Entry) :
    ∃ rest, es = belowSn maxSn es ++ rest :=
  ⟨_, takeWhile_append_dropWhile.symm⟩

/-- They take no more bytes. -/
theorem length_entriesBytes_belowSn_le (maxSn : ℤ) (es : List Entry) :
    (entriesBytes (belowSn maxSn es)).length ≤ (entriesBytes es).length := by
  obtain ⟨above, habove⟩ := exists_append_belowSn maxSn es
  have hbytes := congrArg (fun es => (entriesBytes es).length) habove
  simp only [entriesBytes_append, length_append] at hbytes
  omega

/-- **The loop of `deserialize`** takes over the entries below the bound until they reach the
size. The induction is on the number of rounds: each one parses the entries that are complete in
the buffer and leaves a full buffer, of which nothing is parsed, to the next. -/
theorem deserializeLoop_eq {sn : ℤ} (fuel : ℕ) {entries rest : List Entry} {parsedBytes : ℕ}
    (h : Filled f r rest) (hfit : ∀ e ∈ rest, e.Fits) (hsn : ContiguousFrom sn (entries ++ rest))
    (hfuel : f.endPos + 1 < r.currentFileOffset + fuel) {maxSize : ℕ} (hmax : 0 < maxSize) :
    f.deserializeLoop maxSn fuel r maxSize ⟨entries, parsedBytes, none⟩ =
      ⟨entries ++ untilSize maxSize (belowSn maxSn rest),
        parsedBytes + (entriesBytes (untilSize maxSize (belowSn maxSn rest))).length, none⟩ := by
  induction fuel generalizing r entries rest parsedBytes maxSize with
  | zero =>
    have := h.offset_le
    omega
  | succ fuel ih =>
    obtain ⟨before, after, hfile, hend, hprefix, hoffset⟩ := h.bytes
    rw [deserializeLoop]
    simp only [h.parseMany hfit maxSn maxSize entries]
    obtain ⟨above, habove⟩ := exists_append_belowSn maxSn rest
    obtain ⟨low', hsplit, hle, hreached, hshort⟩ :=
      completeUntilSize_split r.readBuf.length maxSize (belowSn maxSn rest)
    obtain ⟨done, hdone⟩ :
        ∃ done, completeUntilSize r.readBuf.length maxSize (belowSn maxSn rest) = done :=
      ⟨_, rfl⟩
    rw [hdone] at hsplit hle hreached hshort
    rw [hdone]
    split
    next hstop => rw [hreached hstop hmax]
    next hmore =>
      obtain ⟨huntil, hrest⟩ := hshort (by omega)
      have hlow : ∀ e ∈ done ++ low', e.sn.toInt < maxSn := by
        intro e he
        rw [← hsplit] at he
        have hpos := mem_takeWhile_imp he
        exact of_decide_eq_true hpos
      have hsplit' : rest = done ++ (low' ++ above) := by
        rw [← append_assoc, ← hsplit]
        exact habove
      have hlow' : belowSn maxSn (low' ++ above) = low' := by
        -- behind entries below the bound, the bound is looked for in the rest
        rw [hsplit', belowSn, takeWhile_append_of_pos fun e he =>
          decide_eq_true (hlow e (mem_append_left _ he))] at hsplit
        exact append_cancel_left hsplit
      rw [hsplit', ← append_assoc] at hsn
      -- the two ways to be done with parsing leave no entry below the bound behind
      have hdoneAll : low' = [] → untilSize maxSize (belowSn maxSn rest) = done := by
        rintro rfl
        rw [huntil, untilSize, append_nil]
      split
      next hlast =>
        obtain ⟨back, hback, hbackSn⟩ := hlast
        rw [← append_assoc, contiguousFrom_append] at hsn
        rw [hdoneAll (rest_eq_nil_of_getLast hsn.1
          (fun e he => hlow e (mem_append_right _ he)) hback hbackSn)]
      · split
        next hread =>
          have hall := length_entriesBytes_belowSn_le maxSn rest
          rw [hdoneAll (hrest.resolve_left (by omega))]
        next hread =>
          have hfilled : Filled f r (done ++ (low' ++ above)) := hsplit' ▸ h
          obtain ⟨r', hr', hfilled', hprogress⟩ := hfilled.readMoreData (Nat.lt_of_not_le hread) hle
          rw [h.consumed, h.unconsumed]
          simp only [zero_add, hr']
          rw [ih hfilled' (fun e he => hfit e (hsplit' ▸ mem_append_right _ he)) hsn
            (by omega) (by omega), hlow', huntil, entriesBytes_append, length_append,
            append_assoc, add_assoc]

section View

variable {before after : Bytes} {es : List Entry} {maxBufferSize : ℕ}
  (hfile : f.file = before ++ (entriesBytes es ++ after)) (hstart : f.startPos = before.length)
  (hend : f.endPos = before.length + (entriesBytes es).length) (hes : es ≠ [])
  (hbuffer : 0 < maxBufferSize)

include hfile hstart hend hes hbuffer

/-- **The first read** fills the buffer, and leaves the rest to the loop. -/
theorem deserialize_eq_loop (maxSn : ℤ) (maxSize : ℕ) :
    ∃ r, f.deserialize maxSn maxSize maxBufferSize =
        f.deserializeLoop maxSn (f.size + 1) r maxSize ⟨[], 0, none⟩ ∧ Filled f r es ∧
      r.readBuf.length = min (entriesBytes es).length maxBufferSize ∧
      f.endPos + 1 < r.currentFileOffset + (f.size + 1) := by
  have htoRead : f.endPos - f.startPos = (entriesBytes es).length := by omega
  have hpos := (length_pos_iff.2 hes).trans_le (length_le_length_entriesBytes es)
  obtain ⟨n, hn⟩ : ∃ n, min (entriesBytes es).length maxBufferSize = n := ⟨_, rfl⟩
  have hdata : f.readAt n f.startPos = (entriesBytes es ++ after).take n := by
    rw [readAt, hfile, hstart, drop_left]
  have hlength : ((entriesBytes es ++ after).take n).length = n := by
    rw [length_take, length_append]
    omega
  have hsize : f.size = before.length + (entriesBytes es).length + after.length := by
    rw [size, hfile, length_append, length_append, add_assoc]
  refine ⟨⟨n, (entriesBytes es ++ after).take n, 0, n, f.startPos + n⟩, ?_, ?_, ?_, ?_⟩
  · have hne : (entriesBytes es ++ after).take n ≠ [] := by
      rw [← length_pos_iff]
      omega
    rw [deserialize, htoRead, hn, hdata, if_neg hne, hlength]
  · refine ⟨⟨rfl, hlength.symm, before, after, hfile, hend, take_prefix _ _, ?_⟩, ?_, ?_,
      fun _ => hlength⟩
    · simp only [hlength, hstart]
    · simp only
      omega
    · simp only
      omega
  · rw [hn]
    exact hlength
  · simp only
    omega

/-- **Reading a view of complete entries** with a budget: the entries below the bound until they
reach it, whatever the size of the buffer. -/
theorem deserialize_eq {sn : ℤ} (hfit : ∀ e ∈ es, e.Fits) (hsn : ContiguousFrom sn es)
    {maxSize : ℕ} (hmax : 0 < maxSize) :
    f.deserialize maxSn maxSize maxBufferSize =
      ⟨untilSize maxSize (belowSn maxSn es),
        (entriesBytes (untilSize maxSize (belowSn maxSn es))).length, none⟩ := by
  obtain ⟨r, hloop, hfilled, -, hfuel⟩ :=
    deserialize_eq_loop hfile hstart hend hes hbuffer maxSn maxSize
  rw [hloop, deserializeLoop_eq (f.size + 1) hfilled hfit hsn hfuel hmax, nil_append, zero_add]

/-- Without a budget, the first parse is the only one. -/
theorem deserialize_zero (hfit : ∀ e ∈ es, e.Fits) :
    f.deserialize maxSn 0 maxBufferSize =
      let parsed := completeUntilSize (min (entriesBytes es).length maxBufferSize) 0
        (belowSn maxSn es)
      ⟨parsed, (entriesBytes parsed).length, none⟩ := by
  obtain ⟨r, hloop, hfilled, hlength, -⟩ :=
    deserialize_eq_loop hfile hstart hend hes hbuffer maxSn 0
  rw [hloop, deserializeLoop]
  simp only [hfilled.parseMany hfit maxSn 0 [], hlength, zero_le, if_true, nil_append, zero_add]

end View

/-- Without a budget, a parse takes over the first entry if it is below the bound and
complete. -/
theorem completeUntilSize_zero_iff {room : ℕ} (e : Entry) (es : List Entry) :
    completeUntilSize room 0 (belowSn maxSn (e :: es)) =
        untilSize 0 (belowSn maxSn (e :: es)) ↔
      (e.sn.toInt < maxSn → e.serialize.length ≤ room) := by
  rcases lt_or_ge e.sn.toInt maxSn with hlt | hge
  · rw [belowSn_cons_of_lt hlt, completeUntilSize, untilSize]
    by_cases hroom : e.serialize.length ≤ room
    · simp [hroom]
    · simp [hlt]
  · simp [belowSn_cons_of_le hge, completeUntilSize, untilSize, not_lt.2 hge]

/-- A view that holds the bytes of entries, as a part of its file. -/
theorem exists_file_eq {es : List Entry} (hle : f.startPos ≤ f.endPos) (hend : f.endPos ≤ f.size)
    (hbytes : f.readAt (f.endPos - f.startPos) f.startPos = entriesBytes es) :
    ∃ before after, f.file = before ++ (entriesBytes es ++ after) ∧
      f.startPos = before.length ∧ f.endPos = before.length + (entriesBytes es).length := by
  have hbefore : (f.file.take f.startPos).length = f.startPos := length_take_of_le (hle.trans hend)
  refine ⟨f.file.take f.startPos, f.file.drop f.endPos, ?_, hbefore.symm, ?_⟩
  · calc f.file = f.file.take f.startPos ++ f.file.drop f.startPos :=
          (take_append_drop _ _).symm
      _ = f.file.take f.startPos ++ ((f.file.drop f.startPos).take (f.endPos - f.startPos) ++
            (f.file.drop f.startPos).drop (f.endPos - f.startPos)) := by
          rw [take_append_drop (f.endPos - f.startPos)]
      _ = f.file.take f.startPos ++ (entriesBytes es ++ f.file.drop f.endPos) := by
          rw [← hbytes, readAt, drop_drop, Nat.add_sub_cancel' hle]
  · rw [hbefore, ← hbytes, readAt, length_take, length_drop]
    rw [size] at hend
    omega

/-- One parse of the whole view. -/
theorem parseMany_view {es : List Entry} (hfit : ∀ e ∈ es, e.Fits) (maxSn : ℤ) (maxSize : ℕ) :
    Entry.parseMany (entriesBytes es) nullVersion maxSn maxSize [] =
      ⟨untilSize maxSize (belowSn maxSn es),
        (entriesBytes (untilSize maxSize (belowSn maxSn es))).length, none⟩ := by
  have hparse := Entry.parseMany_eq (zero_le _) hfit (le_refl (entriesBytes es ++ []).length)
    maxSn maxSize []
  rw [take_length, append_nil,
    completeUntilSize_of_le (length_entriesBytes_belowSn_le maxSn es)] at hparse
  exact hparse

/-- **Buffered parsing.** The bytes of a view hold entries with contiguous sequence numbers. One
parse of the whole view gives the shortest run of them that reaches the size, one entry at least,
cut before the bound. Parsing through a buffer gives the same entries and the same number of bytes
if and only if the size is not zero or the first entry, if it is below the bound, fits the
buffer. -/
theorem deserialize_eq_parseMany_iff (f : FileLogEntries) (sn : ℤ) (es : List Entry)
    (hle : f.startPos ≤ f.endPos) (hend : f.endPos ≤ f.size)
    (hbytes : f.readAt (f.endPos - f.startPos) f.startPos = entriesBytes es)
    (hfit : ∀ e ∈ es, e.Fits) (hsn : ContiguousFrom sn es) (maxSn : ℤ) (maxSize : ℕ)
    {maxBufferSize : ℕ} (hbuffer : 1 ≤ maxBufferSize) :
    Entry.parseMany (f.readAt (f.endPos - f.startPos) f.startPos) nullVersion maxSn maxSize [] =
        ⟨untilSize maxSize (belowSn maxSn es),
          (entriesBytes (untilSize maxSize (belowSn maxSn es))).length, none⟩ ∧
      (f.deserialize maxSn maxSize maxBufferSize =
          Entry.parseMany (f.readAt (f.endPos - f.startPos) f.startPos) nullVersion maxSn maxSize
            [] ↔
        0 < maxSize ∨
          ∀ e ∈ es.head?, e.sn.toInt < maxSn → e.serialize.length ≤ maxBufferSize) := by
  obtain ⟨before, after, hfile, hstart, hend'⟩ := exists_file_eq hle hend hbytes
  rw [hbytes, parseMany_view hfit]
  refine ⟨rfl, ?_⟩
  cases es with
  | nil =>
    have hread : f.readAt (min (f.endPos - f.startPos) maxBufferSize) f.startPos = [] := by
      rw [hend', hstart, entriesBytes_nil, length_nil, Nat.add_zero, Nat.sub_self,
        zero_min, readAt, take_zero]
    have hnone : f.deserialize maxSn maxSize maxBufferSize = ⟨[], 0, none⟩ := by
      rw [deserialize, hread, if_pos rfl]
    exact ⟨fun _ => .inr (by simp), fun _ => hnone⟩
  | cons e es =>
    rcases Nat.eq_zero_or_pos maxSize with rfl | hmax
    · have hroom : e.serialize.length ≤ (entriesBytes (e :: es)).length := by
        rw [entriesBytes_cons, length_append]
        omega
      rw [deserialize_zero hfile hstart hend' (cons_ne_nil _ _) hbuffer hfit]
      simp only [ParsedMany.mk.injEq, and_true, lt_irrefl, false_or, head?_cons,
        Option.mem_some_iff, forall_eq']
      constructor
      · rintro ⟨heq, -⟩ hlt
        exact ((completeUntilSize_zero_iff e es).1 heq hlt).trans (min_le_right _ _)
      · intro hfits
        have heq := (completeUntilSize_zero_iff e es).2 fun hlt =>
          le_min hroom (hfits hlt)
        exact ⟨heq, congrArg (fun es => (entriesBytes es).length) heq⟩
    · have heq : f.deserialize maxSn maxSize maxBufferSize = _ :=
        deserialize_eq hfile hstart hend' (cons_ne_nil _ _) hbuffer hfit hsn hmax
      exact ⟨fun _ => .inl hmax, fun _ => heq⟩

/-- A file of three entries, read through a buffer of one byte up to the second one. -/
theorem deserialize_eq_parseMany_oneByte :
    let es : List Entry := [{}, { sn := 1 }, { sn := 2 }]
    (⟨entriesBytes es, 0, 36⟩ : FileLogEntries).deserialize 9 13 1 =
        Entry.parseMany (entriesBytes es) nullVersion 9 13 [] ∧
      Entry.parseMany (entriesBytes es) nullVersion 9 13 [] = ⟨[{}, { sn := 1 }], 24, none⟩ :=
  ⟨(deserialize_eq_parseMany_iff ⟨entriesBytes [{}, { sn := 1 }, { sn := 2 }], 0, 36⟩ 0
    [{}, { sn := 1 }, { sn := 2 }] (by decide) (by decide) (by decide) (by decide) (by decide) 9 13
    (le_refl 1)).2.2 (.inl (by decide)), by decide⟩

/-- **No budget**: parsed at once, a file of one entry gives its entry; through a buffer of one byte
it gives nothing, and through one of twelve bytes its entry again. -/
example :
    Entry.parseMany (entriesBytes [{}]) nullVersion 1 0 [] = ⟨[{}], 12, none⟩ ∧
      (⟨entriesBytes [{}], 0, 12⟩ : FileLogEntries).deserialize 1 0 1 = ⟨[], 0, none⟩ ∧
      (⟨entriesBytes [{}], 0, 12⟩ : FileLogEntries).deserialize 1 0 12 = ⟨[{}], 12, none⟩ := by
  decide

end Read

end FileLogEntries

end Proton
