import Proton.Streaming.Aggregator.MemoryAggregator

/-!
# Global Aggregation

This module embeds `GlobalAggregatingTransform` for an aggregation with keys that emits updates or
a changelog: several transforms share their data variants, each of them aggregates the blocks it
consumes in its own variant, and any of them finalizes all of them. A block is aggregated and a
finalization is made under locks, so that an execution is a sequence of these steps.

Which watermarks lead to a finalization is left open: the results hold for every sequence of steps.
-/

namespace Proton.Streaming

open MemoryAggregator

/-- The parameters of the transforms. -/
structure GlobalAggregatingParams (K A S V : Type) extends AggregatorParams K A S V where
  /-- `emit_changelog`. Without it, only updates are emitted. -/
  emitChangelog : Bool
  /-- `enable_keys_cache`. -/
  enableKeysCache : Bool

/-- The data that `n` transforms share, and what each of them has. -/
structure GlobalAggregation (n : ℕ) (K S : Type) [LinearOrder K] where
  /-- `variants`. -/
  variants : Fin n → DataVariants K S
  /-- The field of `ManyAggregatedData`, `retract_enabled`. -/
  retractEnabled : Bool
  /-- `processed_keys_columns`. -/
  processedKeysColumns : Fin n → List K
  /-- `keys_cache_enabled` of each transform. -/
  keysCacheEnabled : Fin n → Bool

/-- A step of a transform. -/
inductive GlobalStep (n : ℕ) (K A : Type) where
  /-- The transform consumes a block. -/
  | consume (transform : Fin n) (block : List (KeyedRow K A))
  /-- The transform finalizes; the hash tables have a layout. -/
  | finalize (transform : Fin n) (layout : Layout K)

namespace GlobalAggregation

variable {n : ℕ} {K A S V : Type} [LinearOrder K] [AddCommGroup S]
  (params : GlobalAggregatingParams K A S V)

/-- Nothing has been consumed. -/
def new : GlobalAggregation n K S where
  variants _ := .new
  retractEnabled := false
  processedKeysColumns _ := []
  keysCacheEnabled _ := false

/-- `executeColumns`. -/
def executeColumns (i : Fin n) (block : List (KeyedRow K A)) (s : GlobalAggregation n K S) :
    GlobalAggregation n K S :=
  { s with
    processedKeysColumns :=
      if params.enableKeysCache && s.keysCacheEnabled i then
        Function.update s.processedKeysColumns i
          (s.processedKeysColumns i ++ block.map (·.1.1))
      else s.processedKeysColumns
    variants := Function.update s.variants i
      (executeOnBlock params.toAggregatorParams s.retractEnabled block (s.variants i)) }

/-- `consume`, for a block without a watermark. -/
def consume (i : Fin n) (block : List (KeyedRow K A)) (s : GlobalAggregation n K S) :
    GlobalAggregation n K S :=
  if block.isEmpty then s else executeColumns params i block s

/-- The cached keys of all transforms. -/
def cached (s : GlobalAggregation n K S) : List K :=
  (List.finRange n).flatMap s.processedKeysColumns

/-- `AggregatingHelper::mergeAndConvertToChangelogChunks` and `mergeAndConvertUpdatesToChunks`: the
only variant is not merged. -/
def convert (i : Fin n) (layout : Layout K) (s : GlobalAggregation n K S) :
    Except AggregatorError ((Fin n → DataVariants K S) × List ((K × V) × ℤ)) :=
  if n = 1 then do
    let (v, rows) ← convertToBlocks params.toAggregatorParams params.emitChangelog layout
      (s.processedKeysColumns i) (s.variants i)
    pure (Function.update s.variants i v, rows)
  else mergeAndConvertToBlocks params.toAggregatorParams params.emitChangelog layout s.cached
    s.variants

/-- `finalize`: the rows that are emitted. Retractions are enabled after something was emitted; the
keys cache of the transform is enabled. -/
def finalize (i : Fin n) (layout : Layout K) (s : GlobalAggregation n K S) :
    Except AggregatorError (GlobalAggregation n K S × List ((K × V) × ℤ)) := do
  let (variants, rows) ← s.convert params i layout
  pure ({
    variants
    retractEnabled := s.retractEnabled || (params.emitChangelog && !rows.isEmpty)
    processedKeysColumns := fun _ => []
    keysCacheEnabled :=
      if params.enableKeysCache then Function.update s.keysCacheEnabled i true
      else s.keysCacheEnabled }, rows)

/-- A step: the state afterwards, and the rows that are emitted if it is a finalization. -/
def step (a : GlobalStep n K A) (s : GlobalAggregation n K S) :
    Except AggregatorError (GlobalAggregation n K S × List ((K × V) × ℤ)) :=
  match a with
  | .consume i block => pure (s.consume params i block, [])
  | .finalize i layout => s.finalize params i layout

/-- Steps one after the other: the state afterwards, and the rows that each step emits. -/
def run : List (GlobalStep n K A) → GlobalAggregation n K S →
    Except AggregatorError (GlobalAggregation n K S × List (List ((K × V) × ℤ)))
  | [], s => pure (s, [])
  | a :: steps, s => do
    let (s, rows) ← s.step params a
    let (s, rest) ← run steps s
    pure (s, rows :: rest)

/-! ### Runs -/

/-- The rows that a step consumes. -/
def consumedRows : GlobalStep n K A → List (KeyedRow K A)
  | .consume _ block => block
  | .finalize _ _ => []

/-- The condition holds before every step, given the rows that were consumed until then. -/
def Along (guard : List (KeyedRow K A) → GlobalAggregation n K S → GlobalStep n K A → Prop) :
    List (KeyedRow K A) → GlobalAggregation n K S → List (GlobalStep n K A) → Prop
  | _, _, [] => True
  | rows, s, a :: steps =>
    guard rows s a ∧
      match s.step params a with
      | .error _ => True
      | .ok (s, _) => Along guard (rows ++ consumedRows a) s steps

instance decidableAlong
    {guard : List (KeyedRow K A) → GlobalAggregation n K S → GlobalStep n K A → Prop}
    [∀ rows s a, Decidable (guard rows s a)] :
    (rows : List (KeyedRow K A)) → (s : GlobalAggregation n K S) →
    (steps : List (GlobalStep n K A)) →
      Decidable (Along params guard rows s steps)
  | _, _, [] => isTrue trivial
  | rows, s, a :: steps =>
    match h : s.step params a with
    | .error _ => decidable_of_iff (guard rows s a) (by simp only [Along, h, and_true])
    | .ok (s', _) =>
      haveI : Decidable (Along params guard (rows ++ consumedRows a) s' steps) :=
        decidableAlong _ _ _
      decidable_of_iff (guard rows s a ∧ Along params guard (rows ++ consumedRows a) s' steps)
        (by simp only [Along, h])

variable {params}

/-- One step and the others. -/
theorem run_cons {a : GlobalStep n K A} {steps : List (GlobalStep n K A)}
    {s s₁ s₂ : GlobalAggregation n K S} {out : List ((K × V) × ℤ)}
    {outs : List (List ((K × V) × ℤ))}
    (hstep : s.step params a = .ok (s₁, out)) (hrun : run params steps s₁ = .ok (s₂, outs)) :
    run params (a :: steps) s = .ok (s₂, out :: outs) := by
  rw [run, hstep]
  change (run params steps s₁ >>= _) = _
  rw [hrun]
  rfl

/-- **The invariant rule**: if every step returns and keeps what holds of the rows consumed, the
rows emitted and the state, then a run returns, and what its last step achieves holds at its end. -/
theorem run_invariant
    {guard : List (KeyedRow K A) → GlobalAggregation n K S → GlobalStep n K A → Prop}
    {I : List (KeyedRow K A) → List ((K × V) × ℤ) → GlobalAggregation n K S → Prop}
    {J : GlobalStep n K A → List (KeyedRow K A) → GlobalAggregation n K S → Prop}
    {last : GlobalStep n K A}
    (hstep : ∀ rows emitted s a, I rows emitted s → guard rows s a → ∃ s' out,
      s.step params a = .ok (s', out) ∧ I (rows ++ consumedRows a) (emitted ++ out) s' ∧
        J a (rows ++ consumedRows a) s')
    {steps : List (GlobalStep n K A)} {rows : List (KeyedRow K A)} {emitted : List ((K × V) × ℤ)}
    {s : GlobalAggregation n K S} (h : I rows emitted s)
    (hguard : Along params guard rows s (steps ++ [last])) :
    ∃ s' out, run params (steps ++ [last]) s = .ok (s', out) ∧
      I (rows ++ (steps ++ [last]).flatMap consumedRows) (emitted ++ out.flatten) s' ∧
      J last (rows ++ (steps ++ [last]).flatMap consumedRows) s' := by
  induction steps generalizing rows emitted s with
  | nil =>
    obtain ⟨s', out, hrun, hJ⟩ := hstep rows emitted s last h hguard.1
    exact ⟨s', [out], run_cons hrun rfl, by simpa using hJ⟩
  | cons a steps ih =>
    obtain ⟨hfirst, hrest⟩ := hguard
    obtain ⟨s₁, out₁, hrun₁, h₁, -⟩ := hstep rows emitted s a h hfirst
    rw [hrun₁] at hrest
    obtain ⟨s₂, out₂, hrun₂, h₂⟩ := ih h₁ hrest
    refine ⟨s₂, out₁ :: out₂, run_cons hrun₁ hrun₂, ?_⟩
    rw [List.cons_append, List.flatMap_cons, List.flatten_cons, ← List.append_assoc,
      ← List.append_assoc]
    exact h₂

end GlobalAggregation

end Proton.Streaming
