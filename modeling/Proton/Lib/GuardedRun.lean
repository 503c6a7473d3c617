import Mathlib.Logic.Relation

/-!
# Guarded Runs

A machine is a function from a state and an action to the next state, and a guard says which
actions a run may take in a state. The runs are the reflexive transitive closure of the
guarded steps.

## Main results

* `GuardedRun.invariant`: what every guarded step keeps holds in every state of a run.
* `GuardedRun.Along.reflTransGen`: a list of actions whose guards hold one after the other
  is a run.
-/

namespace GuardedRun

variable {σ α : Type*} (step : σ → α → σ) (guard : σ → α → Prop)

/-- A guarded step. -/
def Step (s s' : σ) : Prop :=
  ∃ a, guard s a ∧ step s a = s'

/-- The guards of a list of actions hold one after the other. -/
def Along : σ → List α → Prop
  | _, [] => True
  | s, a :: actions => guard s a ∧ Along (step s a) actions

instance decidableAlong [∀ s a, Decidable (guard s a)] :
    (s : σ) → (actions : List α) → Decidable (Along step guard s actions)
  | _, [] => isTrue trivial
  | s, a :: actions =>
    haveI := decidableAlong (step s a) actions
    inferInstanceAs (Decidable (_ ∧ _))

variable {step guard}

/-- **The invariant rule.** -/
theorem invariant {I : σ → Prop} (hstep : ∀ s a, I s → guard s a → I (step s a))
    {s₀ s : σ} (h : I s₀) (hrun : Relation.ReflTransGen (Step step guard) s₀ s) : I s := by
  induction hrun with
  | refl => exact h
  | tail _ hlast ih =>
    obtain ⟨a, hguard, rfl⟩ := hlast
    exact hstep _ a ih hguard

/-- A list of actions is a run when its guards hold one after the other. -/
theorem Along.reflTransGen {s : σ} {actions : List α} (h : Along step guard s actions) :
    Relation.ReflTransGen (Step step guard) s (actions.foldl step s) := by
  induction actions generalizing s with
  | nil => exact .refl
  | cons a actions ih => exact .head ⟨a, h.1, rfl⟩ (ih h.2)

/-- One more action is guarded. -/
theorem along_concat {s : σ} {actions : List α} {a : α} :
    Along step guard s (actions ++ [a]) ↔
      Along step guard s actions ∧ guard (actions.foldl step s) a := by
  induction actions generalizing s with
  | nil => simp [Along]
  | cons b actions ih =>
    rw [List.cons_append, Along, ih, Along, and_assoc]
    rfl

end GuardedRun
