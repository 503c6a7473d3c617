import Mathlib.Tactic.Common

/-!
# Related Computations

Two computations that may fail are related if both fail, with related errors, or both return related
values.

## Main results

* `ExceptRel.bind`: related computations followed by related ones are related.
* `ExceptRel.foldlM`: a loop that carries related values.
-/

variable {ε ε' α β α' β' γ : Type}

/-- Both computations fail with related errors, or return related values. -/
inductive ExceptRel (error : ε → ε' → Prop) (value : α → β → Prop) :
    Except ε α → Except ε' β → Prop
  | error {e : ε} {e' : ε'} (h : error e e') : ExceptRel error value (.error e) (.error e')
  | ok {a : α} {b : β} (h : value a b) : ExceptRel error value (.ok a) (.ok b)

namespace ExceptRel

variable {error : ε → ε' → Prop} {value : α → β → Prop} {value' : α' → β' → Prop}

/-- Every result is equal to itself. -/
theorem refl_eq (x : Except ε α) : ExceptRel Eq Eq x x := by
  cases x with
  | error e => exact .error rfl
  | ok a => exact .ok rfl

/-- What is related to a value is a value. -/
theorem exists_ok {x : Except ε α} {b : β} (h : ExceptRel error value x (.ok b : Except ε' β)) :
    ∃ a, x = .ok a ∧ value a b := by
  cases h with
  | ok h => exact ⟨_, rfl, h⟩

/-- Both steps of a computation that succeeds do. -/
theorem bind_eq_ok {x : Except ε α} {f : α → Except ε β} {b : β} :
    x >>= f = .ok b ↔ ∃ a, x = .ok a ∧ f a = .ok b := by
  cases x with
  | error e =>
    constructor
    · intro h
      cases h
    · rintro ⟨_, heq, _⟩
      cases heq
  | ok a =>
    constructor
    · exact fun h => ⟨a, rfl, h⟩
    · rintro ⟨_, heq, h⟩
      cases heq
      exact h

/-- A computation whose second value is known. -/
theorem exists_of_map_snd {x : Except ε (α × β)} {b : β} (h : x.map (·.2) = .ok b) :
    ∃ a, x = .ok (a, b) := by
  cases x with
  | error e => cases h
  | ok r =>
    obtain rfl := Except.ok.inj h
    exact ⟨r.1, rfl⟩

/-- **One computation after the other.** -/
theorem bind {x : Except ε α} {y : Except ε' β} (h : ExceptRel error value x y)
    {f : α → Except ε α'} {g : β → Except ε' β'}
    (hfg : ∀ a b, value a b → ExceptRel error value' (f a) (g b)) :
    ExceptRel error value' (x >>= f) (y >>= g) := by
  cases h with
  | error h => exact .error h
  | ok h => exact hfg _ _ h

/-- A loop that carries a value. -/
theorem foldlM {f : α → γ → Except ε α} {g : β → γ → Except ε' β} {l : List γ}
    (hfg : ∀ a b, ∀ c ∈ l, value a b → ExceptRel error value (f a c) (g b c)) {a : α} {b : β}
    (hab : value a b) : ExceptRel error value (l.foldlM f a) (l.foldlM g b) := by
  induction l generalizing a b with
  | nil => exact .ok hab
  | cons c l ih =>
    exact (hfg a b c List.mem_cons_self hab).bind fun _ _ h =>
      ih (fun a b c hc => hfg a b c (List.mem_cons_of_mem _ hc)) h

/-- A loop whose steps do not fail. -/
theorem foldlM_eq_ok {f : α → β → Except ε α} {g : α → β → α} {l : List β}
    (h : ∀ b ∈ l, ∀ a, f a b = .ok (g a b)) (a : α) : l.foldlM f a = .ok (l.foldl g a) := by
  induction l generalizing a with
  | nil => rfl
  | cons b l ih =>
    rw [List.foldlM_cons, h b List.mem_cons_self]
    exact ih (fun c hc => h c (List.mem_cons_of_mem _ hc)) _

end ExceptRel
