import Mathlib

/-!
# Computations whose failures keep their writes

A function that mutates several maps through `&mut` references and returns early with an error
leaves behind whatever it wrote before the error. `EStateM ε σ` is exactly that: both
`Result.ok` and `Result.error` carry the state, and nothing rolls back.

`check` runs a check that touches no state. `bind_eq_ok` and `bind_eq_error` take a sequence
of such computations apart; they are the only facts about the monad the proofs use.
-/

set_option autoImplicit false

namespace Outcome

variable {ε σ α β : Type}

/-- A check that reads and writes no state. -/
def check (x : Except ε α) : EStateM ε σ α := fun s =>
  match x with
  | .ok a => .ok a s
  | .error e => .error e s

/-- The state a computation leaves, whether it returned or failed. -/
def stateOf : EStateM.Result ε σ α → σ
  | .ok _ s => s
  | .error _ s => s

/-- What a computation returned, if it did. -/
def valueOf : EStateM.Result ε σ α → Option α
  | .ok a _ => some a
  | .error _ _ => none

theorem eq_ok_of_valueOf {r : EStateM.Result ε σ α} {a : α} (h : valueOf r = some a) :
    r = .ok a (stateOf r) := by
  cases r with
  | ok b s => cases h; rfl
  | error e s => exact absurd h (by simp [valueOf])

@[simp] theorem stateOf_ok (a : α) (s : σ) :
    stateOf (.ok a s : EStateM.Result ε σ α) = s := rfl

@[simp] theorem stateOf_error (e : ε) (s : σ) :
    stateOf (.error e s : EStateM.Result ε σ α) = s := rfl

theorem bind_apply (x : EStateM ε σ α) (f : α → EStateM ε σ β) (s : σ) :
    (x >>= f) s = match x s with
      | .ok a s' => f a s'
      | .error e s' => .error e s' := rfl

theorem bind_eq_ok {x : EStateM ε σ α} {f : α → EStateM ε σ β} {s s' : σ} {b : β} :
    (x >>= f) s = .ok b s' ↔ ∃ a s₁, x s = .ok a s₁ ∧ f a s₁ = .ok b s' := by
  rw [bind_apply]
  constructor
  · intro h
    cases hx : x s with
    | ok a s₁ => rw [hx] at h; exact ⟨a, s₁, rfl, h⟩
    | error e s₁ => rw [hx] at h; exact absurd h (by simp)
  · rintro ⟨a, s₁, hx, hf⟩
    rw [hx]
    exact hf

theorem bind_eq_error {x : EStateM ε σ α} {f : α → EStateM ε σ β} {s s' : σ} {e : ε} :
    (x >>= f) s = .error e s' ↔
      x s = .error e s' ∨ ∃ a s₁, x s = .ok a s₁ ∧ f a s₁ = .error e s' := by
  rw [bind_apply]
  cases hx : x s with
  | ok a s₁ => simp
  | error e' s₁ => simp

@[simp] theorem check_eq_ok {x : Except ε α} {s s' : σ} {a : α} :
    check x s = .ok a s' ↔ x = .ok a ∧ s' = s := by
  cases x <;> simp [check, eq_comm]

@[simp] theorem check_eq_error {x : Except ε α} {s s' : σ} {e : ε} :
    check x s = .error e s' ↔ x = .error e ∧ s' = s := by
  cases x <;> simp [check, eq_comm]

/-! ## Checks alone -/

/-- Two checks in sequence succeed when the first does and the second does on its result. -/
theorem except_bind_eq_ok {first : Except ε α} {next : α → Except ε β} {result : β} :
    first >>= next = .ok result ↔ ∃ a, first = .ok a ∧ next a = .ok result := by
  rcases first with e | a
  · constructor
    · intro h
      exact absurd h (by simp [bind, Except.bind])
    · rintro ⟨_, h, -⟩
      exact absurd h (by simp)
  · constructor
    · intro h
      exact ⟨a, rfl, h⟩
    · rintro ⟨_, h, hn⟩
      cases h
      exact hn

theorem except_map_eq_ok {x : Except ε α} {f : α → β} {result : β} :
    x.map f = .ok result ↔ ∃ a, x = .ok a ∧ f a = result := by
  rcases x with e | a <;> simp [Except.map]

/-- A check that ran and whose result passes a test. -/
theorem ok_of_any {x : Except ε α} {p : α → Bool} (h : x.toOption.any p = true) :
    ∃ a, x = .ok a ∧ p a = true := by
  rcases x with e | a
  · exact absurd h (by simp [Except.toOption])
  · exact ⟨a, rfl, h⟩

end Outcome
