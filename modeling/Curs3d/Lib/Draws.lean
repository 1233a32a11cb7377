import Mathlib

/-!
# Drawing without replacement

Round `k` offers a chooser what was drawn before; a `Fair` one draws something of the pool that was not
drawn yet for as long as there is any, and nothing afterwards. Whatever it prefers in each round, as many
draws as the pool is large are the pool in some order (`drawn_perm`), and further rounds draw nothing
(`drawn_of_le`).
-/

set_option autoImplicit false

namespace Draws

variable {κ : Type} {pool : List κ} {choose : Nat → List κ → Option κ} {k n : Nat}

/-- Every round draws something left in the pool, if anything is. -/
structure Fair (pool : List κ) (choose : Nat → List κ → Option κ) : Prop where
  draws : ∀ {k : Nat} {taken : List κ}, (∃ x ∈ pool, x ∉ taken) →
    ∃ x, choose k taken = some x ∧ x ∈ pool ∧ x ∉ taken
  stops : ∀ {k : Nat} {taken : List κ}, (∀ x ∈ pool, x ∈ taken) → choose k taken = none

/-- What the first rounds drew, newest first. -/
def drawn (choose : Nat → List κ → Option κ) : Nat → List κ
  | 0 => []
  | k + 1 =>
    match choose k (drawn choose k) with
    | some x => x :: drawn choose k
    | none => drawn choose k

theorem drawn_succ_of_some {x : κ} (h : choose k (drawn choose k) = some x) :
    drawn choose (k + 1) = x :: drawn choose k := by
  rw [drawn, h]

theorem drawn_succ_of_none (h : choose k (drawn choose k) = none) :
    drawn choose (k + 1) = drawn choose k := by
  rw [drawn, h]

namespace Fair

variable (h : Fair pool choose)

include h

theorem drawn_nodup_subset (k : Nat) : (drawn choose k).Nodup ∧ drawn choose k ⊆ pool := by
  induction k with
  | zero => exact ⟨List.nodup_nil, List.nil_subset _⟩
  | succ k ih =>
    obtain ⟨hnodup, hsub⟩ := ih
    by_cases hleft : ∃ x ∈ pool, x ∉ drawn choose k
    · obtain ⟨x, hx, hmem, hnew⟩ := h.draws hleft
      rw [drawn_succ_of_some hx]
      exact ⟨List.nodup_cons.mpr ⟨hnew, hnodup⟩, List.cons_subset.mpr ⟨hmem, hsub⟩⟩
    · push Not at hleft
      rw [drawn_succ_of_none (h.stops hleft)]
      exact ⟨hnodup, hsub⟩

/-- Before the pool is used up every round draws. -/
theorem length_drawn (hpool : pool.Nodup) (hk : k ≤ pool.length) : (drawn choose k).length = k := by
  induction k with
  | zero => rfl
  | succ k ih =>
    have hlength := ih (by omega)
    have hleft : ∃ x ∈ pool, x ∉ drawn choose k := by
      by_contra hnone
      push Not at hnone
      have hall := (List.subperm_of_subset hpool hnone).length_le
      omega
    obtain ⟨x, hx, -, -⟩ := h.draws (k := k) hleft
    rw [drawn_succ_of_some hx, List.length_cons, hlength]

/-- **As many draws as the pool is large are the pool.** -/
theorem drawn_perm (hpool : pool.Nodup) : (drawn choose pool.length).Perm pool := by
  obtain ⟨hnodup, hsub⟩ := h.drawn_nodup_subset pool.length
  exact (List.subperm_of_subset hnodup hsub).perm_of_length_le
    (h.length_drawn hpool (Nat.le_refl _)).ge

/-- Further rounds draw nothing. -/
theorem drawn_of_le (hpool : pool.Nodup) (hle : pool.length ≤ n) :
    drawn choose n = drawn choose pool.length := by
  induction n, hle using Nat.le_induction with
  | base => rfl
  | succ n hle ih =>
    have hall : ∀ x ∈ pool, x ∈ drawn choose n := by
      intro x hx
      rw [ih]
      exact (h.drawn_perm hpool).symm.subset hx
    rw [drawn_succ_of_none (h.stops hall), ih]

/-- Each round draws what the next list starts with. -/
theorem map_drawn (hpool : pool.Nodup) (hn : n ≤ pool.length) :
    (List.range n).map (fun k => (drawn choose (k + 1)).head?) =
      (drawn choose n).reverse.map some := by
  induction n with
  | zero => rfl
  | succ n ih =>
    have hlength := h.length_drawn hpool hn
    obtain hnone | ⟨x, hx⟩ := Option.eq_none_or_eq_some (choose n (drawn choose n))
    · rw [drawn_succ_of_none hnone, h.length_drawn hpool (by omega)] at hlength
      omega
    · rw [List.range_succ, List.map_append, ih (by omega), drawn_succ_of_some hx]
      simp [drawn_succ_of_some hx]

/-- **The draws of the rounds are the pool, in some order.** -/
theorem map_drawn_perm (hpool : pool.Nodup) :
    ((List.range pool.length).map fun k => (drawn choose (k + 1)).head?).Perm (pool.map some) := by
  rw [h.map_drawn hpool (Nat.le_refl _)]
  exact ((List.reverse_perm _).trans (h.drawn_perm hpool)).map some

end Fair

end Draws
