import Curs3d.Lib.Outcome

/-!
# Reverts and checked arithmetic

A Solidity function returns or reverts, and a revert undoes what the call wrote: `Except (Revert ε)`
over the contract's own errors `ε`. The operators of Solidity 0.8 revert outside the range of a
`uint256` (`add`, `sub`, `mul`) or a `uint64` (`add64`), `require` is a check with an error of the contract's own, and `bubble` is a call of
another contract, whose revert becomes the caller's.
-/

set_option autoImplicit false

namespace Solidity

/-- The 160 bits of an account. -/
abbrev Address := Nat

/-- `type(uint256).max`. -/
def uint256Max : Nat := 2 ^ 256 - 1

/-- Why a call was undone. -/
inductive Revert (ε : Type) where
  | custom (error : ε)
  | arithmetic
  | callee
deriving DecidableEq, Repr

variable {ε α : Type}

def require (p : Prop) [Decidable p] (error : ε) : Except (Revert ε) Unit :=
  if p then .ok () else .error (.custom error)

def add (a b : Nat) : Except (Revert ε) Nat :=
  if a + b ≤ uint256Max then .ok (a + b) else .error .arithmetic

def sub (a b : Nat) : Except (Revert ε) Nat :=
  if b ≤ a then .ok (a - b) else .error .arithmetic

def mul (a b : Nat) : Except (Revert ε) Nat :=
  if a * b ≤ uint256Max then .ok (a * b) else .error .arithmetic

/-- `type(uint64).max`. -/
def uint64Max : Nat := 2 ^ 64 - 1

/-- An addition of two `uint64`. -/
def add64 (a b : Nat) : Except (Revert ε) Nat :=
  if a + b ≤ uint64Max then .ok (a + b) else .error .arithmetic

def bubble (result : Option α) : Except (Revert ε) α :=
  match result with
  | some a => .ok a
  | none => .error .callee

variable {p : Prop} [Decidable p] {error : ε} {a b n : Nat} {x : Option α} {y : α} {u : Unit}

@[simp] theorem require_eq_ok : require p error = .ok u ↔ p := by
  simp only [require]
  split <;> simp [*]

@[simp] theorem add_eq_ok : (add a b : Except (Revert ε) Nat) = .ok n ↔
    a + b ≤ uint256Max ∧ a + b = n := by
  simp only [add]
  split <;> simp [*]

@[simp] theorem add64_eq_ok : (add64 a b : Except (Revert ε) Nat) = .ok n ↔
    a + b ≤ uint64Max ∧ a + b = n := by
  simp only [add64]
  split <;> simp [*]

@[simp] theorem sub_eq_ok : (sub a b : Except (Revert ε) Nat) = .ok n ↔ b ≤ a ∧ a - b = n := by
  simp only [sub]
  split <;> simp [*]

@[simp] theorem mul_eq_ok : (mul a b : Except (Revert ε) Nat) = .ok n ↔
    a * b ≤ uint256Max ∧ a * b = n := by
  simp only [mul]
  split <;> simp [*]

@[simp] theorem bubble_eq_ok : (bubble x : Except (Revert ε) α) = .ok y ↔ x = some y := by
  cases x <;> simp [bubble]

/-! ## Totals over a mapping -/

/-- The values of a mapping, of which finitely many are not zero, add up to `n`. -/
def SumsTo (f : Address → Nat) (n : Nat) : Prop :=
  ∃ keys : Finset Address, (∀ a, a ∉ keys → f a = 0) ∧ ∑ a ∈ keys, f a = n

theorem sumsTo_zero : SumsTo (fun _ => 0) 0 := ⟨∅, fun _ _ => rfl, rfl⟩

/-- The keys may be any more. -/
theorem SumsTo.insert {f : Address → Nat} (h : SumsTo f n) (a : Address) :
    ∃ keys : Finset Address, a ∈ keys ∧ (∀ b, b ∉ keys → f b = 0) ∧ ∑ b ∈ keys, f b = n := by
  obtain ⟨keys, hzero, hsum⟩ := h
  refine ⟨Insert.insert a keys, Finset.mem_insert_self a keys, ?_, ?_⟩
  · intro b hb
    exact hzero b fun hmem => hb (Finset.mem_insert_of_mem hmem)
  · rw [Finset.sum_insert_of_eq_zero_if_notMem (hzero a)]
    exact hsum

theorem SumsTo.le {f : Address → Nat} (h : SumsTo f n) (a : Address) : f a ≤ n := by
  obtain ⟨keys, hmem, -, rfl⟩ := h.insert a
  exact Finset.single_le_sum (fun b _ => Nat.zero_le (f b)) hmem

/-- **A write moves the total by the difference at its key.** -/
theorem SumsTo.update {f : Address → Nat} (h : SumsTo f n) (a : Address) (v : Nat) :
    SumsTo (Function.update f a v) (n - f a + v) := by
  obtain ⟨keys, hmem, hzero, rfl⟩ := h.insert a
  refine ⟨keys, ?_, ?_⟩
  · intro b hb
    have hne : b ≠ a := fun heq => hb (by rwa [heq])
    rw [Function.update_of_ne hne]
    exact hzero b hb
  · rw [Finset.sum_update_of_mem hmem, Finset.sum_eq_add_sum_sdiff_singleton_of_mem hmem f,
      Nat.add_sub_cancel_left, Nat.add_comm]

end Solidity
