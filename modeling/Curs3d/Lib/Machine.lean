import Mathlib

/-!
# Saturating and wrapping 64-bit arithmetic, on `Nat`

Unsigned 64-bit quantities are carried as natural numbers, and the ways a 64-bit
operation can leave the range are written out where a program takes them:

* `satAdd`/`satMul` stop at `u64Max` (`saturating_add`, `saturating_mul`);
* `wrapAdd`/`wrapMul`/`wrapSum` reduce modulo `2 ^ 64` (the unchecked operators of a release
  build); `checkedAdd`/`checkedMul`/`checkedDiv` say where a build with overflow checks panics.

`saturating_sub` needs no definition: truncated subtraction on `Nat` is it.

The lemmas are the ones a proof about such code asks for: a saturated result that is still
below the top was never saturated (`satAdd_eq_add_of_lt`, `satMul_eq_mul_of_lt`), two
saturating additions may be swapped (`satAdd_right_comm`), a wrapping sum below the top
is the sum (`wrapSum_eq_sum`), and what did not panic did not wrap (`wrapAdd_of_checkedAdd`).
-/

set_option autoImplicit false

namespace U64

/-- `u64::MAX`. -/
def u64Max : Nat := 18446744073709551615

/-- `2 ^ 64`, the modulus of the wrapping operators. -/
def modulus : Nat := 18446744073709551616

/-- `a.saturating_add(b)`. -/
def satAdd (a b : Nat) : Nat := min (a + b) u64Max

/-- `a.saturating_mul(b)`. -/
def satMul (a b : Nat) : Nat := min (a * b) u64Max

/-- `a + b` in a release build. -/
def wrapAdd (a b : Nat) : Nat := (a + b) % modulus

/-- `a * b` in a release build. -/
def wrapMul (a b : Nat) : Nat := (a * b) % modulus

/-- `iter.sum::<u64>()` in a release build. -/
def wrapSum (l : List Nat) : Nat := l.foldl wrapAdd 0

/-! ## Saturation -/

theorem satAdd_le_add (a b : Nat) : satAdd a b ≤ a + b := Nat.min_le_left _ _

theorem satMul_le_mul (a b : Nat) : satMul a b ≤ a * b := Nat.min_le_left _ _

theorem satAdd_le_u64Max (a b : Nat) : satAdd a b ≤ u64Max := Nat.min_le_right _ _

theorem satMul_le_u64Max (a b : Nat) : satMul a b ≤ u64Max := Nat.min_le_right _ _

/-- A sum that stopped below the top did not saturate. -/
theorem satAdd_eq_add_of_lt {a b : Nat} (h : satAdd a b < u64Max) : satAdd a b = a + b := by
  unfold satAdd at *
  omega

theorem satMul_eq_mul_of_lt {a b : Nat} (h : satMul a b < u64Max) : satMul a b = a * b := by
  unfold satMul at *
  omega

theorem satAdd_eq_add_of_le {a b : Nat} (h : a + b ≤ u64Max) : satAdd a b = a + b :=
  Nat.min_eq_left h

theorem satMul_eq_mul_of_le {a b : Nat} (h : a * b ≤ u64Max) : satMul a b = a * b :=
  Nat.min_eq_left h

/-- Saturating additions onto one accumulator commute: both orders stop at the same total. -/
theorem satAdd_right_comm (a b c : Nat) :
    satAdd (satAdd a b) c = satAdd (satAdd a c) b := by
  unfold satAdd
  omega

@[simp] theorem satAdd_zero_of_le {a : Nat} (h : a ≤ u64Max) : satAdd a 0 = a := by
  unfold satAdd
  omega

/-- A saturating addition leaves its left operand alone exactly when nothing was added or
the operand already sat at the top. -/
theorem satAdd_eq_left_iff {a b : Nat} : satAdd a b = a ↔ (b = 0 ∧ a ≤ u64Max) ∨ a = u64Max := by
  unfold satAdd
  omega

theorem satMul_eq_zero_iff {a b : Nat} : satMul a b = 0 ↔ a = 0 ∨ b = 0 := by
  unfold satMul u64Max
  rw [← Nat.mul_eq_zero]
  omega

/-! ## Wrapping sums -/

theorem foldl_wrapAdd (l : List Nat) (acc : Nat) (hacc : acc < modulus) :
    l.foldl wrapAdd acc = (acc + l.sum) % modulus := by
  induction l generalizing acc with
  | nil => simp [Nat.mod_eq_of_lt hacc]
  | cons x xs ih =>
    have hx : wrapAdd acc x < modulus := Nat.mod_lt _ (by decide)
    rw [List.foldl_cons, ih _ hx, List.sum_cons, wrapAdd, Nat.mod_add_mod, Nat.add_assoc]

/-- Below the modulus the wrapping sum is the sum. -/
theorem wrapSum_eq_sum {l : List Nat} (h : l.sum < modulus) : wrapSum l = l.sum := by
  rw [wrapSum, foldl_wrapAdd l 0 (by decide), Nat.zero_add, Nat.mod_eq_of_lt h]

theorem wrapSum_le_sum (l : List Nat) : wrapSum l ≤ l.sum := by
  rw [wrapSum, foldl_wrapAdd l 0 (by decide), Nat.zero_add]
  exact Nat.mod_le _ _

/-- The order of the summands does not matter. -/
theorem wrapSum_perm {l l' : List Nat} (h : l.Perm l') : wrapSum l = wrapSum l' := by
  rw [wrapSum, wrapSum, foldl_wrapAdd l 0 (by decide), foldl_wrapAdd l' 0 (by decide), h.sum_eq]

/-! ## Checked operators -/

/-- `a + b` in a build with overflow checks; `none` is the panic. -/
def checkedAdd (a b : Nat) : Option Nat := if a + b < modulus then some (a + b) else none

/-- `a * b` in a build with overflow checks. -/
def checkedMul (a b : Nat) : Option Nat := if a * b < modulus then some (a * b) else none

/-- `a / b`, which panics on zero in every build. -/
def checkedDiv (a b : Nat) : Option Nat := if b = 0 then none else some (a / b)

theorem checkedAdd_eq_some_iff {a b c : Nat} :
    checkedAdd a b = some c ↔ a + b < modulus ∧ a + b = c := by
  unfold checkedAdd
  split <;> simp_all

theorem checkedMul_eq_some_iff {a b c : Nat} :
    checkedMul a b = some c ↔ a * b < modulus ∧ a * b = c := by
  unfold checkedMul
  split <;> simp_all

theorem checkedDiv_eq_some_iff {a b c : Nat} : checkedDiv a b = some c ↔ b ≠ 0 ∧ a / b = c := by
  unfold checkedDiv
  split <;> simp_all

end U64
