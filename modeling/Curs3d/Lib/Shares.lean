import Mathlib

/-!
# Shares of a pool

A pool of `assets` with `shares` outstanding has the price `assets / shares`. Putting in `a` for `s` new
shares keeps the price from falling when the depositor pays at least the price (`price_le_grow_iff`),
and paying out `a` for `s` shares does when the holder gets at most the price (`price_le_shrink_iff`).
A share count rounded down always favours the pool on the way in (`floor_le`), and on the way out only
when there was nothing to round (`le_floor_iff`).
-/

set_option autoImplicit false

namespace Shares

variable {assets shares a s : Nat}

/-- Prices are compared across. -/
theorem price_le_iff {assets' shares' : Nat} (h : 0 < shares) (h' : 0 < shares') :
    (assets : ℚ) / shares ≤ (assets' : ℚ) / shares' ↔ assets * shares' ≤ assets' * shares := by
  have hq : (0 : ℚ) < shares := by exact_mod_cast h
  have hq' : (0 : ℚ) < shares' := by exact_mod_cast h'
  rw [div_le_div_iff₀ hq hq']
  exact_mod_cast Iff.rfl

theorem price_le_grow_iff (h : 0 < shares) :
    (assets : ℚ) / shares ≤ ((assets + a : Nat) : ℚ) / ((shares + s : Nat) : ℚ) ↔
      assets * s ≤ a * shares := by
  rw [price_le_iff h (Nat.add_pos_left h s), Nat.mul_add, Nat.add_mul]
  exact Nat.add_le_add_iff_left

theorem price_le_shrink_iff (ha : a ≤ assets) (hs : s < shares) :
    (assets : ℚ) / shares ≤ ((assets - a : Nat) : ℚ) / ((shares - s : Nat) : ℚ) ↔
      a * shares ≤ assets * s := by
  rw [price_le_iff (Nat.zero_lt_of_lt hs) (Nat.sub_pos_of_lt hs), Nat.mul_sub, Nat.sub_mul]
  have hpaid : a * shares ≤ assets * shares := Nat.mul_le_mul_right shares ha
  have hburnt : assets * s ≤ assets * shares := Nat.mul_le_mul_left assets hs.le
  omega

theorem floor_le : assets * (a * shares / assets) ≤ a * shares := Nat.mul_div_le _ _

theorem le_floor_iff : a * shares ≤ assets * (a * shares / assets) ↔ assets ∣ a * shares := by
  constructor
  · intro h
    exact ⟨a * shares / assets, Nat.le_antisymm h floor_le⟩
  · intro h
    exact (Nat.mul_div_cancel' h).ge

end Shares
