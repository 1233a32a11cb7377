import Curs3d.Lib.KeyMap

/-!
# Amounts by key

A ledger maps keys to amounts, a missing key to 0. Its total can be taken over any set of keys, given as
a test (`totalOf`): writing one key moves the total of every set that has the key by the difference
(`totalOf_insert`), and moving an amount from one key to another moves it between the sets that have
the one and those that have the other (`totalOf_move`). Conservation, solvency and "no more than the
supply" are such totals, over all keys, the keys of one asset or the keys that did something.
-/

set_option autoImplicit false

open Std

namespace Ledger

variable {α : Type} {cmp : α → α → Ordering} [TransCmp cmp] [LawfulEqCmp cmp] [DecidableEq α]

/-- The amount under `k`. -/
def amount (m : ExtTreeMap α Nat cmp) (k : α) : Nat := m[k]?.getD 0

/-- The total over the keys that pass `p`. -/
def totalOf (p : α → Bool) (m : ExtTreeMap α Nat cmp) : Nat :=
  ((m.toList.filter fun e => p e.1).map Prod.snd).sum

variable {m m' : ExtTreeMap α Nat cmp} {p q : α → Bool} {k a b : α} {n v : Nat}

omit [LawfulEqCmp cmp] [DecidableEq α] in
@[simp] theorem amount_empty : amount (∅ : ExtTreeMap α Nat cmp) k = 0 := by
  simp [amount]

omit [DecidableEq α] in
theorem totalOf_eq_zero (h : ∀ k, p k → m[k]? = none) : totalOf p m = 0 := by
  have hnil : (m.toList.filter fun e => p e.1) = [] := by
    apply List.filter_eq_nil_iff.mpr
    intro e he hp
    rw [ExtTreeMap.mem_toList_iff_getElem?_eq_some, h e.1 hp] at he
    exact absurd he (by simp)
  simp [totalOf, hnil]

theorem amount_insert : amount (m.insert a v) k = if a = k then v else amount m k := by
  simp only [amount, KeyMap.getElem?_insert_eq]
  split <;> rfl

/-- One key's part of a total. -/
theorem totalOf_eq_erase : totalOf p m = (if p a then amount m a else 0) + totalOf p (m.erase a) := by
  cases ha : m[a]? with
  | none =>
    rw [KeyMap.erase_eq_self_of_none ha]
    simp [amount, ha]
  | some w =>
    have hperm := (((KeyMap.toList_perm_of_some ha).filter fun e => p e.1).map Prod.snd).sum_eq
    simp only [totalOf, hperm, List.filter_cons, amount, ha]
    split <;> simp

/-- **Writing one key moves the totals that have it by the difference.** -/
theorem totalOf_insert : totalOf p (m.insert a v) + (if p a then amount m a else 0) =
    totalOf p m + (if p a then v else 0) := by
  have hnew : totalOf p (m.insert a v) = (if p a then v else 0) + totalOf p (m.erase a) := by
    have hperm := (((KeyMap.toList_insert_perm m a v).filter fun e => p e.1).map Prod.snd).sum_eq
    simp only [totalOf, hperm, List.filter_cons]
    split <;> simp
  have hold := @totalOf_eq_erase α cmp _ _ _ m p a
  omega

/-- One amount is within every total that has its key. -/
theorem amount_le_totalOf (h : p k) : amount m k ≤ totalOf p m := by
  have hwrite := @totalOf_insert α cmp _ _ _ m p k 0
  rw [if_pos h, if_pos h] at hwrite
  omega

theorem amount_erase : amount (m.erase a) k = if a = k then 0 else amount m k := by
  simp only [amount, KeyMap.getElem?_erase_eq]
  split <;> rfl

/-- Amounts that are smaller key by key have the smaller total. -/
theorem totalOf_le_totalOf (h : ∀ k, amount m k ≤ amount m' k) : totalOf p m ≤ totalOf p m' := by
  induction hsize : m.size generalizing m m' with
  | zero =>
    rw [ExtTreeMap.eq_empty_iff_size_eq_zero.mpr hsize, totalOf_eq_zero (by simp)]
    exact Nat.zero_le _
  | succ n ih =>
    have hne : m ≠ ∅ := by
      intro heq
      rw [ExtTreeMap.eq_empty_iff_size_eq_zero, hsize] at heq
      exact absurd heq (Nat.succ_ne_zero n)
    rw [Ne, ExtTreeMap.eq_empty_iff_forall_not_mem, not_forall_not] at hne
    obtain ⟨a, ha⟩ := hne
    have hrest : totalOf p (m.erase a) ≤ totalOf p (m'.erase a) := by
      apply ih
      · intro k
        simp only [amount_erase]
        split
        · exact Nat.le_refl _
        · exact h k
      · rw [ExtTreeMap.size_erase, ExtTreeMap.contains_iff_mem.mpr ha, hsize]
        rfl
    rw [@totalOf_eq_erase α cmp _ _ _ m p a, @totalOf_eq_erase α cmp _ _ _ m' p a]
    have hread := h a
    split <;> omega

/-! ## Moving an amount -/

/-- The debit first, then the credit on what the debit left. -/
def move (m : ExtTreeMap α Nat cmp) (source recipient : α) (n : Nat) : ExtTreeMap α Nat cmp :=
  let debited := m.insert source (amount m source - n)
  debited.insert recipient (amount debited recipient + n)

/-- **A move takes its amount from the sets with the source to the sets with the recipient.** -/
theorem totalOf_move (h : n ≤ amount m a) : totalOf p (move m a b n) + (if p a then n else 0) =
    totalOf p m + (if p b then n else 0) := by
  have hdebit := @totalOf_insert α cmp _ _ _ m p a (amount m a - n)
  have hcredit := @totalOf_insert α cmp _ _ _ (m.insert a (amount m a - n)) p b
    (amount (m.insert a (amount m a - n)) b + n)
  simp only [move]
  split at hdebit <;> split at hcredit <;> simp_all <;> omega

theorem amount_move (h : n ≤ amount m a) :
    amount (move m a b n) k + (if a = k then n else 0) = amount m k + (if b = k then n else 0) := by
  simp only [move, amount_insert]
  by_cases ha : a = k
  · subst ha
    by_cases hb : b = a
    · subst hb
      simp only [if_true]
      omega
    · simp only [if_true, if_neg hb]
      omega
  · by_cases hb : b = k
    · subst hb
      simp only [if_true, if_neg ha]
      omega
    · simp only [if_neg ha, if_neg hb]

end Ledger
