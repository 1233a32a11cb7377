import Curs3d.Lib.Ledger

/-!
# A standard token

The fungible token of ERC-20, without fees and without a change of balances of its own: a transfer moves
exactly its amount, spending an allowance uses it up unless it is the largest number (which stands
for "without limit"), and nothing else moves a balance. The total of the balances is therefore fixed
(`totalSupply_call`), and an account that never calls the token and never approved anybody can only
receive (`balanceOf_call_of_idle`).
-/

set_option autoImplicit false

open Std

variable {α : Type} {cmp : α → α → Ordering}

structure Erc20 (α : Type) (cmp : α → α → Ordering) where
  balances : ExtTreeMap α Nat cmp := ∅
  allowance : α → α → Nat := fun _ _ => 0

namespace Erc20

section Calls

variable [TransCmp cmp] [DecidableEq α]

/-- The allowance that is not used up. -/
def unlimited : Nat := 2 ^ 256 - 1

def balanceOf (t : Erc20 α cmp) (a : α) : Nat := Ledger.amount t.balances a

def totalSupply (t : Erc20 α cmp) : Nat := Ledger.totalOf (fun _ => true) t.balances

def transfer (t : Erc20 α cmp) (sender recipient : α) (n : Nat) : Option (Erc20 α cmp) :=
  if n ≤ t.balanceOf sender then
    some { t with balances := Ledger.move t.balances sender recipient n }
  else none

def setAllowance (t : Erc20 α cmp) (owner spender : α) (n : Nat) : Erc20 α cmp :=
  { t with allowance := fun o s => if o = owner ∧ s = spender then n else t.allowance o s }

def approve (t : Erc20 α cmp) (owner spender : α) (n : Nat) : Option (Erc20 α cmp) :=
  some (t.setAllowance owner spender n)

def spendAllowance (t : Erc20 α cmp) (owner spender : α) (n : Nat) : Option (Erc20 α cmp) :=
  if t.allowance owner spender = unlimited then some t
  else if n ≤ t.allowance owner spender then
    some (t.setAllowance owner spender (t.allowance owner spender - n))
  else none

def transferFrom (t : Erc20 α cmp) (spender owner recipient : α) (n : Nat) :
    Option (Erc20 α cmp) := do
  let t' ← t.spendAllowance owner spender n
  t'.transfer owner recipient n

/-- The calls that change a token. -/
inductive Call (α : Type) where
  | transfer (recipient : α) (n : Nat)
  | approve (spender : α) (n : Nat)
  | transferFrom (owner recipient : α) (n : Nat)

def call (t : Erc20 α cmp) (sender : α) : Call α → Option (Erc20 α cmp)
  | .transfer recipient n => t.transfer sender recipient n
  | .approve spender n => t.approve sender spender n
  | .transferFrom owner recipient n => t.transferFrom sender owner recipient n

/-- Who pays whom and how much, for the calls that move something. -/
def Call.movement (sender : α) : Call α → Option (α × α × Nat)
  | .transfer recipient n => some (sender, recipient, n)
  | .approve _ _ => none
  | .transferFrom owner recipient n => some (owner, recipient, n)

end Calls

variable [TransCmp cmp] [LawfulEqCmp cmp] [DecidableEq α]
variable {t t' : Erc20 α cmp} {a b c owner spender sender recipient : α} {n : Nat}

omit [LawfulEqCmp cmp] [DecidableEq α] in
theorem transfer_eq_some (h : t.transfer sender recipient n = some t') :
    n ≤ t.balanceOf sender ∧ t' = { t with balances := Ledger.move t.balances sender recipient n } := by
  simp only [transfer] at h
  split at h
  · next hn =>
    cases h
    exact ⟨hn, rfl⟩
  · exact absurd h (by simp)

omit [TransCmp cmp] [LawfulEqCmp cmp] in
theorem spendAllowance_eq_some (h : t.spendAllowance owner spender n = some t') :
    t'.balances = t.balances ∧ (n ≤ t.allowance owner spender ∨
      t.allowance owner spender = unlimited) ∧
      ∀ o s, t'.allowance o s ≤ t.allowance o s := by
  simp only [spendAllowance] at h
  split at h
  · next hall =>
    cases h
    exact ⟨rfl, Or.inr hall, fun o s => Nat.le_refl _⟩
  split at h
  · next hn =>
    cases h
    refine ⟨rfl, Or.inl hn, ?_⟩
    intro o s
    simp only [setAllowance]
    split
    · next heq =>
      obtain ⟨rfl, rfl⟩ := heq
      exact Nat.sub_le _ _
    · exact Nat.le_refl _
  · exact absurd h (by simp)

omit [LawfulEqCmp cmp] in
theorem transferFrom_eq_some (h : t.transferFrom spender owner recipient n = some t') :
    n ≤ t.balanceOf owner ∧ t'.balances = Ledger.move t.balances owner recipient n ∧
      (n ≤ t.allowance owner spender ∨ t.allowance owner spender = unlimited) ∧
      ∀ o s, t'.allowance o s ≤ t.allowance o s := by
  simp only [transferFrom, Option.bind_eq_bind, Option.bind_eq_some_iff] at h
  obtain ⟨t₁, hspend, htransfer⟩ := h
  obtain ⟨hbalances, hallowed, hless⟩ := spendAllowance_eq_some hspend
  obtain ⟨hn, rfl⟩ := transfer_eq_some htransfer
  rw [balanceOf, hbalances] at hn
  exact ⟨hn, by rw [hbalances], hallowed, hless⟩

omit [LawfulEqCmp cmp] in
/-- **What a call does**: it approves and moves nothing, or it moves an amount that the owner has and
that the sender may move. -/
theorem call_cases {k : Call α} (h : t.call sender k = some t') :
    (t'.balances = t.balances ∧ ∀ o, o ≠ sender → ∀ s, t'.allowance o s = t.allowance o s) ∨
    ∃ owner recipient n, n ≤ t.balanceOf owner ∧
      t'.balances = Ledger.move t.balances owner recipient n ∧
      (owner = sender ∨ n ≤ t.allowance owner sender ∨ t.allowance owner sender = unlimited) ∧
      ∀ o s, t'.allowance o s ≤ t.allowance o s := by
  cases k with
  | transfer recipient n =>
    obtain ⟨hn, rfl⟩ := transfer_eq_some h
    exact Or.inr ⟨sender, recipient, n, hn, rfl, Or.inl rfl, fun o s => Nat.le_refl _⟩
  | approve spender n =>
    cases h
    refine Or.inl ⟨rfl, ?_⟩
    intro o ho s
    simp [setAllowance, ho]
  | transferFrom owner recipient n =>
    obtain ⟨hn, hbalances, hallowed, hless⟩ := transferFrom_eq_some h
    exact Or.inr ⟨owner, recipient, n, hn, hbalances, Or.inr hallowed, hless⟩

omit [LawfulEqCmp cmp] in
theorem call_movement {k : Call α} (h : t.call sender k = some t') :
    match k.movement sender with
    | none => t'.balances = t.balances
    | some (owner, recipient, n) =>
      n ≤ t.balanceOf owner ∧ t'.balances = Ledger.move t.balances owner recipient n := by
  cases k with
  | transfer recipient n =>
    obtain ⟨hn, rfl⟩ := transfer_eq_some h
    exact ⟨hn, rfl⟩
  | approve spender n =>
    cases h
    rfl
  | transferFrom owner recipient n =>
    obtain ⟨hn, hbalances, -, -⟩ := transferFrom_eq_some h
    exact ⟨hn, hbalances⟩

/-- **No call changes the total.** -/
theorem totalSupply_call {k : Call α} (h : t.call sender k = some t') :
    t'.totalSupply = t.totalSupply := by
  rcases call_cases h with ⟨hbalances, -⟩ | ⟨owner, recipient, n, hn, hbalances, -, -⟩
  · simp only [totalSupply, hbalances]
  · have hmove := @Ledger.totalOf_move α cmp _ _ _ t.balances (fun _ => true) owner recipient n hn
    simp only [totalSupply, hbalances]
    simpa using hmove

omit [LawfulEqCmp cmp] in
/-- An account that approved nobody keeps it so while others call. -/
theorem allowance_call_of_idle {k : Call α} (h : t.call sender k = some t') (hne : a ≠ sender)
    (hnone : ∀ s, t.allowance a s = 0) : ∀ s, t'.allowance a s = 0 := by
  intro s
  rcases call_cases h with ⟨-, hsame⟩ | ⟨-, -, -, -, -, -, hless⟩
  · rw [hsame a hne, hnone]
  · have := hless a s
    rw [hnone] at this
    exact Nat.le_zero.mp this

/-- **An account that neither calls nor approved anybody can only receive.** -/
theorem balanceOf_call_of_idle {k : Call α} (h : t.call sender k = some t') (hne : a ≠ sender)
    (hnone : ∀ s, t.allowance a s = 0) : t.balanceOf a ≤ t'.balanceOf a := by
  rcases call_cases h with ⟨hbalances, -⟩ | ⟨owner, recipient, n, hn, hbalances, hallowed, -⟩
  · simp only [balanceOf, hbalances, Nat.le_refl]
  · have hmove := @Ledger.amount_move α cmp _ _ _ t.balances a owner recipient n hn
    simp only [balanceOf, hbalances]
    split at hmove
    · next heq =>
      -- It is the owner: it is not the sender and allowed nothing, so nothing moved.
      subst heq
      have hzero : n = 0 := by
        rcases hallowed with heq | hle | hall
        · exact absurd heq hne
        · rw [hnone] at hle
          exact Nat.le_zero.mp hle
        · rw [hnone] at hall
          exact absurd hall (by simp [unlimited])
      omega
    · omega

theorem balanceOf_transfer (h : t.transfer sender recipient n = some t') :
    n ≤ t.balanceOf sender ∧
      t'.balanceOf a + (if sender = a then n else 0) =
        t.balanceOf a + (if recipient = a then n else 0) := by
  obtain ⟨hn, rfl⟩ := transfer_eq_some h
  exact ⟨hn, Ledger.amount_move hn⟩

theorem balanceOf_transferFrom (h : t.transferFrom spender owner recipient n = some t') :
    t'.balanceOf a + (if owner = a then n else 0) =
      t.balanceOf a + (if recipient = a then n else 0) := by
  obtain ⟨hn, hbalances, -, -⟩ := transferFrom_eq_some h
  simp only [balanceOf, hbalances]
  exact Ledger.amount_move hn

end Erc20
