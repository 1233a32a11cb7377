import Curs3d.Contracts.Vault
import Curs3d.Lib.Shares
import Curs3d.Lib.Trace

/-!
# The share price of the vault

`deposit` and `withdraw` share one conversion, which rounds the share count down. That favours the vault
when shares are minted. When they are burnt it favours the holder: the price falls exactly when there
was something to round, and where a share is worth more than the assets asked for, no share is
burnt at all, so that an account without shares is paid too. `RoundsNothing` is the condition on a
withdrawal, and over every run the vault gives no free money exactly when its withdrawals meet it
(`noFreeMoney_iff`).
-/

set_option autoImplicit false

namespace Curs3d
namespace Curs3dVault

open Solidity

variable {v v' : Curs3dVault} {sender receiver owner : Address} {assets shares : Nat}

/-- The supply of shares with the virtual ones, and the assets with the virtual one. -/
def virtualShares (v : Curs3dVault) : Nat := v.totalSupply + decimalsOffset

def virtualAssets (v : Curs3dVault) : Nat := v.totalAssets + 1

/-- A call gives no free money: the share price does not fall, and who withdraws assets holds shares. -/
def NoFreeMoney (v : Curs3dVault) (c : Address × Call) (v' : Curs3dVault) : Prop :=
  v.sharePrice ≤ v'.sharePrice ∧
    ∀ assets receiver owner, c.2 = .withdraw assets receiver owner → 0 < assets →
      0 < v.sharesOf owner

/-- What a withdrawal asks for is worth a whole number of shares. Where the vault pays itself the assets stay,
and it is enough that one share is burnt, or that there is one. -/
def RoundsNothing (v : Curs3dVault) (c : Address × Call) (_ : Curs3dVault) : Prop :=
  ∀ assets receiver owner, c.2 = .withdraw assets receiver owner →
    if receiver = v.self then
      v.virtualAssets ≤ assets * v.virtualShares ∨ 0 < v.sharesOf owner
    else v.virtualAssets ∣ assets * v.virtualShares

/-! ## What the calls do -/

theorem sharePrice_eq : v.sharePrice = (v.virtualAssets : ℚ) / (v.virtualShares : ℚ) := rfl

theorem virtualShares_pos : 0 < v.virtualShares :=
  Nat.add_pos_right _ (by decide)

theorem convertToShares_eq_ok (h : v.convertToShares assets = .ok shares) :
    shares = assets * v.virtualShares / v.virtualAssets := by
  simp only [convertToShares, Outcome.except_bind_eq_ok, add_eq_ok, mul_eq_ok, pure, Except.pure,
    Except.ok.injEq] at h
  obtain ⟨-, ⟨-, rfl⟩, -, ⟨-, rfl⟩, -, ⟨-, rfl⟩, rfl⟩ := h
  rfl

theorem deposit_eq_ok (h : v.deposit sender assets receiver = .ok (shares, v')) :
    shares = assets * v.virtualShares / v.virtualAssets ∧ ∃ token,
      v.token.transferFrom v.self sender v.self assets = some token ∧
      v' = { v with
        totalSupply := v.totalSupply + shares
        token
        balanceOf := v.balanceOf.insert receiver (v.sharesOf receiver + shares) } := by
  simp only [deposit, Outcome.except_bind_eq_ok, require_eq_ok, add_eq_ok, bubble_eq_ok, pure,
    Except.pure, Except.ok.injEq, Prod.mk.injEq] at h
  obtain ⟨-, -, -, -, -, -, shares', hshares, -, -, -, ⟨-, rfl⟩, -, ⟨-, rfl⟩, token, htoken, rfl,
    rfl⟩ := h
  exact ⟨convertToShares_eq_ok hshares, token, htoken, rfl⟩

theorem withdraw_eq_ok (h : v.withdraw sender assets receiver owner = .ok (shares, v')) :
    assets ≠ 0 ∧ sender = owner ∧ shares = assets * v.virtualShares / v.virtualAssets ∧
      shares ≤ v.sharesOf owner ∧ shares ≤ v.totalSupply ∧ ∃ token,
        v.token.transfer v.self receiver assets = some token ∧
        v' = { v with
          totalSupply := v.totalSupply - shares
          token
          balanceOf := v.balanceOf.insert owner (v.sharesOf owner - shares) } := by
  simp only [withdraw, Outcome.except_bind_eq_ok, require_eq_ok, sub_eq_ok, bubble_eq_ok, pure,
    Except.pure, Except.ok.injEq, Prod.mk.injEq] at h
  obtain ⟨-, hassets, -, -, -, howner, shares', hshares, -, hheld, -, ⟨-, rfl⟩, -, ⟨hsupply, rfl⟩,
    token, htoken, rfl, rfl⟩ := h
  exact ⟨hassets, howner, convertToShares_eq_ok hshares, hheld, hsupply, token, htoken, rfl⟩

/-! ## One call -/

/-- The vault's own address has approved nobody. -/
def Idle (v : Curs3dVault) : Prop := ∀ spender, v.token.allowance v.self spender = 0

theorem step_eq_ok {c : Address × Call} (h : v.step c = .ok v') :
    c.1 ≠ v.self ∧ v.callFrom c.1 c.2 = .ok v' := by
  simp only [step] at h
  split at h
  · exact absurd h (by simp)
  · next hne => exact ⟨hne, h⟩

/-- What a successful call leaves: by `deposit`, by `withdraw`, by a call of the asset, or the same vault but for
the pause. -/
theorem callFrom_cases {k : Call} (h : v.callFrom sender k = .ok v') :
    (∃ assets receiver shares, k = .deposit assets receiver ∧
      v.deposit sender assets receiver = .ok (shares, v')) ∨
    (∃ assets receiver owner shares, k = .withdraw assets receiver owner ∧
      v.withdraw sender assets receiver owner = .ok (shares, v')) ∨
    (∃ call token, k = .asset call ∧ v.token.call sender call = some token ∧
      v' = { v with token }) ∨
    ((k = .pause ∨ k = .unpause) ∧ ∃ paused, v' = { v with paused }) := by
  cases k with
  | deposit assets receiver =>
    simp only [callFrom, Outcome.except_bind_eq_ok, pure, Except.pure, Except.ok.injEq] at h
    obtain ⟨⟨shares, after⟩, hdeposit, rfl⟩ := h
    exact Or.inl ⟨assets, receiver, shares, rfl, hdeposit⟩
  | withdraw assets receiver owner =>
    simp only [callFrom, Outcome.except_bind_eq_ok, pure, Except.pure, Except.ok.injEq] at h
    obtain ⟨⟨shares, after⟩, hwithdraw, rfl⟩ := h
    exact Or.inr (Or.inl ⟨assets, receiver, owner, shares, rfl, hwithdraw⟩)
  | pause =>
    simp only [callFrom, pause, Outcome.except_bind_eq_ok, pure, Except.pure, Except.ok.injEq] at h
    obtain ⟨-, -, -, -, rfl⟩ := h
    exact Or.inr (Or.inr (Or.inr ⟨Or.inl rfl, true, rfl⟩))
  | unpause =>
    simp only [callFrom, unpause, Outcome.except_bind_eq_ok, pure, Except.pure, Except.ok.injEq] at h
    obtain ⟨-, -, -, -, rfl⟩ := h
    exact Or.inr (Or.inr (Or.inr ⟨Or.inr rfl, false, rfl⟩))
  | asset call =>
    simp only [callFrom, Outcome.except_bind_eq_ok, bubble_eq_ok, pure, Except.pure,
      Except.ok.injEq] at h
    obtain ⟨token, htoken, rfl⟩ := h
    exact Or.inr (Or.inr (Or.inl ⟨call, token, rfl, htoken, rfl⟩))

theorem Idle.step (hidle : v.Idle) {c : Address × Call} (h : v.step c = .ok v') : v'.Idle := by
  obtain ⟨hne, hcall⟩ := step_eq_ok h
  rcases callFrom_cases hcall with ⟨assets, receiver, shares, -, hdeposit⟩ |
    ⟨assets, receiver, owner, shares, -, hwithdraw⟩ | ⟨call, token, -, htoken, rfl⟩ |
    ⟨-, paused, rfl⟩
  · obtain ⟨-, token, htoken, rfl⟩ := deposit_eq_ok hdeposit
    obtain ⟨-, -, -, hless⟩ := Erc20.transferFrom_eq_some htoken
    intro spender
    have hle := hless v.self spender
    rw [hidle spender] at hle
    exact Nat.le_zero.mp hle
  · obtain ⟨-, -, -, -, -, token, htoken, rfl⟩ := withdraw_eq_ok hwithdraw
    obtain ⟨-, rfl⟩ := Erc20.transfer_eq_some htoken
    exact hidle
  · exact Erc20.allowance_call_of_idle htoken (Ne.symm hne) hidle
  · exact hidle

/-- A deposit pays at least the price of its shares. -/
theorem sharePrice_deposit (hne : sender ≠ v.self)
    (h : v.deposit sender assets receiver = .ok (shares, v')) : v.sharePrice ≤ v'.sharePrice := by
  obtain ⟨hshares, token, htoken, rfl⟩ := deposit_eq_ok h
  have hassets := @Erc20.balanceOf_transferFrom _ _ _ _ _ _ _ v.self _ _ _ _ htoken
  rw [if_neg hne, if_pos rfl, Nat.add_zero] at hassets
  have hgrow := (@Shares.price_le_grow_iff v.virtualAssets v.virtualShares assets shares
    virtualShares_pos).mpr (by rw [hshares]; exact Shares.floor_le)
  have hvirtualAssets : v.virtualAssets + assets = token.balanceOf v.self + 1 := by
    simp only [virtualAssets, totalAssets]
    omega
  have hvirtualShares : v.virtualShares + shares = v.totalSupply + shares + decimalsOffset := by
    simp only [virtualShares]
    omega
  rw [hvirtualAssets, hvirtualShares] at hgrow
  exact hgrow

/-- A withdrawal to another account pays at most the price exactly when there is nothing to round. -/
theorem sharePrice_withdraw_iff (hne : receiver ≠ v.self)
    (h : v.withdraw sender assets receiver owner = .ok (shares, v')) :
    v.sharePrice ≤ v'.sharePrice ↔ v.virtualAssets ∣ assets * v.virtualShares := by
  obtain ⟨-, -, hshares, -, hsupply, token, htoken, rfl⟩ := withdraw_eq_ok h
  obtain ⟨hpaid, hassets⟩ := @Erc20.balanceOf_transfer _ _ _ _ _ _ _ v.self _ _ _ htoken
  rw [if_pos rfl, if_neg hne, Nat.add_zero] at hassets
  have hburnt : shares < v.virtualShares := by
    have hoffset : 0 < decimalsOffset := by decide
    simp only [virtualShares]
    omega
  have hpaid' : assets ≤ v.virtualAssets := by
    simp only [virtualAssets, totalAssets]
    omega
  have hshrink := @Shares.price_le_shrink_iff v.virtualAssets v.virtualShares assets shares hpaid' hburnt
  have hvirtualAssets : v.virtualAssets - assets = token.balanceOf v.self + 1 := by
    simp only [virtualAssets, totalAssets]
    omega
  have hvirtualShares : v.virtualShares - shares = v.totalSupply - shares + decimalsOffset := by
    simp only [virtualShares]
    omega
  rw [hvirtualAssets, hvirtualShares] at hshrink
  rw [← Shares.le_floor_iff, ← hshares]
  exact hshrink

/-- The vault paying itself keeps its assets, and burns shares. -/
theorem sharePrice_withdraw_self (h : v.withdraw sender assets v.self owner = .ok (shares, v')) :
    v.sharePrice ≤ v'.sharePrice := by
  obtain ⟨-, -, hshares, -, hsupply, token, htoken, rfl⟩ := withdraw_eq_ok h
  obtain ⟨hpaid, hassets⟩ := @Erc20.balanceOf_transfer _ _ _ _ _ _ _ v.self _ _ _ htoken
  rw [if_pos rfl] at hassets
  have hsame : token.balanceOf v.self = v.token.balanceOf v.self := Nat.add_right_cancel hassets
  rw [sharePrice_eq, sharePrice_eq, Shares.price_le_iff virtualShares_pos virtualShares_pos]
  simp only [virtualAssets, virtualShares, totalAssets, hsame]
  apply Nat.mul_le_mul_left
  omega

/-- Where something is worth a share, its holder has one. -/
theorem sharesOf_pos_of_withdraw (h : v.withdraw sender assets receiver owner = .ok (shares, v'))
    (hworth : v.virtualAssets ≤ assets * v.virtualShares) : 0 < v.sharesOf owner := by
  obtain ⟨-, -, hshares, hheld, -, -⟩ := withdraw_eq_ok h
  have hpos : 0 < shares := by
    rw [hshares]
    exact Nat.div_pos hworth (Nat.succ_pos _)
  exact Nat.lt_of_lt_of_le hpos hheld

theorem noFreeMoney_withdraw_iff (h : v.withdraw sender assets receiver owner = .ok (shares, v')) :
    v.NoFreeMoney (sender, .withdraw assets receiver owner) v' ↔
      v.RoundsNothing (sender, .withdraw assets receiver owner) v' := by
  have hassets : 0 < assets := Nat.pos_of_ne_zero (withdraw_eq_ok h).1
  by_cases hself : receiver = v.self
  · subst hself
    constructor
    · intro hfree assets' receiver' owner' heq
      cases heq
      rw [if_pos rfl]
      exact Or.inr (hfree.2 assets v.self owner rfl hassets)
    · intro hrounds
      refine ⟨sharePrice_withdraw_self h, ?_⟩
      intro assets' receiver' owner' heq _
      cases heq
      have hworth := hrounds assets v.self owner rfl
      rw [if_pos rfl] at hworth
      rcases hworth with hworth | hheld
      · exact sharesOf_pos_of_withdraw h hworth
      · exact hheld
  · constructor
    · intro hfree assets' receiver' owner' heq
      cases heq
      rw [if_neg hself]
      exact (sharePrice_withdraw_iff hself h).mp hfree.1
    · intro hrounds
      have hdvd := hrounds assets receiver owner rfl
      rw [if_neg hself] at hdvd
      refine ⟨(sharePrice_withdraw_iff hself h).mpr hdvd, ?_⟩
      intro assets' receiver' owner' heq _
      cases heq
      have hpos : 0 < assets * v.virtualShares := Nat.mul_pos hassets virtualShares_pos
      exact sharesOf_pos_of_withdraw h (Nat.le_of_dvd hpos hdvd)

/-- Calls of the asset by others leave the vault at least what it had. -/
theorem sharePrice_asset (hidle : v.Idle) {call : Erc20.Call Address} {token : AssetToken}
    (hne : sender ≠ v.self) (h : v.token.call sender call = some token) :
    v.sharePrice ≤ sharePrice { v with token } := by
  have hassets := Erc20.balanceOf_call_of_idle h (Ne.symm hne) hidle
  rw [sharePrice_eq, sharePrice_eq, Shares.price_le_iff virtualShares_pos virtualShares_pos]
  apply Nat.mul_le_mul_right
  exact Nat.succ_le_succ hassets

/-- **A call gives no free money exactly when, if it withdraws, there is nothing to round.** -/
theorem noFreeMoney_step_iff (hidle : v.Idle) {c : Address × Call} (h : v.step c = .ok v') :
    v.NoFreeMoney c v' ↔ v.RoundsNothing c v' := by
  obtain ⟨hne, hcall⟩ := step_eq_ok h
  obtain ⟨sender, k⟩ := c
  rcases callFrom_cases hcall with ⟨assets, receiver, shares, hk, hdeposit⟩ |
    ⟨assets, receiver, owner, shares, hk, hwithdraw⟩ | ⟨call, token, hk, htoken, rfl⟩ |
    ⟨hk, paused, rfl⟩
  · subst hk
    exact iff_of_true ⟨sharePrice_deposit hne hdeposit, by simp⟩ (by simp [RoundsNothing])
  · subst hk
    exact noFreeMoney_withdraw_iff hwithdraw
  · subst hk
    exact iff_of_true ⟨sharePrice_asset hidle hne htoken, by simp⟩ (by simp [RoundsNothing])
  · refine iff_of_true ⟨le_refl v.sharePrice, ?_⟩ ?_
    · rcases hk with rfl | rfl <;> simp
    · rcases hk with rfl | rfl <;> simp [RoundsNothing]

/-! ## Runs -/

theorem deploy_eq_ok {self asset owner : Address} {token : AssetToken}
    (h : deploy self asset token owner = .ok v) : v = { self, owner, asset, token } := by
  simp only [deploy, Outcome.except_bind_eq_ok, pure, Except.pure, Except.ok.injEq] at h
  obtain ⟨-, -, -, -, rfl⟩ := h
  rfl

/-- **Over every sequence of calls on a new vault, of the vault and of its asset, by any accounts: no
call lowers the share price and nobody without shares withdraws assets, exactly when each withdrawal
has nothing to round.** The address of a new contract has approved nobody. -/
theorem noFreeMoney_iff (self asset owner : Address) (token : AssetToken) (v : Curs3dVault)
    (hdeploy : deploy self asset token owner = .ok v)
    (hnew : ∀ spender, token.allowance self spender = 0) (calls : List (Address × Call)) :
    Trace.Each step NoFreeMoney v calls ↔ Trace.Each step RoundsNothing v calls := by
  have hidle : v.Idle := by
    rw [deploy_eq_ok hdeploy]
    exact hnew
  exact Trace.each_congr hidle (fun _ _ _ hinv hstep => hinv.step hstep)
    fun _ _ _ hinv hstep => noFreeMoney_step_iff hinv hstep

end Curs3dVault

/-! ## A donation and a withdrawal without shares -/

namespace VaultSample

open Solidity Curs3dVault

/-- Alice (1) has one unit of the asset, Carol (3) a large amount, Bob (2) nothing. -/
def token : AssetToken := { balances := ((∅ : Std.ExtTreeMap Address Nat compare).insert 1 1).insert 3 (3 * 10 ^ 10) }

def vault : Curs3dVault := { self := 100, owner := 9, asset := 200, token }

/-- Alice deposits her unit. -/
def deposits : List (Address × Curs3dVault.Call) :=
  [(1, .asset (.approve 100 1)), (1, .deposit 1 1)]

/-- Carol donates, so that a share is worth more than a unit of the asset. -/
def donated : List (Address × Curs3dVault.Call) :=
  deposits ++ [(3, .asset (.transfer 100 (3 * 10 ^ 10)))]

end VaultSample

open VaultSample in
theorem noFreeMoney_iff_sample :
    Trace.Each Curs3dVault.step Curs3dVault.NoFreeMoney vault (deposits ++ [(1, .withdraw 1 1 1)]) := by
  apply (Curs3dVault.noFreeMoney_iff 100 200 9 token vault rfl (fun _ => rfl) _).mpr
  rw [Trace.each_append]
  refine ⟨by simp [deposits, Trace.Each, Curs3dVault.RoundsNothing], ?_, trivial⟩
  intro v' _ assets receiver owner heq
  cases heq
  decide +kernel

open VaultSample in
/-- Bob, who never had a share, withdraws a unit of Alice's and Carol's. -/
theorem withdraws_without_shares :
    ¬ Trace.Each Curs3dVault.step Curs3dVault.NoFreeMoney vault (donated ++ [(2, .withdraw 1 2 2)]) := by
  intro heach
  rw [Trace.each_append] at heach
  obtain ⟨-, hlast, -⟩ := heach
  obtain ⟨v', hok, -⟩ := Outcome.ok_of_any (show (Curs3dVault.step
    (Trace.run Curs3dVault.step vault donated) (2, .withdraw 1 2 2)).toOption.any (fun _ => true) = true
    by decide +kernel)
  have hheld := (hlast v' hok).2 1 2 2 rfl Nat.one_pos
  have hnone : (Trace.run Curs3dVault.step vault donated).sharesOf 2 = 0 := by decide +kernel
  exact absurd hheld (by simp [hnone])

end Curs3d
