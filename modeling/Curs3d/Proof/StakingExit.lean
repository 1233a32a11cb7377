import Curs3d.Lib.Trace
import Curs3d.Proof.Staking

/-!
# Stakers can always exit

The contract holds at least what it owes: over any run of calls the stakes add up to `totalStaked`, and its
balance of the token is no smaller (`Backed`), because it approved nobody, pays out only what it takes off a
stake, and has rewards minted to the staker. So nothing that the owner or other stakers do keeps an
account from its stake: `unstake` fails only for an amount that is zero or above the stake, for rewards
that overflow, and while the token itself is paused (`stakers_can_exit`).
-/

set_option autoImplicit false

namespace Curs3d

open Solidity

/-! ## The token -/

namespace Curs3dToken

variable {t t' : Curs3dToken} {sender account : Address} {amount : Nat}

theorem balanceOf_setBalance (t : Curs3dToken) (a b : Address) (n : Nat) :
    (t.setBalance a n).ledger.balanceOf b = if a = b then n else t.ledger.balanceOf b :=
  Ledger.amount_insert

theorem transfer_eq_some {recipient : Address} :
    t.transfer sender recipient amount = some t' ↔
      (t.paused = false ∧ recipient ≠ 0) ∧
        ∃ ledger, t.ledger.transfer sender recipient amount = some ledger ∧ t' = { t with ledger } := by
  unfold transfer
  split
  · next hclosed =>
    refine iff_of_false (by simp) ?_
    rintro ⟨⟨hpaused, hrecipient⟩, -⟩
    rcases hclosed with hyes | hzero
    · exact absurd (hpaused.symm.trans hyes) (by simp)
    · exact hrecipient hzero
  · next hopen =>
    rw [not_or, Bool.not_eq_true] at hopen
    rw [Option.map_eq_some_iff]
    constructor
    · rintro ⟨ledger, h, heq⟩
      exact ⟨hopen, ledger, h, heq.symm⟩
    · rintro ⟨-, ledger, h, heq⟩
      exact ⟨ledger, h, heq.symm⟩

theorem transferFrom_eq_some {spender owner recipient : Address} :
    t.transferFrom spender owner recipient amount = some t' ↔
      (t.paused = false ∧ owner ≠ 0 ∧ recipient ≠ 0) ∧
        ∃ ledger, t.ledger.transferFrom spender owner recipient amount = some ledger ∧
          t' = { t with ledger } := by
  unfold transferFrom
  split
  · next hclosed =>
    refine iff_of_false (by simp) ?_
    rintro ⟨⟨hpaused, howner, hrecipient⟩, -⟩
    rcases hclosed with hyes | hzero | hzero
    · exact absurd (hpaused.symm.trans hyes) (by simp)
    · exact howner hzero
    · exact hrecipient hzero
  · next hopen =>
    rw [not_or, not_or, Bool.not_eq_true] at hopen
    rw [Option.map_eq_some_iff]
    constructor
    · rintro ⟨ledger, h, heq⟩
      exact ⟨hopen, ledger, h, heq.symm⟩
    · rintro ⟨-, ledger, h, heq⟩
      exact ⟨ledger, h, heq.symm⟩

/-- What another's call leaves an account that approved nobody: no less than it had, and nobody approved. -/
structure Spared (t t' : Curs3dToken) (account : Address) : Prop where
  balance : t.ledger.balanceOf account ≤ t'.ledger.balanceOf account
  allowance : ∀ spender, t'.ledger.allowance account spender = 0

theorem spared_of_ledger (hnone : ∀ spender, t.ledger.allowance account spender = 0)
    (h : t'.ledger = t.ledger) : Spared t t' account :=
  ⟨by rw [h], by rwa [h]⟩

theorem spared_of_call {k : Erc20.Call Address} {ledger : Erc20 Address compare}
    (hnone : ∀ spender, t.ledger.allowance account spender = 0) (hne : account ≠ sender)
    (h : t.ledger.call sender k = some ledger) : Spared t { t with ledger } account :=
  ⟨Erc20.balanceOf_call_of_idle h hne hnone, Erc20.allowance_call_of_idle h hne hnone⟩

/-- An account that gets `n` more. -/
theorem spared_of_mint {recipient : Address}
    (hnone : ∀ spender, t.ledger.allowance account spender = 0)
    (h : t.mint sender recipient amount = some t') : Spared t t' account := by
  unfold mint at h
  split_ifs at h
  cases h
  refine ⟨?_, hnone⟩
  rw [balanceOf_setBalance]
  split
  · next heq =>
    rw [heq]
    exact Nat.le_add_right _ _
  · exact Nat.le_refl _

/-- **What others call does not take from an account that approved nobody.** -/
theorem spared_call {k : Call} (hnone : ∀ spender, t.ledger.allowance account spender = 0)
    (hne : account ≠ sender) (h : t.call sender k = some t') : Spared t t' account := by
  cases k with
  | transfer recipient n =>
    obtain ⟨-, ledger, hledger, rfl⟩ := transfer_eq_some.mp h
    exact spared_of_call (k := .transfer recipient n) hnone hne hledger
  | approve spender n =>
    simp only [call, approve] at h
    split_ifs at h
    obtain ⟨ledger, hledger, rfl⟩ := Option.map_eq_some_iff.mp h
    exact spared_of_call (k := .approve spender n) hnone hne hledger
  | transferFrom owner recipient n =>
    obtain ⟨-, ledger, hledger, rfl⟩ := transferFrom_eq_some.mp h
    exact spared_of_call (k := .transferFrom owner recipient n) hnone hne hledger
  | mint recipient n => exact spared_of_mint hnone h
  | burn n =>
    simp only [call, burn] at h
    split_ifs at h
    cases h
    refine ⟨?_, hnone⟩
    rw [balanceOf_setBalance, if_neg (Ne.symm hne)]
  | setMinter minter allowed =>
    simp only [call, setMinter] at h
    split_ifs at h
    cases h
    exact spared_of_ledger hnone rfl
  | pause =>
    simp only [call, pause] at h
    split_ifs at h
    cases h
    exact spared_of_ledger hnone rfl
  | unpause =>
    simp only [call, unpause] at h
    split_ifs at h
    cases h
    exact spared_of_ledger hnone rfl

end Curs3dToken

namespace Curs3dStaking

variable {s s' : Curs3dStaking} {contract sender account : Address} {timestamp amount paid : Nat} {c : Call}
  {calls : List Call}

/-! ## What is owed and what is there -/

/-- The contract is at `contract`; the stakes add up to the total, it holds that and approved nobody, and neither the
zero address nor the contract has a stake. -/
structure Backed (contract : Address) (s : Curs3dStaking) : Prop where
  itself : s.self = contract
  stakes : SumsTo s.stakedBalance s.totalStaked
  held : s.totalStaked ≤ s.token.ledger.balanceOf contract
  approvesNobody : ∀ spender, s.token.ledger.allowance contract spender = 0
  nobody : s.stakedBalance 0 = 0
  notItself : s.stakedBalance contract = 0

/-- What changes neither the stakes nor the token keeps the contract backed. -/
theorem Backed.of_same (h : Backed contract s) (hself : s'.self = s.self)
    (hstaked : s'.stakedBalance = s.stakedBalance) (htotal : s'.totalStaked = s.totalStaked)
    (htoken : s'.token = s.token) : Backed contract s' where
  itself := hself.trans h.itself
  stakes := by
    rw [hstaked, htotal]
    exact h.stakes
  held := by
    rw [htotal, htoken]
    exact h.held
  approvesNobody := by
    rw [htoken]
    exact h.approvesNobody
  nobody := by
    rw [hstaked]
    exact h.nobody
  notItself := by
    rw [hstaked]
    exact h.notItself

/-- A token that spared the contract backs the same stakes. -/
theorem Backed.of_spared {token : Curs3dToken} (h : Backed contract s)
    (hspared : Curs3dToken.Spared s.token token contract) : Backed contract { s with token } :=
  ⟨h.itself, h.stakes, h.held.trans hspared.balance, hspared.allowance, h.nobody, h.notItself⟩

theorem Backed.checkpoint {after : Curs3dStaking} (h : Backed contract s)
    (hcheckpoint : s.checkpoint timestamp account = .ok after) : Backed contract after := by
  obtain ⟨pending, -, rfl⟩ := checkpoint_eq_ok hcheckpoint
  exact h.of_same rfl rfl rfl rfl

/-- A stake: the total rises by what comes in. -/
theorem Backed.stake (h : Backed contract s) (hne : sender ≠ contract)
    (hstake : s.stake sender timestamp amount = .ok s') : Backed contract s' := by
  simp only [Curs3dStaking.stake, Outcome.except_bind_eq_ok, require_eq_ok, add_eq_ok, bubble_eq_ok,
    pure, Except.pure, Except.ok.injEq] at hstake
  obtain ⟨-, -, -, -, s₁, hcheckpoint, -, ⟨-, rfl⟩, -, ⟨-, rfl⟩, token, htoken, rfl⟩ := hstake
  have h₁ := h.checkpoint hcheckpoint
  rw [h₁.itself] at htoken
  obtain ⟨⟨-, hsender, -⟩, ledger, hledger, rfl⟩ := Curs3dToken.transferFrom_eq_some.mp htoken
  have hbalance := Erc20.balanceOf_transferFrom (a := contract) hledger
  rw [if_neg hne, if_pos rfl] at hbalance
  obtain ⟨-, -, -, hallowance⟩ := Erc20.transferFrom_eq_some hledger
  constructor
  · exact h₁.itself
  · have hsum := h₁.stakes.update sender (s₁.stakedBalance sender + amount)
    have hle := h₁.stakes.le sender
    have htotal : s₁.totalStaked - s₁.stakedBalance sender + (s₁.stakedBalance sender + amount) =
        s₁.totalStaked + amount := by omega
    rwa [htotal] at hsum
  · show s₁.totalStaked + amount ≤ ledger.balanceOf contract
    have := h₁.held
    omega
  · intro spender
    have hless := hallowance contract spender
    rw [h₁.approvesNobody] at hless
    exact Nat.le_zero.mp hless
  · show Function.update s₁.stakedBalance sender _ 0 = 0
    rw [Function.update_of_ne (Ne.symm hsender)]
    exact h₁.nobody
  · show Function.update s₁.stakedBalance sender _ contract = 0
    rw [Function.update_of_ne (Ne.symm hne)]
    exact h₁.notItself

/-- What an exit does: the amount leaves the sender's stake and the contract's balance. -/
theorem unstake_eq_ok (hitself : s.self = contract) (h : s.unstake sender timestamp amount = .ok s') :
    (amount ≠ 0 ∧ amount ≤ s.stakedBalance sender ∧ amount ≤ s.totalStaked) ∧
      ∃ after, s.checkpoint timestamp sender = .ok after ∧
        ∃ ledger, s.token.ledger.transfer contract sender amount = some ledger ∧
          (s.token.paused = false ∧ sender ≠ 0) ∧
          s' = { after with
            stakedBalance := Function.update s.stakedBalance sender (s.stakedBalance sender - amount)
            totalStaked := s.totalStaked - amount
            token := { s.token with ledger } } := by
  simp only [Curs3dStaking.unstake, Outcome.except_bind_eq_ok, require_eq_ok, sub_eq_ok, bubble_eq_ok,
    pure, Except.pure, Except.ok.injEq] at h
  obtain ⟨-, hamount, -, hstaked, after, hcheckpoint, -, ⟨-, rfl⟩, -, ⟨htotal, rfl⟩, token, htoken, rfl⟩ := h
  obtain ⟨pending, -, rfl⟩ := checkpoint_eq_ok hcheckpoint
  obtain ⟨hopen, ledger, hledger, rfl⟩ := Curs3dToken.transfer_eq_some.mp htoken
  exact ⟨⟨hamount, hstaked, htotal⟩, _, hcheckpoint, ledger, hitself ▸ hledger, hopen, rfl⟩

theorem Backed.unstake (h : Backed contract s) (hunstake : s.unstake sender timestamp amount = .ok s') :
    Backed contract s' := by
  obtain ⟨⟨-, hstaked, htotal⟩, after, hcheckpoint, ledger, hledger, -, rfl⟩ :=
    unstake_eq_ok h.itself hunstake
  obtain ⟨-, hbalance⟩ := Erc20.balanceOf_transfer (a := contract) hledger
  obtain ⟨-, rfl⟩ := Erc20.transfer_eq_some hledger
  rw [if_pos rfl] at hbalance
  constructor
  · exact (h.checkpoint hcheckpoint).itself
  · have hsum := h.stakes.update sender (s.stakedBalance sender - amount)
    have hle := h.stakes.le sender
    have hless : s.totalStaked - s.stakedBalance sender + (s.stakedBalance sender - amount) =
        s.totalStaked - amount := by omega
    rwa [hless] at hsum
  · have hheld := h.held
    have hleft : s.totalStaked - amount + amount ≤ s.token.ledger.balanceOf contract := by
      rwa [Nat.sub_add_cancel htotal]
    exact Nat.le_of_add_le_add_right (hleft.trans (hbalance ▸ Nat.le_add_right _ _))
  · exact h.approvesNobody
  · show Function.update s.stakedBalance sender _ 0 = 0
    by_cases hzero : sender = 0
    · rw [hzero, Function.update_self, h.nobody, Nat.zero_sub]
    · rw [Function.update_of_ne (Ne.symm hzero)]
      exact h.nobody
  · show Function.update s.stakedBalance sender _ contract = 0
    by_cases hitself : sender = contract
    · rw [hitself, Function.update_self, h.notItself, Nat.zero_sub]
    · rw [Function.update_of_ne (Ne.symm hitself)]
      exact h.notItself

/-- Rewards are new tokens. -/
theorem Backed.claimRewards (h : Backed contract s)
    (hclaim : s.claimRewards sender timestamp = .ok (paid, s')) : Backed contract s' := by
  simp only [Curs3dStaking.claimRewards, Outcome.except_bind_eq_ok, require_eq_ok] at hclaim
  obtain ⟨-, -, s₁, hcheckpoint, hrest⟩ := hclaim
  have h₁ := h.checkpoint hcheckpoint
  split at hrest
  · cases hrest
    exact h₁
  · simp only [Outcome.except_bind_eq_ok, bubble_eq_ok, pure, Except.pure, Except.ok.injEq,
      Prod.mk.injEq] at hrest
    obtain ⟨token, htoken, -, rfl⟩ := hrest
    exact (h₁.of_spared (Curs3dToken.spared_of_mint h₁.approvesNobody htoken)).of_same rfl rfl rfl rfl

/-- What the owner alone can call. -/
theorem Backed.of_owner (h : Backed contract s) {p : Prop} [Decidable p] {q : Prop} [Decidable q]
    {e f : StakingError} {s₁ : Curs3dStaking}
    (hcall : (do require p e; require q f; return s₁ : Result Curs3dStaking) = .ok s')
    (hself : s₁.self = s.self) (hstaked : s₁.stakedBalance = s.stakedBalance)
    (htotal : s₁.totalStaked = s.totalStaked) (htoken : s₁.token = s.token) : Backed contract s' := by
  simp only [Outcome.except_bind_eq_ok, require_eq_ok, pure, Except.pure, Except.ok.injEq] at hcall
  obtain ⟨-, -, -, -, rfl⟩ := hcall
  exact h.of_same hself hstaked htotal htoken

/-- **Every call of others keeps the contract backed.** -/
theorem Backed.perform (h : Backed contract s) (hne : c.sender ≠ contract)
    (hcall : s.perform c = .ok (paid, s')) : Backed contract s' := by
  obtain ⟨sender, timestamp, action⟩ := c
  cases action with
  | stake amount => exact h.stake hne (unpaid_eq_ok hcall).2
  | unstake amount => exact h.unstake (unpaid_eq_ok hcall).2
  | claimRewards => exact h.claimRewards hcall
  | setRewardRate rate => exact h.of_owner (unpaid_eq_ok hcall).2 rfl rfl rfl rfl
  | pause => exact h.of_owner (unpaid_eq_ok hcall).2 rfl rfl rfl rfl
  | unpause => exact h.of_owner (unpaid_eq_ok hcall).2 rfl rfl rfl rfl
  | transferOwnership newOwner => exact h.of_owner (unpaid_eq_ok hcall).2 rfl rfl rfl rfl
  | renounceOwnership =>
    have hown := (unpaid_eq_ok hcall).2
    simp only [renounceOwnership, Outcome.except_bind_eq_ok, pure, Except.pure, Except.ok.injEq] at hown
    obtain ⟨-, -, rfl⟩ := hown
    exact h.of_same rfl rfl rfl rfl
  | token call =>
    simp only [Curs3dStaking.perform, Outcome.except_bind_eq_ok, bubble_eq_ok, pure, Except.pure,
      Except.ok.injEq, Prod.mk.injEq] at hcall
    obtain ⟨token, htoken, -, rfl⟩ := hcall
    exact h.of_spared (Curs3dToken.spared_call h.approvesNobody (Ne.symm hne) htoken)

/-- The contract after a call, whatever it pays. -/
def step (s : Curs3dStaking) (c : Call) : Result Curs3dStaking := do
  return (← s.perform c).2

theorem Backed.run (h : Backed contract s) (hcalls : ∀ c ∈ calls, c.sender ≠ contract) :
    Backed contract (Trace.run step s calls) := by
  refine Trace.run_induction_of_mem h ?_
  intro s c s' hc hbacked hstep
  simp only [step, Outcome.except_bind_eq_ok, pure, Except.pure, Except.ok.injEq, Prod.exists] at hstep
  obtain ⟨paid, after, hcall, rfl⟩ := hstep
  exact hbacked.perform (hcalls c hc) hcall

theorem backed_deploy {tokenAddress owner : Address} {token : Curs3dToken} {rate : Nat}
    (hfresh : ∀ spender, token.ledger.allowance contract spender = 0)
    (hdeploy : deploy contract tokenAddress token rate owner = .ok s) : Backed contract s := by
  simp only [deploy, Outcome.except_bind_eq_ok, require_eq_ok, pure, Except.pure, Except.ok.injEq]
    at hdeploy
  obtain ⟨-, -, -, -, -, -, rfl⟩ := hdeploy
  exact ⟨rfl, sumsTo_zero, Nat.zero_le _, hfresh, rfl, rfl⟩

/-! ## The way out -/

theorem exists_checkpoint_iff : (∃ after, s.checkpoint timestamp account = .ok after) ↔
    ∃ pending, s.pendingRewards timestamp account = .ok pending := by
  simp only [Curs3dStaking.checkpoint, Outcome.except_bind_eq_ok, pure, Except.pure, Except.ok.injEq]
  constructor
  · rintro ⟨after, pending, hpending, -⟩
    exact ⟨pending, hpending⟩
  · rintro ⟨pending, hpending⟩
    exact ⟨_, pending, hpending, rfl⟩

/-- **When an exit succeeds**: the contract has the tokens, so only the token and the rewards can stop it. -/
theorem Backed.unstake_iff (h : Backed contract s) :
    (∃ s', s.unstake sender timestamp amount = .ok s') ↔
      (amount ≠ 0 ∧ amount ≤ s.stakedBalance sender) ∧ s.token.paused = false ∧
        ∃ pending, s.pendingRewards timestamp sender = .ok pending := by
  constructor
  · rintro ⟨s', hunstake⟩
    obtain ⟨⟨hamount, hstaked, -⟩, after, hcheckpoint, ledger, -, ⟨hpaused, -⟩, -⟩ :=
      unstake_eq_ok h.itself hunstake
    exact ⟨⟨hamount, hstaked⟩, hpaused, exists_checkpoint_iff.mp ⟨after, hcheckpoint⟩⟩
  · rintro ⟨⟨hamount, hstaked⟩, hpaused, hpending⟩
    obtain ⟨pending, hpending⟩ := hpending
    have htotal : amount ≤ s.totalStaked := hstaked.trans (h.stakes.le sender)
    have hsender : sender ≠ 0 := by
      rintro rfl
      rw [h.nobody] at hstaked
      exact hamount (Nat.le_zero.mp hstaked)
    have hledger : ∃ ledger, s.token.ledger.transfer s.self sender amount = some ledger := by
      rw [h.itself]
      exact ⟨_, if_pos (htotal.trans h.held)⟩
    obtain ⟨ledger, hledger⟩ := hledger
    have htoken : s.token.transfer s.self sender amount = some { s.token with ledger } :=
      Curs3dToken.transfer_eq_some.mpr ⟨⟨hpaused, hsender⟩, ledger, hledger, rfl⟩
    simp only [Curs3dStaking.unstake, Curs3dStaking.checkpoint, Outcome.except_bind_eq_ok, require_eq_ok,
      sub_eq_ok, bubble_eq_ok, pure, Except.pure, Except.ok.injEq]
    exact ⟨_, (), hamount, (), hstaked, _, ⟨pending, hpending, rfl⟩, _, ⟨hstaked, rfl⟩, _, ⟨htotal, rfl⟩, _,
      htoken, rfl⟩

/-- What the sender of an exit has afterwards. -/
theorem Backed.paid_out (h : Backed contract s) (hunstake : s.unstake sender timestamp amount = .ok s') :
    s'.stakedBalance = Function.update s.stakedBalance sender (s.stakedBalance sender - amount) ∧
      s'.token.ledger.balanceOf sender = s.token.ledger.balanceOf sender + amount := by
  obtain ⟨⟨hamount, hstaked, -⟩, after, -, ledger, hledger, -, rfl⟩ := unstake_eq_ok h.itself hunstake
  have hsender : sender ≠ contract := by
    rintro rfl
    rw [h.notItself] at hstaked
    exact hamount (Nat.le_zero.mp hstaked)
  obtain ⟨-, hbalance⟩ := Erc20.balanceOf_transfer (a := sender) hledger
  rw [if_neg (Ne.symm hsender), if_pos rfl, Nat.add_zero] at hbalance
  exact ⟨rfl, hbalance⟩

/-- **Stakers can always exit.** After any calls of other accounts, the stakes add up to `totalStaked`, the
contract holds that much, and an account's `unstake` succeeds exactly for an amount within its stake, while the
token is not paused and the account's rewards do not overflow; then the account has the amount, and
nobody else's stake has changed. -/
theorem stakers_can_exit {tokenAddress owner : Address} {token : Curs3dToken} {rate : Nat}
    {s₀ : Curs3dStaking} (hdeploy : deploy contract tokenAddress token rate owner = .ok s₀)
    (hfresh : ∀ spender, token.ledger.allowance contract spender = 0)
    (hcalls : ∀ c ∈ calls, c.sender ≠ contract) :
    SumsTo (Trace.run step s₀ calls).stakedBalance (Trace.run step s₀ calls).totalStaked ∧
    (Trace.run step s₀ calls).totalStaked ≤ (Trace.run step s₀ calls).token.ledger.balanceOf contract ∧
    ∀ sender timestamp amount,
      ((∃ s', (Trace.run step s₀ calls).unstake sender timestamp amount = .ok s') ↔
        (amount ≠ 0 ∧ amount ≤ (Trace.run step s₀ calls).stakedBalance sender) ∧
          (Trace.run step s₀ calls).token.paused = false ∧
          ∃ pending, (Trace.run step s₀ calls).pendingRewards timestamp sender = .ok pending) ∧
      ∀ s', (Trace.run step s₀ calls).unstake sender timestamp amount = .ok s' →
        s'.stakedBalance = Function.update (Trace.run step s₀ calls).stakedBalance sender
          ((Trace.run step s₀ calls).stakedBalance sender - amount) ∧
        s'.token.ledger.balanceOf sender =
          (Trace.run step s₀ calls).token.ledger.balanceOf sender + amount := by
  have h := (backed_deploy hfresh hdeploy).run hcalls
  exact ⟨h.stakes, h.held, fun sender timestamp amount =>
    ⟨h.unstake_iff, fun s' hunstake => h.paid_out hunstake⟩⟩

open StakingSample in
/-- The owner pauses the contract, and account 2 leaves with its token. -/
theorem stakers_can_exit_sample :
    ∃ s', (Trace.run step staking [⟨2, 0, .stake (10 ^ 18)⟩, ⟨1, 100, .pause⟩]).unstake 2 200 (10 ^ 18) =
        .ok s' ∧ s'.token.ledger.balanceOf 2 = 10 ^ 18 := by
  have hfresh : ∀ spender, StakingSample.token.ledger.allowance 9 spender = 0 := by
    intro spender
    simp [StakingSample.token]
  have hcalls : ∀ c ∈ ([⟨2, 0, .stake (10 ^ 18)⟩, ⟨1, 100, .pause⟩] : List Call), c.sender ≠ 9 := by simp
  have h := (stakers_can_exit deployed hfresh hcalls).2.2 2 200 (10 ^ 18)
  obtain ⟨s', hs'⟩ := h.1.mpr ⟨⟨by decide, by decide +kernel⟩, by decide +kernel, _, rfl⟩
  refine ⟨s', hs', ?_⟩
  rw [(h.2 s' hs').2]
  decide +kernel

end Curs3dStaking
end Curs3d
