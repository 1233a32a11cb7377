import Curs3d.Lib.Erc20
import Curs3d.Lib.Solidity

/-!
# Staking with linear rewards

`Curs3dStaking` takes stakes in a `Curs3dToken` and mints rewards in it. An account's rewards are brought up
to date when it calls (`checkpoint`), with the reward rate of that moment. The storage maps are functions, zero where
nothing was written, and `token` is the state of the token contract, which every account can call. Each call
comes with its sender and the timestamp of its block.

The token makes no calls of its own, so the re-entrancy guard is never found taken and is left out, as are the
events, and `permit`, which ends in the `approve` that is there.
-/

set_option autoImplicit false

namespace Curs3d

open Solidity

/-! ## The token -/

structure Curs3dToken where
  owner : Address
  paused : Bool := false
  cap : Nat
  minters : Address → Bool := fun _ => false
  /-- Balances and allowances. -/
  ledger : Erc20 Address compare := {}

namespace Curs3dToken

/-- What an account can call. -/
inductive Call where
  | transfer (recipient : Address) (n : Nat)
  | approve (spender : Address) (n : Nat)
  | transferFrom (owner recipient : Address) (n : Nat)
  | mint (recipient : Address) (n : Nat)
  | burn (n : Nat)
  | setMinter (minter : Address) (allowed : Bool)
  | pause
  | unpause

variable (t : Curs3dToken)

def transfer (sender recipient : Address) (n : Nat) : Option Curs3dToken :=
  if t.paused ∨ recipient = 0 then none
  else (t.ledger.transfer sender recipient n).map fun ledger => { t with ledger }

def approve (owner spender : Address) (n : Nat) : Option Curs3dToken :=
  if spender = 0 then none else (t.ledger.approve owner spender n).map fun ledger => { t with ledger }

def transferFrom (spender owner recipient : Address) (n : Nat) : Option Curs3dToken :=
  if t.paused ∨ owner = 0 ∨ recipient = 0 then none
  else (t.ledger.transferFrom spender owner recipient n).map fun ledger => { t with ledger }

/-- The balance of `account` set to `n`. -/
def setBalance (account : Address) (n : Nat) : Curs3dToken :=
  { t with ledger := { t.ledger with balances := t.ledger.balances.insert account n } }

def mint (sender recipient : Address) (n : Nat) : Option Curs3dToken :=
  if t.paused then none
  else if sender ≠ t.owner ∧ t.minters sender = false then none
  else if t.cap < t.ledger.totalSupply + n then none
  else if recipient = 0 then none
  else some (t.setBalance recipient (t.ledger.balanceOf recipient + n))

def burn (sender : Address) (n : Nat) : Option Curs3dToken :=
  if t.paused ∨ t.ledger.balanceOf sender < n then none
  else some (t.setBalance sender (t.ledger.balanceOf sender - n))

def setMinter (sender minter : Address) (allowed : Bool) : Option Curs3dToken :=
  if sender ≠ t.owner ∨ minter = 0 then none
  else some { t with minters := Function.update t.minters minter allowed }

def pause (sender : Address) : Option Curs3dToken :=
  if sender ≠ t.owner ∨ t.paused then none else some { t with paused := true }

def unpause (sender : Address) : Option Curs3dToken :=
  if sender ≠ t.owner ∨ ¬ t.paused then none else some { t with paused := false }

def call (sender : Address) : Call → Option Curs3dToken
  | .transfer recipient n => t.transfer sender recipient n
  | .approve spender n => t.approve sender spender n
  | .transferFrom owner recipient n => t.transferFrom sender owner recipient n
  | .mint recipient n => t.mint sender recipient n
  | .burn n => t.burn sender n
  | .setMinter minter allowed => t.setMinter sender minter allowed
  | .pause => t.pause sender
  | .unpause => t.unpause sender

end Curs3dToken

/-! ## The staking contract -/

/-- The errors of the contract, and those of `Ownable` and `Pausable`. -/
inductive StakingError where
  | zeroAmount
  | notEnoughStaked
  | rewardRateTooHigh
  | zeroAddress
  | ownableInvalidOwner
  | ownableUnauthorizedAccount
  | enforcedPause
  | expectedPause
deriving DecidableEq, Repr

structure Curs3dStaking where
  /-- `address(this)` -/
  self : Address
  owner : Address
  paused : Bool := false
  /-- The token's address, fixed at construction. -/
  tokenAddress : Address
  token : Curs3dToken
  rewardRatePerSecond : Nat
  totalStaked : Nat := 0
  stakedBalance : Address → Nat := fun _ => 0
  /-- Accrued and not claimed. -/
  rewardDebt : Address → Nat := fun _ => 0
  /-- The time of the last checkpoint. -/
  lastUpdate : Address → Nat := fun _ => 0

namespace Curs3dStaking

/-- `MAX_REWARD_RATE` -/
def maxRewardRate : Nat := 10 ^ 16

/-- `WAD` -/
def wad : Nat := 10 ^ 18

abbrev Result := Except (Revert StakingError)

variable (s : Curs3dStaking)

/-- The constructor, at the fresh address `self`, with the token as it stands. -/
def deploy (self tokenAddress : Address) (token : Curs3dToken) (rewardRatePerSecond : Nat)
    (owner : Address) : Result Curs3dStaking := do
  require (owner ≠ 0) .ownableInvalidOwner
  require (tokenAddress ≠ 0 ∧ owner ≠ 0) .zeroAddress
  require (rewardRatePerSecond ≤ maxRewardRate) .rewardRateTooHigh
  return { self, owner, tokenAddress, token, rewardRatePerSecond }

def pendingRewards (timestamp : Nat) (account : Address) : Result Nat :=
  if s.stakedBalance account = 0 then return s.rewardDebt account
  else do
    let elapsed ← sub timestamp (s.lastUpdate account)
    let perSecond ← mul (s.stakedBalance account) s.rewardRatePerSecond
    let product ← mul perSecond elapsed
    add (s.rewardDebt account) (product / wad)

def checkpoint (timestamp : Nat) (account : Address) : Result Curs3dStaking := do
  let pending ← s.pendingRewards timestamp account
  return { s with
    rewardDebt := Function.update s.rewardDebt account pending
    lastUpdate := Function.update s.lastUpdate account timestamp }

def stake (sender : Address) (timestamp amount : Nat) : Result Curs3dStaking := do
  require (s.paused = false) .enforcedPause
  require (amount ≠ 0) .zeroAmount
  let s ← s.checkpoint timestamp sender
  let staked ← add (s.stakedBalance sender) amount
  let totalStaked ← add s.totalStaked amount
  let token ← bubble (s.token.transferFrom s.self sender s.self amount)
  return { s with stakedBalance := Function.update s.stakedBalance sender staked, totalStaked, token }

def unstake (sender : Address) (timestamp amount : Nat) : Result Curs3dStaking := do
  require (amount ≠ 0) .zeroAmount
  require (amount ≤ s.stakedBalance sender) .notEnoughStaked
  let s ← s.checkpoint timestamp sender
  let staked ← sub (s.stakedBalance sender) amount
  let totalStaked ← sub s.totalStaked amount
  let token ← bubble (s.token.transfer s.self sender amount)
  return { s with stakedBalance := Function.update s.stakedBalance sender staked, totalStaked, token }

/-- The reward that is minted, and the contract afterwards. -/
def claimRewards (sender : Address) (timestamp : Nat) : Result (Nat × Curs3dStaking) := do
  require (s.paused = false) .enforcedPause
  let s ← s.checkpoint timestamp sender
  let reward := s.rewardDebt sender
  if reward = 0 then return (0, s)
  else do
    let token ← bubble (s.token.mint s.self sender reward)
    return (reward, { s with rewardDebt := Function.update s.rewardDebt sender 0, token })

def setRewardRate (sender : Address) (rewardRatePerSecond : Nat) : Result Curs3dStaking := do
  require (sender = s.owner) .ownableUnauthorizedAccount
  require (rewardRatePerSecond ≤ maxRewardRate) .rewardRateTooHigh
  return { s with rewardRatePerSecond }

def pause (sender : Address) : Result Curs3dStaking := do
  require (sender = s.owner) .ownableUnauthorizedAccount
  require (s.paused = false) .enforcedPause
  return { s with paused := true }

def unpause (sender : Address) : Result Curs3dStaking := do
  require (sender = s.owner) .ownableUnauthorizedAccount
  require (s.paused = true) .expectedPause
  return { s with paused := false }

def transferOwnership (sender newOwner : Address) : Result Curs3dStaking := do
  require (sender = s.owner) .ownableUnauthorizedAccount
  require (newOwner ≠ 0) .ownableInvalidOwner
  return { s with owner := newOwner }

def renounceOwnership (sender : Address) : Result Curs3dStaking := do
  require (sender = s.owner) .ownableUnauthorizedAccount
  return { s with owner := 0 }

/-! ## Calls -/

/-- What an account can call: the contract, or the token itself. -/
inductive Action where
  | stake (amount : Nat)
  | unstake (amount : Nat)
  | claimRewards
  | setRewardRate (rewardRatePerSecond : Nat)
  | pause
  | unpause
  | transferOwnership (newOwner : Address)
  | renounceOwnership
  | token (call : Curs3dToken.Call)

/-- A call: its sender, the timestamp of its block, and what is called. -/
structure Call where
  sender : Address
  timestamp : Nat
  action : Action

/-- What a call pays out in rewards, and the contract after it. -/
def perform (c : Call) : Result (Nat × Curs3dStaking) :=
  match c.action with
  | .stake amount => do return (0, ← s.stake c.sender c.timestamp amount)
  | .unstake amount => do return (0, ← s.unstake c.sender c.timestamp amount)
  | .claimRewards => s.claimRewards c.sender c.timestamp
  | .setRewardRate rate => do return (0, ← s.setRewardRate c.sender rate)
  | .pause => do return (0, ← s.pause c.sender)
  | .unpause => do return (0, ← s.unpause c.sender)
  | .transferOwnership newOwner => do return (0, ← s.transferOwnership c.sender newOwner)
  | .renounceOwnership => do return (0, ← s.renounceOwnership c.sender)
  | .token call => do return (0, { s with token := ← bubble (s.token.call c.sender call) })

/-- The calls that bring their sender's rewards up to date. -/
def Action.checkpoints : Action → Bool
  | .stake _ => true
  | .unstake _ => true
  | .claimRewards => true
  | _ => false

end Curs3dStaking
end Curs3d
