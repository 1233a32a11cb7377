import Curs3d.Lib.Erc20
import Curs3d.Lib.Solidity

/-!
# The share vault

`Curs3dVault` holds one ERC-20 asset and gives out shares of it. The state has the contract's own storage and,
in `token`, the state of the asset contract, which every account can call. The asset makes no calls
of its own, so the re-entrancy guard is never found taken and is left out, as are the events.
-/

set_option autoImplicit false

namespace Curs3d

open Solidity

/-- The asset: balances and allowances by account. -/
abbrev AssetToken := Erc20 Address compare

/-- The errors of the vault, and those of `Ownable`, `Pausable` and the constructor it inherits. -/
inductive VaultError where
  | zeroAmount
  | insufficientShares
  | notShareOwner
  | zeroAddress
  | ownableInvalidOwner
  | ownableUnauthorizedAccount
  | enforcedPause
  | expectedPause
deriving DecidableEq, Repr

structure Curs3dVault where
  /-- `address(this)` -/
  self : Address
  owner : Address
  paused : Bool := false
  /-- The asset's address, fixed at construction. -/
  asset : Address
  token : AssetToken := {}
  totalSupply : Nat := 0
  balanceOf : Std.ExtTreeMap Address Nat compare := ∅

namespace Curs3dVault

/-- `DECIMALS_OFFSET` -/
def decimalsOffset : Nat := 10 ^ 10

abbrev Result := Except (Revert VaultError)

variable (v : Curs3dVault)

/-- The constructor, at the fresh address `self`, with the asset as it stands. -/
def deploy (self asset : Address) (token : AssetToken) (owner : Address) : Result Curs3dVault := do
  require (owner ≠ 0) .ownableInvalidOwner
  require (asset ≠ 0 ∧ owner ≠ 0) .zeroAddress
  return { self, owner, asset, token }

def totalAssets : Nat := v.token.balanceOf v.self

def sharesOf (account : Address) : Nat := Ledger.amount v.balanceOf account

def convertToShares (assets : Nat) : Result Nat := do
  let virtualShares ← add v.totalSupply decimalsOffset
  let product ← mul assets virtualShares
  let virtualAssets ← add v.totalAssets 1
  return product / virtualAssets

def convertToAssets (shares : Nat) : Result Nat := do
  let virtualAssets ← add v.totalAssets 1
  let product ← mul shares virtualAssets
  let virtualShares ← add v.totalSupply decimalsOffset
  return product / virtualShares

def deposit (sender : Address) (assets : Nat) (receiver : Address) : Result (Nat × Curs3dVault) := do
  require (v.paused = false) .enforcedPause
  require (assets ≠ 0) .zeroAmount
  require (receiver ≠ 0) .zeroAddress
  let shares ← v.convertToShares assets
  require (shares ≠ 0) .zeroAmount
  let totalSupply ← add v.totalSupply shares
  let held ← add (v.sharesOf receiver) shares
  let token ← bubble (v.token.transferFrom v.self sender v.self assets)
  return (shares, { v with totalSupply, token, balanceOf := v.balanceOf.insert receiver held })

def withdraw (sender : Address) (assets : Nat) (receiver owner : Address) :
    Result (Nat × Curs3dVault) := do
  require (assets ≠ 0) .zeroAmount
  require (receiver ≠ 0 ∧ owner ≠ 0) .zeroAddress
  require (sender = owner) .notShareOwner
  let shares ← v.convertToShares assets
  require (shares ≤ v.sharesOf owner) .insufficientShares
  let held ← sub (v.sharesOf owner) shares
  let totalSupply ← sub v.totalSupply shares
  let token ← bubble (v.token.transfer v.self receiver assets)
  return (shares, { v with totalSupply, token, balanceOf := v.balanceOf.insert owner held })

def pause (sender : Address) : Result Curs3dVault := do
  require (sender = v.owner) .ownableUnauthorizedAccount
  require (v.paused = false) .enforcedPause
  return { v with paused := true }

def unpause (sender : Address) : Result Curs3dVault := do
  require (sender = v.owner) .ownableUnauthorizedAccount
  require (v.paused = true) .expectedPause
  return { v with paused := false }

/-! ## Calls -/

/-- What an account can call: the vault, or the asset itself. A donation is a transfer of the asset to
the vault. -/
inductive Call where
  | deposit (assets : Nat) (receiver : Address)
  | withdraw (assets : Nat) (receiver owner : Address)
  | pause
  | unpause
  | asset (call : Erc20.Call Address)

def callFrom (sender : Address) : Call → Result Curs3dVault
  | .deposit assets receiver => do return (← v.deposit sender assets receiver).2
  | .withdraw assets receiver owner => do return (← v.withdraw sender assets receiver owner).2
  | .pause => v.pause sender
  | .unpause => v.unpause sender
  | .asset call => do return { v with token := ← bubble (v.token.call sender call) }

/-- One call, by the account it names first. The vault's code calls neither itself nor, outside
`deposit` and `withdraw`, the asset: there is no call in the vault's name. -/
def step (c : Address × Call) : Result Curs3dVault :=
  if c.1 = v.self then .error .callee else v.callFrom c.1 c.2

/-- The share price, `(totalAssets + 1) / (totalSupply + 10^10)`. -/
def sharePrice : ℚ := ((v.totalAssets + 1 : Nat) : ℚ) / ((v.totalSupply + decimalsOffset : Nat) : ℚ)

end Curs3dVault
end Curs3d
