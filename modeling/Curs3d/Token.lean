import Curs3d.Crypto.Hash
import Curs3d.Lib.KeyMap
import Curs3d.Lib.Machine

/-!
# CUR-20 tokens (`src/token/mod.rs`)

Each operation returns the registry it leaves behind or an error; the source checks everything
before its first write, so a failed operation has changed nothing and `Except` is enough.
-/

set_option autoImplicit false

namespace Curs3d.TokenRegistry

open Bincode U64

variable (P : Primitives) (r : TokenRegistry)

def balanceOf (tokenAddress owner : Bytes) : Nat := r.balances[[tokenAddress, owner]]?.getD 0

def allowance (tokenAddress owner spender : Bytes) : Nat :=
  r.allowances[[tokenAddress, owner, spender]]?.getD 0

/-- The address `deploy_token` derives: `SHA-3(deployer || nonce || "cur20")`, cut to 20 bytes. -/
def tokenAddressFor (deployer : Bytes) (nonce : Nat) : Bytes :=
  addressBytesFromData P (deployer ++ u64 nonce ++ ascii "cur20")

def deployToken (deployer : Bytes) (nonce : Nat) (params : DeployTokenParams) (height : Nat) :
    Except TokenError TokenRegistry :=
  if params.name.isEmpty ∨ 64 < params.name.length then .error .invalidName
  else if params.symbol.isEmpty ∨ 12 < params.symbol.length then .error .invalidSymbol
  else if 18 < params.decimals then .error .invalidDecimals
  else if params.totalSupply = 0 then .error .invalidSupply
  else
    let address := tokenAddressFor P deployer nonce
    if address ∈ r.tokens then .error .alreadyExists
    else .ok
      { r with
        tokens := r.tokens.insert address
          { contractAddress := address
            name := params.name
            symbol := params.symbol
            decimals := params.decimals
            totalSupply := params.totalSupply
            creator := deployer
            createdAtHeight := height }
        balances := r.balances.insert [address, deployer] params.totalSupply }

/-- The two writes of a transfer: the debit first, then the credit on the new map. -/
def moveBalance (tokenAddress source recipient : Bytes) (sourceBalance amount : Nat) :
    TokenRegistry :=
  let debited := r.balances.insert [tokenAddress, source] (sourceBalance - amount)
  let recipientBalance := debited[[tokenAddress, recipient]]?.getD 0
  { r with balances := debited.insert [tokenAddress, recipient] (wrapAdd recipientBalance amount) }

def transfer (tokenAddress source recipient : Bytes) (amount : Nat) :
    Except TokenError TokenRegistry :=
  if tokenAddress ∉ r.tokens then .error .tokenNotFound
  else if source = recipient then .error .selfTransfer
  else if amount = 0 then .error .zeroAmount
  else if r.balanceOf tokenAddress source < amount then .error .insufficientBalance
  else .ok (r.moveBalance tokenAddress source recipient (r.balanceOf tokenAddress source) amount)

def approve (tokenAddress owner spender : Bytes) (amount : Nat) :
    Except TokenError TokenRegistry :=
  if tokenAddress ∉ r.tokens then .error .tokenNotFound
  else .ok { r with allowances := r.allowances.insert [tokenAddress, owner, spender] amount }

def transferFrom (tokenAddress spender source recipient : Bytes) (amount : Nat) :
    Except TokenError TokenRegistry :=
  if tokenAddress ∉ r.tokens then .error .tokenNotFound
  else if amount = 0 then .error .zeroAmount
  else if r.allowance tokenAddress source spender < amount then .error .insufficientAllowance
  else if r.balanceOf tokenAddress source < amount then .error .insufficientBalance
  else
    let moved :=
      r.moveBalance tokenAddress source recipient (r.balanceOf tokenAddress source) amount
    .ok { moved with
      allowances := moved.allowances.insert [tokenAddress, source, spender]
        (r.allowance tokenAddress source spender - amount) }

end Curs3d.TokenRegistry
