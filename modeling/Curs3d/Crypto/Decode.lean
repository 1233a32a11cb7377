import Curs3d.Crypto.Bincode
import Curs3d.Lib.Codec

/-!
# Decoding bincode

`bincode::deserialize` with its default options, for the records the node stores: integers at their full
width, a length of eight bytes, one byte for an `Option` and four for a variant, both refused when they name
no variant, text checked to be UTF-8. Bytes left over are not an error (`Decoder.decode`).
-/

set_option autoImplicit false

namespace Curs3d.Bincode

/-- The value of little-endian bytes. -/
def leValue : Bytes → Nat
  | [] => 0
  | b :: rest => b.toNat + 256 * leValue rest

end Curs3d.Bincode

namespace Curs3d.Decode

open Decoder

/-- `std::str::from_utf8` accepts. -/
def ValidUtf8 (t : Text) : Prop := (ByteArray.mk t.toArray).IsValidUTF8

instance (t : Text) : Decidable (ValidUtf8 t) :=
  inferInstanceAs (Decidable (ByteArray.mk t.toArray).IsValidUTF8)

def uint (w : Nat) : Decoder UInt8 Nat := do
  let b ← take w
  return Bincode.leValue b

def u8 : Decoder UInt8 Nat := uint 1

def u32 : Decoder UInt8 Nat := uint 4

def u64 : Decoder UInt8 Nat := uint 8

def i64 : Decoder UInt8 Int := do
  let n ← u64
  return if n < 9223372036854775808 then n else n - 18446744073709551616

def bytes : Decoder UInt8 Bytes := do
  let n ← u64
  take n

def text : Decoder UInt8 Text := do
  let b ← bytes
  if ValidUtf8 b then return b else fail

def option {α : Type} (d : Decoder UInt8 α) : Decoder UInt8 (Option α) := do
  let tag ← u8
  if tag = 0 then return none
  else if tag = 1 then
    let a ← d
    return some a
  else fail

def vec {α : Type} (d : Decoder UInt8 α) : Decoder UInt8 (List α) := do
  let n ← u64
  times d n

/-! ## The records that are stored -/

def transactionKind : Decoder UInt8 TransactionKind := do
  let variant ← u32
  match variant with
  | 0 => return .transfer
  | 1 => return .stake
  | 2 => return .unstake
  | 3 => return .coinbase
  | 4 => return .deployContract
  | 5 => return .callContract
  | 6 => return .deployToken
  | 7 => return .tokenTransfer
  | 8 => return .tokenApprove
  | 9 => return .tokenTransferFrom
  | 10 => return .submitProposal
  | 11 => return .governanceVote
  | 12 => return .deployEvmContract
  | 13 => return .callEvmContract
  | _ => fail

def pendingUnstake : Decoder UInt8 PendingUnstake := do
  let amount ← u64
  let unlockHeight ← u64
  return { amount, unlockHeight }

def accountState : Decoder UInt8 AccountState := do
  let balance ← u64
  let nonce ← u64
  let stakedBalance ← u64
  let pendingUnstakes ← vec pendingUnstake
  let validatorActiveFromHeight ← u64
  let jailedUntilHeight ← u64
  let publicKey ← option bytes
  return {
    balance, nonce, stakedBalance, pendingUnstakes, validatorActiveFromHeight, jailedUntilHeight
    publicKey }

def transaction : Decoder UInt8 Transaction := do
  let chainId ← text
  let kind ← transactionKind
  let sender ← bytes
  let senderPublicKey ← bytes
  let recipient ← bytes
  let amount ← u64
  let fee ← u64
  let maxFeePerGas ← u64
  let maxPriorityFeePerGas ← u64
  let nonce ← u64
  let timestamp ← i64
  let signature ← option bytes
  let gasLimit ← u64
  let data ← bytes
  let evmRawTx ← bytes
  return {
    chainId, kind, «from» := sender, senderPublicKey, «to» := recipient, amount, fee, maxFeePerGas
    maxPriorityFeePerGas, nonce, timestamp, signature, gasLimit, data, evmRawTx }

def blockHeader : Decoder UInt8 BlockHeader := do
  let version ← u32
  let height ← u64
  let timestamp ← i64
  let prevHash ← bytes
  let merkleRoot ← bytes
  let stateRoot ← bytes
  let gasUsed ← u64
  let baseFeePerGas ← u64
  let validatorPublicKey ← bytes
  let nonce ← u64
  return {
    version, height, timestamp, prevHash, merkleRoot, stateRoot, gasUsed, baseFeePerGas
    validatorPublicKey, nonce }

def block : Decoder UInt8 Block := do
  let header ← blockHeader
  let transactions ← vec transaction
  let hash ← bytes
  let signature ← option bytes
  return { header, transactions, hash, signature }

end Curs3d.Decode
