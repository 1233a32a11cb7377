import Curs3d.Crypto.Hash
import Curs3d.Lib.Machine

/-!
# Transactions (`src/core/transaction.rs`, `src/vm/gas.rs`)

Gas and fee accessors, the signed bytes, and `verify_signature`. The two fee fields are read
only through `maxFeePerGas'` and `maxPriorityFeePerGas'`, the source's `max_fee_per_gas()` and
`max_priority_fee_per_gas()`: a zero priority field stands for the whole legacy `fee`.

The decoder of raw Ethereum transactions (`decode_raw_eth_tx` in `src/vm/evm.rs`) is here too,
since `verify_signature` calls it.
-/

set_option autoImplicit false

namespace Curs3d

open Bincode U64

def GAS_BASE_TX : Nat := 21000
def GAS_DEPLOY : Nat := 32000
def GAS_CALL : Nat := 2600
def GAS_PER_BYTE : Nat := 16

def TransactionKind.mempoolClass : TransactionKind → MempoolClass
  | .stake | .unstake | .submitProposal | .governanceVote | .coinbase => .system
  | .transfer | .deployContract | .callContract | .deployToken | .tokenTransfer | .tokenApprove
  | .tokenTransferFrom | .deployEvmContract | .callEvmContract => .user

namespace Transaction

variable (P : Primitives) (tx : Transaction)

def mempoolClass : MempoolClass := tx.kind.mempoolClass

def isCoinbase : Bool := tx.kind = .coinbase

def isStake : Bool := tx.kind = .stake

def isUnstake : Bool := tx.kind = .unstake

def isEvm : Bool := tx.kind = .deployEvmContract ∨ tx.kind = .callEvmContract

/-! ## Gas -/

def payloadBytes : Nat :=
  match tx.kind with
  | .transfer => tx.data.length
  | .stake | .unstake | .coinbase => 0
  | .deployContract => satAdd tx.to.length tx.data.length
  | .callContract => tx.data.length
  | .deployToken | .tokenTransfer | .tokenApprove | .tokenTransferFrom => tx.data.length
  | .submitProposal | .governanceVote => tx.data.length
  | .deployEvmContract => satAdd tx.data.length tx.to.length
  | .callEvmContract => tx.data.length

def kindGas : Nat :=
  match tx.kind with
  | .transfer | .stake | .unstake | .coinbase => GAS_BASE_TX
  | .deployContract => satAdd GAS_BASE_TX GAS_DEPLOY
  | .callContract => satAdd GAS_BASE_TX GAS_CALL
  | .deployToken => GAS_BASE_TX
  | .tokenTransfer | .tokenApprove | .tokenTransferFrom => GAS_BASE_TX
  | .submitProposal | .governanceVote => GAS_BASE_TX
  | .deployEvmContract => satAdd GAS_BASE_TX GAS_DEPLOY
  | .callEvmContract => satAdd GAS_BASE_TX GAS_CALL

def intrinsicGas : Nat := satAdd tx.kindGas (satMul tx.payloadBytes GAS_PER_BYTE)

def estimatedGasForAdmission : Nat :=
  match tx.kind with
  | .deployContract | .callContract | .deployEvmContract | .callEvmContract =>
    max tx.gasLimit tx.intrinsicGas
  | _ => tx.intrinsicGas

def effectiveGasLimit : Nat := tx.estimatedGasForAdmission

/-! ## Fees -/

/-- `max_fee_per_gas()`. -/
def maxFeePerGas' : Nat := max tx.maxFeePerGas tx.fee

/-- `max_priority_fee_per_gas()`. -/
def maxPriorityFeePerGas' : Nat :=
  if tx.maxPriorityFeePerGas = 0 then min tx.fee tx.maxFeePerGas'
  else min tx.maxPriorityFeePerGas tx.maxFeePerGas'

def totalFeeCap : Nat := satMul tx.effectiveGasLimit tx.maxFeePerGas'

def effectiveGasPrice (baseFeePerGas : Nat) : Option Nat :=
  if tx.maxFeePerGas' < baseFeePerGas then none
  else some (satAdd baseFeePerGas (min tx.maxPriorityFeePerGas' (tx.maxFeePerGas' - baseFeePerGas)))

def priorityFeePerGas (baseFeePerGas : Nat) : Option Nat :=
  (tx.effectiveGasPrice baseFeePerGas).map (· - baseFeePerGas)

/-! ## Hash and signature -/

/-- `bincode::serialize(&SignableTransaction { .. })` behind its domain tag. -/
def signableBytes : Bytes :=
  ascii "curs3d-tx-v1:" ++
    (bytes tx.chainId ++ transactionKind tx.kind ++ bytes tx.from ++ bytes tx.senderPublicKey ++
      bytes tx.to ++ u64 tx.amount ++ u64 tx.fee ++ u64 tx.maxFeePerGas' ++
      u64 tx.maxPriorityFeePerGas' ++ u64 tx.nonce ++ i64 tx.timestamp ++ u64 tx.gasLimit ++
      bytes tx.data)

def hash : Bytes := P.sha3 tx.signableBytes

def sign (keypair : KeyPair) : Transaction :=
  if tx.isCoinbase then tx
  else { tx with signature := some (keypair.sign P tx.signableBytes) }

def coinbaseWithTimestamp (chainId : Text) (recipient : Bytes) (amount : Nat) (timestamp : Int) :
    Transaction where
  chainId := chainId
  kind := .coinbase
  «from» := List.replicate ADDRESS_LEN 0
  senderPublicKey := []
  «to» := recipient
  amount := amount
  fee := 0
  maxFeePerGas := 0
  maxPriorityFeePerGas := 0
  nonce := 0
  timestamp := timestamp
  signature := none
  gasLimit := 0
  data := []
  evmRawTx := []

/-- `Transaction::from_evm_raw`, called at time `now`. -/
def fromEvmRaw (chainId : Text) (kind : TransactionKind) (fromAddr toAddr : Bytes)
    (value nonce gasLimit maxFeePerGas maxPriorityFeePerGas : Nat) (data rawTx : Bytes)
    (now : Int) : Transaction where
  chainId := chainId
  kind := kind
  «from» := fromAddr
  senderPublicKey := []
  «to» := toAddr
  amount := value
  fee := maxFeePerGas
  maxFeePerGas := maxFeePerGas
  maxPriorityFeePerGas := maxPriorityFeePerGas
  nonce := nonce
  timestamp := now
  signature := none
  gasLimit := gasLimit
  data := data
  evmRawTx := rawTx

end Transaction

/-! ## Raw Ethereum transactions -/

structure DecodedRawTx where
  «from» : Bytes
  «to» : Option Bytes
  value : Nat
  data : Bytes
  gasLimit : Nat
  gasPrice : Nat
  maxFeePerGas : Nat
  maxPriorityFeePerGas : Nat
  nonce : Nat
  chainId : Option Nat
  txHash : Bytes
deriving DecidableEq, Repr

def u64FromU256Saturating (v : Nat) : Nat := if modulus ≤ v then u64Max else v

/-- `decode_raw_eth_tx`: the value saturates at `u64::MAX`, the fees are cut to their low 64
bits (`as u64`). -/
def decodeRawEthTx (P : Primitives) (raw : Bytes) : Option DecodedRawTx :=
  match P.decode2718 raw with
  | none => none
  | some envelope =>
    match envelope.signer with
    | none => none
    | some signer =>
      let maxFee := envelope.maxFeePerGas
      let maxPriority := envelope.maxPriorityFeePerGas.getD maxFee
      some
        { «from» := signer
          «to» := envelope.to
          value := u64FromU256Saturating envelope.value
          data := envelope.input
          gasLimit := envelope.gasLimit
          gasPrice := maxFee % modulus
          maxFeePerGas := maxFee % modulus
          maxPriorityFeePerGas := maxPriority % modulus
          nonce := envelope.nonce
          chainId := envelope.chainId
          txHash := envelope.txHash }

/-- `Transaction::verify_signature`. An EVM transaction is compared with its raw bytes on the
sender alone. -/
def Transaction.verifySignature (P : Primitives) (tx : Transaction) : Bool :=
  if tx.isCoinbase then true
  else if tx.isEvm then
    if tx.evmRawTx.isEmpty then false
    else match decodeRawEthTx P tx.evmRawTx with
      | some decoded => decoded.from = tx.from
      | none => false
  else if tx.from ≠ addressBytesFromPublicKey P tx.senderPublicKey then false
  else match tx.signature with
    | some sig => P.dilithiumVerify tx.signableBytes sig tx.senderPublicKey
    | none => false

end Curs3d
