import Curs3d.Crypto.Decode

/-!
# Records of older versions (`src/storage/mod.rs`)

Accounts and pending transactions were once stored with fewer fields, and nothing stored says which. A reader
tries the current type first and the old one when that fails, and upgrades what it finds. The tables hold
bytes here, in the order of their keys, as redb iterates over them.
-/

set_option autoImplicit false

namespace Curs3d

structure LegacyAccountStateV1 where
  balance : Nat
  nonce : Nat
  stakedBalance : Nat
  publicKey : Option Bytes
deriving DecidableEq, Repr

structure LegacyTransactionV1 where
  kind : TransactionKind
  «from» : Bytes
  senderPublicKey : Bytes
  «to» : Bytes
  amount : Nat
  fee : Nat
  nonce : Nat
  timestamp : Int
  signature : Option Bytes
deriving DecidableEq, Repr

/-- `From<LegacyAccountStateV1> for AccountState`. -/
def LegacyAccountStateV1.into (value : LegacyAccountStateV1) : AccountState where
  balance := value.balance
  nonce := value.nonce
  stakedBalance := value.stakedBalance
  pendingUnstakes := []
  validatorActiveFromHeight := 0
  jailedUntilHeight := 0
  publicKey := value.publicKey

def LegacyTransactionV1.intoCurrent (value : LegacyTransactionV1) (chainId : Text) :
    Transaction where
  chainId := chainId
  kind := value.kind
  «from» := value.from
  senderPublicKey := value.senderPublicKey
  «to» := value.to
  amount := value.amount
  fee := value.fee
  maxFeePerGas := value.fee
  maxPriorityFeePerGas := value.fee
  nonce := value.nonce
  timestamp := value.timestamp
  signature := value.signature
  gasLimit := 0
  data := []
  evmRawTx := []

namespace Bincode

def legacyAccountStateV1 (a : LegacyAccountStateV1) : Bytes :=
  u64 a.balance ++ u64 a.nonce ++ u64 a.stakedBalance ++ option bytes a.publicKey

def legacyTransactionV1 (tx : LegacyTransactionV1) : Bytes :=
  transactionKind tx.kind ++ bytes tx.from ++ bytes tx.senderPublicKey ++ bytes tx.to ++
    u64 tx.amount ++ u64 tx.fee ++ u64 tx.nonce ++ i64 tx.timestamp ++ option bytes tx.signature

end Bincode

namespace Decode

def legacyAccountStateV1 : Decoder UInt8 LegacyAccountStateV1 := do
  let balance ← u64
  let nonce ← u64
  let stakedBalance ← u64
  let publicKey ← option bytes
  return { balance, nonce, stakedBalance, publicKey }

def legacyTransactionV1 : Decoder UInt8 LegacyTransactionV1 := do
  let kind ← transactionKind
  let sender ← bytes
  let senderPublicKey ← bytes
  let recipient ← bytes
  let amount ← u64
  let fee ← u64
  let nonce ← u64
  let timestamp ← i64
  let signature ← option bytes
  return {
    kind, «from» := sender, senderPublicKey, «to» := recipient, amount, fee, nonce, timestamp, signature }

end Decode

/-! ## The readers -/

/-- `StorageError::Serialize`; its text is bincode's. -/
inductive StorageError where
  | serialize
deriving DecidableEq, Repr

section Readers

variable {α β : Type}

/-- A stored value as the current type, or else as the old one. -/
def readCompat (current : Decoder UInt8 α) (legacy : Decoder UInt8 β) (upgrade : β → α)
    (value : Bytes) : Except StorageError α :=
  match current.decode value with
  | some a => .ok a
  | none => match legacy.decode value with
    | some b => .ok (upgrade b)
    | none => .error .serialize

def readAccount : Bytes → Except StorageError AccountState :=
  readCompat Decode.accountState Decode.legacyAccountStateV1 LegacyAccountStateV1.into

def readTransaction (chainId : Text) : Bytes → Except StorageError Transaction :=
  readCompat Decode.transaction Decode.legacyTransactionV1 fun tx => tx.intoCurrent chainId

def getAccountCompat (table : ByteMap Bytes) (address : Bytes) :
    Except StorageError (Option AccountState) :=
  match table[address]? with
  | some data => (readAccount data).map some
  | none => .ok none

def getAllAccountsCompat (table : ByteMap Bytes) :
    Except StorageError (List (Bytes × AccountState)) :=
  table.toList.mapM fun e => (readAccount e.2).map fun state => (e.1, state)

/-- The order of `sort_by_key(|tx| (tx.timestamp, tx.nonce))`, which is stable. -/
def sortBySubmission (txs : List Transaction) : List Transaction :=
  txs.insertionSort fun a b =>
    a.timestamp < b.timestamp ∨ (a.timestamp = b.timestamp ∧ a.nonce ≤ b.nonce)

def getAllPendingTransactionsCompat (table : ByteMap Bytes) (chainId : Text) :
    Except StorageError (List Transaction) :=
  (table.toList.mapM fun e => readTransaction chainId e.2).map sortBySubmission

end Readers

end Curs3d
