import Curs3d.Core.Json
import Curs3d.Crypto.Address

/-!
# The browser wallet (`sdk/wasm/src/lib.rs`)

The wallet is a crate of its own and repeats what it needs of the node: the address derivation, the payload
that is signed and the JSON of a transaction. It is modelled as it stands there, apart from the node's
definitions; only bincode, SHA-3 and ML-DSA, the same crates on both sides, are shared.
-/

set_option autoImplicit false

namespace Curs3d
namespace Sdk

open Bincode

variable (P : Primitives)

def ADDRESS_LEN : Nat := 20

def ADDRESS_DOMAIN : Bytes := ascii "curs3d-address"

def TX_SIGN_DOMAIN : Bytes := ascii "curs3d-tx-v1:"

/-! ## Addresses -/

def sha3HashDomain (domain : Bytes) (parts : List Bytes) : Bytes :=
  P.sha3 (u32 domain.length ++ domain ++ parts.flatten)

def addressBytesFromPublicKey (publicKey : Bytes) : Bytes :=
  (sha3HashDomain P ADDRESS_DOMAIN [publicKey]).take ADDRESS_LEN

/-- `[u8; ADDRESS_LEN]`. -/
abbrev AddressBytes := { b : Bytes // b.length = ADDRESS_LEN }

/-- The four prefixes that are taken off, of which the first that fits counts. -/
def addressCore (s : Text) : Text :=
  if ["CUR", "cur"].any fun p => (ascii p).isPrefixOf s then s.drop 3
  else if ["0x", "0X"].any fun p => (ascii p).isPrefixOf s then s.drop 2
  else s

/-- The detail that the `hex` crate adds to its error is left out. -/
def parseAddress (s : Text) : Except String AddressBytes :=
  let core := addressCore s
  let n := core.length
  if n ≠ ADDRESS_LEN * 2 then .error s!"address must be CUR + 40 hex chars (got {n} chars)"
  else match hexDecode core with
    | none => .error "invalid address hex"
    | some bytes =>
      -- forty digits are twenty bytes: `copy_from_slice` finds the length it needs
      if h : bytes.length = ADDRESS_LEN then .ok ⟨bytes, h⟩ else .error "invalid address hex"

/-! ## Key pairs -/

/-- Both ways to a `KeyPair` (`generate` and `from_bytes`, which every stored wallet comes in by) leave a seed of 32 bytes
with the key that it derives. -/
structure KeyPair where
  publicKey : Bytes
  secretKey : Bytes
  length_secretKey : secretKey.length = 32
  publicKey_eq : publicKey = P.publicKeyOf secretKey

variable {P}

def KeyPair.generate (seedBytes : Bytes) (h : seedBytes.length = 32) : KeyPair P where
  publicKey := P.publicKeyOf seedBytes
  secretKey := seedBytes
  length_secretKey := h
  publicKey_eq := rfl

def KeyPair.fromBytes (publicKey secretKey : Bytes) : Except String (KeyPair P) :=
  let n := secretKey.length
  if h : secretKey.length = 32 then
    if publicKey.length ≠ 2592 then .error "invalid public key length"
    else if h' : publicKey = P.publicKeyOf secretKey then .ok ⟨publicKey, secretKey, h, h'⟩
    else .error "public key does not match secret key seed"
  else .error s!"secret key must be 32 bytes (was {n})"

def KeyPair.signRaw (keypair : KeyPair P) (message : Bytes) : Except String Bytes :=
  let n := keypair.secretKey.length
  if n ≠ 32 then .error s!"secret key must be 32 bytes (was {n})"
  else .ok (P.dilithiumSign keypair.secretKey message)

/-! ## Transfers -/

/-- The wallet's own enumeration, without the two EVM kinds. -/
inductive TransactionKind where
  | transfer
  | stake
  | unstake
  | coinbase
  | deployContract
  | callContract
  | deployToken
  | tokenTransfer
  | tokenApprove
  | tokenTransferFrom
  | submitProposal
  | governanceVote
deriving DecidableEq, Repr

/-- bincode's `u32` index. -/
def TransactionKind.index : TransactionKind → Nat
  | .transfer => 0
  | .stake => 1
  | .unstake => 2
  | .coinbase => 3
  | .deployContract => 4
  | .callContract => 5
  | .deployToken => 6
  | .tokenTransfer => 7
  | .tokenApprove => 8
  | .tokenTransferFrom => 9
  | .submitProposal => 10
  | .governanceVote => 11

/-- The name under `rename_all = "PascalCase"`. -/
def TransactionKind.name : TransactionKind → String
  | .transfer => "Transfer"
  | .stake => "Stake"
  | .unstake => "Unstake"
  | .coinbase => "Coinbase"
  | .deployContract => "DeployContract"
  | .callContract => "CallContract"
  | .deployToken => "DeployToken"
  | .tokenTransfer => "TokenTransfer"
  | .tokenApprove => "TokenApprove"
  | .tokenTransferFrom => "TokenTransferFrom"
  | .submitProposal => "SubmitProposal"
  | .governanceVote => "GovernanceVote"

structure SignableTransaction where
  chainId : Text
  kind : TransactionKind
  «from» : Bytes
  senderPublicKey : Bytes
  «to» : Bytes
  amount : Nat
  fee : Nat
  maxFeePerGas : Nat
  maxPriorityFeePerGas : Nat
  nonce : Nat
  timestamp : Int
  gasLimit : Nat
  data : Bytes

/-- `bincode::serialize`. -/
def SignableTransaction.serialize (t : SignableTransaction) : Bytes :=
  bytes t.chainId ++ u32 t.kind.index ++ bytes t.from ++ bytes t.senderPublicKey ++ bytes t.to ++
    u64 t.amount ++ u64 t.fee ++ u64 t.maxFeePerGas ++ u64 t.maxPriorityFeePerGas ++ u64 t.nonce ++
    i64 t.timestamp ++ u64 t.gasLimit ++ bytes t.data

structure TransactionJson where
  chainId : Text
  kind : TransactionKind
  «from» : Bytes
  senderPublicKey : Bytes
  «to» : Bytes
  amount : Nat
  fee : Nat
  maxFeePerGas : Nat
  maxPriorityFeePerGas : Nat
  nonce : Nat
  timestamp : Int
  /-- A `SignatureWire` is written as the bytes in it. -/
  signature : Option Bytes
  gasLimit : Nat
  data : Bytes

/-- The derived `Serialize`. -/
def TransactionJson.serialize (t : TransactionJson) : Json :=
  .object
    [("chain_id", .string t.chainId), ("kind", .string (ascii t.kind.name)),
      ("from", .ofBytes t.from), ("sender_public_key", .ofBytes t.senderPublicKey),
      ("to", .ofBytes t.to), ("amount", .number t.amount), ("fee", .number t.fee),
      ("max_fee_per_gas", .number t.maxFeePerGas),
      ("max_priority_fee_per_gas", .number t.maxPriorityFeePerGas), ("nonce", .number t.nonce),
      ("timestamp", .number t.timestamp), ("signature", .ofOption .ofBytes t.signature),
      ("gas_limit", .number t.gasLimit), ("data", .ofBytes t.data)]

section Build

variable (keypair : KeyPair P) (recipient : AddressBytes) (amount fee nonce : Nat) (timestamp : Int)
  (chainId : Text)

/-- The `signable` of `build_transfer_tx_inner`. -/
def transferSignable : SignableTransaction where
  chainId := chainId
  kind := .transfer
  «from» := addressBytesFromPublicKey P keypair.publicKey
  senderPublicKey := keypair.publicKey
  «to» := recipient.val
  amount := amount
  fee := fee
  maxFeePerGas := fee
  maxPriorityFeePerGas := fee
  nonce := nonce
  timestamp := timestamp
  gasLimit := 0
  data := []

/-- The `prefixed` bytes that are signed. -/
def transferSigned : Bytes :=
  TX_SIGN_DOMAIN ++
    (transferSignable keypair recipient amount fee nonce timestamp chainId).serialize

/-- The `tx` of `build_transfer_tx_inner`. -/
def transferTx (sigBytes : Bytes) : TransactionJson where
  chainId := chainId
  kind := .transfer
  «from» := addressBytesFromPublicKey P keypair.publicKey
  senderPublicKey := keypair.publicKey
  «to» := recipient.val
  amount := amount
  fee := fee
  maxFeePerGas := fee
  maxPriorityFeePerGas := fee
  nonce := nonce
  timestamp := timestamp
  signature := some sigBytes
  gasLimit := 0
  data := []

/-- Neither serializer can fail on these types. -/
def buildTransferTxInner (J : SerdeJson) : Except String Text := do
  let sigBytes ←
    keypair.signRaw (transferSigned keypair recipient amount fee nonce timestamp chainId)
  return J.toString
    (transferTx keypair recipient amount fee nonce timestamp chainId sigBytes).serialize

end Build

def buildTransferTxAdvanced (J : SerdeJson) (keypair : KeyPair P) (toAddress : Text)
    (amount fee nonce : Nat) (timestamp : Int) (chainId : Text) : Except String Text := do
  let recipient ← parseAddress toAddress
  buildTransferTxInner keypair recipient amount fee nonce timestamp chainId J

/-- `build_transfer_tx`, called at time `now`. -/
def buildTransferTx (J : SerdeJson) (keypair : KeyPair P) (toAddress : Text) (amount fee nonce : Nat)
    (now : Int) : Except String Text := do
  let recipient ← parseAddress toAddress
  buildTransferTxInner keypair recipient amount fee nonce now (ascii "curs3d-public-testnet") J

end Sdk
end Curs3d
