import Curs3d.Core.TransactionJson
import Curs3d.Sdk.Wallet
import Curs3d.Crypto.Reference

/-!
# What the browser signs is what the node checks

The two crates write the signed payload separately. The node reads back every transaction the wallet can
write (`deserialize_serialize`), and of a transfer, whose fee fields are all the one fee, the canonical fees
that the node signs over are that fee again; so the signed bytes coincide.
-/

set_option autoImplicit false

namespace Curs3d

open Json

namespace Sdk

variable {P : Primitives}

/-! ## The JSON -/

/-- The node's kind of the same name. -/
def TransactionKind.toNode : TransactionKind → Curs3d.TransactionKind
  | .transfer => .transfer
  | .stake => .stake
  | .unstake => .unstake
  | .coinbase => .coinbase
  | .deployContract => .deployContract
  | .callContract => .callContract
  | .deployToken => .deployToken
  | .tokenTransfer => .tokenTransfer
  | .tokenApprove => .tokenApprove
  | .tokenTransferFrom => .tokenTransferFrom
  | .submitProposal => .submitProposal
  | .governanceVote => .governanceVote

/-- The kinds have the same indices on both sides. -/
theorem transactionKind_toNode (kind : TransactionKind) :
    Bincode.transactionKind kind.toNode = Bincode.u32 kind.index := by
  cases kind <;> rfl

theorem deserialize_kind (kind : TransactionKind) :
    Curs3d.TransactionKind.deserialize (.string (ascii kind.name)) = some kind.toNode := by
  cases kind <;> decide +kernel

/-- The transaction that the wallet's JSON stands for. -/
def TransactionJson.toNode (t : TransactionJson) : Transaction where
  chainId := t.chainId
  kind := t.kind.toNode
  «from» := t.from
  senderPublicKey := t.senderPublicKey
  «to» := t.to
  amount := t.amount
  fee := t.fee
  maxFeePerGas := t.maxFeePerGas
  maxPriorityFeePerGas := t.maxPriorityFeePerGas
  nonce := t.nonce
  timestamp := t.timestamp
  signature := t.signature
  gasLimit := t.gasLimit
  data := t.data
  evmRawTx := []

/-- Every number is in the range of its type. -/
structure TransactionJson.InRange (t : TransactionJson) : Prop where
  amount : t.amount < U64.modulus
  fee : t.fee < U64.modulus
  maxFeePerGas : t.maxFeePerGas < U64.modulus
  maxPriorityFeePerGas : t.maxPriorityFeePerGas < U64.modulus
  nonce : t.nonce < U64.modulus
  timestamp : -9223372036854775808 ≤ t.timestamp ∧ t.timestamp < 9223372036854775808
  gasLimit : t.gasLimit < U64.modulus

theorem readOption_signature (signature : Option Bytes) :
    readOption readBytes (ofOption ofBytes signature) = some signature := by
  cases signature with
  | none => rfl
  | some s =>
    show (readBytes (ofBytes s)).map some = some (some s)
    rw [readBytes_ofBytes]
    rfl

/-- **The node reads every transaction that the wallet writes.** -/
theorem deserialize_serialize {t : TransactionJson} (h : t.InRange) :
    Transaction.deserialize t.serialize = some t.toNode := by
  obtain ⟨hlow, hhigh⟩ := h.timestamp
  simp [Transaction.deserialize, TransactionJson.serialize, Transaction.ofFields, required,
    withDefault, readText, deserialize_kind, readU64_number h.amount, readU64_number h.fee,
    readU64_number h.maxFeePerGas, readU64_number h.maxPriorityFeePerGas, readU64_number h.nonce,
    readI64_number hlow hhigh, readOption_signature, readU64_number h.gasLimit,
    TransactionJson.toNode]

/-! ## The signed bytes -/

theorem addressBytesFromPublicKey_eq (publicKey : Bytes) :
    addressBytesFromPublicKey P publicKey = Curs3d.addressBytesFromPublicKey P publicKey := rfl

section Build

variable (keypair : KeyPair P) (recipient : AddressBytes) (amount fee nonce : Nat) (timestamp : Int)
  (chainId : Text) (sigBytes : Bytes)

theorem maxFeePerGas_transfer :
    (transferTx keypair recipient amount fee nonce timestamp chainId sigBytes).toNode.maxFeePerGas' =
      fee := Nat.max_self fee

/-- A zero fee is read as no priority fee, and so as the whole of the zero fee. -/
theorem maxPriorityFeePerGas_transfer :
    (transferTx keypair recipient amount fee nonce timestamp
      chainId sigBytes).toNode.maxPriorityFeePerGas' = fee := by
  rw [Transaction.maxPriorityFeePerGas', maxFeePerGas_transfer]
  show (if fee = 0 then min fee fee else min fee fee) = fee
  rw [ite_self, Nat.min_self]

/-- **The node signs over the wallet's bytes.** -/
theorem signableBytes_transfer :
    (transferTx keypair recipient amount fee nonce timestamp chainId sigBytes).toNode.signableBytes =
      transferSigned keypair recipient amount fee nonce timestamp chainId := by
  rw [Transaction.signableBytes, maxFeePerGas_transfer, maxPriorityFeePerGas_transfer]
  rfl

theorem signRaw_eq (message : Bytes) :
    keypair.signRaw message = .ok (P.dilithiumSign keypair.secretKey message) :=
  if_neg fun h => h keypair.length_secretKey

/-- What `build_transfer_tx_inner` writes. -/
def transferJson : Json :=
  (transferTx keypair recipient amount fee nonce timestamp chainId (P.dilithiumSign keypair.secretKey
    (transferSigned keypair recipient amount fee nonce timestamp chainId))).serialize

theorem buildTransferTxInner_eq (J : SerdeJson) :
    buildTransferTxInner keypair recipient amount fee nonce timestamp chainId J =
      .ok (J.toString (transferJson keypair recipient amount fee nonce timestamp chainId)) := by
  rw [buildTransferTxInner, signRaw_eq]
  rfl

end Build

/-- A signature of the seed verifies, on a transfer from the seed's own address. -/
theorem verifySignature_transfer
    (hverify : ∀ seed message : Bytes, seed.length = 32 →
      P.dilithiumVerify message (P.dilithiumSign seed message) (P.publicKeyOf seed) = true)
    (keypair : KeyPair P) {tx : Transaction} (hkind : tx.kind = .transfer)
    (hkey : tx.senderPublicKey = keypair.publicKey)
    (hfrom : tx.from = Curs3d.addressBytesFromPublicKey P tx.senderPublicKey)
    (hsignature : tx.signature = some (P.dilithiumSign keypair.secretKey tx.signableBytes)) :
    tx.verifySignature P = true := by
  have hcoinbase : tx.isCoinbase = false := by simp [Transaction.isCoinbase, hkind]
  have hevm : tx.isEvm = false := by simp [Transaction.isEvm, hkind]
  unfold Transaction.verifySignature
  rw [hcoinbase, hevm, if_neg (by simp), if_neg (by simp), if_neg (not_not.mpr hfrom), hsignature]
  dsimp only
  rw [hkey, keypair.publicKey_eq]
  exact hverify _ _ keypair.length_secretKey

end Sdk

open Sdk in
/-- **The wallet and the node agree on what is signed**, at every fee, zero included. -/
theorem wallet_transfers_verify {P : Primitives}
    (hverify : ∀ seed message : Bytes, seed.length = 32 →
      P.dilithiumVerify message (P.dilithiumSign seed message) (P.publicKeyOf seed) = true)
    (keypair : Sdk.KeyPair P) (recipient : Sdk.AddressBytes) {amount fee nonce : Nat} {timestamp : Int}
    (hamount : amount < U64.modulus) (hfee : fee < U64.modulus) (hnonce : nonce < U64.modulus)
    (htimestamp : -9223372036854775808 ≤ timestamp ∧ timestamp < 9223372036854775808)
    (chainId : Text) (J : SerdeJson)
    (hread : J.fromSlice (J.toString
      (transferJson keypair recipient amount fee nonce timestamp chainId)) =
      some (transferJson keypair recipient amount fee nonce timestamp chainId)) :
    ∃ text tx, buildTransferTxInner keypair recipient amount fee nonce timestamp chainId J = .ok text ∧
      Transaction.fromSlice J text = some tx ∧
      tx.signableBytes = transferSigned keypair recipient amount fee nonce timestamp chainId ∧
      tx.signature = (keypair.signRaw tx.signableBytes).toOption ∧
      tx.from = Curs3d.addressBytesFromPublicKey P tx.senderPublicKey ∧
      tx.verifySignature P = true := by
  have hbuilt := buildTransferTxInner_eq keypair recipient amount fee nonce timestamp chainId J
  have hbytes := signableBytes_transfer keypair recipient amount fee nonce timestamp chainId
    (P.dilithiumSign keypair.secretKey
      (transferSigned keypair recipient amount fee nonce timestamp chainId))
  have hparsed := deserialize_serialize (t := transferTx keypair recipient amount fee nonce timestamp
    chainId (P.dilithiumSign keypair.secretKey
      (transferSigned keypair recipient amount fee nonce timestamp chainId)))
    ⟨hamount, hfee, hfee, hfee, hnonce, htimestamp, (by decide : 0 < U64.modulus)⟩
  refine ⟨_, _, hbuilt, ?_, hbytes, ?_, rfl, ?_⟩
  · rw [Transaction.fromSlice, hread]
    exact hparsed
  · rw [signRaw_eq, hbytes]
    rfl
  · refine verifySignature_transfer hverify keypair rfl rfl rfl ?_
    rw [hbytes]
    rfl

namespace WalletSample

/-- The characters that `serde_json` escapes. -/
def escape (c : UInt8) : Text :=
  match c.toNat with
  | 8 => ascii "\\b"
  | 9 => ascii "\\t"
  | 10 => ascii "\\n"
  | 12 => ascii "\\f"
  | 13 => ascii "\\r"
  | 34 => ascii "\\\""
  | 92 => ascii "\\\\"
  | n => if n < 32 then ascii "\\u00" ++ hexEncode [c] else [c]

def quote (t : Text) : Text := ascii "\"" ++ t.flatMap escape ++ ascii "\""

mutual

/-- `serde_json`'s compact form. -/
def write : Json → Text
  | .null => ascii "null"
  | .bool b => ascii (if b then "true" else "false")
  | .number n => ascii (toString n)
  | .string t => quote t
  | .array elements => ascii "[" ++ List.intercalate (ascii ",") (writeAll elements) ++ ascii "]"
  | .object fields =>
    ascii "\x7b" ++ List.intercalate (ascii ",") (writeFields fields) ++ ascii "\x7d"

def writeAll : List Json → List Text
  | [] => []
  | v :: rest => write v :: writeAll rest

def writeFields : List (String × Json) → List Text
  | [] => []
  | (name, v) :: rest => (quote (ascii name) ++ ascii ":" ++ write v) :: writeFields rest

end

def keypair : Sdk.KeyPair Reference.primitives := .generate (List.replicate 32 7) rfl

def recipient : Sdk.AddressBytes := ⟨List.replicate 20 9, rfl⟩

/-- A transfer without a fee. -/
def json : Json := Sdk.transferJson keypair recipient 5 0 0 (-1) (ascii "curs3d-public-testnet")

/-- The compact form, and a reader that knows this one text. -/
def serdeJson : SerdeJson where
  toString := write
  fromSlice := fun text => if text = write json then some json else none

theorem reads_json : serdeJson.fromSlice (serdeJson.toString json) = some json := by
  simp only [serdeJson, if_true]

end WalletSample

open WalletSample in
theorem wallet_transfers_verify_sample :
    ∃ text tx, Sdk.buildTransferTxInner keypair recipient 5 0 0 (-1) (ascii "curs3d-public-testnet")
        serdeJson = .ok text ∧
      Transaction.fromSlice serdeJson text = some tx ∧
      tx.signableBytes =
        Sdk.transferSigned keypair recipient 5 0 0 (-1) (ascii "curs3d-public-testnet") ∧
      tx.signature = (keypair.signRaw tx.signableBytes).toOption ∧
      tx.from = addressBytesFromPublicKey Reference.primitives tx.senderPublicKey ∧
      tx.verifySignature Reference.primitives = true :=
  wallet_transfers_verify (fun seed message _ => Reference.verify_sign seed message) keypair recipient
    (by decide) (by decide) (by decide) ⟨by decide, by decide⟩ _ serdeJson reads_json

end Curs3d
