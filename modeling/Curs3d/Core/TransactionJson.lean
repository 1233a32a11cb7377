import Curs3d.Core.Json
import Curs3d.Core.Transaction

/-!
# Transactions in JSON (`src/core/transaction.rs`)

The derived `Deserialize` of `Transaction`, which `POST /api/tx/submit` reads its body with. Fields come in any
order, unknown ones are passed over, and those under `#[serde(default)]` may be left out. serde also takes the
fields as an array, in the order of the declaration and less some of the defaulted ones at its end.
-/

set_option autoImplicit false

namespace Curs3d

open Json

/-- The variants under their names. -/
def TransactionKind.ofName (name : Text) : Option TransactionKind :=
  [("Transfer", .transfer), ("Stake", .stake), ("Unstake", .unstake), ("Coinbase", .coinbase),
    ("DeployContract", .deployContract), ("CallContract", .callContract),
    ("DeployToken", .deployToken), ("TokenTransfer", .tokenTransfer),
    ("TokenApprove", .tokenApprove), ("TokenTransferFrom", .tokenTransferFrom),
    ("SubmitProposal", .submitProposal), ("GovernanceVote", .governanceVote),
    ("DeployEvmContract", .deployEvmContract), ("CallEvmContract", .callEvmContract)].findSome?
    fun (variant, kind) => if name = ascii variant then some kind else none

/-- A variant without fields is its name, or an object with the name as its one field. -/
def TransactionKind.deserialize : Json → Option TransactionKind
  | .string name => TransactionKind.ofName name
  | .object [(name, .null)] => TransactionKind.ofName name.toUTF8.toList
  | _ => none

namespace Transaction

/-- The fields in declaration order. -/
def fieldNames : List String :=
  ["chain_id", "kind", "from", "sender_public_key", "to", "amount", "fee", "max_fee_per_gas",
    "max_priority_fee_per_gas", "nonce", "timestamp", "signature", "gas_limit", "data", "evm_raw_tx"]

def ofFields (fields : List (String × Json)) : Option Transaction := do
  let chainId ← required fields "chain_id" readText
  let kind ← required fields "kind" TransactionKind.deserialize
  let «from» ← required fields "from" readBytes
  let senderPublicKey ← required fields "sender_public_key" readBytes
  let «to» ← required fields "to" readBytes
  let amount ← required fields "amount" readU64
  let fee ← withDefault fields "fee" readU64 0
  let maxFeePerGas ← withDefault fields "max_fee_per_gas" readU64 0
  let maxPriorityFeePerGas ← withDefault fields "max_priority_fee_per_gas" readU64 0
  let nonce ← required fields "nonce" readU64
  let timestamp ← required fields "timestamp" readI64
  let signature ← withDefault fields "signature" (readOption readBytes) none
  let gasLimit ← withDefault fields "gas_limit" readU64 0
  let data ← withDefault fields "data" readBytes []
  let evmRawTx ← withDefault fields "evm_raw_tx" readBytes []
  return { chainId, kind, «from», senderPublicKey, «to», amount, fee, maxFeePerGas,
           maxPriorityFeePerGas, nonce, timestamp, signature, gasLimit, data, evmRawTx }

def deserialize : Json → Option Transaction
  | .object fields => ofFields fields
  | .array values =>
    if 12 ≤ values.length ∧ values.length ≤ 15 then ofFields (fieldNames.zip values) else none
  | _ => none

/-- `serde_json::from_slice::<Transaction>`. -/
def fromSlice (J : SerdeJson) (body : Bytes) : Option Transaction :=
  (J.fromSlice body).bind deserialize

end Transaction
end Curs3d
