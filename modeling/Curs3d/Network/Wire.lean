import Curs3d.Chain.Snapshot
import Curs3d.Crypto.Decode

/-!
# What goes over the wire (`src/network/mod.rs`, `src/storage/mod.rs`)

A message carries a block, a transaction, a vote, evidence, a manifest or a chunk as `bincode::serialize` writes it,
and `bounded_deserialize` reads it: nothing over 16 MiB, and with the same options. The limit that bincode
counts down on its own is never met first, since it is as large as the input may be. The chunks of a
snapshot together hold a `SnapshotState`, which `bincode::deserialize` reads without a limit.
-/

set_option autoImplicit false

namespace Curs3d

def MAX_DESERIALIZE_SIZE : Nat := 16 * 1024 * 1024

/-- `bounded_deserialize`, for the type that `d` reads. -/
def boundedDeserialize {α : Type} (d : Decoder UInt8 α) (data : Bytes) : Option α :=
  if MAX_DESERIALIZE_SIZE < data.length then none else d.decode data

namespace Bincode

def finalityVote (v : FinalityVote) : Bytes :=
  bytes v.blockHash ++ u64 v.blockHeight ++ u64 v.epoch ++ bytes v.voterPublicKey ++
    bytes v.signature

def equivocationEvidence (e : EquivocationEvidence) : Bytes :=
  u64 e.height ++ bytes e.validatorPublicKey ++ blockHeader e.blockHeaderA ++ bytes e.blockHashA ++
    bytes e.signatureA ++ blockHeader e.blockHeaderB ++ bytes e.blockHashB ++ bytes e.signatureB

def snapshotManifest (m : SnapshotManifest) : Bytes :=
  u64 m.height ++ u64 m.epoch ++ bytes m.chainId ++ bytes m.genesisHash ++ bytes m.latestHash ++
    u64 m.tipHeight ++ bytes m.tipHash ++ u64 m.finalizedHeight ++ bytes m.finalizedHash ++
    bytes m.stateRoot ++ bytes m.chunkRoot ++ u64 m.chunkCount ++ vec bytes m.chunkHashes

def stateChunk (c : StateChunk) : Bytes :=
  u64 c.index ++ bytes c.data ++ bytes c.hash ++ vec bytes c.proof

end Bincode

namespace Decode

open Decoder

/-! ## Messages -/

def finalityVote : Decoder UInt8 FinalityVote := do
  let blockHash ← bytes
  let blockHeight ← u64
  let epoch ← u64
  let voterPublicKey ← bytes
  let signature ← bytes
  return { blockHash, blockHeight, epoch, voterPublicKey, signature }

def equivocationEvidence : Decoder UInt8 EquivocationEvidence := do
  let height ← u64
  let validatorPublicKey ← bytes
  let blockHeaderA ← blockHeader
  let blockHashA ← bytes
  let signatureA ← bytes
  let blockHeaderB ← blockHeader
  let blockHashB ← bytes
  let signatureB ← bytes
  return {
    height, validatorPublicKey, blockHeaderA, blockHashA, signatureA, blockHeaderB, blockHashB
    signatureB }

def snapshotManifest : Decoder UInt8 SnapshotManifest := do
  let height ← u64
  let epoch ← u64
  let chainId ← text
  let genesisHash ← bytes
  let latestHash ← bytes
  let tipHeight ← u64
  let tipHash ← bytes
  let finalizedHeight ← u64
  let finalizedHash ← bytes
  let stateRoot ← bytes
  let chunkRoot ← bytes
  let chunkCount ← u64
  let chunkHashes ← vec bytes
  return {
    height, epoch, chainId, genesisHash, latestHash, tipHeight, tipHash, finalizedHeight
    finalizedHash, stateRoot, chunkRoot, chunkCount, chunkHashes }

def stateChunk : Decoder UInt8 StateChunk := do
  let index ← u64
  let data ← bytes
  let hash ← bytes
  let proof ← vec bytes
  return { index, data, hash, proof }

/-! ## The state in the chunks -/

def bool : Decoder UInt8 Bool := do
  let b ← u8
  if b = 0 then return false
  else if b = 1 then return true
  else fail

/-- A tuple. -/
def pair {α β : Type} (first : Decoder UInt8 α) (second : Decoder UInt8 β) :
    Decoder UInt8 (α × β) := do
  let a ← first
  let b ← second
  return (a, b)

/-- The entries of the storage go into a `HashMap`, a later one over an earlier one. -/
def contractState : Decoder UInt8 ContractState := do
  let codeHash ← bytes
  let code ← bytes
  let entries ← vec (pair bytes bytes)
  let owner ← bytes
  return { codeHash, code, storage := collectBytes entries, owner }

def logEntry : Decoder UInt8 LogEntry := do
  let contract ← bytes
  let topics ← vec bytes
  let data ← bytes
  return { contract, topics, data }

def receipt : Decoder UInt8 Receipt := do
  let txHash ← bytes
  let success ← bool
  let gasUsed ← u64
  let effectiveGasPrice ← u64
  let priorityFeePaid ← u64
  let baseFeeBurned ← u64
  let gasRefunded ← u64
  let logs ← vec logEntry
  let returnData ← bytes
  let contractAddress ← option bytes
  return {
    txHash, success, gasUsed, effectiveGasPrice, priorityFeePaid, baseFeeBurned, gasRefunded, logs
    returnData, contractAddress }

def validator : Decoder UInt8 Validator := do
  let address ← bytes
  let publicKey ← bytes
  let stake ← u64
  return { address, publicKey, stake }

def epochSnapshot : Decoder UInt8 EpochSnapshot := do
  let epoch ← u64
  let startHeight ← u64
  let validators ← vec validator
  let totalStake ← u64
  return { epoch, startHeight, validators, totalStake }

def snapshotState : Decoder UInt8 SnapshotState := do
  let blocks ← vec block
  let accounts ← vec (pair bytes accountState)
  let contracts ← vec (pair bytes contractState)
  let receipts ← vec (pair bytes receipt)
  let pendingTransactions ← vec transaction
  let slashedValidators ← vec bytes
  let epochSnapshots ← vec (pair u64 epochSnapshot)
  let finalizedHeight ← u64
  let finalizedHash ← bytes
  return {
    blocks, accounts, contracts, receipts, pendingTransactions, slashedValidators, epochSnapshots
    finalizedHeight, finalizedHash }

end Decode

/-! ## Messages with a payload -/

/-- The messages that carry bytes of bincode. -/
inductive PayloadKind where
  | newBlock
  | newTransaction
  | slashingEvidence
  | finalityVote
  | snapshotManifest
  | snapshotChunk
deriving DecidableEq, Repr

/-- Such a message, before it is serialized and after it is read. -/
inductive Payload where
  | newBlock (block : Block)
  | newTransaction (tx : Transaction)
  | slashingEvidence (evidence : EquivocationEvidence)
  | finalityVote (vote : FinalityVote)
  | snapshotManifest (manifest : SnapshotManifest)
  | snapshotChunk (chunk : StateChunk)
deriving DecidableEq

namespace Payload

def kind : Payload → PayloadKind
  | .newBlock _ => .newBlock
  | .newTransaction _ => .newTransaction
  | .slashingEvidence _ => .slashingEvidence
  | .finalityVote _ => .finalityVote
  | .snapshotManifest _ => .snapshotManifest
  | .snapshotChunk _ => .snapshotChunk

/-- `bincode::serialize` of the content. -/
def serialize : Payload → Bytes
  | .newBlock block => Bincode.block block
  | .newTransaction tx => Bincode.transaction tx
  | .slashingEvidence evidence => Bincode.equivocationEvidence evidence
  | .finalityVote vote => Bincode.finalityVote vote
  | .snapshotManifest manifest => Bincode.snapshotManifest manifest
  | .snapshotChunk chunk => Bincode.stateChunk chunk

/-- The first thing the handler of a message does. -/
def read (kind : PayloadKind) (data : Bytes) : Option Payload :=
  match kind with
  | .newBlock => (boundedDeserialize Decode.block data).map newBlock
  | .newTransaction => (boundedDeserialize Decode.transaction data).map newTransaction
  | .slashingEvidence =>
    (boundedDeserialize Decode.equivocationEvidence data).map slashingEvidence
  | .finalityVote => (boundedDeserialize Decode.finalityVote data).map finalityVote
  | .snapshotManifest => (boundedDeserialize Decode.snapshotManifest data).map snapshotManifest
  | .snapshotChunk => (boundedDeserialize Decode.stateChunk data).map snapshotChunk

end Payload

/-- `bincode::deserialize::<SnapshotState>`. -/
def deserializeSnapshotState (data : Bytes) : Except String SnapshotState :=
  match Decode.snapshotState.decode data with
  | some state => .ok state
  | none => .error "deserialization failed"

end Curs3d
