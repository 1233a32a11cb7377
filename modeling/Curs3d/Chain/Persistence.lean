import Curs3d.Chain.Finality
import Curs3d.Chain.Mempool
import Curs3d.Core.Storage
import Curs3d.Lib.Handoff

/-!
# Persistence (`src/core/chain/{mod,persistence}.rs`)

A chain with asynchronous persistence leaves its full state in the slot of a `PersistenceHandle`
and sends small jobs over a channel of eight; the worker writes both, transaction by transaction.
The threads are those of `Lib/Handoff.lean`, here at the values of this program.

`persist_full_state` writes the slot and then signals, and the worker may move in between; the chain
lock keeps every other call out until the signal is sent.
-/

set_option autoImplicit false

namespace Curs3d

/-- `PERSISTENCE_QUEUE_CAPACITY`. -/
def PERSISTENCE_QUEUE_CAPACITY : Nat := 8

structure PersistedChainState where
  genesisConfig : GenesisConfig
  finalizedHeight : Nat
  blocks : List Block
  accounts : ByteMap AccountState
  contracts : ByteMap ContractState
  receipts : ByteMap Receipt
  epochSnapshots : HeightMap EpochSnapshot
  pendingTransactions : List Transaction
  tokenRegistry : TokenRegistry
  governance : GovernanceState
deriving DecidableEq

/-- `PersistedChainState::from_chain`. -/
def PersistedChainState.fromChain (c : Blockchain) : PersistedChainState where
  genesisConfig := c.genesisConfig
  finalizedHeight := c.finalityTracker.finalizedHeight
  blocks := c.iterBlocks
  accounts := c.accounts
  contracts := c.contracts
  receipts := c.receipts
  epochSnapshots := c.epochSnapshots
  pendingTransactions := c.pendingTransactions
  tokenRegistry := c.tokenRegistry
  governance := c.governance

/-- The transactions of `write_full_state_to_storage`, in order. -/
def writeFullStateToStorage (s : PersistedChainState) : List StorageTx :=
  [.putChainConfig s.genesisConfig, .putFinalizedHeight s.finalizedHeight,
    .putSchemaVersion CURRENT_SCHEMA_VERSION, .putTokenRegistry s.tokenRegistry,
    .putGovernance s.governance, .replaceBlocks s.blocks, .replaceAccounts s.accounts,
    .replaceContracts s.contracts, .replaceReceipts s.receipts,
    .replaceEpochSnapshots s.epochSnapshots, .replacePendingTransactions s.pendingTransactions]

/-- The small jobs; `FullStateSignal` and `Shutdown` are the other messages of the channel. -/
inductive PersistJob where
  | pendingTransactions (txs : List Transaction)
  | finalizedHeight (height : Nat)
  | equivocationEvidence (evidence : EquivocationEvidence) (address : Bytes)
      (account : Option AccountState)
deriving DecidableEq

def PersistJob.transactions : PersistJob → List StorageTx
  | .pendingTransactions txs => [.replacePendingTransactions txs]
  | .finalizedHeight height => [.putFinalizedHeight height]
  | .equivocationEvidence evidence address account =>
    .putEvidence evidence :: (account.map (StorageTx.putAccount address)).toList

/-- A persistence worker and the ways to reach it. -/
abbrev PersistenceHandle := Handoff.State PersistedChainState PersistJob StorageTx Storage

namespace PersistenceHandle

def protocol (P : Primitives) : Handoff.Protocol PersistedChainState PersistJob StorageTx Storage
    where
  capacity := PERSISTENCE_QUEUE_CAPACITY
  ofState := writeFullStateToStorage
  ofJob := PersistJob.transactions
  commit := Storage.commit P

theorem protocol_capacity {P : Primitives} : 0 < (protocol P).capacity := Nat.succ_pos 7

/-- `spawn`. -/
def spawn (storage : Storage) : PersistenceHandle := { store := storage }

end PersistenceHandle

end Curs3d
