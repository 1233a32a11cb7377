import Curs3d.Lib.Machine
import Curs3d.Lib.KeyMap
import Curs3d.Lib.Handoff
import Curs3d.Lib.Outcome
import Curs3d.Lib.Lru
import Curs3d.Core.Types
import Curs3d.Crypto.Primitives
import Curs3d.Crypto.Bincode
import Curs3d.Crypto.Hash
import Curs3d.Core.Transaction
import Curs3d.Core.Block
import Curs3d.Core.StateRoot
import Curs3d.Core.BlockStore
import Curs3d.Core.Storage
import Curs3d.Token
import Curs3d.Governance
import Curs3d.Vm.Wasm
import Curs3d.Vm.Evm
import Curs3d.Consensus.Stake
import Curs3d.Consensus.Finality
import Curs3d.Core.BlockTree
import Curs3d.Chain.Execute
import Curs3d.Chain.State
import Curs3d.Chain.Apply
import Curs3d.Chain.Produce
import Curs3d.Chain.Reorg
import Curs3d.Chain.Finality
import Curs3d.Chain.Mempool
import Curs3d.Chain.Persistence
import Curs3d.Chain.LiveStore
import Curs3d.Chain.Snapshot
import Curs3d.Api.EthRpc
import Curs3d.Network.Node
import Curs3d.Crypto.Reference
import Curs3d.Lib.Quorum
import Curs3d.Proof.Tracker
import Curs3d.Proof.Threshold
import Curs3d.Proof.Execute
import Curs3d.Proof.Conservation
import Curs3d.Proof.Rejected
import Curs3d.Lib.Ancestry
import Curs3d.Proof.Spine
import Curs3d.Proof.Tree
import Curs3d.Network.System
import Curs3d.Proof.Voting
import Curs3d.Proof.FinalityChain
import Curs3d.Proof.Agreement
import Curs3d.Proof.LiveStore
import Curs3d.Proof.Authentic
import Curs3d.Proof.Pool
import Curs3d.Proof.Validate
import Curs3d.Proof.Decisions
import Curs3d.Proof.Tally
import Curs3d.Proof.Production
import Curs3d.Proof.BaseFee
import Curs3d.Proof.Linear
import Curs3d.Proof.Restart
import Curs3d.Proof.Inflation
import Curs3d.Proof.ForkErrors
import Curs3d.Proof.SnapshotChecks
import Curs3d.Proof.TipAgreement
import Curs3d.Proof.Replacement
import Curs3d.Proof.RoundTrip
import Curs3d.Proof.Convergence
import Curs3d.Proof.Equivocation
import Curs3d.Proof.FullState
import Curs3d.Proof.Keys
import Curs3d.Proof.Unanimity
import Curs3d.Lib.Index
import Curs3d.Proof.Indexes
import Curs3d.Proof.SnapshotSync
import Curs3d.Chain.AsyncNode
import Curs3d.Proof.CatchUp
import Curs3d.Chain.Open
import Curs3d.Proof.PrunedRestart
import Curs3d.Lib.Draws
import Curs3d.Proof.SlotLeaders
import Curs3d.Lib.Reorder
import Curs3d.Proof.Applicable
import Curs3d.Lib.Blend
import Curs3d.Proof.PendingOrder
import Curs3d.Proof.SlotGate
import Curs3d.Core.MemoryStore
import Curs3d.Proof.MemoryStore
import Curs3d.Lib.Ledger
import Curs3d.Proof.Cur20
import Curs3d.Lib.Trace
import Curs3d.Lib.Erc20
import Curs3d.Lib.Shares
import Curs3d.Lib.Solidity
import Curs3d.Contracts.Vault
import Curs3d.Proof.Vault
import Curs3d.Contracts.Governance
import Curs3d.Proof.GovernanceVotes
import Curs3d.Lib.Frames
import Curs3d.Contracts.Escrow
import Curs3d.Proof.Escrow
import Curs3d.Core.StateProof
import Curs3d.Light.Client
import Curs3d.Proof.StateProofs
import Curs3d.Proof.LightSafety
import Curs3d.Lib.Merkle
import Curs3d.Lib.PrefixFree
import Curs3d.Proof.Encoding
import Curs3d.Proof.HashBinding
import Curs3d.Core.Trie
import Curs3d.Lib.SparseTree
import Curs3d.Proof.Trie
import Curs3d.Lib.Wasm
import Curs3d.Vm.Metering
import Curs3d.Proof.Metering
import Curs3d.Chain.LiveNode
import Curs3d.Proof.Rebuilt
import Curs3d.Proof.CrashSafe
import Curs3d.Proof.EvmRun
import Curs3d.Proof.Nonce
import Curs3d.Proof.EvmCharge
import Curs3d.Proof.EvmMerge
import Curs3d.Proof.Deployments
import Curs3d.Chain.Estimate
import Curs3d.Proof.FeeSplit
import Curs3d.Proof.Estimates
import Curs3d.Proof.Eviction
import Curs3d.Proof.Caps
import Curs3d.Proof.Pressure
import Curs3d.Proof.Queue
import Curs3d.Proof.Pruning
import Curs3d.Proof.ForkValidation
import Curs3d.Proof.TreeRuns
import Curs3d.Lib.Codec
import Curs3d.Crypto.Decode
import Curs3d.Core.Legacy
import Curs3d.Proof.Decoding
import Curs3d.Proof.Legacy
import Curs3d.Proof.MerkleProofs
import Curs3d.Proof.StateSoundness
import Curs3d.Crypto.Hex
import Curs3d.Crypto.Address
import Curs3d.Proof.Addresses
import Curs3d.Network.RateLimiter
import Curs3d.Proof.RateLimiter
import Curs3d.Contracts.Staking
import Curs3d.Proof.Staking
import Curs3d.Core.Json
import Curs3d.Core.TransactionJson
import Curs3d.Sdk.Wallet
import Curs3d.Proof.WalletTransfers
import Curs3d.Core.BlockTables
import Curs3d.Proof.BlockBackends
import Curs3d.Api.Logs
import Curs3d.Proof.LogQueries
import Curs3d.Lib.Replica
import Curs3d.Network.Wire
import Curs3d.Proof.Wire
import Curs3d.Network.BlockSync
import Curs3d.Proof.BlockSync
import Curs3d.Proof.SyncNet
import Curs3d.Proof.Executed
import Curs3d.Proof.Once
import Curs3d.Proof.Custody
import Curs3d.Proof.Expelled
import Curs3d.Proof.TokenChain
import Curs3d.Proof.Unbonding
import Curs3d.Proof.PoolSlots
import Curs3d.Proof.StakingExit
import Curs3d.Proof.GovernanceCourse
import Curs3d.Lib.Outbox
import Curs3d.Network.Gossip
import Curs3d.Proof.Gossip
