import Mathlib

/-!
# The data model

`src/core/{transaction,block,receipt}.rs`, `src/core/chain/mod.rs`, `src/vm/state.rs` and
`src/consensus/mod.rs` declare the records every other module passes around. They are collected
here under the source's field names.

Conventions, used throughout:

* `Vec<u8>` is `Bytes`; a Rust `String` is its UTF-8 bytes (`Text`), which is what `len`,
  `is_empty` and bincode see of it. Only the fixed texts of errors are Lean strings.
* `u64`/`u32`/`usize` are `Nat`, `i64` is `Int`; every operation that can leave the range says
  which way it leaves it (`Lib/Machine.lean`). Block heights are counted, not computed, and
  are plain `Nat`.
* `HashMap<K, V>` is an extensional finite map (`ByteMap` when the keys are bytes), `HashSet<K>`
  a `Finset`.
-/

set_option autoImplicit false

namespace Curs3d

/-- `Vec<u8>`. -/
abbrev Bytes := List UInt8

/-- A Rust `String`, as its UTF-8 bytes. -/
abbrev Text := List UInt8

/-- `HashMap<Vec<u8>, β>`. -/
abbrev ByteMap (β : Type) := Std.ExtTreeMap Bytes β compare

/-- `HashMap<u64, β>`. -/
abbrev HeightMap (β : Type) := Std.ExtTreeMap Nat β compare

/-! What the equality tests and the maps below rest on, found once and under a name. -/

instance instLawfulBEqBytes : LawfulBEq Bytes := inferInstance

instance instLawfulBEqLocation : LawfulBEq (Nat × Nat) := inferInstance

instance instTransOrdPair : Std.TransOrd (List Bytes) := inferInstance

instance instLawfulEqOrdPair : Std.LawfulEqOrd (List Bytes) := inferInstance

/-! ## Transactions (`src/core/transaction.rs`) -/

/-- The fourteen kinds, in declaration order: bincode encodes the position. -/
inductive TransactionKind where
  | transfer
  | stake
  | unstake
  | coinbase
  | deployContract
  | callContract
  | deployToken
  | tokenTransfer
  | tokenApprove
  | tokenTransferFrom
  | submitProposal
  | governanceVote
  | deployEvmContract
  | callEvmContract
deriving DecidableEq, Repr

/-- The mempool priority class of a kind. -/
inductive MempoolClass where
  | system
  | user
deriving DecidableEq, Repr

structure Transaction where
  chainId : Text
  kind : TransactionKind
  «from» : Bytes
  senderPublicKey : Bytes
  «to» : Bytes
  amount : Nat
  fee : Nat
  maxFeePerGas : Nat
  maxPriorityFeePerGas : Nat
  nonce : Nat
  timestamp : Int
  signature : Option Bytes
  gasLimit : Nat
  data : Bytes
  evmRawTx : Bytes
deriving DecidableEq, Repr

/-! ## Blocks (`src/core/block.rs`) -/

structure BlockHeader where
  version : Nat
  height : Nat
  timestamp : Int
  prevHash : Bytes
  merkleRoot : Bytes
  stateRoot : Bytes
  gasUsed : Nat
  baseFeePerGas : Nat
  validatorPublicKey : Bytes
  nonce : Nat
deriving DecidableEq, Repr

structure Block where
  header : BlockHeader
  transactions : List Transaction
  hash : Bytes
  signature : Option Bytes
deriving DecidableEq, Repr

/-- `dilithium::KeyPair`: the verifying key and the 32-byte seed it is derived from. -/
structure KeyPair where
  publicKey : Bytes
  secretKey : Bytes
deriving DecidableEq, Repr

/-! ## Accounts and contracts -/

structure PendingUnstake where
  amount : Nat
  unlockHeight : Nat
deriving DecidableEq, Repr

structure AccountState where
  balance : Nat := 0
  nonce : Nat := 0
  stakedBalance : Nat := 0
  pendingUnstakes : List PendingUnstake := []
  validatorActiveFromHeight : Nat := 0
  jailedUntilHeight : Nat := 0
  publicKey : Option Bytes := none
deriving DecidableEq, Repr

instance : Inhabited AccountState := ⟨{}⟩

structure ContractState where
  codeHash : Bytes
  code : Bytes
  storage : ByteMap Bytes
  owner : Bytes
deriving DecidableEq

structure LogEntry where
  contract : Bytes
  topics : List Bytes
  data : Bytes
deriving DecidableEq, Repr

structure Receipt where
  txHash : Bytes
  success : Bool
  gasUsed : Nat
  effectiveGasPrice : Nat
  priorityFeePaid : Nat
  baseFeeBurned : Nat
  gasRefunded : Nat
  logs : List LogEntry
  returnData : Bytes
  contractAddress : Option Bytes
deriving DecidableEq, Repr

structure ReceiptLocation where
  blockHeight : Nat
  txIndex : Nat
deriving DecidableEq, Repr

structure IndexedLogEntry where
  blockHeight : Nat
  txIndex : Nat
  logIndex : Nat
  txHash : Bytes
  contract : Bytes
  topics : List Bytes
  data : Bytes
deriving DecidableEq, Repr

/-! ## CUR-20 tokens (`src/token/mod.rs`) -/

structure CUR20Token where
  contractAddress : Bytes
  name : Text
  symbol : Text
  decimals : Nat
  totalSupply : Nat
  creator : Bytes
  createdAtHeight : Nat
deriving DecidableEq, Repr

structure DeployTokenParams where
  name : Text
  symbol : Text
  decimals : Nat
  totalSupply : Nat
deriving DecidableEq, Repr

structure TokenTransferParams where
  tokenAddress : Bytes
  recipient : Bytes
  amount : Nat
deriving DecidableEq, Repr

structure TokenApproveParams where
  tokenAddress : Bytes
  spender : Bytes
  amount : Nat
deriving DecidableEq, Repr

structure TokenTransferFromParams where
  tokenAddress : Bytes
  «from» : Bytes
  recipient : Bytes
  amount : Nat
deriving DecidableEq, Repr

/-- `balances` is keyed by `[token, owner]` and `allowances` by `[token, owner, spender]`. -/
structure TokenRegistry where
  tokens : ByteMap CUR20Token := ∅
  balances : Std.ExtTreeMap (List Bytes) Nat compare := ∅
  allowances : Std.ExtTreeMap (List Bytes) Nat compare := ∅
deriving DecidableEq

inductive TokenError where
  | tokenNotFound
  | invalidName
  | invalidSymbol
  | invalidDecimals
  | invalidSupply
  | alreadyExists
  | insufficientBalance
  | insufficientAllowance
  | selfTransfer
  | zeroAmount
deriving DecidableEq, Repr

/-! ## Governance (`src/governance/mod.rs`) -/

inductive ProposalKind where
  | protocolUpgrade (version : Nat) (description : Text)
  | parameterChange (parameter : Text) (newValue : Nat)
deriving DecidableEq, Repr

inductive ProposalStatus where
  | active
  | passed
  | rejected
  | executed
  | expired
deriving DecidableEq, Repr

inductive VoteChoice where
  | «for»
  | against
deriving DecidableEq, Repr

structure Proposal where
  id : Bytes
  proposer : Bytes
  kind : ProposalKind
  status : ProposalStatus
  createdAtHeight : Nat
  votingDeadlineHeight : Nat
  executionHeight : Option Nat
  votesFor : Nat
  votesAgainst : Nat
  voters : Finset Bytes
  stakeSnapshot : ByteMap Nat
deriving DecidableEq

structure SubmitProposalParams where
  kind : ProposalKind
deriving DecidableEq, Repr

structure GovernanceVoteParams where
  proposalId : Bytes
  vote : VoteChoice
deriving DecidableEq, Repr

structure GovernanceState where
  proposals : ByteMap Proposal := ∅
  executedUpgrades : List Bytes := []
deriving DecidableEq

inductive GovernanceError where
  | proposalNotFound
  | proposalNotActive
  | alreadyVoted
  | invalidParams
  | votingEnded
  | unknownParameter (parameter : Text)
deriving DecidableEq, Repr

/-! ## Genesis (`src/core/chain/mod.rs`)

`chain_name` and an upgrade's `description` are only printed and are left out. -/

structure GenesisAllocation where
  publicKey : Text
  balance : Nat
  stakedBalance : Nat
deriving DecidableEq, Repr

structure ProtocolUpgrade where
  height : Nat
  version : Nat
deriving DecidableEq, Repr

structure GenesisConfig where
  chainId : Text
  blockReward : Nat := 50000000
  minimumStake : Nat := 1000000000
  unstakeDelayBlocks : Nat := 10
  epochLength : Nat := 32
  jailDurationBlocks : Nat := 64
  allocations : List GenesisAllocation := []
  upgrades : List ProtocolUpgrade := []
  blockGasLimit : Nat := 10000000
  initialBaseFeePerGas : Nat := 0
  baseFeeChangeDenominator : Nat := 8
deriving DecidableEq, Repr

/-! ## Validators and finality (`src/consensus/mod.rs`) -/

structure Validator where
  address : Bytes
  publicKey : Bytes
  stake : Nat
deriving DecidableEq, Repr

structure EpochSnapshot where
  epoch : Nat
  startHeight : Nat
  validators : List Validator
  totalStake : Nat
deriving DecidableEq, Repr

structure FinalityVote where
  blockHash : Bytes
  blockHeight : Nat
  epoch : Nat
  voterPublicKey : Bytes
  signature : Bytes
deriving DecidableEq, Repr

/-- Returned when a block reaches finality. -/
structure FinalizedBlock where
  hash : Bytes
  height : Nat
deriving DecidableEq, Repr

structure EquivocationEvidence where
  height : Nat
  validatorPublicKey : Bytes
  blockHeaderA : BlockHeader
  blockHashA : Bytes
  signatureA : Bytes
  blockHeaderB : BlockHeader
  blockHashB : Bytes
  signatureB : Bytes
deriving DecidableEq, Repr

/-! ## Errors -/

inductive VmError where
  | invalidWasm
  | emptyBytecode
  | outOfGas (limit needed : Nat)
  | missingEntrypoint
  | unsupportedEntrypoint
  | unmeteredLoop
  | execution
  | gasOverflow
deriving DecidableEq, Repr

inductive BlockTreeError where
  | orphanBlock
  | belowFinalized
  | invalidHeightLink
deriving DecidableEq, Repr

/-- `ChainError`, less the variants only snapshots, storage and the command line raise.
`panicked` is not a variant of the source: it stands for the thread panicking (an integer
division by zero), which a caller observes as the call never returning a value. -/
inductive ChainError where
  | invalidGenesis (reason : String)
  | genesisMismatch
  | invalidHeight (expected got : Nat)
  | invalidPrevHash
  | invalidBlockHash
  | invalidMerkleRoot
  | invalidStateRoot
  | invalidBlockSignature
  | invalidBlockTimestamp (got min max : Int)
  | invalidSignature
  | invalidChainId (expected got : Text)
  | invalidSender
  | invalidRecipient
  | invalidTransactionFormat (reason : String)
  | insufficientBalance (address : Bytes) (balance needed : Nat)
  | invalidNonce (expected got : Nat)
  | duplicateTransaction
  | replacementFeeTooLow
  | feeTooLow
  | invalidBaseFee (expected got : Nat)
  | mempoolFull
  | missingCoinbase
  | multipleCoinbase
  | invalidCoinbase
  | unauthorizedValidator
  | wrongProposer (height allowedRank : Nat)
  | blockTree (err : BlockTreeError)
  | reorgBelowFinality (height : Nat)
  | invalidProtocolVersion (expected got : Nat)
  | checkpointMismatch (height : Nat) (expected got : Bytes) (kind : String)
  | vmError (err : VmError)
  | contractNotFound (address : Bytes)
  | panicked
deriving DecidableEq, Repr

end Curs3d
