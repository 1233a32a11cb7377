import Curs3d.Crypto.Hex
import Curs3d.Chain.Execute
import Curs3d.Consensus.Stake
import Curs3d.Consensus.Finality
import Curs3d.Core.BlockTree
import Curs3d.Core.StateRoot

/-!
# The chain (`src/core/chain/{mod,genesis,consensus}.rs`)

The `Blockchain` record, its genesis, and the helpers that read it: heights, base fee, epoch
snapshots, protocol version, authorization of a proposer and the settlement of an epoch.

`blocks` is the canonical cursor seen through its own interface: block `h` of the list is the
block at height `h`, genesis is always readable, and nothing else below `baseHeight` is. That
is the cursor of an in-memory or synchronously persisted chain; the cache underneath the
cursor of a live node is modelled in `Core/BlockStore.lean`.

The scalar parameters that `Blockchain` copies out of its `genesis_config` (block reward,
minimum stake and so on) are read from the config. `now` is the clock.
-/

set_option autoImplicit false

namespace Curs3d

open U64

def MAX_FUTURE_BLOCK_TIME_SECS : Int := 30

/-- `V6_HARDFORK_HEIGHT_TESTNET`. -/
def V6_HARDFORK_HEIGHT_TESTNET : Nat := u64Max

structure Blockchain where
  accounts : ByteMap AccountState
  pendingTransactions : List Transaction
  genesisConfig : GenesisConfig
  blockTree : BlockTree
  finalityTracker : FinalityTracker
  slashedValidators : Finset Bytes
  epochSnapshots : HeightMap EpochSnapshot
  contracts : ByteMap ContractState
  receipts : ByteMap Receipt
  receiptLocations : ByteMap ReceiptLocation
  logIndex : List IndexedLogEntry
  tokenRegistry : TokenRegistry
  governance : GovernanceState
  validatorMissedEpochs : ByteMap Nat
  blockHashToHeight : ByteMap Nat
  txHashIndex : ByteMap (Nat × Nat)
  evmTxHashIndex : ByteMap (Nat × Nat)
  genesis : Block
  blocks : List Block
  baseHeight : Nat
  pruneKeepBlocks : Option Nat
deriving DecidableEq

/-! ## Epoch snapshots -/

/-- `epoch_length.max(1)`. -/
def GenesisConfig.epochLen (g : GenesisConfig) : Nat := max g.epochLength 1

def GenesisConfig.pos (g : GenesisConfig) (slashed : Finset Bytes) (height : Nat) : ProofOfStake :=
  { minimumStake := g.minimumStake, slashedValidators := slashed, currentHeight := height }

def buildEpochSnapshotForAccounts (g : GenesisConfig) (epoch : Nat)
    (accounts : ByteMap AccountState) (slashed : Finset Bytes) : EpochSnapshot :=
  let startHeight := epoch * g.epochLen
  let validators := (g.pos slashed startHeight).activeValidators accounts
  { epoch, startHeight, validators, totalStake := totalStakeOf validators }

/-! ## Genesis -/

def decodePublicKeyHex (value : Text) : Except ChainError Bytes :=
  let raw := if (ascii "0x").isPrefixOf value then value.drop 2 else value
  match hexDecode raw with
  | some bytes => .ok bytes
  | none => .error (.invalidGenesis "invalid public_key hex in genesis")

def genesisAccount (g : GenesisConfig) (allocation : GenesisAllocation) (publicKey : Bytes) :
    AccountState where
  balance := allocation.balance
  stakedBalance := allocation.stakedBalance
  validatorActiveFromHeight := if g.minimumStake ≤ allocation.stakedBalance then 1 else 0
  publicKey := some publicKey

def accountsFromGenesis (P : Primitives) (g : GenesisConfig) :
    Except ChainError (ByteMap AccountState) :=
  g.allocations.foldlM
    (fun accounts allocation => do
      let publicKey ← decodePublicKeyHex allocation.publicKey
      let address := addressBytesFromPublicKey P publicKey
      ensure (address ∉ accounts) (.invalidGenesis "duplicate account in genesis")
      return accounts.insert address (genesisAccount g allocation publicKey))
    ∅

def genesisBlock (P : Primitives) (g : GenesisConfig) (accounts : ByteMap AccountState) : Block :=
  Block.genesisWithStateRoot P (StateRoot.computeFull P accounts ∅) g.chainId
    g.initialBaseFeePerGas

/-- `from_genesis`. -/
def fromGenesis (P : Primitives) (g : GenesisConfig) : Except ChainError Blockchain := do
  let accounts ← accountsFromGenesis P g
  let genesis := genesisBlock P g accounts
  return {
    accounts
    pendingTransactions := []
    genesisConfig := g
    blockTree := BlockTree.fromGenesis genesis
    finalityTracker := {}
    slashedValidators := ∅
    epochSnapshots := (∅ : HeightMap EpochSnapshot).insert 0
      (buildEpochSnapshotForAccounts g 0 accounts ∅)
    contracts := ∅
    receipts := ∅
    receiptLocations := ∅
    logIndex := []
    tokenRegistry := {}
    governance := {}
    validatorMissedEpochs := ∅
    blockHashToHeight := ∅
    txHashIndex := ∅
    evmTxHashIndex := ∅
    genesis
    blocks := [genesis]
    baseHeight := 0
    pruneKeepBlocks := none }

namespace Blockchain

variable (P : Primitives) (c : Blockchain)

/-! ## The canonical cursor -/

def blockCount : Nat := c.blocks.length

def height : Nat := c.blockCount - 1

def blockAtHeight (h : Nat) : Option Block :=
  if h = 0 then some c.genesis
  else if h < c.baseHeight then none
  else c.blocks[h]?

/-- `latest_block`; its `expect` is `chain must have at least genesis`. -/
def latestBlock : Block := (c.blockAtHeight c.height).getD c.genesis

/-- `(0..count).filter_map(block_at_height)`. -/
def iterBlocks : List Block := (List.range c.blockCount).filterMap c.blockAtHeight

/-! ## Base fee -/

def targetBlockGasUsage : Nat := max (c.genesisConfig.blockGasLimit / 2) 1

def nextBaseFeePerGas (parent : Block) : Nat :=
  let parentBaseFee :=
    if parent.header.height = 0 then
      max parent.header.baseFeePerGas c.genesisConfig.initialBaseFeePerGas
    else parent.header.baseFeePerGas
  let target := c.targetBlockGasUsage
  if parentBaseFee = 0 then 1
  else if parent.header.gasUsed = target then parentBaseFee
  else
    let delta := if parent.header.gasUsed < target then target - parent.header.gasUsed
      else parent.header.gasUsed - target
    let divisor := satMul target (max c.genesisConfig.baseFeeChangeDenominator 1)
    let change := max (satMul (max parentBaseFee 1) delta / divisor) 1
    if target < parent.header.gasUsed then satAdd parentBaseFee change
    else max (parentBaseFee - change) 1

/-! ## Epochs and protocol versions -/

def epochForHeight (h : Nat) : Nat := h / c.genesisConfig.epochLen

def snapshotForAccounts (epoch : Nat) (accounts : ByteMap AccountState) : EpochSnapshot :=
  buildEpochSnapshotForAccounts c.genesisConfig epoch accounts c.slashedValidators

def createEpochSnapshotFromAccounts (epoch : Nat) (accounts : ByteMap AccountState) : Blockchain :=
  { c with epochSnapshots := c.epochSnapshots.insert epoch (c.snapshotForAccounts epoch accounts) }

def activeValidatorTotalStake (accounts : ByteMap AccountState) (h : Nat) : Nat :=
  totalStakeOf ((c.genesisConfig.pos c.slashedValidators h).activeValidators accounts)

def protocolVersionAtHeight (h : Nat) : Nat :=
  let version := if c.genesisConfig.upgrades.isEmpty then 5
    else c.genesisConfig.upgrades.foldl
      (fun v upgrade => if upgrade.height ≤ h then upgrade.version else v) 1
  if V6_HARDFORK_HEIGHT_TESTNET ≤ h ∧ version < V6_PROTOCOL_VERSION then V6_PROTOCOL_VERSION
  else version

/-! ## Authorization of a proposer -/

def allowedBackupRankForHeight (blockHeight : Nat) (parentTimestamp blockTimestamp : Int)
    (snapshotSize : Nat) : Nat :=
  if blockHeight ≤ 1 then 0
  else allowedBackupRank parentTimestamp blockTimestamp snapshotSize

/-- The snapshot derived from `accounts` when no non-empty one is stored. -/
def liveSnapshot (accounts : ByteMap AccountState) (blockHeight : Nat) : Option EpochSnapshot :=
  let validators := (c.genesisConfig.pos c.slashedValidators blockHeight).activeValidators accounts
  if 0 < blockHeight ∧ !validators.isEmpty then
    some { epoch := c.epochForHeight blockHeight, startHeight := blockHeight, validators
           totalStake := totalStakeOf validators }
  else none

def snapshotForHeight (accounts : ByteMap AccountState) (blockHeight : Nat) :
    Option EpochSnapshot :=
  match c.epochSnapshots[c.epochForHeight blockHeight]? with
  | some snapshot =>
    if snapshot.validators.isEmpty then c.liveSnapshot accounts blockHeight else some snapshot
  | none => c.liveSnapshot accounts blockHeight

def ensureValidatorIsAuthorizedAtRank (accounts : ByteMap AccountState)
    (validatorPublicKey : Bytes) (blockHeight : Nat) (prevHash : Bytes) (allowedRank : Nat) :
    Except ChainError Unit :=
  match c.snapshotForHeight accounts blockHeight with
  | some snapshot =>
    if snapshot.validators.isEmpty then .ok ()
    else
      let proposerAddress := addressBytesFromPublicKey P validatorPublicKey
      ensure ((List.range (allowedRank + 1)).any fun rank =>
          slotLeaderAtRank P snapshot blockHeight prevHash rank = some proposerAddress)
        (.wrongProposer blockHeight allowedRank)
  | none =>
    match (c.genesisConfig.pos c.slashedValidators blockHeight).selectValidator P accounts
        blockHeight prevHash with
    | some expected =>
      ensure (expected.publicKey = validatorPublicKey) (.wrongProposer blockHeight allowedRank)
    | none => .ok ()

/-- The slot check shared by `create_block` and `validate_block_against_state`. -/
def authorizeProposer (accounts : ByteMap AccountState) (validatorPublicKey : Bytes)
    (blockHeight : Nat) (prevHash : Bytes) (parentTimestamp blockTimestamp : Int) :
    Except ChainError Unit :=
  let snapshotSize :=
    ((c.snapshotForHeight accounts blockHeight).map fun s => s.validators.length).getD 0
  let allowedRank :=
    allowedBackupRankForHeight blockHeight parentTimestamp blockTimestamp snapshotSize
  c.ensureValidatorIsAuthorizedAtRank P accounts validatorPublicKey blockHeight prevHash allowedRank

def slotLeaderAddress (blockHeight : Nat) (prevHash : Bytes) (rank : Nat) : Option Bytes :=
  match c.snapshotForHeight c.accounts blockHeight with
  | none => none
  | some snapshot =>
    if snapshot.validators.isEmpty then none
    else slotLeaderAtRank P snapshot blockHeight prevHash rank

/-! ## Epoch settlement -/

/-- The epoch that the block at `blockHeight` settles, if it is a boundary past the first. -/
def settlingEpoch (g : GenesisConfig) (blockHeight : Nat) : Option Nat :=
  let prevEpoch := (blockHeight - 1) / g.epochLen
  let newEpoch := blockHeight / g.epochLen
  if newEpoch ≤ prevEpoch ∨ prevEpoch = 0 then none else some prevEpoch

def proposerAddressesForSettlingEpoch (blockHeight : Nat) : List Bytes :=
  match settlingEpoch c.genesisConfig blockHeight with
  | none => []
  | some prevEpoch =>
    let epochStart := prevEpoch * c.genesisConfig.epochLen
    let epochEnd := blockHeight / c.genesisConfig.epochLen * c.genesisConfig.epochLen
    (List.range' epochStart (epochEnd - epochStart)).filterMap fun h =>
      (c.blockAtHeight h).map fun b => addressBytesFromPublicKey P b.header.validatorPublicKey

/-- The histogram of producers. -/
def blockProducers (producers : List Bytes) : ByteMap Nat :=
  producers.foldl (fun m addr => KeyMap.upsert m addr 0 (· + 1)) ∅

def updateMissed (producers : ByteMap Nat) (missed : ByteMap Nat) (validator : Validator) :
    ByteMap Nat :=
  if validator.address ∈ producers then missed.erase validator.address
  else KeyMap.upsert missed validator.address 0 (· + 1)

/-- `apply_epoch_settlement_for_block`: the accounts and the missed-epoch counters afterwards. -/
def applyEpochSettlementForBlock (g : GenesisConfig) (blockHeight : Nat)
    (epochSnapshots : HeightMap EpochSnapshot) (producers : List Bytes)
    (accounts : ByteMap AccountState) (missed : ByteMap Nat) :
    ByteMap AccountState × ByteMap Nat :=
  match settlingEpoch g blockHeight with
  | none => (accounts, missed)
  | some prevEpoch =>
    match epochSnapshots[prevEpoch]? with
    | none => (accounts, missed)
    | some snapshot =>
      (applyEpochSettlement accounts
          (computeEpochSettlement snapshot (blockProducers producers) missed),
        snapshot.validators.foldl (updateMissed (blockProducers producers)) missed)

end Blockchain

end Curs3d
