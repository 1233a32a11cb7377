import Curs3d.Chain.Persistence

/-!
# Opening a store (`src/core/chain/mod.rs`)

`withStorage` is `with_storage_mode` up to the choice of the persistence mode: on an empty database
it creates the chain of a genesis and writes its full state, on any other it reads the tables, puts
a chain together and replays its blocks. The state comes from the replay alone; of the stored
accounts only the stakes are used, as weights of the tree.

The cursor of a chain just opened reads from the disk only. The block list of the model has no
holes, so a table with one above its lowest block is set apart (`OpenError.hole`); no run of this
development has such a table. The entries below the lowest stored block are fillers that nothing
reads.

`SyncNode` is a chain with synchronous persistence, the mode of `with_storage`.
-/

set_option autoImplicit false

namespace Curs3d

inductive OpenError where
  | chain (e : ChainError)
  | blockStore (e : BlockStoreError)
  | hole
deriving DecidableEq

/-- `GenesisConfig::default`. -/
def GenesisConfig.default : GenesisConfig where
  chainId := ascii "curs3d-devnet"

namespace Storage

variable (P : Primitives) (s : Storage)

/-- `get_slashed_addresses`. -/
def slashedAddresses : Finset Bytes :=
  (s.evidence.toList.map fun e => addressBytesFromPublicKey P e.2.validatorPublicKey).toFinset

/-- `get_all_pending_transactions_compat`. -/
def pendingTransactions : List Transaction :=
  (s.pending.toList.map Prod.snd).insertionSort fun a b =>
    a.timestamp < b.timestamp ∨ (a.timestamp = b.timestamp ∧ a.nonce ≤ b.nonce)

/-- `block_at` of the cursor just opened. -/
def read (cursor : BlockStoreCursor) (height : Nat) : Option Block :=
  (cursor.blockAt s.blocks height).1

/-- Every height from the lowest stored block to the head has its block. -/
def Whole (cursor : BlockStoreCursor) : Prop :=
  ∀ h ∈ List.range' (max cursor.baseHeight 1) (cursor.heightCount - max cursor.baseHeight 1),
    (s.read cursor h).isSome

instance (cursor : BlockStoreCursor) : Decidable (s.Whole cursor) :=
  inferInstanceAs (Decidable (∀ h ∈ List.range' _ _, _))

/-- The chain before its replay. -/
def assemble (g : GenesisConfig) (cursor : BlockStoreCursor) : Blockchain :=
  let walked := ((List.range' 1 (cursor.heightCount - 1)).map (s.read cursor)).takeWhile
    Option.isSome |>.filterMap id
  let finalizedHeight := s.finalizedHeight.getD 0
  { accounts := ∅
    pendingTransactions := s.pendingTransactions
    genesisConfig := g
    blockTree := Blockchain.treeFromBlocks P s.accounts cursor.genesis walked
    finalityTracker := FinalityTracker.withFinalized finalizedHeight
      (((s.read cursor finalizedHeight).map Block.hash).getD [])
    slashedValidators := s.slashedAddresses P
    epochSnapshots := ∅
    contracts := ∅
    receipts := ∅
    receiptLocations := ∅
    logIndex := []
    tokenRegistry := s.tokenRegistry.getD {}
    governance := s.governance.getD {}
    validatorMissedEpochs := ∅
    blockHashToHeight := ∅
    txHashIndex := ∅
    evmTxHashIndex := ∅
    genesis := cursor.genesis
    blocks := (List.range cursor.heightCount).map fun h => (s.read cursor h).getD cursor.genesis
    baseHeight := cursor.baseHeight
    pruneKeepBlocks := none }

/-- `persist_full_state` on the calling thread. -/
def writeFullState (c : Blockchain) : Storage :=
  s.commitAll P (writeFullStateToStorage (PersistedChainState.fromChain c))

/-- The replay of the chain read from the tables. -/
def reopen (now : Int) (expected : Option GenesisConfig) :
    Except OpenError (Blockchain × Storage) :=
  let g := s.chainConfig.getD GenesisConfig.default
  if ¬ ∀ e ∈ expected, e = g then .error (.chain .genesisMismatch)
  else match accountsFromGenesis P g with
  | .error e => .error (.chain e)
  | .ok accounts =>
    match BlockStoreCursor.new s.blocks DEFAULT_BLOCK_CACHE_SIZE with
    | .error e => .error (.blockStore e)
    | .ok cursor =>
      if cursor.genesis.hash ≠ (genesisBlock P g accounts).hash then
        .error (.chain .genesisMismatch)
      else if ¬ s.Whole cursor then .error .hole
      else match (s.assemble P g cursor).rebuildCanonicalState P now with
      | (.error e, _) => .error (.chain e)
      | (.ok (), c) =>
        .ok (c, if s.schemaVersion.getD 1 < CURRENT_SCHEMA_VERSION then s.writeFullState P c else s)

/-- `with_storage`, expecting a genesis configuration or taking the stored one: the chain, and the
store it leaves. -/
def withStorage (now : Int) (expected : Option GenesisConfig) :
    Except OpenError (Blockchain × Storage) :=
  match s.blocks.getHeight with
  | some _ => s.reopen P now expected
  | none =>
    match fromGenesis P (expected.getD GenesisConfig.default) with
    | .error e => .error (.chain e)
    | .ok c => .ok (c, s.writeFullState P c)

/-- `Storage::flush`: every transaction is on disk when it is committed. -/
def flush : Storage := s

end Storage

/-! ## Synchronous persistence -/

/-- `keep_from`, when `prune_below` has something to delete. -/
def Blockchain.pruneFrom (c : Blockchain) (finalizedHeight : Nat) : Option Nat :=
  match c.pruneKeepBlocks with
  | none => none
  | some keep =>
    if c.baseHeight < finalizedHeight - keep then some (finalizedHeight - keep) else none

/-- `is_epoch_boundary`. -/
def Blockchain.isBoundary (c : Blockchain) (height : Nat) : Prop :=
  0 < c.genesisConfig.epochLength ∧ height % c.genesisConfig.epochLength = 0

instance (c : Blockchain) (height : Nat) : Decidable (c.isBoundary height) :=
  inferInstanceAs (Decidable (_ ∧ _))

structure SyncNode where
  chain : Blockchain
  storage : Storage

namespace SyncNode

variable (P : Primitives) (x : SyncNode)

def addBlock (now : Int) (block : Block) : SyncNode :=
  match x.chain.addBlock P now block with
  | (.error _, c) => { x with chain := c }
  | (.ok (), c) =>
    let stored := x.storage.commit P (.putBlock block)
    { chain := c
      storage := if c.isBoundary block.header.height then stored.writeFullState P c else stored }

def addFinalityVote (vote : FinalityVote) : SyncNode :=
  match x.chain.addFinalityVote P vote with
  | (none, c) => { x with chain := c }
  | (some finalized, c) =>
    let stored := x.storage.commit P (.putFinalizedHeight finalized.height)
    { chain := c
      storage := match x.chain.pruneFrom finalized.height with
        | none => stored
        | some keepFrom => stored.commit P (.pruneBlocksBelow keepFrom) }

/-- `persist_full_state`. -/
def persistFullState : SyncNode := { x with storage := x.storage.writeFullState P x.chain }

/-- The node stops and opens its store again; when that fails, the store is as it was. -/
def reopen (now : Int) (expected : Option GenesisConfig) : SyncNode :=
  match x.storage.withStorage P now expected with
  | .error _ => x
  | .ok (chain, storage) => { chain, storage }

inductive Op where
  | addBlock (now : Int) (block : Block)
  | addFinalityVote (vote : FinalityVote)
  | persistFullState
  | setPruneKeepBlocks (keep : Option Nat)
  | reopen (now : Int) (expected : Option GenesisConfig)

def step : Op → SyncNode
  | .addBlock now block => x.addBlock P now block
  | .addFinalityVote vote => x.addFinalityVote P vote
  | .persistFullState => x.persistFullState P
  | .setPruneKeepBlocks keep => { x with chain := { x.chain with pruneKeepBlocks := keep } }
  | .reopen now expected => x.reopen P now expected

def run (ops : List Op) : SyncNode := ops.foldl (step P) x

end SyncNode

end Curs3d
