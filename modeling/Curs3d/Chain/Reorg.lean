import Curs3d.Chain.Apply

/-!
# Replay and fork choice (`src/core/chain/{replay,reorg}.rs`)

`replayStateToTip` recomputes the state at a block of the tree, `rebuildCanonicalState` the
state of the canonical chain; both run one settlement and one validation per block. The first
reads the node's own epoch snapshots and takes the producers of a settled epoch from the node's
own cursor, whatever branch it replays; the second rebuilds the snapshots as it goes.

`addBlockWithForkChoice` adds a block that need not build on the tip. It and
`reorgToCanonicalTip` return early from the middle, so they return the chain they leave with the
result.
-/

set_option autoImplicit false

namespace Curs3d

namespace Blockchain

variable (P : Primitives) (c : Blockchain)

/-! ## Replay -/

/-- The state and the missed-epoch counters a replay threads from block to block. -/
structure ReplayState where
  state : ExecState
  missed : ByteMap Nat

/-- One block of a replay: settlement on the threaded accounts, then validation. -/
def replayBlock (now : Int) (previous block : Block) (r : ReplayState) :
    Except ChainError ReplayState :=
  let settled := applyEpochSettlementForBlock c.genesisConfig block.header.height c.epochSnapshots
    (c.proposerAddressesForSettlingEpoch P block.header.height) r.state.accounts r.missed
  match c.validateBlockAgainstState P now block previous
      { r.state with accounts := settled.1 } with
  | .error e => .error e
  | .ok s => .ok
      { state := { s with receipts := extendReceipts r.state.receipts s.receipts }
        missed := settled.2 }

def replayBlocks (now : Int) : Block → List Block → ReplayState → Except ChainError ReplayState
  | _, [], r => .ok r
  | previous, block :: rest, r =>
    match c.replayBlock P now previous block r with
    | .error e => .error e
    | .ok r' => replayBlocks now block rest r'

/-- The state every replay starts from. -/
def genesisReplay (accounts : ByteMap AccountState) : ReplayState where
  state := { accounts, contracts := ∅, receipts := ∅, tokenRegistry := {}, governance := {} }
  missed := ∅

/-- The blocks from `current` back to genesis, newest first. -/
def lineageToGenesis : Nat → Bytes → Except ChainError (List Block)
  | 0, _ => .error (.blockTree .orphanBlock)
  | fuel + 1, current =>
    match c.blockTree.get current with
    | none => .error (.blockTree .orphanBlock)
    | some block =>
      if current = c.genesis.hash then .ok [block]
      else (lineageToGenesis fuel block.header.prevHash).map (block :: ·)

/-- `replay_state_to_tip`. -/
def replayStateToTip (now : Int) (tipHash : Bytes) : Except ChainError ExecState := do
  let fuel := ((c.blockTree.get tipHash).map fun b => b.header.height + 1).getD 1
  let lineage ← c.lineageToGenesis fuel tipHash
  let accounts ← accountsFromGenesis P c.genesisConfig
  match lineage.reverse with
  | [] => .error (.blockTree .orphanBlock)
  | first :: rest =>
    let r ← c.replayBlocks P now first rest (genesisReplay accounts)
    return r.state

/-! ## Rebuilding the canonical state -/

/-- `rebuild_canonical_state` on one block: the boundary snapshot, then a replay step. -/
def rebuildBlocks (now : Int) :
    Blockchain → Block → List Block → ReplayState → Except ChainError ReplayState × Blockchain
  | c, _, [], r => (.ok r, c)
  | c, previous, block :: rest, r =>
    let c := if 0 < block.header.height ∧ block.header.height % c.genesisConfig.epochLen = 0 ∧
        c.epochForHeight block.header.height ∉ c.epochSnapshots then
        c.createEpochSnapshotFromAccounts (c.epochForHeight block.header.height) r.state.accounts
      else c
    match c.replayBlock P now previous block r with
    | .error e => (.error e, c)
    | .ok r' => rebuildBlocks now c block rest r'

/-- Epoch `0` alone. -/
def genesisSnapshots (snapshot : EpochSnapshot) : HeightMap EpochSnapshot :=
  (∅ : HeightMap EpochSnapshot).insert 0 snapshot

/-- The indexes over `blocks`, from nothing. -/
def reindexBlocks (blocks : List Block) : Blockchain :=
  blocks.foldl (fun c b => c.indexBlock P b)
    { c with blockHashToHeight := ∅, txHashIndex := ∅, evmTxHashIndex := ∅ }

/-- `rebuild_canonical_state`; an error keeps the snapshots and indexes rebuilt so far. -/
def rebuildCanonicalState (now : Int) : Except ChainError Unit × Blockchain :=
  match accountsFromGenesis P c.genesisConfig with
  | .error e => (.error e, c)
  | .ok accounts =>
    let blocks := c.iterBlocks
    let c := { c with epochSnapshots := genesisSnapshots (c.snapshotForAccounts 0 accounts) }
    let c := c.reindexBlocks P blocks
    match blocks with
    | [] => (.error (.invalidGenesis "missing genesis block"), c)
    | first :: rest =>
      match rebuildBlocks P now c first rest (genesisReplay accounts) with
      | (.error e, c') => (.error e, c')
      | (.ok r, c') =>
        (.ok (), { c' with
          accounts := r.state.accounts
          contracts := r.state.contracts
          receipts := r.state.receipts
          tokenRegistry := r.state.tokenRegistry
          governance := r.state.governance
          validatorMissedEpochs := r.missed }.rebuildReceiptIndexes P)

/-! ## Fork choice -/

def MAX_REORG_DEPTH : Nat := 64

def replaceAllBlocks (blocks : List Block) : Blockchain :=
  { c with blocks, genesis := blocks.head?.getD c.genesis }

/-- The finality guards of `reorg_to_canonical_tip`. -/
def checkReorg (canonical : List Block) : Except ChainError Unit :=
  let finalized := c.finalityTracker.finalizedHeight
  let newTip := (canonical.getLast?.map Block.hash).getD c.genesis.hash
  if (canonical.getLast?.map fun b => b.header.height).getD 0 < finalized then
    .error (.reorgBelowFinality finalized)
  else if finalized = 0 then .ok ()
  else match c.blockTree.commonAncestor c.latestBlock.hash newTip with
    | none => .error .invalidPrevHash
    | some ancestor =>
      match c.blockTree.get ancestor with
      | none => .error .invalidPrevHash
      | some ancestorBlock =>
        if ancestorBlock.header.height < finalized then .error (.reorgBelowFinality finalized)
        else ensure (c.blockTree.isDescendantOf newTip c.finalityTracker.finalizedHash)
          (.reorgBelowFinality finalized)

def reorgToCanonicalTip (now : Int) : Except ChainError Unit × Blockchain :=
  let canonical := c.blockTree.canonicalChain
  match c.checkReorg canonical with
  | .error e => (.error e, c)
  | .ok () => (c.replaceAllBlocks canonical).rebuildCanonicalState P now

/-- `tooOld` is the reorg depth guard. -/
def tooOld (block : Block) : Bool :=
  MAX_REORG_DEPTH < c.height ∧ block.header.height < c.height - MAX_REORG_DEPTH

/-- Validate a block off the tip on a replay of its parent, and hang it into the tree. -/
def stageForkBlock (now : Int) (block : Block) : Except ChainError (BlockTree × Bool) :=
  match c.blockTree.get block.header.prevHash with
  | none => .error (.blockTree .orphanBlock)
  | some parent => do
    let parentState ← c.replayStateToTip P now parent.hash
    let s ← c.validateBlockAgainstState P now block parent parentState
    match c.blockTree.insert block (proposerStake P s block) with
    | .error e => .error (.blockTree e)
    | .ok staged => .ok staged

/-- `add_block_with_fork_choice`: `true` when it reorganised, and the chain it leaves. -/
def addBlockWithForkChoice (now : Int) (block : Block) : Except ChainError Bool × Blockchain :=
  if c.tooOld block then
    (.error (.invalidTransactionFormat "block too old: exceeds maximum reorg depth"), c)
  else if block.header.prevHash = c.latestBlock.hash then
    match c.addBlock P now block with
    | (.error e, c') => (.error e, c')
    | (.ok (), c') => (.ok false, c')
  else match c.stageForkBlock P now block with
    | .error e => (.error e, c)
    | .ok (tree, false) => (.ok false, { c with blockTree := tree })
    | .ok (tree, true) =>
      match { c with blockTree := tree }.reorgToCanonicalTip P now with
      | (.error e, c') => (.error e, c')
      | (.ok (), c') => (.ok true, c')

end Blockchain

end Curs3d
