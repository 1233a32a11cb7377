import Curs3d.Chain.Reorg

/-!
# Votes, slashing and restarts (`src/core/chain/{finality,mod}.rs`)

`addFinalityVote` advances finality in the tracker and in the tree together.
`processEquivocation` slashes on evidence. `restart` is `with_storage` on a store that holds the
flushed state of a chain: it rebuilds the tree from the stored blocks and the tracker from the
stored height, and replays the chain.
-/

set_option autoImplicit false

namespace Curs3d

open U64

/-! ## Equivocation evidence -/

def EquivocationEvidence.verify (P : Primitives) (e : EquivocationEvidence) : Bool :=
  e.blockHashA ≠ e.blockHashB ∧
    e.blockHeaderA.height = e.height ∧ e.blockHeaderB.height = e.height ∧
    e.blockHeaderA.validatorPublicKey = e.validatorPublicKey ∧
    e.blockHeaderB.validatorPublicKey = e.validatorPublicKey ∧
    Block.computeHash P e.blockHeaderA = e.blockHashA ∧
    Block.computeHash P e.blockHeaderB = e.blockHashB ∧
    P.dilithiumVerify e.blockHashA e.signatureA e.validatorPublicKey ∧
    P.dilithiumVerify e.blockHashB e.signatureB e.validatorPublicKey

inductive SlashingError where
  | invalidEvidence
  | alreadySlashed
  | validatorNotFound
deriving DecidableEq, Repr

/-- The account after a slash: a third of the stake gone, jailed. -/
def slashAccount (a : AccountState) (currentHeight jailDurationBlocks : Nat) : AccountState :=
  { a with
    stakedBalance := a.stakedBalance - satMul a.stakedBalance EQUIVOCATION_SLASH_PERCENT / 100
    jailedUntilHeight := satAdd currentHeight jailDurationBlocks }

namespace Blockchain

variable (P : Primitives) (c : Blockchain)

def processEquivocation (evidence : EquivocationEvidence) :
    Except SlashingError Nat × Blockchain :=
  let address := addressBytesFromPublicKey P evidence.validatorPublicKey
  if !evidence.verify P then (.error .invalidEvidence, c)
  else if address ∈ c.slashedValidators then (.error .alreadySlashed, c)
  else match c.accounts[address]? with
    | none => (.error .validatorNotFound, c)
    | some a =>
      (.ok (satMul a.stakedBalance EQUIVOCATION_SLASH_PERCENT / 100),
        { c with
          accounts := c.accounts.insert address
            (slashAccount a c.height c.genesisConfig.jailDurationBlocks)
          slashedValidators := insert address c.slashedValidators })

/-! ## Finality votes -/

/-- `maybe_prune_finalized`. -/
def maybePruneFinalized (finalizedHeight : Nat) : Blockchain :=
  match c.pruneKeepBlocks with
  | none => c
  | some keep =>
    if finalizedHeight ≤ keep then c
    else { c with baseHeight := max c.baseHeight (finalizedHeight - keep) }

/-- The checks on a vote before the tracker sees it: the snapshot it is counted against. -/
def votableSnapshot (vote : FinalityVote) : Option EpochSnapshot :=
  match c.blockTree.get vote.blockHash with
  | none => none
  | some votedBlock =>
    if votedBlock.header.height ≠ vote.blockHeight then none
    else if vote.epoch ≠ c.epochForHeight vote.blockHeight then none
    else if !c.blockTree.isOnCanonicalChain vote.blockHash then none
    else c.epochSnapshots[c.epochForHeight vote.blockHeight]?

/-- `add_finality_vote`. -/
def addFinalityVote (vote : FinalityVote) : Option FinalizedBlock × Blockchain :=
  match c.votableSnapshot vote with
  | none => (none, c)
  | some snapshot =>
    match c.finalityTracker.addVote P vote snapshot with
    | (tracker, none) => (none, { c with finalityTracker := tracker })
    | (tracker, some finalized) =>
      (some finalized,
        { c with
          finalityTracker := tracker
          blockTree := c.blockTree.setFinalized finalized.hash finalized.height
        }.maybePruneFinalized finalized.height)

/-! ## Restart -/

/-- The tree `with_storage_mode` builds: every stored block with its proposer's stored stake. -/
def treeFromBlocks (accounts : ByteMap AccountState) (genesis : Block) (blocks : List Block) :
    BlockTree :=
  blocks.foldl
    (fun t b => insertIgnoringErrors t b
      ((accounts[addressBytesFromPublicKey P b.header.validatorPublicKey]?.map
        AccountState.stakedBalance).getD 0))
    (BlockTree.fromGenesis genesis)

/-- The stored blocks `1, 2, ..` up to the first gap. -/
def storedBlocks : List Block :=
  ((List.range' 1 c.height).map c.blockAtHeight).takeWhile Option.isSome |>.filterMap id

/-- The stored pool comes back in hash order, then sorted by timestamp and nonce. -/
def reloadPending (pending : List Transaction) : List Transaction :=
  let table : ByteMap Transaction := pending.foldl (fun m tx => m.insert (tx.hash P) tx) ∅
  (table.toList.map Prod.snd).insertionSort fun a b =>
    a.timestamp < b.timestamp ∨ (a.timestamp = b.timestamp ∧ a.nonce ≤ b.nonce)

/-- `with_storage` on the flushed state of `c`, at clock reading `now`. -/
def restart (now : Int) : Except ChainError Blockchain := do
  let accounts ← accountsFromGenesis P c.genesisConfig
  ensure (c.genesis.hash = (genesisBlock P c.genesisConfig accounts).hash) .genesisMismatch
  let finalizedHeight := c.finalityTracker.finalizedHeight
  let reopened : Blockchain :=
    { c with
      accounts := ∅
      pendingTransactions := reloadPending P c.pendingTransactions
      blockTree := treeFromBlocks P c.accounts c.genesis c.storedBlocks
      finalityTracker := FinalityTracker.withFinalized finalizedHeight
        (((c.blockAtHeight finalizedHeight).map Block.hash).getD [])
      epochSnapshots := ∅
      contracts := ∅
      receipts := ∅
      receiptLocations := ∅
      logIndex := []
      validatorMissedEpochs := ∅
      blockHashToHeight := ∅
      txHashIndex := ∅
      evmTxHashIndex := ∅
      baseHeight := if 1 < c.blockCount then max c.baseHeight 1 else 0
      pruneKeepBlocks := none }
  match reopened.rebuildCanonicalState P now with
  | (.error e, _) => .error e
  | (.ok (), c') => .ok c'

end Blockchain

end Curs3d
