import Curs3d.Proof.Linear
import Curs3d.Proof.TipAgreement

/-!
# What pruning changes of consensus

The cursor reads a pruned height as absent. Consensus reads old blocks in three places: `add_block`
asks who produced the epoch that a boundary settles, a fork block is replayed over every boundary
below it, and a reorganisation rebuilds the state from the cursor. The document of the block store
promises that pruning changes no consensus semantics.

A pruned node and an archival node are compared as long as the pruned one `Mirrors` the other:
everything but the watermark and the indexes is the same, and the tip can be read. The step that
reads a pruned height is the one that parts them: when none does (`Spared`), both report the same
along the whole run (`Blockchain.pruning_invisible`).
-/

set_option autoImplicit false

namespace Curs3d

open Outcome

namespace Blockchain

variable {P : Primitives} {g : GenesisConfig} {c c' p a : Blockchain} {now : Int} {block : Block}
  {boundary : Nat}

/-! ## Rewards of an epoch read in part -/

/-- A validator is settled alike on two lists of producers: it is in both equally often, or it has
less than one coin at stake, which earns and costs nothing, and is in both or in neither. -/
def SettledAlike (read all : List Bytes) (v : Validator) : Prop :=
  read.count v.address = all.count v.address ∨
    (v.stake < 1000000 ∧ (v.address ∈ read ↔ v.address ∈ all))

instance (read all : List Bytes) (v : Validator) : Decidable (SettledAlike read all v) :=
  inferInstanceAs (Decidable (_ ∨ _))

section Settlement

variable {read all : List Bytes} {v : Validator} {missed : ByteMap Nat}

theorem SettledAlike.mem_iff (h : SettledAlike read all v) : v.address ∈ read ↔ v.address ∈ all := by
  obtain hcount | ⟨-, hmem⟩ := h
  · rw [← List.count_pos_iff, ← List.count_pos_iff, hcount]
  · exact hmem

theorem getD_blockProducers (producers : List Bytes) (addr : Bytes) :
    (blockProducers producers)[addr]?.getD 0 = producers.count addr := by
  rw [getElem?_blockProducers]
  split
  · rfl
  · next hmem => exact (List.count_eq_zero_of_not_mem hmem).symm

theorem SettledAlike.rewardFor (h : SettledAlike read all v) :
    rewardFor (blockProducers read) v = rewardFor (blockProducers all) v := by
  simp only [Curs3d.rewardFor, getD_blockProducers]
  obtain hcount | ⟨hstake, -⟩ := h
  · rw [hcount]
  · -- less than one coin earns nothing, however many blocks are counted
    rw [Nat.div_eq_of_lt hstake]
    simp [U64.satMul]

theorem SettledAlike.penaltyFor (h : SettledAlike read all v) :
    penaltyFor (blockProducers read) missed v = penaltyFor (blockProducers all) missed v := by
  simp only [Curs3d.penaltyFor, getD_blockProducers]
  obtain hcount | ⟨hstake, -⟩ := h
  · rw [hcount]
  · rw [Nat.div_eq_of_lt hstake]
    simp [U64.satMul]

theorem SettledAlike.updateMissed (h : SettledAlike read all v) :
    updateMissed (blockProducers read) missed v = updateMissed (blockProducers all) missed v := by
  simp only [Blockchain.updateMissed, mem_blockProducers, h.mem_iff]

/-- Producers that settle every validator of the epoch alike settle the epoch alike. -/
theorem settlement_alike {snapshots : HeightMap EpochSnapshot}
    {accounts : ByteMap AccountState}
    (h : ∀ epoch ∈ settlingEpoch g boundary, ∀ snapshot ∈ snapshots[epoch]?,
      ∀ v ∈ snapshot.validators, SettledAlike read all v) :
    applyEpochSettlementForBlock g boundary snapshots read accounts missed =
      applyEpochSettlementForBlock g boundary snapshots all accounts missed := by
  simp only [applyEpochSettlementForBlock]
  cases hs : settlingEpoch g boundary with
  | none => rfl
  | some epoch =>
    dsimp only
    cases he : snapshots[epoch]? with
    | none => rfl
    | some snapshot =>
      have halike := h epoch hs snapshot he
      have hrewards : snapshot.validators.filterMap (rewardFor (blockProducers read)) =
          snapshot.validators.filterMap (rewardFor (blockProducers all)) :=
        List.filterMap_congr fun v hv => (halike v hv).rewardFor
      have hpenalties : snapshot.validators.filterMap (penaltyFor (blockProducers read) missed) =
          snapshot.validators.filterMap (penaltyFor (blockProducers all) missed) :=
        List.filterMap_congr fun v hv => (halike v hv).penaltyFor
      have hmissed : snapshot.validators.foldl (updateMissed (blockProducers read)) missed =
          snapshot.validators.foldl (updateMissed (blockProducers all)) missed :=
        List.foldl_ext _ _ _ fun _ v hv => (halike v hv).updateMissed
      simp only [computeEpochSettlement, hrewards, hpenalties, hmissed]

end Settlement

/-! ## The same chain with another history -/

/-- Everything consensus decides on, but for what of the old blocks can still be read. -/
def consensusView (c : Blockchain) : Blockchain :=
  { c.unindexed with
    pendingTransactions := []
    baseHeight := 0
    pruneKeepBlocks := none }

theorem consensusView_congr (h : c'.unindexed = c.unindexed) :
    c'.consensusView = c.consensusView := by
  have hview := congrArg (fun c : Blockchain =>
    { c with pendingTransactions := [], baseHeight := 0, pruneKeepBlocks := none }) h
  exact hview

/-- `p` is the archival chain `a` below a watermark that leaves the tip readable. -/
structure Mirrors (p a : Blockchain) : Prop where
  view : p.consensusView = a.consensusView
  archival : a.baseHeight = 0
  keepsAll : a.pruneKeepBlocks = none
  tip : p.baseHeight ≤ max p.height 1

namespace Mirrors

theorem config (h : Mirrors p a) : p.genesisConfig = a.genesisConfig := by
  have hfield := congrArg Blockchain.genesisConfig h.view
  exact hfield

theorem slashed (h : Mirrors p a) : p.slashedValidators = a.slashedValidators := by
  have hfield := congrArg Blockchain.slashedValidators h.view
  exact hfield

theorem snapshots (h : Mirrors p a) : p.epochSnapshots = a.epochSnapshots := by
  have hfield := congrArg Blockchain.epochSnapshots h.view
  exact hfield

theorem accounts (h : Mirrors p a) : p.accounts = a.accounts := by
  have hfield := congrArg Blockchain.accounts h.view
  exact hfield

theorem contracts (h : Mirrors p a) : p.contracts = a.contracts := by
  have hfield := congrArg Blockchain.contracts h.view
  exact hfield

theorem missed (h : Mirrors p a) : p.validatorMissedEpochs = a.validatorMissedEpochs := by
  have hfield := congrArg Blockchain.validatorMissedEpochs h.view
  exact hfield

theorem execState (h : Mirrors p a) : p.execState = a.execState := by
  have hfield := congrArg Blockchain.execState h.view
  exact hfield

theorem blockTree (h : Mirrors p a) : p.blockTree = a.blockTree := by
  have hfield := congrArg Blockchain.blockTree h.view
  exact hfield

theorem tracker (h : Mirrors p a) : p.finalityTracker = a.finalityTracker := by
  have hfield := congrArg Blockchain.finalityTracker h.view
  exact hfield

theorem genesis (h : Mirrors p a) : p.genesis = a.genesis := by
  have hfield := congrArg Blockchain.genesis h.view
  exact hfield

theorem blocks (h : Mirrors p a) : p.blocks = a.blocks := by
  have hfield := congrArg Blockchain.blocks h.view
  exact hfield

theorem height (h : Mirrors p a) : p.height = a.height := by
  simp only [Blockchain.height, blockCount, h.blocks]

/-- From the watermark up both read the same block. -/
theorem blockAtHeight (h : Mirrors p a) {k : Nat} (hk : k = 0 ∨ p.baseHeight ≤ k) :
    p.blockAtHeight k = a.blockAtHeight k := by
  simp only [Blockchain.blockAtHeight, h.genesis, h.blocks, h.archival]
  split
  · rfl
  · rw [if_neg (by omega), if_neg (Nat.not_lt_zero k)]

theorem latestBlock (h : Mirrors p a) : p.latestBlock = a.latestBlock := by
  have htip := h.tip
  simp only [Blockchain.latestBlock, ← h.height, h.genesis]
  rw [h.blockAtHeight (by omega)]

/-- The mirrored chain with fields replaced that both chains replace alike. -/
theorem of_view (h : Mirrors p a) {p' a' : Blockchain} (hview : p'.consensusView = a'.consensusView)
    (ha : a'.baseHeight = a.baseHeight) (hkeep : a'.pruneKeepBlocks = a.pruneKeepBlocks)
    (hp : p'.baseHeight = p.baseHeight) (hheight : p.height ≤ p'.height) : Mirrors p' a' := by
  refine ⟨hview, ha.trans h.archival, hkeep.trans h.keepsAll, ?_⟩
  have htip := h.tip
  omega

end Mirrors

/-! ## Reading an epoch -/

/-- The producers of the epoch that `height` settles, pruned or not. -/
def allProposers (P : Primitives) (c : Blockchain) (height : Nat) : List Bytes :=
  { c with baseHeight := 0 }.proposerAddressesForSettlingEpoch P height

/-- The blocks of the epoch that `height` settles which can still be read settle its validators as
all of its blocks do. -/
def SettlesWhole (P : Primitives) (c : Blockchain) (height : Nat) : Prop :=
  ∀ epoch ∈ settlingEpoch c.genesisConfig height, ∀ snapshot ∈ c.epochSnapshots[epoch]?,
    ∀ v ∈ snapshot.validators,
      SettledAlike (c.proposerAddressesForSettlingEpoch P height) (c.allProposers P height) v

instance (c : Blockchain) (height : Nat) : Decidable (c.SettlesWhole P height) :=
  inferInstanceAs (Decidable (∀ epoch ∈ settlingEpoch c.genesisConfig height,
    ∀ snapshot ∈ c.epochSnapshots[epoch]?, ∀ v ∈ snapshot.validators, SettledAlike _ _ v))

theorem Mirrors.allProposers (h : Mirrors p a) :
    p.allProposers P boundary = a.proposerAddressesForSettlingEpoch P boundary := by
  apply proposers_congr
  · exact h.config
  intro k _
  simp only [Blockchain.blockAtHeight, h.genesis, h.blocks, h.archival]

theorem Mirrors.settlement (h : Mirrors p a) (hs : p.SettlesWhole P boundary)
    (accounts : ByteMap AccountState) (missed : ByteMap Nat) :
    applyEpochSettlementForBlock p.genesisConfig boundary p.epochSnapshots
        (p.proposerAddressesForSettlingEpoch P boundary) accounts missed =
      applyEpochSettlementForBlock a.genesisConfig boundary a.epochSnapshots
        (a.proposerAddressesForSettlingEpoch P boundary) accounts missed := by
  rw [settlement_alike hs, h.allProposers, h.config, h.snapshots]

/-- With a watermark of at most 1 nothing is out of reach. -/
theorem Mirrors.settlesWhole (h : Mirrors p a) (hbase : p.baseHeight ≤ 1) (height : Nat) :
    p.SettlesWhole P height := by
  intro epoch _ snapshot _ v _
  left
  rw [h.allProposers]
  congr 1
  apply proposers_congr h.config
  intro k _
  exact h.blockAtHeight (by omega)

/-! ## Adding a block -/

theorem ensureEpochSnapshot_view (c : Blockchain) (height : Nat) :
    (c.consensusView.ensureEpochSnapshot height).epochSnapshots =
      (c.ensureEpochSnapshot height).epochSnapshots := by
  simp only [ensureEpochSnapshot]
  split <;> split <;> first | rfl | contradiction

namespace Mirrors

theorem ensureEpochSnapshot (h : Mirrors p a) (height : Nat) :
    (p.ensureEpochSnapshot height).epochSnapshots =
      (a.ensureEpochSnapshot height).epochSnapshots := by
  rw [← ensureEpochSnapshot_view p, ← ensureEpochSnapshot_view a, h.view]

theorem prepareEpoch (h : Mirrors p a) (hs : p.SettlesWhole P boundary) :
    Mirrors (p.prepareEpoch P boundary) (a.prepareEpoch P boundary) := by
  have hsettled : p.settledAt P boundary = a.settledAt P boundary := by
    simp only [settledAt]
    rw [h.settlement hs, h.accounts, h.missed]
  rw [prepareEpoch_eq, prepareEpoch_eq, hsettled, h.ensureEpochSnapshot]
  refine h.of_view ?_ rfl rfl rfl (Nat.le_refl p.height)
  have hview := congrArg (fun c : Blockchain =>
    { c with
      epochSnapshots := (a.ensureEpochSnapshot boundary).epochSnapshots
      accounts := (a.settledAt P boundary).1
      validatorMissedEpochs := (a.settledAt P boundary).2 }) h.view
  exact hview

theorem validate (h : Mirrors p a) (parent : Block) (s : ExecState) :
    p.validateBlockAgainstState P now block parent s =
      a.validateBlockAgainstState P now block parent s := by
  apply validate_congr h.config h.slashed
  rw [h.snapshots]

theorem commitBlock (h : Mirrors p a) (s : ExecState) :
    Mirrors (p.commitBlock P block s) (a.commitBlock P block s) := by
  have hp := @commitBlock_spine P p block s
  have ha := @commitBlock_spine P a block s
  have hbase : (a.commitBlock P block s).baseHeight = a.baseHeight := congrArg Spine.baseHeight ha
  have hkeep : (a.commitBlock P block s).pruneKeepBlocks = a.pruneKeepBlocks :=
    congrArg Spine.pruneKeepBlocks ha
  have hpbase : (p.commitBlock P block s).baseHeight = p.baseHeight := congrArg Spine.baseHeight hp
  have hblocks : (p.commitBlock P block s).blocks = p.blocks ++ [block] :=
    congrArg Spine.blocks hp
  refine h.of_view ?_ hbase hkeep hpbase ?_
  · have hviewp := congrArg (fun c : Blockchain =>
      { c with pendingTransactions := [], baseHeight := 0, pruneKeepBlocks := none })
      (@commitBlock_unindexed P p block s)
    have hviewa := congrArg (fun c : Blockchain =>
      { c with pendingTransactions := [], baseHeight := 0, pruneKeepBlocks := none })
      (@commitBlock_unindexed P a block s)
    have hview := congrArg (fun c : Blockchain =>
      { c with
        blockTree := insertIgnoringErrors c.blockTree block (proposerStake P s block)
        accounts := s.accounts
        contracts := s.contracts
        receipts := extendReceipts c.receipts s.receipts
        tokenRegistry := s.tokenRegistry
        governance := s.governance
        blocks := c.blocks ++ [block] }) h.view
    exact (hviewp.trans hview).trans hviewa.symm
  · simp only [Blockchain.height, blockCount, hblocks, List.length_append, List.length_singleton]
    omega

/-- **A block added at the tip, on an epoch that is read whole.** -/
theorem addBlock (h : Mirrors p a) (hs : p.SettlesWhole P block.header.height) :
    (p.addBlock P now block).1 = (a.addBlock P now block).1 ∧
      Mirrors (p.addBlock P now block).2 (a.addBlock P now block).2 := by
  have hprepared := h.prepareEpoch hs
  have hvalid := @validate P _ _ now block hprepared (a.prepareEpoch P block.header.height).latestBlock
    (a.prepareEpoch P block.header.height).execState
  simp only [Blockchain.addBlock]
  rw [hprepared.latestBlock, hprepared.execState, hvalid, h.config]
  split
  · exact ⟨rfl, hprepared⟩
  · split
    · exact ⟨rfl, hprepared⟩
    · exact ⟨rfl, hprepared.commitBlock _⟩

end Mirrors

/-! ## Replaying a branch -/

/-- The blocks a replay of the block `hash` runs over, newest first. -/
def ancestors (c : Blockchain) (hash : Bytes) : List Block :=
  (c.lineageToGenesis (((c.blockTree.get hash).map fun b => b.header.height + 1).getD 1)
    hash).toOption.getD []

namespace Mirrors

theorem replayBlock (h : Mirrors p a) (hs : p.SettlesWhole P block.header.height)
    (previous : Block) (r : ReplayState) :
    p.replayBlock P now previous block r = a.replayBlock P now previous block r := by
  simp only [Blockchain.replayBlock]
  rw [h.settlement hs, h.validate]

theorem replayBlocks (h : Mirrors p a) {blocks : List Block}
    (hs : ∀ b ∈ blocks, p.SettlesWhole P b.header.height) (previous : Block) (r : ReplayState) :
    p.replayBlocks P now previous blocks r = a.replayBlocks P now previous blocks r := by
  induction blocks generalizing previous r with
  | nil => rfl
  | cons b rest ih =>
    simp only [Blockchain.replayBlocks]
    rw [h.replayBlock (hs b List.mem_cons_self)]
    split
    · rfl
    · exact ih (fun b' hb' => hs b' (List.mem_cons_of_mem _ hb')) _ _

theorem lineageToGenesis (h : Mirrors p a) (fuel : Nat) (hash : Bytes) :
    p.lineageToGenesis fuel hash = a.lineageToGenesis fuel hash := by
  induction fuel generalizing hash with
  | zero => rfl
  | succ fuel ih => simp only [Blockchain.lineageToGenesis, h.blockTree, h.genesis, ih]

theorem replayStateToTip (h : Mirrors p a) {hash : Bytes}
    (hs : ∀ b ∈ p.ancestors hash, p.SettlesWhole P b.header.height) :
    p.replayStateToTip P now hash = a.replayStateToTip P now hash := by
  simp only [ancestors, h.lineageToGenesis, h.blockTree] at hs
  simp only [Blockchain.replayStateToTip, h.lineageToGenesis, h.blockTree, h.config]
  cases hl : a.lineageToGenesis (((a.blockTree.get hash).map fun b => b.header.height + 1).getD 1)
      hash with
  | error e => rfl
  | ok lineage =>
    rw [hl] at hs
    cases haccounts : accountsFromGenesis P a.genesisConfig with
    | error e => rfl
    | ok accounts =>
      simp only [bind, Except.bind]
      cases hr : lineage.reverse with
      | nil => rfl
      | cons first rest =>
        have hrest : ∀ b ∈ rest, p.SettlesWhole P b.header.height := by
          intro b hb
          apply hs
          have hmem : b ∈ lineage.reverse := by rw [hr]; exact List.mem_cons_of_mem _ hb
          exact List.mem_reverse.mp hmem
        dsimp only
        rw [h.replayBlocks hrest]

theorem stageForkBlock (h : Mirrors p a)
    (hs : ∀ parent ∈ p.blockTree.get block.header.prevHash,
      ∀ b ∈ p.ancestors parent.hash, p.SettlesWhole P b.header.height) :
    p.stageForkBlock P now block = a.stageForkBlock P now block := by
  simp only [Blockchain.stageForkBlock]
  rw [← h.blockTree]
  cases hparent : p.blockTree.get block.header.prevHash with
  | none => rfl
  | some parent =>
    dsimp only
    rw [h.replayStateToTip (hs parent hparent)]
    simp only [h.validate]

/-! ## Rebuilding the state -/

/-- Indexing changes nothing the chains are compared on. -/
theorem of_unindexed (h : Mirrors p a) {p' a' : Blockchain} (hp : p'.unindexed = p.unindexed)
    (ha : a'.unindexed = a.unindexed) : Mirrors p' a' := by
  have hsp := spine_congr hp
  have hsa := spine_congr ha
  have hblocks : p'.blocks = p.blocks := congrArg Spine.blocks hsp
  refine h.of_view ?_ (congrArg Spine.baseHeight hsa) (congrArg Spine.pruneKeepBlocks hsa)
    (congrArg Spine.baseHeight hsp) ?_
  · rw [consensusView_congr hp, consensusView_congr ha, h.view]
  · simp only [Blockchain.height, blockCount, hblocks, Nat.le_refl]

theorem snapshotForAccounts (h : Mirrors p a) (epoch : Nat) (accounts : ByteMap AccountState) :
    p.snapshotForAccounts epoch accounts = a.snapshotForAccounts epoch accounts := by
  simp only [Blockchain.snapshotForAccounts, h.config, h.slashed]

theorem withSnapshots (h : Mirrors p a) (snapshots : HeightMap EpochSnapshot) :
    Mirrors { p with epochSnapshots := snapshots } { a with epochSnapshots := snapshots } := by
  refine h.of_view ?_ rfl rfl rfl (Nat.le_refl p.height)
  have hview := congrArg (fun c : Blockchain => { c with epochSnapshots := snapshots }) h.view
  exact hview

theorem withState (h : Mirrors p a) (r : ReplayState) :
    Mirrors
      { p with
        accounts := r.state.accounts
        contracts := r.state.contracts
        receipts := r.state.receipts
        tokenRegistry := r.state.tokenRegistry
        governance := r.state.governance
        validatorMissedEpochs := r.missed }
      { a with
        accounts := r.state.accounts
        contracts := r.state.contracts
        receipts := r.state.receipts
        tokenRegistry := r.state.tokenRegistry
        governance := r.state.governance
        validatorMissedEpochs := r.missed } := by
  refine h.of_view ?_ rfl rfl rfl (Nat.le_refl p.height)
  have hview := congrArg (fun c : Blockchain =>
    { c with
      accounts := r.state.accounts
      contracts := r.state.contracts
      receipts := r.state.receipts
      tokenRegistry := r.state.tokenRegistry
      governance := r.state.governance
      validatorMissedEpochs := r.missed }) h.view
  exact hview

theorem withBoundarySnapshot (h : Mirrors p a) (height : Nat) (accounts : ByteMap AccountState) :
    Mirrors (p.withBoundarySnapshot height accounts) (a.withBoundarySnapshot height accounts) := by
  have hiff : (0 < height ∧ height % p.genesisConfig.epochLen = 0 ∧
        p.epochForHeight height ∉ p.epochSnapshots) ↔
      (0 < height ∧ height % a.genesisConfig.epochLen = 0 ∧
        a.epochForHeight height ∉ a.epochSnapshots) := by
    rw [epochForHeight_congr h.config, h.config, h.snapshots]
  by_cases hnew : 0 < height ∧ height % a.genesisConfig.epochLen = 0 ∧
      a.epochForHeight height ∉ a.epochSnapshots
  · rw [Blockchain.withBoundarySnapshot, if_pos (hiff.mpr hnew), Blockchain.withBoundarySnapshot,
      if_pos hnew]
    simp only [createEpochSnapshotFromAccounts, h.snapshotForAccounts, h.snapshots,
      epochForHeight_congr h.config]
    exact h.withSnapshots _
  · rw [Blockchain.withBoundarySnapshot, if_neg (mt hiff.mp hnew), Blockchain.withBoundarySnapshot,
      if_neg hnew]
    exact h

theorem rebuildBlocks (h : Mirrors p a) (hbase : p.baseHeight ≤ 1) (blocks : List Block)
    (previous : Block) (r : ReplayState) :
    (rebuildBlocks P now p previous blocks r).1 = (rebuildBlocks P now a previous blocks r).1 ∧
      Mirrors (rebuildBlocks P now p previous blocks r).2
        (rebuildBlocks P now a previous blocks r).2 := by
  induction blocks generalizing p a previous r with
  | nil => exact ⟨rfl, h⟩
  | cons b rest ih =>
    have hnext := h.withBoundarySnapshot b.header.height r.state.accounts
    have hkept : (p.withBoundarySnapshot b.header.height r.state.accounts).baseHeight =
        p.baseHeight := congrArg Spine.baseHeight (withBoundarySnapshot_spine _ _)
    rw [rebuildBlocks_cons, rebuildBlocks_cons,
      hnext.replayBlock (hnext.settlesWhole (by omega) b.header.height)]
    split
    · exact ⟨rfl, hnext⟩
    · exact ih hnext (by omega) _ _

/-- **A rebuild with every block in reach.** -/
theorem rebuildCanonicalState (h : Mirrors p a) (hbase : p.baseHeight ≤ 1) :
    (p.rebuildCanonicalState P now).1 = (a.rebuildCanonicalState P now).1 ∧
      Mirrors (p.rebuildCanonicalState P now).2 (a.rebuildCanonicalState P now).2 := by
  -- With a base of at most 1 the pruned chain still reads every block back.
  have hiter : p.iterBlocks = a.iterBlocks := by
    have hread : p.blockAtHeight = a.blockAtHeight := by
      funext k
      exact h.blockAtHeight (by omega)
    simp only [iterBlocks, blockCount, h.blocks, hread]
  have haccounts : accountsFromGenesis P p.genesisConfig = accountsFromGenesis P a.genesisConfig := by
    rw [h.config]
  simp only [Blockchain.rebuildCanonicalState, hiter, h.snapshotForAccounts, haccounts]
  split
  · exact ⟨rfl, h⟩
  next accounts _ =>
  set started : Blockchain :=
    { p with epochSnapshots := genesisSnapshots (a.snapshotForAccounts 0 accounts) }
  have hindexed := (h.withSnapshots
    (genesisSnapshots (a.snapshotForAccounts 0 accounts))).of_unindexed
      (@reindexBlocks_unindexed P _ a.iterBlocks) (@reindexBlocks_unindexed P _ a.iterBlocks)
  split
  · exact ⟨rfl, hindexed⟩
  next first rest _ =>
  have hkept : (started.reindexBlocks P a.iterBlocks).baseHeight = p.baseHeight :=
    congrArg Spine.baseHeight (spine_congr (@reindexBlocks_unindexed P started a.iterBlocks))
  obtain ⟨hresult, hrebuilt⟩ := @Mirrors.rebuildBlocks P _ _ now hindexed
    (by rw [← hkept] at hbase; exact hbase) rest first (genesisReplay accounts)
  cases hp : Blockchain.rebuildBlocks P now (started.reindexBlocks P a.iterBlocks) first rest
      (genesisReplay accounts) with
  | mk rp p' =>
    cases ha : Blockchain.rebuildBlocks P now
        (Blockchain.reindexBlocks P
          { a with epochSnapshots := genesisSnapshots (a.snapshotForAccounts 0 accounts) }
          a.iterBlocks) first rest (genesisReplay accounts) with
    | mk ra a' =>
      rw [hp, ha] at hresult hrebuilt
      cases hresult
      cases rp with
      | error e => exact ⟨rfl, hrebuilt⟩
      | ok r =>
        have hfilled := hrebuilt.withState r
        exact ⟨rfl, hfilled.of_unindexed rebuildReceiptIndexes_unindexed
          rebuildReceiptIndexes_unindexed⟩

end Mirrors

/-! ## Fork choice and votes -/

/-- The block makes another branch the heavier one, and finality lets the node switch to it. -/
def Reorganises (P : Primitives) (c : Blockchain) (now : Int) (block : Block) : Prop :=
  ∃ tree, c.stageForkBlock P now block = .ok (tree, true) ∧
    { c with blockTree := tree }.checkReorg tree.canonicalChain = .ok ()

/-- The operation reads no pruned height that matters: every epoch it settles is read whole, a
reorganisation has all blocks in reach, and a vote leaves the tip in reach. -/
def Spared (P : Primitives) (c : Blockchain) : ForkOp → Prop
  | .addBlock _ block => c.SettlesWhole P block.header.height
  | .addBlockWithForkChoice now block => c.tooOld block = false →
    (block.header.prevHash = c.latestBlock.hash → c.SettlesWhole P block.header.height) ∧
    (block.header.prevHash ≠ c.latestBlock.hash →
      (∀ parent ∈ c.blockTree.get block.header.prevHash,
        ∀ b ∈ c.ancestors parent.hash, c.SettlesWhole P b.header.height) ∧
      (c.Reorganises P now block → c.baseHeight ≤ 1))
  | .addFinalityVote vote => (c.addFinalityVote P vote).1 ≠ none →
    ∀ keep ∈ c.pruneKeepBlocks, vote.blockHeight ≤ c.height + keep

instance (c : Blockchain) (now : Int) (block : Block) : Decidable (c.Reorganises P now block) :=
  match hstage : c.stageForkBlock P now block with
  | .error _ => isFalse fun ⟨_, h, _⟩ => by cases hstage.symm.trans h
  | .ok (_, false) => isFalse fun ⟨_, h, _⟩ => by cases hstage.symm.trans h
  | .ok (tree, true) =>
    match hcheck : { c with blockTree := tree }.checkReorg tree.canonicalChain with
    | .ok () => isTrue ⟨tree, hstage, hcheck⟩
    | .error _ => isFalse fun ⟨_, h, hok⟩ => by
      cases hstage.symm.trans h
      cases hcheck.symm.trans hok

instance (c : Blockchain) (op : ForkOp) : Decidable (c.Spared P op) :=
  match op with
  | .addBlock _ block => inferInstanceAs (Decidable (c.SettlesWhole P block.header.height))
  | .addBlockWithForkChoice now block => inferInstanceAs (Decidable (c.tooOld block = false →
    (block.header.prevHash = c.latestBlock.hash → c.SettlesWhole P block.header.height) ∧
    (block.header.prevHash ≠ c.latestBlock.hash →
      (∀ parent ∈ c.blockTree.get block.header.prevHash,
        ∀ b ∈ c.ancestors parent.hash, c.SettlesWhole P b.header.height) ∧
      (c.Reorganises P now block → c.baseHeight ≤ 1))))
  | .addFinalityVote vote => inferInstanceAs (Decidable ((c.addFinalityVote P vote).1 ≠ none →
    ∀ keep ∈ c.pruneKeepBlocks, vote.blockHeight ≤ c.height + keep))

theorem maybePruneFinalized_view (c : Blockchain) (finalizedHeight : Nat) :
    (c.maybePruneFinalized finalizedHeight).consensusView = c.consensusView := by
  simp only [maybePruneFinalized]
  split
  · rfl
  · split <;> rfl

/-- A vote moves the watermark no further than the tip when it finalizes no block more than the
kept ones above it. -/
theorem watermark_le {finalizedHeight : Nat} (htip : c.baseHeight ≤ max c.height 1)
    (h : ∀ keep ∈ c.pruneKeepBlocks, finalizedHeight ≤ c.height + keep) :
    (c.maybePruneFinalized finalizedHeight).baseHeight ≤
      max (c.maybePruneFinalized finalizedHeight).height 1 := by
  simp only [maybePruneFinalized]
  split
  · exact htip
  next keep hkeep =>
  have hle := h keep hkeep
  split
  · exact htip
  · simp only [height, blockCount] at htip hle ⊢
    omega

namespace Mirrors

theorem checkReorg (h : Mirrors p a) (canonical : List Block) :
    p.checkReorg canonical = a.checkReorg canonical := by
  simp only [Blockchain.checkReorg, h.tracker, h.genesis, h.blockTree, h.latestBlock]

theorem withTree (h : Mirrors p a) (tree : BlockTree) :
    Mirrors { p with blockTree := tree } { a with blockTree := tree } := by
  refine h.of_view ?_ rfl rfl rfl (Nat.le_refl p.height)
  have hview := congrArg (fun c : Blockchain => { c with blockTree := tree }) h.view
  exact hview

theorem replaceAllBlocks (h : Mirrors p a) (hbase : p.baseHeight ≤ 1) (blocks : List Block) :
    Mirrors (p.replaceAllBlocks blocks) (a.replaceAllBlocks blocks) := by
  refine ⟨?_, h.archival, h.keepsAll, hbase.trans (Nat.le_max_right _ _)⟩
  have hview := congrArg (fun c : Blockchain =>
    { c with blocks, genesis := blocks.head?.getD c.genesis }) h.view
  exact hview

/-- **A switch to another branch with every block in reach.** -/
theorem reorgToCanonicalTip (h : Mirrors p a)
    (hbase : p.checkReorg p.blockTree.canonicalChain = .ok () → p.baseHeight ≤ 1) :
    (p.reorgToCanonicalTip P now).1 = (a.reorgToCanonicalTip P now).1 ∧
      Mirrors (p.reorgToCanonicalTip P now).2 (a.reorgToCanonicalTip P now).2 := by
  simp only [h.checkReorg, h.blockTree] at hbase
  simp only [Blockchain.reorgToCanonicalTip, h.checkReorg, h.blockTree]
  split
  · exact ⟨rfl, h⟩
  · next hcheck =>
    exact (h.replaceAllBlocks (hbase hcheck) _).rebuildCanonicalState (hbase hcheck)

/-- **A block handed to the fork choice.** -/
theorem addBlockWithForkChoice (h : Mirrors p a)
    (hs : p.Spared P (.addBlockWithForkChoice now block)) :
    (p.addBlockWithForkChoice P now block).1 = (a.addBlockWithForkChoice P now block).1 ∧
      Mirrors (p.addBlockWithForkChoice P now block).2
        (a.addBlockWithForkChoice P now block).2 := by
  have hold : p.tooOld block = a.tooOld block := by simp only [tooOld, h.height]
  simp only [Blockchain.addBlockWithForkChoice]
  rw [← hold, ← h.latestBlock]
  split
  · exact ⟨rfl, h⟩
  next hyoung =>
  obtain ⟨hchild, hfork⟩ := hs (by simpa using hyoung)
  split
  · next hprev =>
    obtain ⟨hresult, hafter⟩ := @Mirrors.addBlock P p a now block h (hchild hprev)
    cases hp : p.addBlock P now block with
    | mk rp p' =>
      cases ha : a.addBlock P now block with
      | mk ra a' =>
        rw [hp, ha] at hresult hafter
        cases hresult
        cases rp with
        | error e => exact ⟨rfl, hafter⟩
        | ok u => exact ⟨rfl, hafter⟩
  next hprev =>
  obtain ⟨hread, hbase⟩ := hfork hprev
  have hstage := @Mirrors.stageForkBlock P p a now block h hread
  rw [← hstage]
  split
  · exact ⟨rfl, h⟩
  · next tree _ => exact ⟨rfl, h.withTree tree⟩
  -- The pruned chain reorganises only when spared, that is while its base is at most 1.
  · next tree hswitch =>
    have hreorg := @Mirrors.reorgToCanonicalTip P _ _ now (h.withTree tree)
      fun hcheck => hbase ⟨tree, hswitch, hcheck⟩
    obtain ⟨hresult, hafter⟩ := hreorg
    cases hp : { p with blockTree := tree }.reorgToCanonicalTip P now with
    | mk rp p' =>
      cases ha : { a with blockTree := tree }.reorgToCanonicalTip P now with
      | mk ra a' =>
        rw [hp, ha] at hresult hafter
        cases hresult
        cases rp with
        | error e => exact ⟨rfl, hafter⟩
        | ok u => exact ⟨rfl, hafter⟩

/-- **A vote**, which prunes the one and not the other. -/
theorem addFinalityVote (h : Mirrors p a) {vote : FinalityVote}
    (hs : p.Spared P (.addFinalityVote vote)) :
    (p.addFinalityVote P vote).1 = (a.addFinalityVote P vote).1 ∧
      Mirrors (p.addFinalityVote P vote).2 (a.addFinalityVote P vote).2 := by
  have hvotable : a.votableSnapshot vote = p.votableSnapshot vote := by
    rw [votableSnapshot, votableSnapshot, h.blockTree, h.snapshots, epochForHeight_congr h.config]
  cases hsnapshot : p.votableSnapshot vote with
  | none =>
    have hp : p.addFinalityVote P vote = (none, p) := by
      simp only [Blockchain.addFinalityVote, hsnapshot]
    have ha : a.addFinalityVote P vote = (none, a) := by
      simp only [Blockchain.addFinalityVote, hvotable, hsnapshot]
    rw [hp, ha]
    exact ⟨rfl, h⟩
  | some snapshot =>
    cases hadd : p.finalityTracker.addVote P vote snapshot with
    | mk tracker result =>
      have hcounted : Mirrors { p with finalityTracker := tracker }
          { a with finalityTracker := tracker } := by
        refine h.of_view ?_ rfl rfl rfl (Nat.le_refl p.height)
        have hview := congrArg (fun c : Blockchain => { c with finalityTracker := tracker }) h.view
        exact hview
      cases result with
      | none =>
        have hp : p.addFinalityVote P vote = (none, { p with finalityTracker := tracker }) := by
          simp only [Blockchain.addFinalityVote, hsnapshot, hadd]
        have ha : a.addFinalityVote P vote = (none, { a with finalityTracker := tracker }) := by
          simp only [Blockchain.addFinalityVote, hvotable, hsnapshot, ← h.tracker, hadd]
        rw [hp, ha]
        exact ⟨rfl, hcounted⟩
      | some finalized =>
        have hfinal := hcounted.withTree
          (p.blockTree.setFinalized finalized.hash finalized.height)
        have hp : p.addFinalityVote P vote = (some finalized,
            { p with
              finalityTracker := tracker
              blockTree := p.blockTree.setFinalized finalized.hash finalized.height
            }.maybePruneFinalized finalized.height) := by
          simp only [Blockchain.addFinalityVote, hsnapshot, hadd]
        have ha : a.addFinalityVote P vote = (some finalized,
            { a with
              finalityTracker := tracker
              blockTree := p.blockTree.setFinalized finalized.hash finalized.height }) := by
          simp only [Blockchain.addFinalityVote, hvotable, hsnapshot, ← h.tracker, hadd, h.blockTree]
          refine Prod.ext rfl (maybePruneFinalized_of_none ?_ _)
          exact h.keepsAll
        -- Only here do the two part: the view they share does not hold what is pruned.
        obtain ⟨-, -, -, hfinalized⟩ := FinalityTracker.finalized_of_addVote_some hadd
        have hkeep := hs (by rw [hp]; exact Option.some_ne_none _)
        rw [hp, ha]
        refine ⟨rfl, ?_, hfinal.archival, hfinal.keepsAll, ?_⟩
        · rw [maybePruneFinalized_view]
          exact hfinal.view
        · exact watermark_le hfinal.tip (by rw [hfinalized]; exact hkeep)

end Mirrors

/-! ## Runs -/

/-- What an operation returns. -/
inductive Returned where
  | added (result : Except ChainError Unit)
  | chosen (result : Except ChainError Bool)
  | voted (finalized : Option FinalizedBlock)
deriving DecidableEq

/-- What can be seen of an operation: its result, and the accounts, contracts and tip after it. -/
structure Observed where
  result : Returned
  accounts : ByteMap AccountState
  contracts : ByteMap ContractState
  tip : Block

def returned (P : Primitives) (c : Blockchain) : ForkOp → Returned
  | .addBlock now block => .added (c.addBlock P now block).1
  | .addBlockWithForkChoice now block => .chosen (c.addBlockWithForkChoice P now block).1
  | .addFinalityVote vote => .voted (c.addFinalityVote P vote).1

def observe (P : Primitives) (c : Blockchain) (op : ForkOp) : Observed where
  result := c.returned P op
  accounts := (attempt P c op).accounts
  contracts := (attempt P c op).contracts
  tip := (attempt P c op).latestBlock

def observeAll (P : Primitives) : Blockchain → List ForkOp → List Observed
  | _, [] => []
  | c, op :: rest => c.observe P op :: observeAll P (attempt P c op) rest

/-- Every operation, when its turn comes, reads no pruned height that matters. -/
def SparedRun (P : Primitives) : Blockchain → List ForkOp → Prop
  | _, [] => True
  | c, op :: rest => c.Spared P op ∧ SparedRun P (attempt P c op) rest

instance decidableSparedRun : (c : Blockchain) → (ops : List ForkOp) → Decidable (SparedRun P c ops)
  | _, [] => isTrue trivial
  | c, op :: rest =>
    have := decidableSparedRun (Blockchain.attempt P c op) rest
    inferInstanceAs (Decidable (c.Spared P op ∧ SparedRun P (Blockchain.attempt P c op) rest))

variable {op : ForkOp} {ops : List ForkOp}

/-- One operation. -/
theorem Mirrors.attempt (h : Mirrors p a) (hs : p.Spared P op) :
    p.returned P op = a.returned P op ∧ Mirrors (attempt P p op) (attempt P a op) := by
  cases op with
  | addBlock now block =>
    obtain ⟨hresult, hafter⟩ := @Mirrors.addBlock P p a now block h hs
    exact ⟨congrArg Returned.added hresult, hafter⟩
  | addBlockWithForkChoice now block =>
    obtain ⟨hresult, hafter⟩ := h.addBlockWithForkChoice hs
    exact ⟨congrArg Returned.chosen hresult, hafter⟩
  | addFinalityVote vote =>
    obtain ⟨hresult, hafter⟩ := h.addFinalityVote hs
    exact ⟨congrArg Returned.voted hresult, hafter⟩

theorem Mirrors.observe (h : Mirrors p a) (hs : p.Spared P op) :
    p.observe P op = a.observe P op := by
  obtain ⟨hresult, hafter⟩ := h.attempt hs
  simp only [Blockchain.observe, hresult, hafter.accounts, hafter.contracts, hafter.latestBlock]

/-- A run of operations. -/
theorem Mirrors.observeAll (h : Mirrors p a) (hs : p.SparedRun P ops) :
    p.observeAll P ops = a.observeAll P ops := by
  induction ops generalizing p a with
  | nil => rfl
  | cons op rest ih =>
    obtain ⟨hop, hrest⟩ := hs
    simp only [Blockchain.observeAll]
    rw [h.observe hop, ih (h.attempt hop).2 hrest]

/-- `set_prune_keep_blocks`, on a chain that has pruned nothing. -/
theorem mirrors_genesis (h : fromGenesis P g = .ok c) (keep : Option Nat) :
    Mirrors { c with pruneKeepBlocks := keep } c := by
  simp only [fromGenesis, except_bind_eq_ok] at h
  obtain ⟨accounts, -, hc⟩ := h
  cases hc
  exact ⟨rfl, rfl, rfl, Nat.zero_le _⟩

/-- **Pruning is invisible to consensus** along every run that reads no pruned height that matters:
at every step the pruning node returns what the archival node returns, and has its accounts, its
contracts and its tip. -/
theorem pruning_invisible {P : Primitives} {g : GenesisConfig} {c₀ : Blockchain}
    {keep : Option Nat} {ops : List ForkOp} (hstart : fromGenesis P g = .ok c₀)
    (hs : SparedRun P { c₀ with pruneKeepBlocks := keep } ops) :
    observeAll P { c₀ with pruneKeepBlocks := keep } ops = observeAll P c₀ ops :=
  (mirrors_genesis hstart keep).observeAll hs

end Blockchain

namespace PruningSample

open Scenario LinearSample

/-- Three blocks of the only validator, a vote that finalizes the third, and the fourth block, which
settles the epoch of blocks 2 and 3. -/
def ops (calls : List (Int × Block)) : List Blockchain.ForkOp :=
  (calls.take 3).map (fun e => .addBlock e.1 e.2) ++
    ((calls.drop 2).take 1).map (fun e => .addFinalityVote
      (FinalityVote.new Reference.primitives e.2.hash 3 1 (key 1))) ++
    (calls.drop 3).map fun e => .addBlock e.1 e.2

end PruningSample

open PruningSample LinearSample Scenario Blockchain in
/-- With one more block kept than the finalized one, the epoch is read whole. -/
theorem pruning_invisible_sample : ∃ c₀ calls,
    fromGenesis Reference.primitives genesis = .ok c₀ ∧ script c₀ steps = some calls ∧
      (attemptAll Reference.primitives { c₀ with pruneKeepBlocks := some 1 }
        (ops calls)).baseHeight = 2 ∧
      observeAll Reference.primitives { c₀ with pruneKeepBlocks := some 1 } (ops calls) =
        observeAll Reference.primitives c₀ (ops calls) := by
  have hrun : (fromGenesis Reference.primitives genesis).toOption.any (fun c₀ =>
      (script c₀ steps).any fun calls =>
        decide ((attemptAll Reference.primitives { c₀ with pruneKeepBlocks := some 1 }
            (ops calls)).baseHeight = 2 ∧
          SparedRun Reference.primitives { c₀ with pruneKeepBlocks := some 1 } (ops calls))) =
      true := by
    decide +kernel
  obtain ⟨c₀, hstart, hrest⟩ := Outcome.ok_of_any hrun
  obtain ⟨calls, hscript, hcalls⟩ := (Option.any_eq_true _ _).mp hrest
  rw [decide_eq_true_eq] at hcalls
  exact ⟨c₀, calls, hstart, hscript, hcalls.1, pruning_invisible hstart hcalls.2⟩

open PruningSample LinearSample Scenario Blockchain in
/-- With only the finalized block kept, the pruned node pays the validator for one block less than
the others do, and refuses the block they all take. -/
theorem pruned_node_refuses_block : ∃ c₀ calls,
    fromGenesis Reference.primitives genesis = .ok c₀ ∧ script c₀ steps = some calls ∧
      (observeAll Reference.primitives c₀ (ops calls)).getLast?.map Observed.result =
        some (.added (.ok ())) ∧
      (observeAll Reference.primitives { c₀ with pruneKeepBlocks := some 0 }
          (ops calls)).getLast?.map Observed.result =
        some (.added (.error .invalidStateRoot)) := by
  have hrun : (fromGenesis Reference.primitives genesis).toOption.any (fun c₀ =>
      (script c₀ steps).any fun calls =>
        decide ((observeAll Reference.primitives c₀ (ops calls)).getLast?.map Observed.result =
            some (.added (.ok ())) ∧
          (observeAll Reference.primitives { c₀ with pruneKeepBlocks := some 0 }
              (ops calls)).getLast?.map Observed.result =
            some (.added (.error .invalidStateRoot)))) = true := by
    decide +kernel
  obtain ⟨c₀, hstart, hrest⟩ := Outcome.ok_of_any hrun
  obtain ⟨calls, hscript, hcalls⟩ := (Option.any_eq_true _ _).mp hrest
  rw [decide_eq_true_eq] at hcalls
  exact ⟨c₀, calls, hstart, hscript, hcalls.1, hcalls.2⟩

end Curs3d
