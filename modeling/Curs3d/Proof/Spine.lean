import Curs3d.Chain.Finality
import Curs3d.Proof.Execute

/-!
# The spine of a chain

Fork choice, votes and finality look at six fields of a chain: its blocks (with the genesis and
the pruning base), its tree and its tracker. `Spine` is that view. Everything else a chain does
(executing, settling, indexing, rebuilding) leaves the spine alone, and each operation moves it
in one of the few ways listed here: `addBlock_cases`, `addBlockWithForkChoice_cases` and
`addFinalityVote_cases`. The proofs about voting and finality start from these.
-/

set_option autoImplicit false

namespace Curs3d

open Outcome

/-- What fork choice, voting and finality see of a chain. -/
structure Spine where
  genesis : Block
  blocks : List Block
  baseHeight : Nat
  pruneKeepBlocks : Option Nat
  blockTree : BlockTree
  finalityTracker : FinalityTracker

namespace Blockchain

variable {P : Primitives} {c : Blockchain}

def spine (c : Blockchain) : Spine where
  genesis := c.genesis
  blocks := c.blocks
  baseHeight := c.baseHeight
  pruneKeepBlocks := c.pruneKeepBlocks
  blockTree := c.blockTree
  finalityTracker := c.finalityTracker

/-- The tip is a function of the cursor. -/
theorem latestBlock_eq {c' : Blockchain} (hg : c'.genesis = c.genesis)
    (hb : c'.blocks = c.blocks) (hbase : c'.baseHeight = c.baseHeight) :
    c'.latestBlock = c.latestBlock := by
  obtain ⟨⟩ := c
  obtain ⟨⟩ := c'
  dsimp only at hg hb hbase
  subst hg hb hbase
  rfl

theorem latestBlock_congr {c' : Blockchain} (h : c'.spine = c.spine) :
    c'.latestBlock = c.latestBlock :=
  latestBlock_eq (congrArg Spine.genesis h) (congrArg Spine.blocks h) (congrArg Spine.baseHeight h)

/-- The tip of an unpruned cursor is its last block. -/
theorem latestBlock_of_getLast {b : Block} (hbase : c.baseHeight = 0)
    (hlast : c.blocks.getLast? = some b)
    (hgenesis : c.blocks.length = 1 → c.blocks.head? = some c.genesis) : c.latestBlock = b := by
  obtain ⟨rest, hblocks⟩ := List.getLast?_eq_some_iff.mp hlast
  unfold latestBlock height blockCount blockAtHeight
  rw [hblocks] at hgenesis
  rw [hbase, hblocks]
  cases rest with
  | nil =>
    have hg : b = c.genesis := by simpa using hgenesis rfl
    simp [hg]
  | cons x xs => simp

/-! ## Indexes -/

/-- The chain with its five lookup indexes cleared: what indexing cannot change. -/
def unindexed (c : Blockchain) : Blockchain :=
  { c with
    receiptLocations := ∅, logIndex := [], blockHashToHeight := ∅, txHashIndex := ∅
    evmTxHashIndex := ∅ }

theorem indexBlock_unindexed (block : Block) :
    (c.indexBlock P block).unindexed = c.unindexed := by
  unfold indexBlock
  refine List.foldlRecOn (motive := fun c' : Blockchain => c'.unindexed = c.unindexed) _ _ rfl ?_
  intro c' h e _
  exact h

theorem indexReceipts_unindexed (block : Block) :
    (indexReceipts P block c).unindexed = c.unindexed := by
  unfold indexReceipts
  refine List.foldlRecOn (motive := fun c' : Blockchain => c'.unindexed = c.unindexed) _ _ rfl ?_
  intro c' h e _
  split
  · exact h
  · split
    · exact h
    · exact h

theorem rebuildReceiptIndexes_unindexed : (c.rebuildReceiptIndexes P).unindexed = c.unindexed := by
  have hwalk : (c.iterBlocks.foldl (fun acc block => indexReceipts P block acc)
      { c with receiptLocations := ∅, logIndex := [] }).unindexed = c.unindexed := by
    refine List.foldlRecOn (motive := fun c' : Blockchain => c'.unindexed = c.unindexed) _ _ rfl ?_
    intro c' h block _
    rw [indexReceipts_unindexed, h]
  exact hwalk

theorem reindexBlocks_unindexed (blocks : List Block) :
    (c.reindexBlocks P blocks).unindexed = c.unindexed := by
  unfold reindexBlocks
  refine List.foldlRecOn (motive := fun c' : Blockchain => c'.unindexed = c.unindexed) _ _ rfl ?_
  intro c' h block _
  rw [indexBlock_unindexed, h]

theorem spine_congr {c' : Blockchain} (h : c'.unindexed = c.unindexed) : c'.spine = c.spine := by
  have hs := congrArg spine h
  exact hs

/-! ## Adding a block to the tip -/

theorem prepareEpoch_spine (height : Nat) : (c.prepareEpoch P height).spine = c.spine := by
  unfold prepareEpoch ensureEpochSnapshot
  split <;> rfl

theorem prepareEpoch_genesisConfig (height : Nat) :
    (c.prepareEpoch P height).genesisConfig = c.genesisConfig := by
  unfold prepareEpoch ensureEpochSnapshot
  split <;> rfl

/-- What a commit writes besides the indexes. -/
theorem commitBlock_unindexed (block : Block) (s : ExecState) :
    (c.commitBlock P block s).unindexed =
      ({ c with
        blockTree := insertIgnoringErrors c.blockTree block (proposerStake P s block)
        accounts := s.accounts
        contracts := s.contracts
        receipts := extendReceipts c.receipts s.receipts
        tokenRegistry := s.tokenRegistry
        governance := s.governance
        blocks := c.blocks ++ [block]
        pendingTransactions := (c.commitBlock P block s).pendingTransactions } :
          Blockchain).unindexed := by
  set committed : Blockchain :=
    { c with
      blockTree := insertIgnoringErrors c.blockTree block (proposerStake P s block)
      accounts := s.accounts
      contracts := s.contracts
      receipts := extendReceipts c.receipts s.receipts
      tokenRegistry := s.tokenRegistry
      governance := s.governance
      blocks := c.blocks ++ [block] } with hcommitted
  have hindex : ((committed.indexBlock P block).rebuildReceiptIndexes P).unindexed =
      committed.unindexed := by
    rw [rebuildReceiptIndexes_unindexed, indexBlock_unindexed]
  have hpending := congrArg (fun c' : Blockchain =>
    { c' with pendingTransactions := (c.commitBlock P block s).pendingTransactions }) hindex
  exact hpending

theorem commitBlock_spine (block : Block) (s : ExecState) : (c.commitBlock P block s).spine =
    { c.spine with
      blocks := c.blocks ++ [block]
      blockTree := insertIgnoringErrors c.blockTree block (proposerStake P s block) } := by
  have hfield := congrArg spine (@commitBlock_unindexed P c block s)
  exact hfield

theorem commitBlock_genesisConfig (block : Block) (s : ExecState) :
    (c.commitBlock P block s).genesisConfig = c.genesisConfig := by
  have hfield := congrArg genesisConfig (@commitBlock_unindexed P c block s)
  exact hfield

/-- `add_block` rejects and leaves the prepared chain, or validates and commits. -/
theorem addBlock_cases (P : Primitives) (c : Blockchain) (now : Int) (block : Block) :
    (∃ e, c.addBlock P now block = (.error e, c.prepareEpoch P block.header.height)) ∨
    (∃ s, (c.prepareEpoch P block.header.height).validateBlockAgainstState P now block
          (c.prepareEpoch P block.header.height).latestBlock
          (c.prepareEpoch P block.header.height).execState = .ok s ∧
        c.addBlock P now block =
          (.ok (), (c.prepareEpoch P block.header.height).commitBlock P block s)) := by
  unfold addBlock
  dsimp only
  split
  · next e _ => exact .inl ⟨e, rfl⟩
  · next s hs =>
    split
    · next e _ => exact .inl ⟨e, rfl⟩
    · exact .inr ⟨s, hs, rfl⟩

/-- The link and the integrity of a validated block. -/
structure Follows (P : Primitives) (block parent : Block) : Prop where
  height : block.header.height = parent.header.height + 1
  prevHash : block.header.prevHash = parent.hash
  verifyHash : block.verifyHash P = true

theorem follows_of_validate {now : Int} {block parent : Block} {s s' : ExecState}
    (h : c.validateBlockAgainstState P now block parent s = .ok s') : Follows P block parent := by
  unfold validateBlockAgainstState checkHeader at h
  simp only [except_bind_eq_ok, ensure_eq_ok, decide_eq_true_eq] at h
  obtain ⟨_, ⟨_, hheight, _, hprev, _, hhash, -⟩, -⟩ := h
  exact ⟨hheight, hprev, hhash⟩

/-- The spine after an accepted block. -/
theorem addBlock_ok_spine {now : Int} {block : Block}
    (h : (c.addBlock P now block).1 = .ok ()) :
    Follows P block c.latestBlock ∧ ∃ stake, (c.addBlock P now block).2.spine =
      { c.spine with
        blocks := c.blocks ++ [block]
        blockTree := insertIgnoringErrors c.blockTree block stake } := by
  have hspine := @prepareEpoch_spine P c block.header.height
  rcases addBlock_cases P c now block with ⟨e, he⟩ | ⟨s, hs, hok⟩
  · rw [he] at h
    exact absurd h (by simp)
  · refine ⟨?_, proposerStake P s block, ?_⟩
    · rw [← latestBlock_congr hspine]
      exact follows_of_validate hs
    · rw [hok, commitBlock_spine, hspine]
      have hb : (c.prepareEpoch P block.header.height).blocks = c.blocks :=
        congrArg Spine.blocks hspine
      have ht : (c.prepareEpoch P block.header.height).blockTree = c.blockTree :=
        congrArg Spine.blockTree hspine
      rw [hb, ht]

theorem addBlock_error_spine {now : Int} {block : Block} {e : ChainError}
    (h : (c.addBlock P now block).1 = .error e) :
    (c.addBlock P now block).2.spine = c.spine := by
  rcases addBlock_cases P c now block with ⟨e, he⟩ | ⟨s, -, hok⟩
  · rw [he]
    exact prepareEpoch_spine _
  · rw [hok] at h
    exact absurd h (by simp)

/-! ## Rebuilding and reorganising -/

/-- One block of a rebuild starts from the chain with the boundary snapshot stored. -/
def withBoundarySnapshot (c : Blockchain) (height : Nat) (accounts : ByteMap AccountState) :
    Blockchain :=
  if 0 < height ∧ height % c.genesisConfig.epochLen = 0 ∧
      c.epochForHeight height ∉ c.epochSnapshots then
    c.createEpochSnapshotFromAccounts (c.epochForHeight height) accounts
  else c

theorem rebuildBlocks_cons {now : Int} {previous block : Block} {rest : List Block}
    {r : ReplayState} :
    rebuildBlocks P now c previous (block :: rest) r =
      match (c.withBoundarySnapshot block.header.height r.state.accounts).replayBlock P now previous
        block r with
      | .error e => (.error e, c.withBoundarySnapshot block.header.height r.state.accounts)
      | .ok r' => rebuildBlocks P now (c.withBoundarySnapshot block.header.height r.state.accounts)
          block rest r' := rfl

theorem withBoundarySnapshot_spine (height : Nat) (accounts : ByteMap AccountState) :
    (c.withBoundarySnapshot height accounts).spine = c.spine := by
  unfold withBoundarySnapshot
  split <;> rfl

theorem rebuildBlocks_spine {now : Int} {previous : Block} {blocks : List Block}
    {r : ReplayState} : (rebuildBlocks P now c previous blocks r).2.spine = c.spine := by
  induction blocks generalizing c previous r with
  | nil => rfl
  | cons block rest ih =>
    rw [rebuildBlocks_cons]
    split
    · exact withBoundarySnapshot_spine _ _
    · rw [ih]
      exact withBoundarySnapshot_spine _ _

theorem rebuildCanonicalState_spine {now : Int} :
    (c.rebuildCanonicalState P now).2.spine = c.spine := by
  unfold rebuildCanonicalState
  split
  · rfl
  next accounts _ =>
  dsimp only
  set started : Blockchain :=
    { c with epochSnapshots := genesisSnapshots (c.snapshotForAccounts 0 accounts) } with hstarted
  have hreindexed : (started.reindexBlocks P c.iterBlocks).spine = started.spine :=
    spine_congr (reindexBlocks_unindexed c.iterBlocks)
  split
  · exact hreindexed
  · next first rest _ =>
    have hrebuilt := @rebuildBlocks_spine P (started.reindexBlocks P c.iterBlocks) now first rest
      (genesisReplay accounts)
    rw [hreindexed] at hrebuilt
    split
    · next h => rw [h] at hrebuilt; exact hrebuilt
    · next h =>
      rw [h] at hrebuilt
      rw [spine_congr rebuildReceiptIndexes_unindexed]
      exact hrebuilt

/-- A reorganisation is refused and changes nothing, or replaces the blocks. -/
theorem reorgToCanonicalTip_spine {now : Int} :
    ((c.reorgToCanonicalTip P now).2 = c ∧ c.checkReorg c.blockTree.canonicalChain ≠ .ok ()) ∨
    (c.checkReorg c.blockTree.canonicalChain = .ok () ∧ (c.reorgToCanonicalTip P now).2.spine =
      { c.spine with
        blocks := c.blockTree.canonicalChain
        genesis := c.blockTree.canonicalChain.head?.getD c.genesis }) := by
  unfold reorgToCanonicalTip
  dsimp only
  split
  · next h => exact .inl ⟨rfl, by rw [h]; simp⟩
  · next h => exact .inr ⟨h, by rw [rebuildCanonicalState_spine]; rfl⟩

/-- A staged block was validated on its parent and inserted. -/
theorem insert_of_stage {now : Int} {block : Block} {tree : BlockTree} {switched : Bool}
    (h : c.stageForkBlock P now block = .ok (tree, switched)) :
    ∃ stake, c.blockTree.insert block stake = .ok (tree, switched) := by
  unfold stageForkBlock at h
  split at h
  · exact absurd h (by simp)
  · simp only [except_bind_eq_ok] at h
    obtain ⟨_, -, s, -, h⟩ := h
    split at h
    · exact absurd h (by simp)
    · next staged hinsert =>
      cases h
      exact ⟨proposerStake P s block, hinsert⟩

/-- Everything the fork path can do to the spine once the block is not a child of the tip. -/
theorem addBlockWithForkChoice_cases (P : Primitives) (c : Blockchain) (now : Int)
    (block : Block) :
    (c.addBlockWithForkChoice P now block).2.spine = c.spine ∨
    (block.header.prevHash = c.latestBlock.hash ∧ (c.addBlock P now block).1 = .ok () ∧
      (c.addBlockWithForkChoice P now block).2 = (c.addBlock P now block).2) ∨
    (∃ tree switched, c.tooOld block = false ∧ block.header.prevHash ≠ c.latestBlock.hash ∧
      c.stageForkBlock P now block = .ok (tree, switched) ∧
      ((c.addBlockWithForkChoice P now block).2.spine = { c.spine with blockTree := tree } ∨
        (switched = true ∧
          { c with blockTree := tree }.checkReorg tree.canonicalChain = .ok () ∧
          (c.addBlockWithForkChoice P now block).2.spine =
            { c.spine with
              blockTree := tree
              blocks := tree.canonicalChain
              genesis := tree.canonicalChain.head?.getD c.genesis }))) := by
  unfold addBlockWithForkChoice
  split
  · exact .inl rfl
  next hold =>
  split
  · next hprev =>
    split
    -- A refused child may have left a snapshot behind, which is not on the spine.
    · next e c' h =>
      left
      have herr : (c.addBlock P now block).1 = .error e := by rw [h]
      have hspine := addBlock_error_spine herr
      rw [h] at hspine
      exact hspine
    · next c' h => exact .inr (.inl ⟨hprev, by rw [h], by rw [h]⟩)
  next hprev =>
  split
  · exact .inl rfl
  · next tree h =>
    exact .inr (.inr ⟨tree, false, by simpa using hold, hprev, h, .inl rfl⟩)
  · next tree h =>
    refine .inr (.inr ⟨tree, true, by simpa using hold, hprev, h, ?_⟩)
    have hreorg := @reorgToCanonicalTip_spine P { c with blockTree := tree } now
    split
    · next h' =>
      rw [h'] at hreorg
      rcases hreorg with ⟨hsame, -⟩ | ⟨hcheck, hspine⟩
      · exact .inl (by rw [hsame]; rfl)
      · exact .inr ⟨rfl, hcheck, hspine⟩
    · next h' =>
      rw [h'] at hreorg
      rcases hreorg with ⟨hsame, -⟩ | ⟨hcheck, hspine⟩
      · exact .inl (by rw [hsame]; rfl)
      · exact .inr ⟨rfl, hcheck, hspine⟩

/-- The chain the fork path leaves, whether or not it succeeds. -/
theorem forkChoice_leaves (P : Primitives) (c : Blockchain) (now : Int) (block : Block) :
    (c.addBlockWithForkChoice P now block).2 = c ∨
      (c.addBlockWithForkChoice P now block).2 = (c.addBlock P now block).2 ∨
      ∃ tree, (c.addBlockWithForkChoice P now block).2 = { c with blockTree := tree } ∨
        (c.addBlockWithForkChoice P now block).2 =
          ({ c with blockTree := tree }.reorgToCanonicalTip P now).2 := by
  unfold addBlockWithForkChoice
  split
  · exact .inl rfl
  split
  · split
    · next h => exact .inr (.inl (by rw [h]))
    · next h => exact .inr (.inl (by rw [h]))
  split
  · exact .inl rfl
  · next tree _ => exact .inr (.inr ⟨tree, .inl rfl⟩)
  · next tree _ =>
    refine .inr (.inr ⟨tree, .inr ?_⟩)
    split
    · next h => rw [h]
    · next h => rw [h]

/-! ## Votes -/

theorem maybePruneFinalized_of_none (h : c.pruneKeepBlocks = none) (finalizedHeight : Nat) :
    c.maybePruneFinalized finalizedHeight = c := by
  unfold maybePruneFinalized
  split
  · rfl
  · next keep hk => exact absurd (h.symm.trans hk) (by simp)

/-- A vote is ignored, counted, or completes a quorum and moves tracker and tree together. -/
theorem addFinalityVote_cases (P : Primitives) (c : Blockchain) (vote : FinalityVote) :
    c.addFinalityVote P vote = (none, c) ∨
    (∃ snapshot, c.votableSnapshot vote = some snapshot ∧
      ((∃ tracker, c.finalityTracker.addVote P vote snapshot = (tracker, none) ∧
          c.addFinalityVote P vote = (none, { c with finalityTracker := tracker })) ∨
        (∃ tracker finalized,
          c.finalityTracker.addVote P vote snapshot = (tracker, some finalized) ∧
          c.addFinalityVote P vote = (some finalized,
            { c with
              finalityTracker := tracker
              blockTree := c.blockTree.setFinalized finalized.hash finalized.height
            }.maybePruneFinalized finalized.height)))) := by
  unfold addFinalityVote
  split
  · exact .inl rfl
  · next snapshot hs =>
    refine .inr ⟨snapshot, hs, ?_⟩
    split
    · next tracker h => exact .inl ⟨tracker, h, rfl⟩
    · next tracker finalized h => exact .inr ⟨tracker, finalized, h, rfl⟩

theorem maybePruneFinalized_leaves (c : Blockchain) (finalizedHeight : Nat) :
    ∃ base, c.maybePruneFinalized finalizedHeight = { c with baseHeight := base } := by
  unfold maybePruneFinalized
  split
  · exact ⟨c.baseHeight, rfl⟩
  · split
    · exact ⟨c.baseHeight, rfl⟩
    · exact ⟨_, rfl⟩

/-- A vote writes finality, the tree and the watermark. -/
theorem addFinalityVote_leaves (P : Primitives) (c : Blockchain) (vote : FinalityVote) :
    ∃ tracker tree base, (c.addFinalityVote P vote).2 =
      { c with finalityTracker := tracker, blockTree := tree, baseHeight := base } := by
  rcases addFinalityVote_cases P c vote with h | ⟨_, -, ⟨tracker, -, h⟩ | ⟨tracker, finalized, -, h⟩⟩
  · exact ⟨c.finalityTracker, c.blockTree, c.baseHeight, by rw [h]⟩
  · exact ⟨tracker, c.blockTree, c.baseHeight, by rw [h]⟩
  · obtain ⟨base, hpruned⟩ := maybePruneFinalized_leaves { c with
      finalityTracker := tracker
      blockTree := c.blockTree.setFinalized finalized.hash finalized.height } finalized.height
    exact ⟨tracker, c.blockTree.setFinalized finalized.hash finalized.height, base, by rw [h]; exact hpruned⟩

/-- A chain that keeps its blocks keeps the watermark too. -/
theorem addFinalityVote_of_none (h : c.pruneKeepBlocks = none) (vote : FinalityVote) :
    ∃ tracker tree, (c.addFinalityVote P vote).2 =
      { c with finalityTracker := tracker, blockTree := tree } := by
  rcases addFinalityVote_cases P c vote with hv | ⟨_, -, ⟨tracker, -, hv⟩ | ⟨tracker, finalized, -, hv⟩⟩
  · exact ⟨c.finalityTracker, c.blockTree, by rw [hv]⟩
  · exact ⟨tracker, c.blockTree, by rw [hv]⟩
  · refine ⟨tracker, c.blockTree.setFinalized finalized.hash finalized.height, ?_⟩
    rw [hv]
    exact @maybePruneFinalized_of_none { c with
      finalityTracker := tracker
      blockTree := c.blockTree.setFinalized finalized.hash finalized.height } h finalized.height

theorem maybePruneFinalized_spine (finalizedHeight : Nat) :
    (c.maybePruneFinalized finalizedHeight).spine =
      { c.spine with baseHeight := (c.maybePruneFinalized finalizedHeight).baseHeight } := by
  obtain ⟨base, h⟩ := maybePruneFinalized_leaves c finalizedHeight
  rw [h]
  rfl

/-- The same, on the spine. -/
theorem addFinalityVote_spine_cases (P : Primitives) (c : Blockchain) (vote : FinalityVote) :
    ((c.addFinalityVote P vote).1 = none ∧ (c.addFinalityVote P vote).2.spine = c.spine) ∨
    (∃ snapshot, c.votableSnapshot vote = some snapshot ∧
      ((∃ tracker, c.finalityTracker.addVote P vote snapshot = (tracker, none) ∧
          (c.addFinalityVote P vote).1 = none ∧
          (c.addFinalityVote P vote).2.spine = { c.spine with finalityTracker := tracker }) ∨
        (∃ tracker finalized base,
          c.finalityTracker.addVote P vote snapshot = (tracker, some finalized) ∧
          (c.addFinalityVote P vote).1 = some finalized ∧
          (c.addFinalityVote P vote).2.spine =
            { c.spine with
              baseHeight := base
              finalityTracker := tracker
              blockTree := c.blockTree.setFinalized finalized.hash finalized.height }))) := by
  rcases addFinalityVote_cases P c vote with h | ⟨snapshot, hsnap, ⟨tracker, hvote, h⟩ |
    ⟨tracker, finalized, hvote, h⟩⟩
  · exact .inl ⟨by rw [h], by rw [h]⟩
  · exact .inr ⟨snapshot, hsnap, .inl ⟨tracker, hvote, by rw [h], by rw [h]; rfl⟩⟩
  · refine .inr ⟨snapshot, hsnap, .inr ⟨tracker, finalized,
      (c.addFinalityVote P vote).2.baseHeight, hvote, by rw [h], ?_⟩⟩
    rw [h]
    exact maybePruneFinalized_spine finalized.height

theorem processEquivocation_spine (evidence : EquivocationEvidence) :
    (c.processEquivocation P evidence).2.spine = c.spine := by
  unfold processEquivocation
  dsimp only
  split
  · rfl
  · split
    · rfl
    · split <;> rfl

end Blockchain

end Curs3d
