import Curs3d.Chain.Finality
import Curs3d.Chain.Mempool
import Curs3d.Proof.Spine

/-!
# What can be in the pool

Only `add_transaction` puts a transaction into the pool, and it checks the chain id first. Every
other operation keeps the pool or takes from it, and none changes the genesis configuration:
`PoolWithin`. So every pending transaction of a reachable chain carries the chain's own id.
-/

set_option autoImplicit false

namespace Curs3d

open Outcome

namespace Blockchain

variable {P : Primitives} {g : GenesisConfig} {c c' : Blockchain}

/-- `c'` has the configuration of `c` and nothing pending that `c` has not. -/
structure PoolWithin (c c' : Blockchain) : Prop where
  genesisConfig : c'.genesisConfig = c.genesisConfig
  pending : c'.pendingTransactions ⊆ c.pendingTransactions

theorem PoolWithin.refl (c : Blockchain) : PoolWithin c c := ⟨rfl, fun _ h => h⟩

theorem PoolWithin.trans {c'' : Blockchain} (h : PoolWithin c c') (h' : PoolWithin c' c'') :
    PoolWithin c c'' :=
  ⟨h'.genesisConfig.trans h.genesisConfig, fun _ hx => h.pending (h'.pending hx)⟩

/-- Indexing does not touch the pool. -/
theorem poolWithin_of_unindexed (h : c'.unindexed = c.unindexed) : PoolWithin c c' := by
  have hg := congrArg Blockchain.genesisConfig h
  have hp := congrArg Blockchain.pendingTransactions h
  exact ⟨hg, fun _ htx => by rwa [← show c'.pendingTransactions = c.pendingTransactions from hp]⟩

/-! ## Blocks -/

theorem poolWithin_prepareEpoch (height : Nat) : PoolWithin c (c.prepareEpoch P height) := by
  unfold prepareEpoch ensureEpochSnapshot
  split
  · exact ⟨rfl, fun _ h => h⟩
  · exact ⟨rfl, fun _ h => h⟩

theorem poolWithin_commitBlock (block : Block) (s : ExecState) :
    PoolWithin c (c.commitBlock P block s) := by
  unfold commitBlock
  dsimp only
  set committed : Blockchain :=
    { c with
      blockTree := insertIgnoringErrors c.blockTree block (proposerStake P s block)
      accounts := s.accounts
      contracts := s.contracts
      receipts := extendReceipts c.receipts s.receipts
      tokenRegistry := s.tokenRegistry
      governance := s.governance
      blocks := c.blocks ++ [block] } with hcommitted
  have hindexed : PoolWithin committed
      ((committed.indexBlock P block).rebuildReceiptIndexes P) := by
    refine poolWithin_of_unindexed ?_
    rw [rebuildReceiptIndexes_unindexed, indexBlock_unindexed]
  refine ⟨hindexed.genesisConfig, fun tx htx => hindexed.pending ?_⟩
  exact (List.mem_filter.mp htx).1

theorem poolWithin_addBlock (now : Int) (block : Block) :
    PoolWithin c (c.addBlock P now block).2 := by
  rcases addBlock_cases P c now block with ⟨e, h⟩ | ⟨s, -, h⟩
  · rw [h]
    exact poolWithin_prepareEpoch _
  · rw [h]
    exact (poolWithin_prepareEpoch _).trans (poolWithin_commitBlock block s)

theorem poolWithin_withBoundarySnapshot (height : Nat) (accounts : ByteMap AccountState) :
    PoolWithin c (c.withBoundarySnapshot height accounts) := by
  unfold withBoundarySnapshot
  split
  · exact ⟨rfl, fun _ h => h⟩
  · exact PoolWithin.refl c

theorem poolWithin_rebuildBlocks {now : Int} {previous : Block} {blocks : List Block}
    {r : ReplayState} : PoolWithin c (rebuildBlocks P now c previous blocks r).2 := by
  induction blocks generalizing c previous r with
  | nil => exact PoolWithin.refl c
  | cons block rest ih =>
    rw [rebuildBlocks_cons]
    split
    · exact poolWithin_withBoundarySnapshot _ _
    · exact (poolWithin_withBoundarySnapshot _ _).trans ih

theorem poolWithin_rebuildCanonicalState (now : Int) :
    PoolWithin c (c.rebuildCanonicalState P now).2 := by
  unfold rebuildCanonicalState
  split
  · exact PoolWithin.refl c
  next accounts _ =>
  dsimp only
  set started : Blockchain :=
    { c with epochSnapshots := genesisSnapshots (c.snapshotForAccounts 0 accounts) } with hstarted
  have hreindexed : PoolWithin c (started.reindexBlocks P c.iterBlocks) :=
    (⟨rfl, fun _ h => h⟩ : PoolWithin c started).trans
      (poolWithin_of_unindexed (reindexBlocks_unindexed c.iterBlocks))
  split
  · exact hreindexed
  · next first rest _ =>
    have hrebuilt : PoolWithin c (rebuildBlocks P now (started.reindexBlocks P c.iterBlocks) first
        rest (genesisReplay accounts)).2 := hreindexed.trans poolWithin_rebuildBlocks
    split
    · next h => rw [h] at hrebuilt; exact hrebuilt
    · next h =>
      rw [h] at hrebuilt
      refine hrebuilt.trans (PoolWithin.trans ?_
        (poolWithin_of_unindexed rebuildReceiptIndexes_unindexed))
      exact ⟨rfl, fun _ h => h⟩

theorem poolWithin_reorgToCanonicalTip (now : Int) :
    PoolWithin c (c.reorgToCanonicalTip P now).2 := by
  unfold reorgToCanonicalTip
  dsimp only
  split
  · exact PoolWithin.refl c
  · have hreplaced : PoolWithin c (c.replaceAllBlocks c.blockTree.canonicalChain) :=
      ⟨rfl, fun _ h => h⟩
    exact hreplaced.trans (poolWithin_rebuildCanonicalState now)

theorem poolWithin_forkChoice (now : Int) (block : Block) :
    PoolWithin c (c.addBlockWithForkChoice P now block).2 := by
  obtain h | h | ⟨tree, h | h⟩ := forkChoice_leaves P c now block
  · rw [h]
    exact PoolWithin.refl c
  · rw [h]
    exact poolWithin_addBlock now block
  · rw [h]
    exact ⟨rfl, fun _ h => h⟩
  · have hstaged : PoolWithin c { c with blockTree := tree } := ⟨rfl, fun _ h => h⟩
    rw [h]
    exact hstaged.trans (poolWithin_reorgToCanonicalTip now)

/-! ## Votes, evidence, restarts -/

theorem poolWithin_addFinalityVote (vote : FinalityVote) :
    PoolWithin c (c.addFinalityVote P vote).2 := by
  obtain ⟨_, _, _, h⟩ := addFinalityVote_leaves P c vote
  rw [h]
  exact ⟨rfl, fun _ h => h⟩

theorem poolWithin_processEquivocation (evidence : EquivocationEvidence) :
    PoolWithin c (c.processEquivocation P evidence).2 := by
  unfold processEquivocation
  dsimp only
  split
  · exact PoolWithin.refl c
  · split
    · exact PoolWithin.refl c
    · split
      · exact PoolWithin.refl c
      · exact ⟨rfl, fun _ h => h⟩

/-- The stored pool comes back without additions. -/
theorem reloadPending_subset (pending : List Transaction) :
    reloadPending P pending ⊆ pending := by
  intro tx htx
  unfold reloadPending at htx
  rw [List.mem_insertionSort] at htx
  obtain ⟨⟨key, tx'⟩, hmem, rfl⟩ := List.mem_map.mp htx
  rw [Std.ExtTreeMap.mem_toList_iff_getElem?_eq_some] at hmem
  rcases KeyMap.getElem?_foldl_insert_eq_some (fun tx : Transaction => tx.hash P) id hmem with
    ⟨x, hx, -, rfl⟩ | h
  · exact hx
  · exact absurd h (by simp)

theorem poolWithin_restart {now : Int} (h : c.restart P now = .ok c') : PoolWithin c c' := by
  unfold restart at h
  simp only [except_bind_eq_ok] at h
  obtain ⟨accounts, -, _, -, h⟩ := h
  split at h
  · exact absurd h (by simp)
  · next c'' hrebuilt =>
    cases h
    refine PoolWithin.trans ⟨?_, ?_⟩ (hrebuilt ▸ poolWithin_rebuildCanonicalState now)
    · rfl
    · exact reloadPending_subset c.pendingTransactions

/-! ## Admission -/

theorem poolWithin_sort (c : Blockchain) : PoolWithin c c.sortPendingTransactions :=
  ⟨rfl, fun _ h => (List.mem_insertionSort _).mp h⟩

theorem poolWithin_prune (c : Blockchain) (now : Int) :
    PoolWithin c (c.prunePendingTransactions now) := by
  have hsorted : ∀ keep : Transaction → Bool, PoolWithin c { c with
      pendingTransactions := c.pendingTransactions.filter keep }.sortPendingTransactions := by
    intro keep
    have hw := poolWithin_sort
      { c with pendingTransactions := c.pendingTransactions.filter keep }
    exact ⟨hw.genesisConfig, fun tx h => (List.mem_filter.mp (hw.pending h)).1⟩
  exact hsorted _

theorem poolWithin_evict (c : Blockchain) (index : Nat) :
    PoolWithin c (c.evictTransactionAndDependents index) := by
  unfold evictTransactionAndDependents
  split
  · exact PoolWithin.refl c
  · exact ⟨rfl, fun tx h => List.mem_of_mem_eraseIdx (List.mem_filter.mp h).1⟩

/-- Eviction touches nothing but the pool. -/
theorem enforceMempoolLimits_pool {protectedHash : Bytes} {fuel : Nat} :
    ∃ pool, (enforceMempoolLimits P protectedHash fuel c).2 = { c with pendingTransactions := pool } := by
  induction fuel generalizing c with
  | zero => exact ⟨c.pendingTransactions, rfl⟩
  | succ fuel ih =>
    simp only [enforceMempoolLimits]
    split
    · exact ⟨c.pendingTransactions, rfl⟩
    split
    · exact ⟨c.pendingTransactions, rfl⟩
    split
    · exact ⟨c.pendingTransactions, rfl⟩
    · next index _ _ =>
      obtain ⟨pool, hpool⟩ := @ih (c.evictTransactionAndDependents index)
      refine ⟨pool, ?_⟩
      rw [hpool]
      simp only [evictTransactionAndDependents]
      split <;> rfl

/-- And neither does an admission. -/
theorem addTransaction_pool (c : Blockchain) (now : Int) (tx : Transaction) :
    ∃ pool, (c.addTransaction P now tx).2 = { c with pendingTransactions := pool } := by
  simp only [Blockchain.addTransaction]
  split
  · exact ⟨_, rfl⟩
  · obtain ⟨pool, hpool⟩ := @enforceMempoolLimits_pool P
      ((c.prunePendingTransactions now).insertPending tx) (tx.hash P)
      (((c.prunePendingTransactions now).insertPending tx).pendingTransactions.length + 1)
    split
    · next heq =>
      rw [heq] at hpool
      exact ⟨pool, hpool⟩
    · next c' heq =>
      rw [heq] at hpool
      obtain rfl : c' = _ := hpool
      exact ⟨_, rfl⟩

theorem poolWithin_enforceMempoolLimits {protectedHash : Bytes} {fuel : Nat} :
    PoolWithin c (enforceMempoolLimits P protectedHash fuel c).2 := by
  induction fuel generalizing c with
  | zero => exact PoolWithin.refl c
  | succ fuel ih =>
    unfold enforceMempoolLimits
    dsimp only
    split
    · exact PoolWithin.refl c
    · split
      · exact PoolWithin.refl c
      · split
        · exact PoolWithin.refl c
        · exact (poolWithin_evict c _).trans ih

theorem chainId_of_admission {now : Int} {tx : Transaction} (h : c.admission P now tx = .ok ()) :
    tx.chainId = c.genesisConfig.chainId := by
  unfold admission checkAdmission at h
  simp only [except_bind_eq_ok, ensure_eq_ok, decide_eq_true_eq] at h
  obtain ⟨_, ⟨_, -, _, hchain, -⟩, -⟩ := h
  exact hchain

theorem mem_insertPending {tx tx' : Transaction}
    (h : tx' ∈ (c.insertPending tx).pendingTransactions) :
    tx' = tx ∨ tx' ∈ c.pendingTransactions := by
  unfold insertPending at h
  dsimp only at h
  split at h
  · rcases List.mem_append.mp h with h | h
    · exact .inr h
    · exact .inl (List.mem_singleton.mp h)
  · exact (List.mem_or_eq_of_mem_set h).symm

/-! ## Reachable chains -/

/-- Every pending transaction was made for this chain. -/
def PoolOfChain (c : Blockchain) : Prop :=
  ∀ tx ∈ c.pendingTransactions, tx.chainId = c.genesisConfig.chainId

theorem PoolOfChain.within (h : c.PoolOfChain) (hw : PoolWithin c c') : c'.PoolOfChain := by
  intro tx htx
  rw [hw.genesisConfig]
  exact h tx (hw.pending htx)

theorem PoolOfChain.insertPending {tx : Transaction} (h : c.PoolOfChain)
    (hchain : tx.chainId = c.genesisConfig.chainId) : (c.insertPending tx).PoolOfChain := by
  intro tx' htx'
  rcases mem_insertPending htx' with rfl | htx'
  · exact hchain
  · exact h tx' htx'

theorem PoolOfChain.addTransaction (h : c.PoolOfChain) (now : Int) (tx : Transaction) :
    (c.addTransaction P now tx).2.PoolOfChain := by
  have hpruned := h.within (poolWithin_prune c now)
  unfold Blockchain.addTransaction
  dsimp only
  split
  · exact hpruned
  next hadmission =>
  have hlimited := (hpruned.insertPending (chainId_of_admission hadmission)).within
    (@poolWithin_enforceMempoolLimits P _ (tx.hash P)
      (((c.prunePendingTransactions now).insertPending tx).pendingTransactions.length + 1))
  split
  · next heq =>
    rw [heq] at hlimited
    exact hlimited
  · next heq =>
    rw [heq] at hlimited
    exact hlimited.within (poolWithin_sort _)

/-- The chains a node can come to hold: it starts with an empty pool (from its genesis, or from
whatever state it was given) and takes transactions, blocks, votes and evidence in any order,
whether it accepts them or not, and restarts. -/
inductive Reachable (P : Primitives) : Blockchain → Prop where
  | start {c : Blockchain} (h : c.pendingTransactions = []) : Reachable P c
  | addTransaction {c : Blockchain} (now : Int) (tx : Transaction) (h : Reachable P c) :
    Reachable P (c.addTransaction P now tx).2
  | addBlock {c : Blockchain} (now : Int) (block : Block) (h : Reachable P c) :
    Reachable P (c.addBlock P now block).2
  | addBlockWithForkChoice {c : Blockchain} (now : Int) (block : Block) (h : Reachable P c) :
    Reachable P (c.addBlockWithForkChoice P now block).2
  | addFinalityVote {c : Blockchain} (vote : FinalityVote) (h : Reachable P c) :
    Reachable P (c.addFinalityVote P vote).2
  | processEquivocation {c : Blockchain} (evidence : EquivocationEvidence) (h : Reachable P c) :
    Reachable P (c.processEquivocation P evidence).2
  | restart {c c' : Blockchain} (now : Int) (h : Reachable P c) (hok : c.restart P now = .ok c') :
    Reachable P c'

theorem Reachable.fromGenesis (h : Curs3d.fromGenesis P g = .ok c) : Reachable P c := by
  unfold Curs3d.fromGenesis at h
  simp only [except_bind_eq_ok] at h
  obtain ⟨accounts, -, hc⟩ := h
  cases hc
  exact .start rfl

/-- **The pool of a reachable chain holds transactions of that chain only.** -/
theorem Reachable.poolOfChain (h : Reachable P c) : c.PoolOfChain := by
  induction h with
  | start h =>
    intro tx htx
    rw [h] at htx
    exact absurd htx (by simp)
  | addTransaction now tx _ ih => exact ih.addTransaction now tx
  | addBlock now block _ ih => exact ih.within (poolWithin_addBlock now block)
  | addBlockWithForkChoice now block _ ih => exact ih.within (poolWithin_forkChoice now block)
  | addFinalityVote vote _ ih => exact ih.within (poolWithin_addFinalityVote vote)
  | processEquivocation evidence _ ih =>
    exact ih.within (poolWithin_processEquivocation evidence)
  | restart now _ hok ih => exact ih.within (poolWithin_restart hok)

end Blockchain

end Curs3d
