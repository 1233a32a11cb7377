import Curs3d.Proof.Caps
import Curs3d.Proof.Inflation

/-!
# One pending transaction a slot

A sender and a nonce are a slot, and the pool of a node has one transaction for each at most: a second one goes
in only where it replaces the first. Nothing but an admission adds to the pool, so this and what the admission has
checked of a transaction alone (its chain, size, shape and signature) hold in every state that a node comes
to, through blocks, reorganisations, votes, evidence and restarts (`pool_slots`).
-/

set_option autoImplicit false

namespace Curs3d

open Outcome

/-- Who sends, and which of its transactions it is. -/
def Transaction.slot (tx : Transaction) : Bytes × Nat := (tx.from, tx.nonce)

namespace Blockchain

variable {P : Primitives} {c c' : Blockchain} {tx : Transaction} {now : Int}

/-- What an admission checks of the transaction alone. -/
structure Admissible (P : Primitives) (c : Blockchain) (tx : Transaction) : Prop where
  notCoinbase : tx.isCoinbase = false
  chainId : tx.chainId = c.genesisConfig.chainId
  gas : tx.estimatedGasForAdmission ≤ c.genesisConfig.blockGasLimit
  code : tx.kind = .deployContract → tx.to.length ≤ MAX_CONTRACT_CODE_BYTES
  shape : validateTransactionShape tx = .ok ()
  authentic : authenticate P tx = .ok ()

/-- The pool in order: no two transactions in one slot, no two of one hash, all admissible. -/
structure Slotted (P : Primitives) (c : Blockchain) : Prop where
  slots : (c.pendingTransactions.map Transaction.slot).Nodup
  hashes : (c.pendingTransactions.map fun tx => tx.hash P).Nodup
  admissible : ∀ tx ∈ c.pendingTransactions, c.Admissible P tx

theorem slotted_of_empty (h : c.pendingTransactions = []) : c.Slotted P := by
  constructor
  · rw [h]
    exact List.nodup_nil
  · rw [h]
    exact List.nodup_nil
  · intro tx htx
    rw [h] at htx
    exact absurd htx (by simp)

theorem Admissible.of_config (h : c.Admissible P tx) (hconfig : c'.genesisConfig = c.genesisConfig) :
    c'.Admissible P tx :=
  ⟨h.notCoinbase, hconfig ▸ h.chainId, hconfig ▸ h.gas, h.code, h.shape, h.authentic⟩

theorem nodup_map_of_subperm {β : Type} {txs txs' : List Transaction} (f : Transaction → β)
    (hsub : txs.Subperm txs') (h : (txs'.map f).Nodup) : (txs.map f).Nodup := by
  obtain ⟨kept, hperm, hsublist⟩ := hsub
  exact (hperm.map f).nodup_iff.mp (h.sublist (hsublist.map f))

/-- What takes from the pool, or sorts it, keeps it in order. -/
theorem Slotted.subperm (h : c.Slotted P) (hconfig : c'.genesisConfig = c.genesisConfig)
    (hsub : c'.pendingTransactions.Subperm c.pendingTransactions) : c'.Slotted P where
  slots := nodup_map_of_subperm _ hsub h.slots
  hashes := nodup_map_of_subperm _ hsub h.hashes
  admissible tx htx := (h.admissible tx (hsub.subset htx)).of_config hconfig

/-! ## Blocks -/

theorem prepareEpoch_pool (height : Nat) : (c.prepareEpoch P height).pendingTransactions =
    c.pendingTransactions := by
  unfold prepareEpoch ensureEpochSnapshot
  split
  · rfl
  · rfl

theorem pool_of_unindexed (h : c'.unindexed = c.unindexed) :
    c'.pendingTransactions = c.pendingTransactions := by
  have hfield := congrArg Blockchain.pendingTransactions h
  exact hfield

theorem commitBlock_sublist (block : Block) (s : ExecState) :
    (c.commitBlock P block s).pendingTransactions.Sublist c.pendingTransactions := by
  unfold commitBlock
  dsimp only
  generalize hcommitted : ({ c with
      blockTree := insertIgnoringErrors c.blockTree block (proposerStake P s block)
      accounts := s.accounts
      contracts := s.contracts
      receipts := extendReceipts c.receipts s.receipts
      tokenRegistry := s.tokenRegistry
      governance := s.governance
      blocks := c.blocks ++ [block] } : Blockchain) = committed
  have hpool : ((committed.indexBlock P block).rebuildReceiptIndexes P).pendingTransactions =
      c.pendingTransactions := by
    rw [pool_of_unindexed rebuildReceiptIndexes_unindexed, pool_of_unindexed (indexBlock_unindexed block),
      ← hcommitted]
  refine List.filter_sublist.trans ?_
  rw [hpool]

theorem addBlock_sublist (now : Int) (block : Block) :
    (c.addBlock P now block).2.pendingTransactions.Sublist c.pendingTransactions := by
  rcases addBlock_cases P c now block with ⟨e, h⟩ | ⟨s, -, h⟩
  · rw [h, prepareEpoch_pool]
  · rw [h]
    exact (commitBlock_sublist block s).trans (by rw [prepareEpoch_pool])

theorem rebuildBlocks_pool {previous : Block} {blocks : List Block} {r : ReplayState} :
    (rebuildBlocks P now c previous blocks r).2.pendingTransactions = c.pendingTransactions := by
  induction blocks generalizing c previous r with
  | nil => rfl
  | cons block rest ih =>
    have hboundary (height : Nat) (accounts : ByteMap AccountState) :
        (c.withBoundarySnapshot height accounts).pendingTransactions = c.pendingTransactions := by
      unfold withBoundarySnapshot
      split <;> rfl
    rw [rebuildBlocks_cons]
    split
    · exact hboundary _ _
    · rw [ih, hboundary]

theorem rebuildCanonicalState_pool (now : Int) :
    (c.rebuildCanonicalState P now).2.pendingTransactions = c.pendingTransactions := by
  unfold rebuildCanonicalState
  split
  · rfl
  next accounts _ =>
  dsimp only
  have hreindexed := pool_of_unindexed (@reindexBlocks_unindexed P
    { c with epochSnapshots := genesisSnapshots (c.snapshotForAccounts 0 accounts) } c.iterBlocks)
  split
  · exact hreindexed
  · next first rest _ =>
    split
    · next h =>
      have hrebuilt := congrArg (fun x => x.2.pendingTransactions) h
      exact hrebuilt.symm.trans (rebuildBlocks_pool.trans hreindexed)
    · next h =>
      have hrebuilt := congrArg (fun x => x.2.pendingTransactions) h
      rw [pool_of_unindexed rebuildReceiptIndexes_unindexed]
      exact hrebuilt.symm.trans (rebuildBlocks_pool.trans hreindexed)

theorem forkChoice_sublist (now : Int) (block : Block) :
    (c.addBlockWithForkChoice P now block).2.pendingTransactions.Sublist c.pendingTransactions := by
  obtain h | h | ⟨tree, h | h⟩ := forkChoice_leaves P c now block
  · rw [h]
  · rw [h]
    exact addBlock_sublist now block
  · rw [h]
  · rw [h]
    unfold reorgToCanonicalTip
    dsimp only
    split
    · exact List.Sublist.refl _
    · rw [rebuildCanonicalState_pool]
      exact List.Sublist.refl _

/-! ## Votes, evidence, restarts -/

theorem addFinalityVote_pool (vote : FinalityVote) :
    (c.addFinalityVote P vote).2.pendingTransactions = c.pendingTransactions := by
  obtain ⟨_, _, _, h⟩ := addFinalityVote_leaves P c vote
  rw [h]

theorem processEquivocation_pool (evidence : EquivocationEvidence) :
    (c.processEquivocation P evidence).2.pendingTransactions = c.pendingTransactions := by
  unfold processEquivocation
  dsimp only
  split
  · rfl
  · split
    · rfl
    · split <;> rfl

/-- The stored pool has one entry a hash. -/
theorem nodup_reloadPending (pending : List Transaction) : (reloadPending P pending).Nodup := by
  unfold reloadPending
  dsimp only
  generalize htable : pending.foldl (fun (m : ByteMap Transaction) tx => m.insert (tx.hash P) tx) ∅ = table
  rw [(List.perm_insertionSort _ _).nodup_iff]
  refine List.Nodup.of_map (fun tx : Transaction => tx.hash P) ?_
  have hkeys : (table.toList.map Prod.snd).map (fun tx : Transaction => tx.hash P) =
      table.toList.map Prod.fst := by
    rw [List.map_map]
    refine List.map_congr_left ?_
    rintro ⟨key, tx⟩ hmem
    rw [Std.ExtTreeMap.mem_toList_iff_getElem?_eq_some, ← htable] at hmem
    rcases KeyMap.getElem?_foldl_insert_eq_some (fun tx : Transaction => tx.hash P) id hmem with
      ⟨tx', -, hkey, htx⟩ | hnone
    · rw [← hkey, ← htx]
      rfl
    · exact absurd hnone (by simp)
  rw [hkeys]
  exact KeyMap.nodup_keys_toList table

theorem restart_subperm (h : c.restart P now = .ok c') :
    c'.pendingTransactions.Subperm c.pendingTransactions := by
  unfold restart at h
  simp only [except_bind_eq_ok] at h
  obtain ⟨accounts, -, _, -, h⟩ := h
  split at h
  · exact absurd h (by simp)
  · next c'' hrebuilt =>
    cases h
    have hpool := congrArg (fun x => x.2.pendingTransactions) hrebuilt
    dsimp only at hpool
    rw [← hpool, rebuildCanonicalState_pool]
    exact (nodup_reloadPending _).subperm (reloadPending_subset c.pendingTransactions)

/-! ## Admission -/

theorem admissible_of_admission (h : c.admission P now tx = .ok ()) : c.Admissible P tx := by
  obtain ⟨-, happlies⟩ := admission_ok h
  obtain ⟨others, htried, -⟩ := tried_eq c tx
  rw [htried, Applies, applyPending_append, Option.isSome_iff_exists] at happlies
  obtain ⟨s, happlies⟩ := happlies
  obtain ⟨s', -, hlast⟩ := Option.bind_eq_some_iff.mp happlies
  simp only [applyPending] at hlast
  split at hlast
  · next gas s'' hok =>
    obtain ⟨hshape, hauthentic, -⟩ := apply_eq_ok.mp hok
    simp only [admission, checkAdmission, except_bind_eq_ok, ensure_eq_ok, decide_eq_true_eq,
      Bool.not_eq_true', decide_eq_false_iff_not, not_and, Nat.not_lt] at h
    obtain ⟨-, ⟨-, hcoinbase, -, hchain, -, -, -, hgas, -, hcode, -⟩, -⟩ := h
    exact ⟨hcoinbase, hchain, hgas, hcode, hshape, hauthentic⟩
  · exact absurd hlast (by simp)

/-- The slot of what is tried is free: nothing has it, or what has it is left out. -/
theorem nodup_slots_tried (h : (c.pendingTransactions.map Transaction.slot).Nodup) :
    ((c.tried tx).map Transaction.slot).Nodup := by
  have hjoin (others : List Transaction) (hnodup : (others.map Transaction.slot).Nodup)
      (hfree : tx.slot ∉ others.map Transaction.slot) :
      ((others ++ [tx]).map Transaction.slot).Nodup := by
    rw [List.map_append, List.map_singleton]
    exact (List.nodup_append_comm.mp (List.nodup_cons.mpr ⟨hfree, hnodup⟩ : ([tx.slot] ++ _).Nodup))
  cases hindex : c.replacementIndex tx with
  | none =>
    rw [tried_of_none hindex]
    refine hjoin _ h ?_
    intro hmem
    obtain ⟨p, hp, hslot⟩ := List.mem_map.mp hmem
    have hother := List.findIdx?_eq_none_iff.mp hindex p hp
    rw [Transaction.slot, Transaction.slot, Prod.mk.injEq] at hslot
    exact absurd hother (by simp [hslot])
  | some index =>
    rw [tried_of_some hindex]
    obtain ⟨hlt, hfound, -⟩ := List.findIdx?_eq_some_iff_getElem.mp hindex
    have hperm := ((List.getElem_cons_eraseIdx_perm hlt).map Transaction.slot).nodup_iff.mpr h
    rw [List.map_cons, List.nodup_cons] at hperm
    have hslot : c.pendingTransactions[index].slot = tx.slot :=
      Prod.ext (of_decide_eq_true hfound).1 (of_decide_eq_true hfound).2
    rw [hslot] at hperm
    exact hjoin _ hperm.2 hperm.1

/-- **An admission keeps the pool in order.** -/
theorem Slotted.insertPending (h : c.Slotted P) (hadmission : c.admission P now tx = .ok ()) :
    (c.insertPending tx).Slotted P := by
  have hperm : (c.insertPending tx).pendingTransactions.Perm (c.tried tx) := insertPending_perm
  have hconfig : (c.insertPending tx).genesisConfig = c.genesisConfig := rfl
  refine ⟨?_, ?_, ?_⟩
  · exact (hperm.map Transaction.slot).nodup_iff.mpr (nodup_slots_tried h.slots)
  · exact (hperm.map fun tx : Transaction => tx.hash P).nodup_iff.mpr (admission_ok hadmission).1
  · intro tx' htx'
    rcases mem_insertPending htx' with rfl | htx'
    · exact (admissible_of_admission hadmission).of_config hconfig
    · exact (h.admissible tx' htx').of_config hconfig

theorem enforceMempoolLimits_sublist {protectedHash : Bytes} {fuel : Nat} :
    (enforceMempoolLimits P protectedHash fuel c).2.pendingTransactions.Sublist c.pendingTransactions := by
  induction fuel generalizing c with
  | zero => exact List.Sublist.refl _
  | succ fuel ih =>
    unfold enforceMempoolLimits
    dsimp only
    split
    · exact List.Sublist.refl _
    · split
      · exact List.Sublist.refl _
      · split
        · exact List.Sublist.refl _
        · exact ih.trans (evict_sublist _)

theorem Slotted.addTransaction (h : c.Slotted P) (now : Int) (tx : Transaction) :
    (c.addTransaction P now tx).2.Slotted P := by
  have hpruned := h.subperm (poolWithin_prune c now).genesisConfig (prune_subperm c now)
  unfold Blockchain.addTransaction
  dsimp only
  split
  · exact hpruned
  next hadmission =>
  have hlimited := (hpruned.insertPending hadmission).subperm
    (@poolWithin_enforceMempoolLimits P _ (tx.hash P)
      (((c.prunePendingTransactions now).insertPending tx).pendingTransactions.length + 1)).genesisConfig
    enforceMempoolLimits_sublist.subperm
  split
  · next heq =>
    rw [heq] at hlimited
    exact hlimited
  · next heq =>
    rw [heq] at hlimited
    exact hlimited.subperm rfl (sort_subperm _)

/-! ## Reachable chains -/

/-- **One pending transaction a slot.** In every state a node comes to: the pool has at most one transaction for each
sender and nonce, and one for each hash, and each of them is signed, well formed, no coinbase, within the block gas
and of this chain. -/
theorem pool_slots (h : Reachable P c) :
    (c.pendingTransactions.map Transaction.slot).Nodup ∧
      (c.pendingTransactions.map fun tx => tx.hash P).Nodup ∧
      ∀ tx ∈ c.pendingTransactions, c.Admissible P tx := by
  suffices hslotted : c.Slotted P from ⟨hslotted.slots, hslotted.hashes, hslotted.admissible⟩
  induction h with
  | start h => exact slotted_of_empty h
  | addTransaction now tx _ ih => exact ih.addTransaction now tx
  | addBlock now block _ ih =>
    exact ih.subperm (poolWithin_addBlock now block).genesisConfig (addBlock_sublist now block).subperm
  | addBlockWithForkChoice now block _ ih =>
    exact ih.subperm (poolWithin_forkChoice now block).genesisConfig (forkChoice_sublist now block).subperm
  | @addFinalityVote c vote _ ih =>
    exact ih.subperm (poolWithin_addFinalityVote vote).genesisConfig (by rw [addFinalityVote_pool])
  | @processEquivocation c evidence _ ih =>
    exact ih.subperm (poolWithin_processEquivocation evidence).genesisConfig (by rw [processEquivocation_pool])
  | restart now _ hok ih => exact ih.subperm (poolWithin_restart hok).genesisConfig (restart_subperm hok)

end Blockchain

open InflationSample Scenario Blockchain in
/-- A payment, and one with its nonce that pays more: it takes the place of the first. -/
theorem pool_slots_sample : ∃ c₀ c, fromGenesis Reference.primitives genesis = .ok c₀ ∧
    c = PoolSample.pooled c₀ [payment, Transaction.sign Reference.primitives
      { PoolSample.payment 1 2 with fee := 8 } (key 1)] ∧
    c.pendingTransactions.map Transaction.fee = [8] ∧ (c.pendingTransactions.map Transaction.slot).Nodup := by
  have hrun : (fromGenesis Reference.primitives genesis).toOption.any (fun c₀ =>
      decide ((PoolSample.pooled c₀ [payment, Transaction.sign Reference.primitives
        { PoolSample.payment 1 2 with fee := 8 } (key 1)]).pendingTransactions.map Transaction.fee = [8])) =
      true := by
    decide +kernel
  obtain ⟨c₀, hstart, hfees⟩ := Outcome.ok_of_any hrun
  rw [decide_eq_true_eq] at hfees
  exact ⟨c₀, _, hstart, rfl, hfees,
    (pool_slots (PoolSample.reachable_pooled (.fromGenesis hstart) _)).1⟩

end Curs3d
