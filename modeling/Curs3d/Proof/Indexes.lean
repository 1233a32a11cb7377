import Curs3d.Lib.Index
import Curs3d.Proof.Convergence
import Curs3d.Proof.RoundTrip

/-!
# Lookup indexes

A chain answers queries from four indexes. Every path that changes the canonical chain rebuilds the
two over receipts from that chain. The other two, from hashes to heights and from transactions to
positions, are kept by hand: `add_block` files its block, a reorganisation starts over from the
new chain, a snapshot files nothing, and nobody files the genesis before the first reorganisation.

`Filing` records, beside the chain, the blocks these two were filed from. They mirror the canonical
chain exactly when those blocks say the same as the canonical ones (`indexes_mirror_iff`): always
between a reorganisation and the next snapshot, and never before the first reorganisation.
-/

set_option autoImplicit false

namespace Curs3d

/-! ## Where transactions stand -/

/-- A transaction of a block, and its position there. -/
structure Placement where
  block : Block
  tx : Transaction
  index : Nat

namespace Placement

variable (P : Primitives) (receipts : ByteMap Receipt) (p : Placement)

def hash : Bytes := p.tx.hash P

def location : Nat × Nat := (p.block.header.height, p.index)

def receiptLocation : ReceiptLocation where
  blockHeight := p.block.header.height
  txIndex := p.index

/-- Not a coinbase, and with a receipt. -/
def hasReceipt : Bool := !p.tx.isCoinbase && (receipts[p.hash P]?).isSome

/-- The logs of the transaction's receipt, with their positions. -/
def logs : List IndexedLogEntry :=
  if p.tx.isCoinbase then []
  else match receipts[p.hash P]? with
    | none => []
    | some receipt => Blockchain.logsOf p.block p.index (p.hash P) receipt

end Placement

def Block.placements (b : Block) : List Placement :=
  b.transactions.zipIdx.map fun e => { block := b, tx := e.1, index := e.2 }

/-- The transactions of some blocks in (block, position) order. -/
def placements (blocks : List Block) : List Placement := blocks.flatMap Block.placements

def heightOfBlock (b : Block) : Nat := b.header.height

namespace Blockchain

variable {P : Primitives} {c : Blockchain} {now : Int} {block : Block}

/-- The four indexes say of the canonical blocks what there is to say, and nothing else. -/
structure MirrorsCanonical (P : Primitives) (c : Blockchain) : Prop where
  hashes : Index.Mirrors Block.hash heightOfBlock c.blockHashToHeight c.iterBlocks
  transactions : Index.Mirrors (Placement.hash P) Placement.location c.txHashIndex
    (placements c.iterBlocks)
  receipts : Index.Mirrors (Placement.hash P) Placement.receiptLocation c.receiptLocations
    ((placements c.iterBlocks).filter (Placement.hasReceipt P c.receipts))
  logs : c.logIndex = (placements c.iterBlocks).flatMap (Placement.logs P c.receipts)

/-! ## What the code files -/

/-- The hash and transaction indexes were filed from `blocks`. -/
structure FiledFrom (P : Primitives) (c : Blockchain) (blocks : List Block) : Prop where
  hashes : c.blockHashToHeight = Index.file Block.hash heightOfBlock ∅ blocks
  transactions : c.txHashIndex =
    Index.file (Placement.hash P) Placement.location ∅ (placements blocks)

/-- The receipt indexes are those of `blocks`. -/
structure ReceiptsFrom (P : Primitives) (c : Blockchain) (blocks : List Block) : Prop where
  locations : c.receiptLocations = Index.file (Placement.hash P) Placement.receiptLocation ∅
    ((placements blocks).filter (Placement.hasReceipt P c.receipts))
  logs : c.logIndex = (placements blocks).flatMap (Placement.logs P c.receipts)

theorem indexBlock_eq (block : Block) :
    (c.indexBlock P block).blockHashToHeight =
        c.blockHashToHeight.insert block.hash block.header.height ∧
      (c.indexBlock P block).txHashIndex =
        Index.file (Placement.hash P) Placement.location c.txHashIndex block.placements := by
  simp only [indexBlock, Block.placements]
  generalize hstart : { c with
    blockHashToHeight := c.blockHashToHeight.insert block.hash block.header.height } = d
  have hhash : d.blockHashToHeight = c.blockHashToHeight.insert block.hash block.header.height := by
    rw [← hstart]
  have htx : d.txHashIndex = c.txHashIndex := by rw [← hstart]
  rw [← hhash, ← htx]
  clear hstart hhash htx
  induction block.transactions.zipIdx generalizing d with
  | nil => exact ⟨rfl, rfl⟩
  | cons e rest ih =>
    rw [List.foldl_cons]
    obtain ⟨hhash, htx⟩ := ih _
    rw [hhash, htx]
    exact ⟨rfl, rfl⟩

/-- One more block is filed. -/
theorem FiledFrom.indexBlock {filed : List Block} (h : c.FiledFrom P filed) (block : Block) :
    (c.indexBlock P block).FiledFrom P (filed ++ [block]) := by
  obtain ⟨hhash, htx⟩ := @indexBlock_eq P c block
  constructor
  · rw [hhash, h.hashes, Index.file_append]
    rfl
  · rw [htx, h.transactions, placements, placements, List.flatMap_append, Index.file_append]
    simp

theorem filedFrom_reindexBlocks (blocks : List Block) :
    (c.reindexBlocks P blocks).FiledFrom P blocks := by
  have hfold : ∀ (rest filed : List Block) (d : Blockchain), d.FiledFrom P filed →
      (rest.foldl (fun c b => c.indexBlock P b) d).FiledFrom P (filed ++ rest) := by
    intro rest
    induction rest with
    | nil =>
      intro filed d h
      simpa using h
    | cons b rest ih =>
      intro filed d h
      have hnext := ih (filed ++ [b]) (d.indexBlock P b) (h.indexBlock b)
      rwa [List.append_assoc, List.singleton_append] at hnext
  exact hfold blocks [] _ ⟨rfl, rfl⟩

theorem FiledFrom.congr {d : Blockchain} {filed : List Block} (h : c.FiledFrom P filed)
    (hhash : d.blockHashToHeight = c.blockHashToHeight) (htx : d.txHashIndex = c.txHashIndex) :
    d.FiledFrom P filed :=
  ⟨hhash.trans h.hashes, htx.trans h.transactions⟩

/-- One block of the walk over receipts. -/
theorem indexReceipts_placements (block : Block) :
    indexReceipts P block c = { c with
      receiptLocations := Index.file (Placement.hash P) Placement.receiptLocation c.receiptLocations
        (block.placements.filter (Placement.hasReceipt P c.receipts))
      logIndex := c.logIndex ++ block.placements.flatMap (Placement.logs P c.receipts) } := by
  simp only [indexReceipts, Block.placements]
  induction block.transactions.zipIdx generalizing c with
  | nil => simp [Index.file]
  | cons e rest ih =>
    rw [List.foldl_cons, ih]
    by_cases hcoinbase : e.1.isCoinbase = true
    · simp [hcoinbase, Placement.hasReceipt, Placement.logs]
    · cases hreceipt : c.receipts[e.1.hash P]? with
      | none => simp [hcoinbase, hreceipt, Placement.hasReceipt, Placement.logs, Placement.hash]
      | some receipt =>
        simp [hcoinbase, hreceipt, Placement.hasReceipt, Placement.logs, Placement.hash,
          Index.file_cons, Placement.receiptLocation]

/-- The whole walk. -/
theorem foldl_indexReceipts (blocks : List Block) :
    blocks.foldl (fun acc block => indexReceipts P block acc) c = { c with
      receiptLocations := Index.file (Placement.hash P) Placement.receiptLocation c.receiptLocations
        ((placements blocks).filter (Placement.hasReceipt P c.receipts))
      logIndex := c.logIndex ++ (placements blocks).flatMap (Placement.logs P c.receipts) } := by
  induction blocks generalizing c with
  | nil => simp [placements, Index.file]
  | cons b rest ih =>
    rw [List.foldl_cons, ih, indexReceipts_placements]
    simp [placements, Index.file_append]

/-! ## The order of the logs -/

theorem mem_logs {receipts : ByteMap Receipt} {p : Placement} {l : IndexedLogEntry}
    (h : l ∈ p.logs P receipts) :
    l.blockHeight = p.block.header.height ∧ l.txIndex = p.index := by
  simp only [Placement.logs] at h
  split at h
  · exact absurd h (by simp)
  split at h
  · exact absurd h (by simp)
  · next receipt _ =>
    simp only [logsOf, List.mem_map] at h
    obtain ⟨e, -, rfl⟩ := h
    exact ⟨rfl, rfl⟩

/-- The logs of one receipt come in order. -/
theorem pairwise_logs (receipts : ByteMap Receipt) (p : Placement) :
    (p.logs P receipts).Pairwise fun a b => logEntryLe a b = true := by
  simp only [Placement.logs]
  split
  · exact List.Pairwise.nil
  split
  · exact List.Pairwise.nil
  · next receipt _ =>
    simp only [logsOf, List.pairwise_map]
    have hindex : receipt.logs.zipIdx.Pairwise fun a b => a.2 < b.2 := by
      rw [← List.pairwise_map, List.zipIdx_map_snd]
      exact List.pairwise_lt_range'
    apply hindex.imp
    intro a b hab
    simp [logEntryLe, Nat.le_of_lt hab]

theorem pairwise_placements {blocks : List Block}
    (h : blocks.Pairwise fun a b => a.header.height < b.header.height) :
    (placements blocks).Pairwise fun p q => p.block.header.height < q.block.header.height ∨
      (p.block.header.height = q.block.header.height ∧ p.index < q.index) := by
  rw [placements, List.pairwise_flatMap]
  constructor
  · intro b _
    simp only [Block.placements, List.pairwise_map]
    have hindex : b.transactions.zipIdx.Pairwise fun a b => a.2 < b.2 := by
      rw [← List.pairwise_map, List.zipIdx_map_snd]
      exact List.pairwise_lt_range'
    apply hindex.imp
    intro x y hxy
    exact .inr ⟨trivial, hxy⟩
  · apply h.imp
    intro a b hab p hp q hq
    simp only [Block.placements, List.mem_map] at hp hq
    obtain ⟨_, -, rfl⟩ := hp
    obtain ⟨_, -, rfl⟩ := hq
    exact .inl hab

/-- Along an ascending chain the walk meets the logs in order, so sorting them changes nothing. -/
theorem receiptsFrom_rebuild
    (h : c.iterBlocks.Pairwise fun a b => a.header.height < b.header.height) :
    (c.rebuildReceiptIndexes P).ReceiptsFrom P c.iterBlocks := by
  have hsorted : ((placements c.iterBlocks).flatMap (Placement.logs P c.receipts)).Pairwise
      fun a b => logEntryLe a b = true := by
    rw [List.pairwise_flatMap]
    refine ⟨fun p _ => pairwise_logs c.receipts p, ?_⟩
    apply (pairwise_placements h).imp
    intro p q hpq x hx y hy
    obtain ⟨hxh, hxi⟩ := mem_logs hx
    obtain ⟨hyh, hyi⟩ := mem_logs hy
    simp only [logEntryLe, hxh, hxi, hyh, hyi, decide_eq_true_eq]
    obtain hlt | ⟨heq, hlt⟩ := hpq
    · exact .inl hlt
    · exact .inr ⟨heq, .inl hlt⟩
  simp only [rebuildReceiptIndexes, foldl_indexReceipts]
  constructor
  · rfl
  · simp only [List.nil_append]
    exact hsorted.insertionSort_eq

theorem rebuildReceiptIndexes_filed :
    (c.rebuildReceiptIndexes P).blockHashToHeight = c.blockHashToHeight ∧
      (c.rebuildReceiptIndexes P).txHashIndex = c.txHashIndex := by
  obtain ⟨locations, logs, h⟩ := @rebuildReceiptIndexes_eq P c
  rw [h]
  exact ⟨rfl, rfl⟩

/-- The heights of a straight chain ascend. -/
theorem Straight.ascending (h : c.Straight) :
    c.blocks.Pairwise fun a b => a.header.height < b.header.height := by
  rw [List.pairwise_iff_getElem]
  intro i j hi hj hij
  rw [h.heights (List.getElem?_eq_getElem hi), h.heights (List.getElem?_eq_getElem hj)]
  exact hij

end Blockchain

namespace Blockchain

variable {P : Primitives} {g : GenesisConfig} {c c' : Blockchain} {now : Int} {block : Block}
  {filed : List Block}

/-! ## What the calls keep -/

theorem rooted_insertIgnoringErrors {t : BlockTree} {genesis : Block} (h : t.Rooted genesis)
    (stake : Nat) :
    (insertIgnoringErrors t block stake).Rooted genesis := by
  simp only [insertIgnoringErrors]
  split
  · next hok => exact h.insert hok
  · exact h

/-- The indexes of a chain whose hash and transaction indexes were filed from `filed`. -/
structure Indexed (P : Primitives) (c : Blockchain) (filed : List Block) : Prop where
  straight : c.Straight
  rooted : c.blockTree.Rooted c.genesis
  filed : c.FiledFrom P filed
  receipts : c.ReceiptsFrom P c.blocks

theorem indexed_genesis (h : fromGenesis P g = .ok c) : c.Indexed P [] := by
  obtain ⟨accounts, -, hrec⟩ := recomputes_genesis h 0
  simp only [fromGenesis, Outcome.except_bind_eq_ok] at h
  obtain ⟨accounts, -, h⟩ := h
  cases h
  refine ⟨hrec.straight, .inl (BlockTree.sound_fromGenesis rfl).toLinked, ⟨rfl, rfl⟩, ?_⟩
  exact ⟨rfl, rfl⟩

theorem prepareEpoch_filed (height : Nat) :
    (c.prepareEpoch P height).blockHashToHeight = c.blockHashToHeight ∧
      (c.prepareEpoch P height).txHashIndex = c.txHashIndex := by
  simp only [prepareEpoch, settleEpoch, ensureEpochSnapshot]
  split <;> exact ⟨rfl, rfl⟩

/-- A commit files its block and walks the chain with it. -/
theorem commitBlock_indexed {s : ExecState} (hfiled : c.FiledFrom P filed)
    (hst : (c.commitBlock P block s).Straight) :
    (c.commitBlock P block s).FiledFrom P (filed ++ [block]) ∧
      (c.commitBlock P block s).ReceiptsFrom P (c.commitBlock P block s).blocks := by
  set committed : Blockchain :=
    { c with
      blockTree := insertIgnoringErrors c.blockTree block (proposerStake P s block)
      accounts := s.accounts
      contracts := s.contracts
      receipts := extendReceipts c.receipts s.receipts
      tokenRegistry := s.tokenRegistry
      governance := s.governance
      blocks := c.blocks ++ [block] } with hcommitted
  have hcommit : c.commitBlock P block s = ((committed.indexBlock P block).rebuildReceiptIndexes
      P).removeBlockTransactionsFromMempool P block := rfl
  have hstart : committed.FiledFrom P filed := hfiled.congr rfl rfl
  have hindexed := hstart.indexBlock block
  obtain ⟨hhash, htx⟩ := @rebuildReceiptIndexes_filed P (committed.indexBlock P block)
  have hspine : (committed.indexBlock P block).spine = (c.commitBlock P block s).spine := by
    rw [hcommit]
    exact (spine_congr rebuildReceiptIndexes_unindexed).symm
  have hst' : (committed.indexBlock P block).Straight := hst.of_spine hspine
  have hrebuilt := @receiptsFrom_rebuild P (committed.indexBlock P block)
    (by rw [hst'.iterBlocks]; exact hst'.ascending)
  rw [hst'.iterBlocks] at hrebuilt
  constructor
  · exact hindexed.congr hhash htx
  · rw [← show (committed.indexBlock P block).blocks = (c.commitBlock P block s).blocks from
      congrArg Spine.blocks hspine]
    exact ⟨hrebuilt.locations, hrebuilt.logs⟩

theorem Indexed.addBlock (h : c.Indexed P filed) (hok : c.addBlock P now block = (.ok (), c')) :
    c'.Indexed P (filed ++ [block]) := by
  have hres : (c.addBlock P now block).1 = .ok () := by rw [hok]
  obtain ⟨hst, -, hgenesis, -, -⟩ := h.straight.addBlock hres
  obtain ⟨-, stake, hspine⟩ := addBlock_ok_spine hres
  rw [hok] at hst hgenesis hspine
  have htree : c'.blockTree = insertIgnoringErrors c.blockTree block stake :=
    congrArg Spine.blockTree hspine
  have hrooted : c'.blockTree.Rooted c'.genesis := by
    rw [htree, hgenesis]
    exact rooted_insertIgnoringErrors h.rooted stake
  obtain ⟨e, he⟩ | ⟨s, -, hcommit⟩ := addBlock_cases P c now block
  · rw [he] at hok
    exact absurd (congrArg Prod.fst hok) (by simp)
  · rw [hok] at hcommit
    cases hcommit
    obtain ⟨hhash, htx⟩ := @prepareEpoch_filed P c block.header.height
    obtain ⟨hfiled, hreceipts⟩ := commitBlock_indexed (h.filed.congr hhash htx) hst
    exact ⟨hst, hrooted, hfiled, hreceipts⟩

theorem withBoundarySnapshot_filed (height : Nat) (accounts : ByteMap AccountState) :
    (c.withBoundarySnapshot height accounts).blockHashToHeight = c.blockHashToHeight ∧
      (c.withBoundarySnapshot height accounts).txHashIndex = c.txHashIndex := by
  simp only [withBoundarySnapshot]
  split <;> exact ⟨rfl, rfl⟩

theorem rebuildBlocks_filed {previous : Block} {blocks : List Block} {r : ReplayState} :
    (rebuildBlocks P now c previous blocks r).2.blockHashToHeight = c.blockHashToHeight ∧
      (rebuildBlocks P now c previous blocks r).2.txHashIndex = c.txHashIndex := by
  induction blocks generalizing c previous r with
  | nil => exact ⟨rfl, rfl⟩
  | cons block rest ih =>
    obtain ⟨hhash, htx⟩ := @withBoundarySnapshot_filed c block.header.height r.state.accounts
    rw [rebuildBlocks_cons]
    split
    · exact ⟨hhash, htx⟩
    · next r' _ =>
      obtain ⟨hhash', htx'⟩ :=
        @ih (c.withBoundarySnapshot block.header.height r.state.accounts) block r'
      exact ⟨hhash'.trans hhash, htx'.trans htx⟩

/-- A rebuild files the canonical chain from nothing. -/
theorem indexed_of_rebuild (hst : c.Straight)
    (hok : c.rebuildCanonicalState P now = (.ok (), c')) :
    c'.FiledFrom P c.blocks ∧ c'.ReceiptsFrom P c.blocks := by
  have hspine := @rebuildCanonicalState_spine P c now
  rw [hok] at hspine
  have hst' : c'.Straight := hst.of_spine hspine
  have hblocks : c'.blocks = c.blocks := congrArg Spine.blocks hspine
  simp only [rebuildCanonicalState, hst.iterBlocks] at hok
  split at hok
  · exact absurd (congrArg Prod.fst hok) (by simp)
  next accounts _ =>
  split at hok
  · exact absurd (congrArg Prod.fst hok) (by simp)
  next first rest _ =>
  split at hok
  · exact absurd (congrArg Prod.fst hok) (by simp)
  next r d hrebuilt =>
  set started : Blockchain :=
    { c with epochSnapshots := genesisSnapshots (c.snapshotForAccounts 0 accounts) } with hstarted
  obtain ⟨hhash, htx⟩ := @rebuildBlocks_filed P (started.reindexBlocks P c.blocks) now first rest
    (genesisReplay accounts)
  rw [hrebuilt] at hhash htx
  have hfiled : d.FiledFrom P c.blocks := (filedFrom_reindexBlocks c.blocks).congr hhash htx
  set rebuilt : Blockchain :=
    { d with
      accounts := r.state.accounts
      contracts := r.state.contracts
      receipts := r.state.receipts
      tokenRegistry := r.state.tokenRegistry
      governance := r.state.governance
      validatorMissedEpochs := r.missed } with hrebuiltState
  have hc' : rebuilt.rebuildReceiptIndexes P = c' := congrArg Prod.snd hok
  have hsame : rebuilt.spine = c'.spine := by
    rw [← hc']
    exact (spine_congr rebuildReceiptIndexes_unindexed).symm
  have hstd : rebuilt.Straight := hst'.of_spine hsame
  -- The receipts are filed last, over the rebuilt state and the same blocks.
  have hreceipts := @receiptsFrom_rebuild P rebuilt (by rw [hstd.iterBlocks]; exact hstd.ascending)
  rw [hstd.iterBlocks, hc', show rebuilt.blocks = c.blocks from
    (congrArg Spine.blocks hsame).trans hblocks] at hreceipts
  obtain ⟨hhash', htx'⟩ := @rebuildReceiptIndexes_filed P rebuilt
  rw [hc'] at hhash' htx'
  exact ⟨hfiled.congr hhash' htx', hreceipts⟩

/-- A fork choice that succeeds appends to the tip, keeps a branch, or reorganises. -/
theorem forkChoice_ok_cases {switched : Bool}
    (h : c.addBlockWithForkChoice P now block = (.ok switched, c')) :
    (block.header.prevHash = c.latestBlock.hash ∧ switched = false ∧
      c.addBlock P now block = (.ok (), c')) ∨
    (∃ tree, block.header.prevHash ≠ c.latestBlock.hash ∧ switched = false ∧
      c.stageForkBlock P now block = .ok (tree, false) ∧ c' = { c with blockTree := tree }) ∨
    (∃ tree, block.header.prevHash ≠ c.latestBlock.hash ∧ switched = true ∧
      c.stageForkBlock P now block = .ok (tree, true) ∧
      ({ c with blockTree := tree }.replaceAllBlocks tree.canonicalChain).rebuildCanonicalState P
        now = (.ok (), c')) := by
  simp only [addBlockWithForkChoice] at h
  split at h
  · exact absurd (congrArg Prod.fst h) (by simp)
  split at h
  · next hprev =>
    split at h
    · exact absurd (congrArg Prod.fst h) (by simp)
    · next d hadd =>
      cases h
      exact .inl ⟨hprev, rfl, hadd⟩
  next hprev =>
  split at h
  · exact absurd (congrArg Prod.fst h) (by simp)
  · next tree hstage =>
    cases h
    exact .inr (.inl ⟨tree, hprev, rfl, hstage, rfl⟩)
  · next tree hstage =>
    split at h
    · exact absurd (congrArg Prod.fst h) (by simp)
    · next d hreorg =>
      cases h
      refine .inr (.inr ⟨tree, hprev, rfl, hstage, ?_⟩)
      simp only [reorgToCanonicalTip] at hreorg
      split at hreorg
      · exact absurd (congrArg Prod.fst hreorg) (by simp)
      · exact hreorg

/-- A branch beside the canonical chain changes none of it. -/
theorem Indexed.branch (h : c.Indexed P filed) {tree : BlockTree}
    (hstage : c.stageForkBlock P now block = .ok (tree, false)) :
    ({ c with blockTree := tree } : Blockchain).Indexed P filed := by
  obtain ⟨stake, hinsert⟩ := insert_of_stage hstage
  exact ⟨⟨h.straight.base, h.straight.head, h.straight.heights⟩, h.rooted.insert hinsert,
    ⟨h.filed.hashes, h.filed.transactions⟩, ⟨h.receipts.locations, h.receipts.logs⟩⟩

/-- A reorganisation starts the indexes over. -/
theorem Indexed.reorganise (h : c.Indexed P filed) {tree : BlockTree}
    (hstage : c.stageForkBlock P now block = .ok (tree, true))
    (hok : ({ c with blockTree := tree }.replaceAllBlocks tree.canonicalChain).rebuildCanonicalState
      P now = (.ok (), c')) : c'.Indexed P c'.iterBlocks := by
  obtain ⟨stake, hinsert⟩ := insert_of_stage hstage
  obtain ⟨htip, hget⟩ := BlockTree.canonicalTip_of_switched hinsert
  rw [← htip] at hget
  have hrooted := h.rooted.insert hinsert
  have hl : tree.Linked c.genesis := by
    obtain hl | hempty := hrooted
    · exact hl
    · exact absurd ((hempty _).symm.trans hget) (by simp)
  set replaced := ({ c with blockTree := tree } : Blockchain).replaceAllBlocks tree.canonicalChain
    with hreplaced
  have hgenesis : replaced.genesis = c.genesis := by
    show tree.canonicalChain.head?.getD c.genesis = c.genesis
    rw [BlockTree.head?_canonicalChain hl hget]
    rfl
  have hst : replaced.Straight :=
    straight_canonicalChain hl hget h.straight.base rfl hgenesis
  have hspine := @rebuildCanonicalState_spine P replaced now
  rw [hok] at hspine
  have hst' : c'.Straight := hst.of_spine hspine
  obtain ⟨hfiled, hreceipts⟩ := indexed_of_rebuild hst hok
  have hblocks : c'.blocks = replaced.blocks := congrArg Spine.blocks hspine
  rw [hst'.iterBlocks]
  refine ⟨hst', ?_, by rw [hblocks]; exact hfiled, by rw [hblocks]; exact hreceipts⟩
  rw [show c'.blockTree = tree from congrArg Spine.blockTree hspine,
    show c'.genesis = c.genesis from (congrArg Spine.genesis hspine).trans hgenesis]
  exact hrooted

/-! ## Snapshots -/

/-- The payload starts with a block of height `0`, as every payload that was made by a node does. A
payload without one leaves the node without blocks. -/
def CarriesGenesis (deserialize : Bytes → Except String SnapshotState) (chunks : List StateChunk) :
    Prop :=
  ∀ payload, deserialize (chunks.flatMap StateChunk.data) = .ok payload →
    payload.blocks.head?.map heightOfBlock = some 0

variable {deserialize : Bytes → Except String SnapshotState} {manifest : SnapshotManifest}
  {chunks : List StateChunk}

/-- A snapshot replaces the blocks and files none of them. -/
theorem Indexed.applySnapshot (h : c.Indexed P filed) (hgenesis : CarriesGenesis deserialize chunks)
    (hok : c.applySnapshot P deserialize manifest chunks = .ok c') : c'.Indexed P filed := by
  obtain ⟨-, payload, hdecoded, -, rfl⟩ := applySnapshot_eq_ok.mp hok
  have hzero := hgenesis payload hdecoded.bytes
  obtain ⟨first, hfirst, hheight⟩ : ∃ first, (appendable 0 payload.blocks).head? = some first ∧
      first.header.height = 0 := by
    cases hblocks : payload.blocks with
    | nil => exact absurd hzero (by simp [hblocks])
    | cons b rest =>
      rw [hblocks] at hzero
      have hb : b.header.height = 0 := Option.some.inj hzero
      exact ⟨b, by simp [appendable, hb], hb⟩
  set replaced : Blockchain :=
    { c.replaceAllBlocks (appendable 0 payload.blocks) with
      accounts := collectBytes payload.accounts
      contracts := collectBytes payload.contracts
      receipts := collectBytes payload.receipts } with hreplaced
  have hroot : replaced.genesis = first := by
    show (appendable 0 payload.blocks).head?.getD c.genesis = first
    rw [hfirst]
    rfl
  have hst : replaced.Straight := by
    refine ⟨h.straight.base, by rw [hroot]; exact hfirst, ?_⟩
    intro k b hb
    exact (height_of_appendable hb).trans (Nat.zero_add k)
  have hreceipts := @receiptsFrom_rebuild P replaced
    (by rw [hst.iterBlocks]; exact hst.ascending)
  rw [hst.iterBlocks] at hreceipts
  have hspine : (replaced.rebuildReceiptIndexes P).spine = replaced.spine :=
    spine_congr rebuildReceiptIndexes_unindexed
  have hinstalled := hst.of_spine hspine
  obtain ⟨-, -, -, -, hhash, htx, -⟩ := @installSnapshot_keeps P manifest payload c
  refine ⟨⟨hinstalled.base, hinstalled.head, hinstalled.heights⟩, ?_, h.filed.congr hhash htx, ?_⟩
  · -- the tree is built on the installed genesis
    have hg : (replaced.rebuildReceiptIndexes P).genesis = first :=
      (congrArg Spine.genesis hspine).trans hroot
    exact (sound_treeFromBlocks _ _ (by rw [hg, hheight])).1.toLinked.rooted_setFinalized _ _
  · rw [installSnapshot_blocks]
    exact ⟨hreceipts.locations, hreceipts.logs⟩

end Blockchain

/-! ## Runs -/

inductive IndexOp where
  | addBlock (now : Int) (block : Block)
  | addBlockWithForkChoice (now : Int) (block : Block)
  | applySnapshot (manifest : SnapshotManifest) (chunks : List StateChunk)

namespace IndexOp

def isSnapshot : IndexOp → Bool
  | .applySnapshot _ _ => true
  | _ => false

/-- A snapshot among the calls carries its genesis. -/
def CarriesGenesis (deserialize : Bytes → Except String SnapshotState) : IndexOp → Prop
  | .applySnapshot _ chunks => Blockchain.CarriesGenesis deserialize chunks
  | _ => True

theorem carriesGenesis_of_plain {deserialize : Bytes → Except String SnapshotState} {op : IndexOp}
    (h : op.isSnapshot = false) : op.CarriesGenesis deserialize := by
  cases op with
  | addBlock now block => trivial
  | addBlockWithForkChoice now block => trivial
  | applySnapshot manifest chunks => exact absurd h (by simp [isSnapshot])

end IndexOp

/-- A chain with the blocks its hash and transaction indexes were filed from, and whether it ever
reorganised. -/
structure Filing where
  chain : Blockchain
  filed : List Block := []
  reorganised : Bool := false

namespace Filing

/-- One call; `none` when it fails. -/
def step (P : Primitives) (deserialize : Bytes → Except String SnapshotState) (r : Filing) :
    IndexOp → Option Filing
  | .addBlock now block =>
    match r.chain.addBlock P now block with
    | (.error _, _) => none
    | (.ok (), c) => some { r with chain := c, filed := r.filed ++ [block] }
  | .addBlockWithForkChoice now block =>
    match r.chain.addBlockWithForkChoice P now block with
    | (.error _, _) => none
    | (.ok true, c) => some { chain := c, filed := c.iterBlocks, reorganised := true }
    | (.ok false, c) =>
      -- a block on the tip goes through `add_block`, any other stays beside the chain
      if block.header.prevHash = r.chain.latestBlock.hash then
        some { r with chain := c, filed := r.filed ++ [block] }
      else some { r with chain := c }
  | .applySnapshot manifest chunks =>
    match r.chain.applySnapshot P deserialize manifest chunks with
    | .error _ => none
    | .ok c => some { r with chain := c }

/-- Successful calls, one after another. -/
def run (P : Primitives) (deserialize : Bytes → Except String SnapshotState) :
    Filing → List IndexOp → Option Filing
  | r, [] => some r
  | r, op :: rest => (r.step P deserialize op).bind fun r' => run P deserialize r' rest

variable {P : Primitives} {deserialize : Bytes → Except String SnapshotState} {r r' : Filing}
  {op : IndexOp} {ops : List IndexOp}

theorem run_cons (h : r.run P deserialize (op :: ops) = some r') :
    ∃ r₁, r.step P deserialize op = some r₁ ∧ r₁.run P deserialize ops = some r' := by
  rw [run, Option.bind_eq_some_iff] at h
  exact h

/-- What one call does to the chain and to what was filed. -/
theorem step_cases (h : r.step P deserialize op = some r') :
    (∃ now block, op.isSnapshot = false ∧
      r.chain.addBlock P now block = (.ok (), r'.chain) ∧ r'.filed = r.filed ++ [block] ∧
        r'.reorganised = r.reorganised) ∨
    (∃ now block tree, op.isSnapshot = false ∧
      r.chain.stageForkBlock P now block = .ok (tree, false) ∧
      r'.chain = { r.chain with blockTree := tree } ∧ r'.filed = r.filed ∧
        r'.reorganised = r.reorganised) ∨
    (∃ now block tree, r.chain.stageForkBlock P now block = .ok (tree, true) ∧
      ({ r.chain with blockTree := tree }.replaceAllBlocks
        tree.canonicalChain).rebuildCanonicalState P now = (.ok (), r'.chain) ∧
      r'.filed = r'.chain.iterBlocks ∧ r'.reorganised = true) ∨
    (∃ manifest chunks, op = .applySnapshot manifest chunks ∧
      r.chain.applySnapshot P deserialize manifest chunks = .ok r'.chain ∧ r'.filed = r.filed ∧
        r'.reorganised = r.reorganised) := by
  cases op with
  | addBlock now block =>
    simp only [step] at h
    split at h
    · exact absurd h (by simp)
    · next c hadd =>
      cases h
      exact .inl ⟨now, block, rfl, hadd, rfl, rfl⟩
  | addBlockWithForkChoice now block =>
    simp only [step] at h
    split at h
    · exact absurd h (by simp)
    · next c hfork =>
      cases h
      obtain ⟨-, hfalse, -⟩ | ⟨tree, -, hfalse, -, -⟩ | ⟨tree, -, -, hstage, hrebuild⟩ :=
        Blockchain.forkChoice_ok_cases hfork
      · exact absurd hfalse (by simp)
      · exact absurd hfalse (by simp)
      · exact .inr (.inr (.inl ⟨now, block, tree, hstage, hrebuild, rfl, rfl⟩))
    · next c hfork =>
      obtain ⟨hprev, -, hadd⟩ | ⟨tree, hprev, -, hstage, hc⟩ | ⟨tree, -, htrue, -, -⟩ :=
        Blockchain.forkChoice_ok_cases hfork
      · rw [if_pos hprev] at h
        cases h
        exact .inl ⟨now, block, rfl, hadd, rfl, rfl⟩
      · rw [if_neg hprev] at h
        cases h
        exact .inr (.inl ⟨now, block, tree, rfl, hstage, hc, rfl, rfl⟩)
      · exact absurd htrue (by simp)
  | applySnapshot manifest chunks =>
    simp only [step] at h
    split at h
    · exact absurd h (by simp)
    · next c happly =>
      cases h
      exact .inr (.inr (.inr ⟨manifest, chunks, rfl, happly, rfl, rfl⟩))

theorem indexed_step (hr : r.chain.Indexed P r.filed) (hop : op.CarriesGenesis deserialize)
    (h : r.step P deserialize op = some r') : r'.chain.Indexed P r'.filed := by
  obtain ⟨now, block, -, hadd, hfiled, -⟩ | ⟨now, block, tree, -, hstage, hchain, hfiled, -⟩ |
    ⟨now, block, tree, hstage, hrebuild, hfiled, -⟩ |
    ⟨manifest, chunks, rfl, happly, hfiled, -⟩ := step_cases h
  · rw [hfiled]
    exact hr.addBlock hadd
  · rw [hfiled, hchain]
    exact hr.branch hstage
  · rw [hfiled]
    exact hr.reorganise hstage hrebuild
  · rw [hfiled]
    exact hr.applySnapshot hop happly

theorem indexed_run (hr : r.chain.Indexed P r.filed)
    (hops : ∀ op ∈ ops, op.CarriesGenesis deserialize)
    (h : r.run P deserialize ops = some r') : r'.chain.Indexed P r'.filed := by
  induction ops generalizing r with
  | nil =>
    cases h
    exact hr
  | cons op rest ih =>
    obtain ⟨r₁, hstep, hrest⟩ := run_cons h
    have hr₁ := indexed_step hr (hops op (by simp)) hstep
    exact ih hr₁ (fun op hop => hops op (List.mem_cons_of_mem _ hop)) hrest

/-- What was filed is the canonical chain until the next snapshot. -/
theorem filed_step (hr : r.chain.Indexed P r.filed) (hop : op.isSnapshot = false)
    (hfiled : r.filed = r.chain.iterBlocks) (h : r.step P deserialize op = some r') :
    r'.filed = r'.chain.iterBlocks := by
  obtain ⟨now, block, -, hadd, hnew, -⟩ | ⟨now, block, tree, -, hstage, hchain, hnew, -⟩ |
    ⟨-, -, -, -, -, hnew, -⟩ | ⟨manifest, chunks, rfl, -⟩ := step_cases h
  · have hres : (r.chain.addBlock P now block).1 = .ok () := by rw [hadd]
    obtain ⟨hst, hblocks, -⟩ := hr.straight.addBlock hres
    rw [hadd] at hst hblocks
    rw [hnew, hst.iterBlocks, hblocks, hfiled, hr.straight.iterBlocks]
  · rw [hnew, hfiled, hchain]
    rfl
  · exact hnew
  · exact absurd hop (by simp [IndexOp.isSnapshot])

/-- The genesis is filed by the first reorganisation and not before. -/
theorem genesis_unfiled_step (hr : r.chain.Indexed P r.filed)
    (hfiled : r.reorganised = false → ∀ b ∈ r.filed, 0 < heightOfBlock b)
    (h : r.step P deserialize op = some r') :
    r'.reorganised = false → ∀ b ∈ r'.filed, 0 < heightOfBlock b := by
  obtain ⟨now, block, -, hadd, hnew, hflag⟩ | ⟨-, -, -, -, -, -, hnew, hflag⟩ |
    ⟨-, -, -, -, -, -, hflag⟩ | ⟨-, -, -, -, hnew, hflag⟩ := step_cases h
  · intro hno b hb
    rw [hnew, List.mem_append, List.mem_singleton] at hb
    obtain hb | rfl := hb
    · exact hfiled (hflag ▸ hno) b hb
    · have hres : (r.chain.addBlock P now b).1 = .ok () := by rw [hadd]
      obtain ⟨-, -, -, -, hheight⟩ := hr.straight.addBlock hres
      simp [heightOfBlock, hheight]
  · intro hno
    rw [hnew]
    exact hfiled (hflag ▸ hno)
  · intro hno
    exact absurd (hflag.symm.trans hno) (by simp)
  · intro hno
    rw [hnew]
    exact hfiled (hflag ▸ hno)

end Filing

/-! ## When the indexes mirror the chain -/

/-- No hash stands for two of the blocks or for two places of a transaction. -/
structure DistinctHashes (P : Primitives) (blocks : List Block) : Prop where
  block : Index.Unambiguous Block.hash heightOfBlock blocks
  transaction : Index.Unambiguous (Placement.hash P) Placement.location (placements blocks)

/-- The last block of each hash has the same height in both lists, and the last transaction of each
hash the same place. -/
structure FileAlike (P : Primitives) (xs ys : List Block) : Prop where
  block : ∀ hash, Index.newest Block.hash heightOfBlock xs hash =
    Index.newest Block.hash heightOfBlock ys hash
  transaction : ∀ hash, Index.newest (Placement.hash P) Placement.location (placements xs) hash =
    Index.newest (Placement.hash P) Placement.location (placements ys) hash

namespace Blockchain

variable {P : Primitives} {c : Blockchain} {filed : List Block}

/-- The receipt indexes need no more than distinct transactions. -/
theorem Indexed.mirrors_receipts (h : c.Indexed P filed)
    (hdistinct : Index.Unambiguous (Placement.hash P) Placement.location (placements c.blocks)) :
    Index.Mirrors (Placement.hash P) Placement.receiptLocation c.receiptLocations
      ((placements c.blocks).filter (Placement.hasReceipt P c.receipts)) := by
  rw [h.receipts.locations]
  apply Index.mirrors_file
  intro p hp q hq hkey
  have hlocation := hdistinct p (List.mem_of_mem_filter hp) q (List.mem_of_mem_filter hq) hkey
  simp only [Placement.location, Prod.mk.injEq] at hlocation
  simp [Placement.receiptLocation, hlocation]

theorem Indexed.mirrors_iff (h : c.Indexed P filed) : c.MirrorsCanonical P ↔
    DistinctHashes P c.iterBlocks ∧ FileAlike P filed c.iterBlocks := by
  have hhashes : Index.Mirrors Block.hash heightOfBlock c.blockHashToHeight c.iterBlocks ↔ _ :=
    Index.mirrors_iff
  have htxs : Index.Mirrors (Placement.hash P) Placement.location c.txHashIndex
    (placements c.iterBlocks) ↔ _ := Index.mirrors_iff
  rw [h.filed.hashes, Index.file_eq_file_iff] at hhashes
  rw [h.filed.transactions, Index.file_eq_file_iff] at htxs
  constructor
  · intro hm
    have hb := hm.hashes
    have ht := hm.transactions
    rw [h.filed.hashes] at hb
    rw [h.filed.transactions] at ht
    exact ⟨⟨(hhashes.mp hb).1, (htxs.mp ht).1⟩, (hhashes.mp hb).2, (htxs.mp ht).2⟩
  · rintro ⟨hdistinct, halike⟩
    refine ⟨?_, ?_, ?_, ?_⟩
    · rw [h.filed.hashes]
      exact hhashes.mpr ⟨hdistinct.block, halike.block⟩
    · rw [h.filed.transactions]
      exact htxs.mpr ⟨hdistinct.transaction, halike.transaction⟩
    · have ht := hdistinct.transaction
      rw [h.straight.iterBlocks] at ht ⊢
      exact h.mirrors_receipts ht
    · rw [h.straight.iterBlocks]
      exact h.receipts.logs

/-- A chain that never reorganised does not know its genesis by hash. -/
theorem Indexed.genesis_missing (h : c.Indexed P filed)
    (hfiled : ∀ b ∈ filed, 0 < heightOfBlock b) : ¬ c.MirrorsCanonical P := by
  intro hm
  have hgenesis : c.genesis ∈ c.iterBlocks := by
    rw [h.straight.iterBlocks, h.straight.blocks_eq]
    exact List.mem_cons_self
  have hzero : c.genesis.header.height = 0 :=
    h.straight.heights (by rw [← List.head?_eq_getElem?]; exact h.straight.head)
  have hentry := (hm.hashes c.genesis.hash 0).mpr ⟨c.genesis, hgenesis, rfl, hzero⟩
  rw [h.filed.hashes] at hentry
  obtain ⟨b, hb, -, hheight⟩ | hempty := KeyMap.getElem?_foldl_insert_eq_some _ _ hentry
  · exact absurd hheight (Nat.ne_of_gt (hfiled b hb))
  · simp at hempty

end Blockchain

namespace Filing

variable {P : Primitives} {deserialize : Bytes → Except String SnapshotState} {g : GenesisConfig}
  {c : Blockchain} {r r' : Filing} {ops : List IndexOp}

theorem filed_run (hr : r.chain.Indexed P r.filed) (hops : ∀ op ∈ ops, op.isSnapshot = false)
    (hfiled : r.filed = r.chain.iterBlocks) (h : r.run P deserialize ops = some r') :
    r'.filed = r'.chain.iterBlocks := by
  induction ops generalizing r with
  | nil =>
    cases h
    exact hfiled
  | cons op rest ih =>
    obtain ⟨r₁, hstep, hrest⟩ := run_cons h
    have hop : op.isSnapshot = false := hops op (by simp)
    exact ih (indexed_step hr (IndexOp.carriesGenesis_of_plain hop) hstep)
      (fun op hop => hops op (List.mem_cons_of_mem _ hop)) (filed_step hr hop hfiled hstep) hrest

theorem genesis_unfiled_run (hr : r.chain.Indexed P r.filed)
    (hops : ∀ op ∈ ops, op.CarriesGenesis deserialize)
    (hfiled : r.reorganised = false → ∀ b ∈ r.filed, 0 < heightOfBlock b)
    (h : r.run P deserialize ops = some r') :
    r'.reorganised = false → ∀ b ∈ r'.filed, 0 < heightOfBlock b := by
  induction ops generalizing r with
  | nil =>
    cases h
    exact hfiled
  | cons op rest ih =>
    obtain ⟨r₁, hstep, hrest⟩ := run_cons h
    exact ih (indexed_step hr (hops op (by simp)) hstep)
      (fun op hop => hops op (List.mem_cons_of_mem _ hop)) (genesis_unfiled_step hr hfiled hstep)
      hrest

/-- Before the first reorganisation the indexes never mirror the chain. -/
theorem not_mirrors_of_run (hstart : fromGenesis P g = .ok c)
    (hops : ∀ op ∈ ops, op.CarriesGenesis deserialize)
    (h : Filing.run P deserialize { chain := c } ops = some r) (hno : r.reorganised = false) :
    ¬ r.chain.MirrorsCanonical P := by
  have hr : Blockchain.Indexed P c [] := Blockchain.indexed_genesis hstart
  have hunfiled := genesis_unfiled_run (r := { chain := c }) hr hops (by simp) h hno
  exact (indexed_run (r := { chain := c }) hr hops h).genesis_missing hunfiled

/-- From a reorganisation to the next snapshot they do, if no hash is ambiguous. -/
theorem mirrors_iff_distinct (hr : r.chain.Indexed P r.filed)
    (hops : ∀ op ∈ ops, op.isSnapshot = false) (hfiled : r.filed = r.chain.iterBlocks)
    (h : r.run P deserialize ops = some r') (hr' : r'.chain.Indexed P r'.filed) :
    r'.chain.MirrorsCanonical P ↔ DistinctHashes P r'.chain.iterBlocks := by
  rw [hr'.mirrors_iff, filed_run hr hops hfiled h]
  constructor
  · exact And.left
  · intro hdistinct
    exact ⟨hdistinct, fun _ => rfl, fun _ => rfl⟩

end Filing

/-- **The four indexes mirror the canonical chain exactly when no hash is ambiguous and the blocks
filed by hash say the same as the canonical ones.** -/
theorem indexes_mirror_iff {P : Primitives} {deserialize : Bytes → Except String SnapshotState}
    {g : GenesisConfig} {c : Blockchain} {ops : List IndexOp} {r : Filing}
    (hstart : fromGenesis P g = .ok c) (hops : ∀ op ∈ ops, op.CarriesGenesis deserialize)
    (hrun : Filing.run P deserialize { chain := c } ops = some r) :
    r.chain.MirrorsCanonical P ↔
      DistinctHashes P r.chain.iterBlocks ∧ FileAlike P r.filed r.chain.iterBlocks := by
  have hr : Blockchain.Indexed P c [] := Blockchain.indexed_genesis hstart
  exact (Filing.indexed_run (r := { chain := c }) hr hops hrun).mirrors_iff

namespace IndexSample

open Scenario Blockchain

/-- Two blocks, and a heavier one beside the second. -/
def ops (c : Blockchain) : Option (List IndexOp) := do
  let (b₁, c₁) ← extend c (clock 1) 3
  let (a₂, _) ← extend c₁ (clock 2) 1
  let (b₂, _) ← extend c₁ (clock 2) 2
  return [.addBlock (clock 9) b₁, .addBlock (clock 9) a₂, .addBlockWithForkChoice (clock 9) b₂]

def deserialize (_ : Bytes) : Except String SnapshotState := .error "no payload"

def runOf (c : Blockchain) (ops : List IndexOp) : Option Filing :=
  Filing.run Reference.primitives deserialize { chain := c } ops

def ambiguous (blocks : List Block) : Bool :=
  !decide (Index.Unambiguous Block.hash heightOfBlock blocks ∧
    Index.Unambiguous (Placement.hash Reference.primitives) Placement.location (placements blocks))

end IndexSample

open IndexSample Scenario Blockchain in
/-- A reorganisation to a sibling of the second block. -/
theorem indexes_mirror_sample : ∃ c run r,
    fromGenesis Reference.primitives DoubleVote.genesis = .ok c ∧ run.length = 3 ∧
      runOf c run = some r ∧ r.chain.MirrorsCanonical Reference.primitives := by
  have hrun : (fromGenesis Reference.primitives DoubleVote.genesis).toOption.any (fun c =>
      (ops c).any fun run => decide (run.length = 3 ∧ run.all (fun op => !op.isSnapshot)) &&
        (runOf c run).any fun r => decide (r.filed = r.chain.iterBlocks) &&
          !ambiguous r.chain.iterBlocks) = true := by
    decide +kernel
  obtain ⟨c, hstart, hrest⟩ := Outcome.ok_of_any hrun
  obtain ⟨run, -, hrest⟩ := (Option.any_eq_true _ _).mp hrest
  rw [Bool.and_eq_true, decide_eq_true_eq] at hrest
  obtain ⟨⟨hlength, hplain⟩, hrest⟩ := hrest
  obtain ⟨r, hr, hrest⟩ := (Option.any_eq_true _ _).mp hrest
  simp only [Bool.and_eq_true, decide_eq_true_eq, ambiguous, Bool.not_not] at hrest
  obtain ⟨hfiled, hblock, htransaction⟩ := hrest
  have hcarry : ∀ op ∈ run, op.CarriesGenesis deserialize := by
    intro op hop
    exact IndexOp.carriesGenesis_of_plain (by simpa using List.all_eq_true.mp hplain op hop)
  refine ⟨c, run, r, hstart, hlength, hr, (indexes_mirror_iff hstart hcarry hr).mpr ?_⟩
  rw [hfiled]
  exact ⟨⟨hblock, htransaction⟩, fun _ => rfl, fun _ => rfl⟩

open IndexSample Scenario Blockchain in
/-- After one block the hash of the genesis leads nowhere. -/
theorem genesis_not_indexed : ∃ c block r,
    fromGenesis Reference.primitives DoubleVote.genesis = .ok c ∧
      runOf c [.addBlock (clock 1) block] = some r ∧
      r.chain.blockHashToHeight[c.genesis.hash]? = none ∧
      ¬ r.chain.MirrorsCanonical Reference.primitives := by
  have hrun : (fromGenesis Reference.primitives DoubleVote.genesis).toOption.any (fun c =>
      (extend c (clock 1) 3).any fun e => (runOf c [.addBlock (clock 1) e.1]).any fun r =>
        decide (r.chain.blockHashToHeight[c.genesis.hash]? = none ∧
          c.genesis ∈ r.chain.iterBlocks)) = true := by
    decide +kernel
  obtain ⟨c, hstart, hrest⟩ := Outcome.ok_of_any hrun
  obtain ⟨⟨block, _⟩, -, hrest⟩ := (Option.any_eq_true _ _).mp hrest
  obtain ⟨r, hr, hrest⟩ := (Option.any_eq_true _ _).mp hrest
  rw [decide_eq_true_eq] at hrest
  obtain ⟨hmissing, hcanonical⟩ := hrest
  refine ⟨c, block, r, hstart, hr, hmissing, ?_⟩
  intro hm
  have hentry := (hm.hashes c.genesis.hash _).mpr ⟨c.genesis, hcanonical, rfl, rfl⟩
  rw [hmissing] at hentry
  exact absurd hentry (by simp)

end Curs3d
