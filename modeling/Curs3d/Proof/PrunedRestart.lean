import Curs3d.Chain.Open
import Curs3d.Proof.FinalityChain
import Curs3d.Proof.LiveStore
import Curs3d.Proof.Pool
import Curs3d.Proof.Restart

/-!
# Restarting a pruned node

Finality prunes the block table below the watermark; opening a store reads the genesis from that
table and replays every block from the genesis on. A prune takes the genesis row with the rest,
although the cursor keeps its copy and its comment says that the genesis is never dropped, and from
a watermark of 2 on the replay has no block 1.

So a store opens to the state its node had exactly when the watermark is at most 1 and the genesis
row is there, that is, when nothing was pruned since the last full state
(`SyncNode.pruned_restart_iff`).
-/

set_option autoImplicit false

namespace Curs3d

/-! ## Heights in the tree -/

namespace BlockTree

variable {t : BlockTree} {n m : Nat} {block : Block}

/-- No block of the tree is above `n`. -/
def Below (n : Nat) (t : BlockTree) : Prop := ∀ h b, t.get h = some b → b.header.height ≤ n

theorem Below.mono (h : t.Below n) (hle : n ≤ m) : t.Below m :=
  fun hash b hb => (h hash b hb).trans hle

theorem Below.insertIgnoringErrors (h : t.Below n) (hblock : block.header.height ≤ n)
    (stake : Nat) : (Blockchain.insertIgnoringErrors t block stake).Below n := by
  simp only [Blockchain.insertIgnoringErrors]
  split
  · next hok =>
    intro hash b hb
    obtain hold | rfl := get_insert hok hb
    · exact h hash b hold
    · exact hblock
  · exact h

theorem Below.setFinalized (h : t.Below n) (hash : Bytes) {height : Nat} (hpos : 0 < height) :
    (t.setFinalized hash height).Below n := by
  intro x b hb
  rw [get_setFinalized hpos] at hb
  split at hb
  · exact h x b hb
  · cases hb

theorem below_fromGenesis {genesis : Block} (hz : genesis.header.height = 0) (n : Nat) :
    (fromGenesis genesis).Below n := by
  intro h b hb
  rw [get_fromGenesis] at hb
  split at hb
  · cases hb
    omega
  · cases hb

end BlockTree

namespace Blockchain

variable {P : Primitives} {g : GenesisConfig} {c c' d : Blockchain} {now t : Int} {block : Block}

theorem below_treeFromBlocks (accounts : ByteMap AccountState) {genesis : Block}
    {blocks : List Block} {n : Nat} (hz : genesis.header.height = 0)
    (hblocks : ∀ b ∈ blocks, b.header.height ≤ n) :
    (treeFromBlocks P accounts genesis blocks).Below n := by
  simp only [treeFromBlocks]
  apply List.foldlRecOn (motive := fun t : BlockTree => t.Below n)
  · exact BlockTree.below_fromGenesis hz n
  · intro t ht b hb
    exact ht.insertIgnoringErrors (hblocks b hb) _

/-! ## The cursor of a pruned chain -/

/-- Blocks at their heights, readable from the watermark up to the tip. -/
structure Stacked (c : Blockchain) : Prop where
  head : c.blocks.head? = some c.genesis
  heights : ∀ {k : Nat} {b : Block}, c.blocks[k]? = some b → b.header.height = k
  base : c.baseHeight ≤ c.height
  tree : c.blockTree.Below c.height

namespace Stacked

theorem length_eq (h : c.Stacked) : c.blocks.length = c.height + 1 := by
  have hpos : 0 < c.blocks.length := by
    cases hb : c.blocks with
    | nil =>
      have hhead := h.head
      rw [hb] at hhead
      cases hhead
    | cons b rest => exact Nat.succ_pos _
  simp only [height, blockCount]
  omega

theorem genesis_height (h : c.Stacked) : c.genesis.header.height = 0 := by
  have hhead := h.head
  rw [List.head?_eq_getElem?] at hhead
  exact h.heights hhead

theorem blockAtHeight_heights (h : c.Stacked) {k : Nat} {b : Block}
    (hb : c.blockAtHeight k = some b) : b.header.height = k := by
  simp only [blockAtHeight] at hb
  split at hb
  · next hk =>
    cases hb
    rw [hk]
    exact h.genesis_height
  split at hb
  · cases hb
  · exact h.heights hb

theorem straight (h : c.Stacked) (hbase : c.baseHeight ≤ 1) : c.Straight :=
  ⟨hbase, h.head, h.heights⟩

theorem latestBlock (h : c.Stacked) : c.blocks[c.height]? = some c.latestBlock := by
  have hlen := h.length_eq
  have hread : c.blockAtHeight c.height = c.blocks[c.height]? := by
    simp only [blockAtHeight]
    split
    · next hz => rw [hz, ← List.head?_eq_getElem?, h.head]
    · rw [if_neg (Nat.not_lt.mpr h.base)]
  simp only [Blockchain.latestBlock, hread]
  rw [List.getElem?_eq_getElem (by omega)]
  rfl

theorem of_spine (h : c.Stacked) (hs : c'.spine = c.spine) : c'.Stacked := by
  have hg : c'.genesis = c.genesis := congrArg Spine.genesis hs
  have hb : c'.blocks = c.blocks := congrArg Spine.blocks hs
  have hbase : c'.baseHeight = c.baseHeight := congrArg Spine.baseHeight hs
  have ht : c'.blockTree = c.blockTree := congrArg Spine.blockTree hs
  have hheight : c'.height = c.height := by simp only [height, blockCount, hb]
  refine ⟨?_, ?_, ?_, ?_⟩
  · rw [hb, hg]
    exact h.head
  · rw [hb]
    exact h.heights
  · rw [hbase, hheight]
    exact h.base
  · rw [ht, hheight]
    exact h.tree

/-- What an accepted block adds. -/
theorem addBlock (h : c.Stacked) (hok : (c.addBlock P now block).1 = .ok ()) :
    (c.addBlock P now block).2.Stacked ∧
      (c.addBlock P now block).2.blocks = c.blocks ++ [block] ∧
      (c.addBlock P now block).2.height = c.height + 1 ∧ block.header.height = c.height + 1 := by
  obtain ⟨hfollows, stake, hspine⟩ := addBlock_ok_spine hok
  have hblocks : (c.addBlock P now block).2.blocks = c.blocks ++ [block] :=
    congrArg Spine.blocks hspine
  have hgenesis : (c.addBlock P now block).2.genesis = c.genesis := congrArg Spine.genesis hspine
  have hbase : (c.addBlock P now block).2.baseHeight = c.baseHeight :=
    congrArg Spine.baseHeight hspine
  have htree : (c.addBlock P now block).2.blockTree =
      insertIgnoringErrors c.blockTree block stake := congrArg Spine.blockTree hspine
  have hnext : block.header.height = c.height + 1 := by
    rw [hfollows.height, h.heights h.latestBlock]
  have hlen := h.length_eq
  have hheight : (c.addBlock P now block).2.height = c.height + 1 := by
    simp only [height, blockCount] at hlen ⊢
    rw [hblocks, List.length_append, List.length_singleton]
    omega
  refine ⟨⟨?_, ?_, ?_, ?_⟩, hblocks, hheight, hnext⟩
  · rw [hblocks, hgenesis, List.head?_append, h.head]
    rfl
  · intro k b hb
    rw [hblocks] at hb
    obtain hk | hk := Nat.lt_or_ge k c.blocks.length
    · rw [List.getElem?_append_left hk] at hb
      exact h.heights hb
    · rw [List.getElem?_append_right hk, List.getElem?_singleton] at hb
      split at hb
      · cases hb
        omega
      · cases hb
  · rw [hbase, hheight]
    exact h.base.trans (Nat.le_succ _)
  · rw [htree, hheight]
    exact (h.tree.mono (Nat.le_succ _)).insertIgnoringErrors (Nat.le_of_eq hnext) stake

/-- A vote finalizes a block of the tree, so the watermark stays below the tip. -/
theorem finalized_le (h : c.Stacked) {vote : FinalityVote} {finalized : FinalizedBlock}
    {after : Blockchain} (hv : c.addFinalityVote P vote = (some finalized, after)) :
    0 < finalized.height ∧ finalized.height ≤ c.height := by
  obtain hcase | ⟨snapshot, hsnapshot, ⟨_, -, hcase⟩ | ⟨_, _, hadd, hcase⟩⟩ :=
    addFinalityVote_cases P c vote
  · rw [hcase] at hv
    cases hv
  · rw [hcase] at hv
    cases hv
  · rw [hcase] at hv
    cases hv
    obtain ⟨hlt, -, -, hfinalized⟩ := FinalityTracker.finalized_of_addVote_some hadd
    obtain ⟨b, hb, hheight, -⟩ := votable_of_snapshot hsnapshot
    have hbelow := h.tree _ _ hb
    rw [hfinalized]
    dsimp only
    exact ⟨by omega, by omega⟩

end Stacked

/-- What a finalizing vote leaves of the cursor and the tree. -/
theorem addFinalityVote_some_spine {vote : FinalityVote} {finalized : FinalizedBlock}
    (hv : c.addFinalityVote P vote = (some finalized, c')) :
    c'.genesis = c.genesis ∧ c'.blocks = c.blocks ∧
      c'.blockTree = c.blockTree.setFinalized finalized.hash finalized.height ∧
      c'.baseHeight = max c.baseHeight ((c.pruneFrom finalized.height).getD 0) := by
  obtain hcase | ⟨_, -, ⟨_, -, hcase⟩ | ⟨tracker, _, hadd, hcase⟩⟩ := addFinalityVote_cases P c vote
  · rw [hcase] at hv
    cases hv
  · rw [hcase] at hv
    cases hv
  · rw [hcase] at hv
    cases hv
    have hspine := @maybePruneFinalized_spine { c with
        finalityTracker := tracker
        blockTree := c.blockTree.setFinalized finalized.hash finalized.height } finalized.height
    refine ⟨congrArg Spine.genesis hspine, congrArg Spine.blocks hspine,
      congrArg Spine.blockTree hspine, ?_⟩
    simp only [maybePruneFinalized, pruneFrom]
    cases c.pruneKeepBlocks with
    | none => simp
    | some keep =>
      dsimp only
      split <;> split <;> simp only [Option.getD_some, Option.getD_none] <;> omega

theorem Stacked.addFinalityVote (h : c.Stacked) (vote : FinalityVote) :
    (c.addFinalityVote P vote).2.Stacked := by
  cases hresult : c.addFinalityVote P vote with
  | mk result after =>
    cases result with
    | none =>
      obtain ⟨-, hspine⟩ | ⟨_, -, ⟨tracker, -, -, hspine⟩ | ⟨_, _, _, -, hsome, -⟩⟩ :=
        addFinalityVote_spine_cases P c vote
      · rw [hresult] at hspine
        exact h.of_spine hspine
      · rw [hresult] at hspine
        have hmoved : ({ c with finalityTracker := tracker } : Blockchain).Stacked :=
          ⟨h.head, h.heights, h.base, h.tree⟩
        exact hmoved.of_spine hspine
      · rw [hresult] at hsome
        cases hsome
    | some finalized =>
      obtain ⟨hgenesis, hblocks, htree, hbase⟩ := addFinalityVote_some_spine hresult
      obtain ⟨hpos, hle⟩ := h.finalized_le hresult
      have hheight : after.height = c.height := by simp only [height, blockCount, hblocks]
      refine ⟨?_, ?_, ?_, ?_⟩
      · rw [hblocks, hgenesis]
        exact h.head
      · rw [hblocks]
        exact h.heights
      · have hkept := h.base
        rw [hbase, hheight]
        simp only [pruneFrom]
        cases c.pruneKeepBlocks with
        | none => simpa using hkept
        | some keep =>
          dsimp only
          split
          · simp only [Option.getD_some]
            omega
          · simpa using hkept
      · rw [htree, hheight]
        exact h.tree.setFinalized _ hpos

/-! ## The table of a chain -/

theorem map_filterMap_of_key {α : Type} {f : Nat → Option α} {key : α → Nat}
    (hkey : ∀ k a, f k = some a → key a = k) (l : List Nat) :
    (l.filterMap f).map key = l.filter fun k => (f k).isSome := by
  induction l with
  | nil => rfl
  | cons k rest ih =>
    cases hf : f k with
    | none => simp [hf, ih]
    | some a => simp [hf, ih, hkey k a hf]

/-- The blocks of a chain, written to an empty table, are read back at their heights. -/
theorem Stacked.getBlock_replaceBlocks (h : c.Stacked) (storage : BlockStorage) (k : Nat) :
    (storage.replaceBlocks c.iterBlocks).getBlock k = c.blockAtHeight k := by
  have hkey : ∀ k b, c.blockAtHeight k = some b → b.header.height = k :=
    fun k b hb => h.blockAtHeight_heights hb
  have hnodup : (c.iterBlocks.map fun b => b.header.height).Nodup := by
    rw [iterBlocks, map_filterMap_of_key hkey]
    exact List.nodup_range.filter _
  cases hread : c.blockAtHeight k with
  | some b =>
    have hmem : b ∈ c.iterBlocks := by
      rw [iterBlocks, List.mem_filterMap]
      refine ⟨k, ?_, hread⟩
      rw [List.mem_range, blockCount]
      simp only [blockAtHeight] at hread
      split at hread
      · next hz =>
        rw [hz, h.length_eq]
        exact Nat.succ_pos _
      split at hread
      · cases hread
      · exact (List.getElem?_eq_some_iff.mp hread).1
    have hfold := KeyMap.getElem?_foldl_insert_of_mem (fun b : Block => b.header.height) id
      c.iterBlocks (∅ : HeightMap Block) hnodup hmem
    rw [hkey k b hread] at hfold
    exact hfold
  | none =>
    cases hget : (storage.replaceBlocks c.iterBlocks).getBlock k with
    | none => rfl
    | some b =>
      -- a block of the table is one the chain reads at its height
      obtain ⟨hmem, hheight⟩ := mem_of_getBlock_replaceBlocks storage hget
      rw [iterBlocks, List.mem_filterMap] at hmem
      obtain ⟨j, -, hj⟩ := hmem
      rw [← hkey j b hj, hheight, hread] at hj
      cases hj

theorem Stacked.blockAtHeight_tip (h : c.Stacked) : c.blockAtHeight c.height = some c.latestBlock := by
  have hlatest := h.latestBlock
  simp only [blockAtHeight]
  split
  · next hz =>
    rw [hz, ← List.head?_eq_getElem?, h.head] at hlatest
    exact hlatest
  · rw [if_neg (Nat.not_lt.mpr h.base), hlatest]

theorem Stacked.headHeight_replaceBlocks (h : c.Stacked) (storage : BlockStorage) :
    (storage.replaceBlocks c.iterBlocks).headHeight = some c.height := by
  have hcount : c.blockCount = c.height + 1 := h.length_eq
  have hlast : c.iterBlocks.getLast? = some c.latestBlock := by
    rw [iterBlocks, hcount, List.range_succ, List.filterMap_append]
    simp [h.blockAtHeight_tip]
  simp only [BlockStorage.replaceBlocks, hlast, Option.map_some]
  rw [h.heights h.latestBlock]

/-- The tables a chain of configuration `g` that slashed nobody has on disk. -/
structure OnDisk (g : GenesisConfig) (c : Blockchain) (s : Storage) : Prop where
  config : s.chainConfig = some g
  schema : s.schemaVersion = some CURRENT_SCHEMA_VERSION
  evidence : s.evidence = ∅
  head : s.blocks.getHeight = some c.height
  blocks : ∀ k, 1 ≤ k → s.blocks.getBlock k = c.blockAtHeight k
  genesis : ∀ b, s.blocks.getBlock 0 = some b → b = c.genesis

namespace OnDisk

variable {s : Storage}

/-- A full state restores the genesis row. -/
theorem writeFullState (h : OnDisk g c s) (hc : c.Stacked) (hg : c.genesisConfig = g) :
    OnDisk g c (s.writeFullState P c) ∧
      ((s.writeFullState P c).blocks.getBlock 0).isSome := by
  have hget := hc.getBlock_replaceBlocks s.blocks
  refine ⟨⟨congrArg some hg, rfl, h.evidence, hc.headHeight_replaceBlocks s.blocks, ?_, ?_⟩, ?_⟩
  · intro k _
    exact hget k
  · intro b hb
    have hzero := (hget 0).symm.trans hb
    exact (Option.some.inj hzero).symm
  · show ((s.blocks.replaceBlocks c.iterBlocks).getBlock 0).isSome
    rw [hget]
    rfl

theorem congr (h : OnDisk g c s) (hheight : c'.height = c.height) (hgenesis : c'.genesis = c.genesis)
    (hread : ∀ k, 1 ≤ k → c'.blockAtHeight k = c.blockAtHeight k) : OnDisk g c' s := by
  refine ⟨h.config, h.schema, h.evidence, ?_, ?_, ?_⟩
  · rw [hheight]
    exact h.head
  · intro k hk
    rw [hread k hk]
    exact h.blocks k hk
  · rw [hgenesis]
    exact h.genesis

theorem of_spine (h : OnDisk g c s) (hs : c'.spine = c.spine) : OnDisk g c' s := by
  have hg : c'.genesis = c.genesis := congrArg Spine.genesis hs
  have hb : c'.blocks = c.blocks := congrArg Spine.blocks hs
  have hbase : c'.baseHeight = c.baseHeight := congrArg Spine.baseHeight hs
  refine h.congr ?_ hg ?_
  · simp only [height, blockCount, hb]
  · intro k _
    simp only [blockAtHeight, hg, hb, hbase]

/-- The row of a block on top of the chain. -/
theorem putBlock (h : OnDisk g c s) (hc : c.Stacked) (hblocks : c'.blocks = c.blocks ++ [block])
    (hgenesis : c'.genesis = c.genesis) (hbase : c'.baseHeight = c.baseHeight)
    (hnext : block.header.height = c.height + 1) :
    OnDisk g c' (s.commit P (.putBlock block)) := by
  have hlen := hc.length_eq
  have hget : ∀ k, (s.commit P (.putBlock block)).blocks.getBlock k =
      if c.height + 1 = k then some block else s.blocks.getBlock k := by
    intro k
    rw [← hnext]
    exact KeyMap.getElem?_insert_eq s.blocks.blocks block.header.height k block
  refine ⟨h.config, h.schema, h.evidence, ?_, ?_, ?_⟩
  · have hheight : c'.height = block.header.height := by
      simp only [height, blockCount] at hlen hnext ⊢
      rw [hblocks, List.length_append, List.length_singleton]
      omega
    rw [hheight]
    rfl
  · intro k hk
    rw [hget, h.blocks k hk]
    simp only [blockAtHeight, hblocks, hbase, if_neg (Nat.ne_of_gt hk)]
    have hkept := hc.base
    by_cases htop : c.height + 1 = k
    · rw [if_pos htop, if_neg (by omega), List.getElem?_append_right (by omega), hlen, ← htop]
      simp
    · rw [if_neg htop]
      congr 1
      obtain hlt | hge := Nat.lt_or_ge k c.blocks.length
      · rw [List.getElem?_append_left hlt]
      · rw [List.getElem?_eq_none hge, List.getElem?_eq_none]
        rw [List.length_append, List.length_singleton]
        omega
  · intro b hb
    rw [hget, if_neg (Nat.succ_ne_zero _)] at hb
    rw [hgenesis]
    exact h.genesis b hb

/-- Pruning the rows and raising the watermark. -/
theorem prune (h : OnDisk g c s) {keepFrom : Nat} (hlt : c.baseHeight < keepFrom)
    (hblocks : c'.blocks = c.blocks) (hbase : c'.baseHeight = keepFrom) :
    OnDisk g c' (s.commit P (.pruneBlocksBelow keepFrom)) ∧
      (s.commit P (.pruneBlocksBelow keepFrom)).blocks.getBlock 0 = none := by
  have hget : ∀ k, (s.commit P (.pruneBlocksBelow keepFrom)).blocks.getBlock k =
      if keepFrom ≤ k then s.blocks.getBlock k else none := by
    intro k
    show (s.blocks.blocks.filter fun height _ => keepFrom ≤ height)[k]? = _
    rw [Std.ExtTreeMap.getElem?_filter']
    show _ = if keepFrom ≤ k then s.blocks.blocks[k]? else none
    cases s.blocks.blocks[k]? with
    | none => simp
    | some b => by_cases hk : keepFrom ≤ k <;> simp [Option.filter, hk]
  refine ⟨⟨h.config, h.schema, h.evidence, ?_, ?_, ?_⟩, ?_⟩
  · have hheight : c'.height = c.height := by simp only [height, blockCount, hblocks]
    rw [hheight]
    exact h.head
  · intro k hk
    rw [hget, h.blocks k hk]
    simp only [blockAtHeight, hblocks, hbase, if_neg (Nat.ne_of_gt hk)]
    by_cases hkeep : keepFrom ≤ k
    · rw [if_pos hkeep, if_neg (by omega), if_neg (by omega)]
    · rw [if_neg hkeep, if_pos (by omega)]
  · intro b hb
    rw [hget, if_neg (by omega)] at hb
    cases hb
  · rw [hget, if_neg (by omega)]

/-! ### Opening it -/

/-- A cursor over the tables of `c`. -/
structure Opens (c : Blockchain) (s : Storage) (cursor : BlockStoreCursor) : Prop where
  genesis : cursor.genesis = c.genesis
  count : cursor.heightCount = c.height + 1
  base : cursor.baseHeight = if 0 < c.height then max c.baseHeight 1 else 0
  read : ∀ k, s.read cursor k = c.blockAtHeight k

theorem firstStored_eq (h : OnDisk g c s) (hc : c.Stacked) :
    BlockStoreCursor.firstStored s.blocks (c.height + 1) =
      if 0 < c.height then max c.baseHeight 1 else 0 := by
  have hlen := hc.length_eq
  have hbase := hc.base
  have hstored : ∀ k, 1 ≤ k → k ≤ c.height → ((s.blocks.getBlock k).isSome ↔ c.baseHeight ≤ k) := by
    intro k hk hle
    rw [h.blocks k hk]
    simp only [blockAtHeight, if_neg (Nat.ne_of_gt hk)]
    by_cases hlow : k < c.baseHeight
    · simp [if_pos hlow]
      omega
    · rw [if_neg hlow, List.getElem?_eq_getElem (by omega)]
      simp
      omega
  simp only [BlockStoreCursor.firstStored, Nat.add_sub_cancel]
  by_cases hpos : 0 < c.height
  · rw [if_pos hpos]
    have hfind : (List.range' 1 c.height).find? (fun k => (s.blocks.getBlock k).isSome) =
        some (max c.baseHeight 1) := by
      rw [List.find?_range'_eq_some]
      refine ⟨?_, ?_, ?_⟩
      · exact (hstored _ (by omega) (by omega)).mpr (by omega)
      · rw [List.mem_range'_1]
        omega
      · intro j hj hlt
        have hlow := (hstored j hj (by omega)).not.mpr (by omega)
        simpa using hlow
    rw [hfind]
    rfl
  · rw [if_neg hpos, Nat.eq_zero_of_not_pos hpos]
    rfl

theorem opens (h : OnDisk g c s) (hc : c.Stacked) (hrow : (s.blocks.getBlock 0).isSome)
    (cacheSize : Nat) :
    ∃ cursor, BlockStoreCursor.new s.blocks cacheSize = .ok cursor ∧ Opens c s cursor := by
  have hlen := hc.length_eq
  have hkept := hc.base
  obtain ⟨b, hb⟩ := Option.isSome_iff_exists.mp hrow
  have hgenesis := h.genesis b hb
  have hfirst := h.firstStored_eq hc
  simp only [BlockStoreCursor.new, BlockStoreCursor.newWithPersist, hb, h.head, Option.map_some,
    Option.getD_some]
  refine ⟨_, rfl, hgenesis, rfl, hfirst, ?_⟩
  intro k
  simp only [Storage.read, BlockStoreCursor.blockAt, hfirst, hgenesis]
  by_cases hz : k = 0
  · simp [hz, blockAtHeight]
  rw [if_neg hz]
  by_cases hout : c.height + 1 ≤ k ∨ k < if 0 < c.height then max c.baseHeight 1 else 0
  · rw [if_pos hout]
    simp only [blockAtHeight, if_neg hz]
    by_cases hlow : k < c.baseHeight
    · rw [if_pos hlow]
    · rw [if_neg hlow, List.getElem?_eq_none]
      split at hout <;> omega
  · -- the cache is still empty, so the disk answers
    rw [if_neg hout]
    simp only [Lru.get, Lru.empty, h.blocks k (Nat.pos_of_ne_zero hz)]
    cases c.blockAtHeight k <;> rfl

theorem slashedAddresses_eq (h : OnDisk g c s) : s.slashedAddresses P = ∅ := by
  rw [Storage.slashedAddresses, h.evidence]
  rfl

theorem whole (hc : c.Stacked) {cursor : BlockStoreCursor} (ho : Opens c s cursor) :
    s.Whole cursor := by
  have hlen := hc.length_eq
  have hkept := hc.base
  intro k hk
  rw [List.mem_range'_1, ho.base, ho.count] at hk
  rw [ho.read]
  simp only [blockAtHeight]
  split
  · rfl
  rw [if_neg (by split at hk <;> omega), List.getElem?_eq_getElem (by split at hk <;> omega)]
  rfl

end OnDisk

/-! ### The chain put together -/

section Assemble

variable {s : Storage} {cursor : BlockStoreCursor}

theorem assemble_blockAtHeight (hc : c.Stacked) (ho : OnDisk.Opens c s cursor) (k : Nat) :
    (s.assemble P g cursor).blockAtHeight k = c.blockAtHeight k := by
  have hlen := hc.length_eq
  have hkept := hc.base
  have hbase := ho.base
  by_cases hz : k = 0
  · simp only [blockAtHeight, if_pos hz]
    exact congrArg some ho.genesis
  simp only [blockAtHeight, if_neg hz, Storage.assemble, hbase, ho.count, List.getElem?_map]
  by_cases hin : k < c.height + 1
  · rw [List.getElem?_range hin, Option.map_some, ho.read]
    simp only [blockAtHeight, if_neg hz]
    by_cases hlow : k < c.baseHeight
    · rw [if_pos hlow, if_pos (by split <;> omega)]
    · rw [if_neg hlow, if_neg (by split <;> omega), List.getElem?_eq_getElem (by omega)]
      rfl
  · rw [List.getElem?_eq_none (by rw [List.length_range]; omega),
      List.getElem?_eq_none (l := c.blocks) (by omega)]
    simp

theorem assemble_height (ho : OnDisk.Opens c s cursor) :
    (s.assemble P g cursor).height = c.height := by
  simp [height, blockCount, Storage.assemble, ho.count]

/-- Nothing is missing from an unpruned cursor. -/
theorem assemble_blocks (hc : c.Stacked) (hbase : c.baseHeight ≤ 1)
    (ho : OnDisk.Opens c s cursor) : (s.assemble P g cursor).blocks = c.blocks := by
  have hlen := hc.length_eq
  refine List.ext_getElem? fun k => ?_
  simp only [Storage.assemble, ho.count, List.getElem?_map]
  obtain hin | hout := Nat.lt_or_ge k (c.height + 1)
  · rw [List.getElem?_range hin, Option.map_some, ho.read, (hc.straight hbase).blockAtHeight,
      List.getElem?_eq_getElem (by omega)]
    rfl
  · rw [List.getElem?_eq_none (by rw [List.length_range]; exact hout),
      List.getElem?_eq_none (l := c.blocks) (by omega)]
    rfl

theorem assemble_stacked (hc : c.Stacked) (hbase : c.baseHeight ≤ 1)
    (ho : OnDisk.Opens c s cursor) : (s.assemble P g cursor).Stacked := by
  have hblocks := @assemble_blocks P g c s cursor hc hbase ho
  have hheight := @assemble_height P g c s cursor ho
  have hgenesis : (s.assemble P g cursor).genesis = c.genesis := ho.genesis
  refine ⟨?_, ?_, ?_, ?_⟩
  · rw [hblocks, hgenesis]
    exact hc.head
  · rw [hblocks]
    exact hc.heights
  · rw [hheight]
    show cursor.baseHeight ≤ c.height
    rw [ho.base]
    split <;> omega
  · rw [hheight]
    apply below_treeFromBlocks
    · rw [ho.genesis]
      exact hc.genesis_height
    · intro b hb
      simp only [List.mem_filterMap, id] at hb
      obtain ⟨_, hmem, rfl⟩ := hb
      obtain ⟨k, hk, hread⟩ := List.mem_map.mp ((List.takeWhile_sublist _).subset hmem)
      rw [ho.read] at hread
      rw [List.mem_range'_1, ho.count] at hk
      rw [hc.blockAtHeight_heights hread]
      omega

end Assemble

/-! ### Its replay -/

theorem slashedValidators_rebuildBlocks {previous : Block} {blocks : List Block} {r : ReplayState} :
    (rebuildBlocks P now c previous blocks r).2.slashedValidators = c.slashedValidators := by
  have hboundary : ∀ (c : Blockchain) (height : Nat) (accounts : ByteMap AccountState),
      (c.withBoundarySnapshot height accounts).slashedValidators = c.slashedValidators := by
    intro c height accounts
    simp only [withBoundarySnapshot]
    split <;> rfl
  induction blocks generalizing c previous r with
  | nil => rfl
  | cons b rest ih =>
    rw [rebuildBlocks_cons]
    split
    · exact hboundary _ _ _
    · rw [ih]
      exact hboundary _ _ _

theorem slashedValidators_rebuildCanonicalState :
    (c.rebuildCanonicalState P now).2.slashedValidators = c.slashedValidators := by
  simp only [rebuildCanonicalState]
  split
  · rfl
  next accounts _ =>
  set started : Blockchain :=
    { c with epochSnapshots := genesisSnapshots (c.snapshotForAccounts 0 accounts) } with hstarted
  have hindexed : (started.reindexBlocks P c.iterBlocks).slashedValidators =
      c.slashedValidators := by
    have hfield := congrArg Blockchain.slashedValidators
      (@reindexBlocks_unindexed P started c.iterBlocks)
    exact hfield
  split
  · exact hindexed
  · next first rest _ =>
    have hrebuilt := @slashedValidators_rebuildBlocks P (started.reindexBlocks P c.iterBlocks) now
      first rest (genesisReplay accounts)
    rw [hindexed] at hrebuilt
    split
    · next h =>
      rw [h] at hrebuilt
      exact hrebuilt
    · next h =>
      rw [h] at hrebuilt
      change (rebuildReceiptIndexes P _).unindexed.slashedValidators = _
      rw [rebuildReceiptIndexes_unindexed]
      exact hrebuilt

/-- What a rebuild leaves of the chain besides the state. -/
theorem kept_of_rebuild {result : Except ChainError Unit}
    (hrun : c.rebuildCanonicalState P now = (result, c')) :
    c'.spine = c.spine ∧ c'.genesisConfig = c.genesisConfig ∧
      c'.slashedValidators = c.slashedValidators := by
  have hspine := @rebuildCanonicalState_spine P c now
  have hconfig := (@poolWithin_rebuildCanonicalState P c now).genesisConfig
  have hslashed := @slashedValidators_rebuildCanonicalState P c now
  rw [hrun] at hspine hconfig hslashed
  exact ⟨hspine, hconfig, hslashed⟩

/-- A replay needs block 1. -/
theorem rebuildCanonicalState_error (now : Int) {first b : Block} {rest : List Block}
    (hblocks : c.iterBlocks = first :: b :: rest)
    (hgap : b.header.height ≠ first.header.height + 1) :
    ∃ e c', c.rebuildCanonicalState P now = (.error e, c') := by
  simp only [rebuildCanonicalState]
  split
  · exact ⟨_, _, rfl⟩
  next accounts _ =>
  rw [hblocks]
  dsimp only
  split
  · exact ⟨_, _, rfl⟩
  · next r c' hrun =>
    exfalso
    rw [rebuildBlocks_cons] at hrun
    split at hrun
    · cases hrun
    · next r' hreplay =>
      simp only [replayBlock] at hreplay
      split at hreplay
      · cases hreplay
      · next hvalid => exact hgap (follows_of_validate hvalid).height

/-- A pruned cursor goes from the genesis to a block above height 1. -/
theorem Stacked.iterBlocks_gap (hc : c.Stacked) (hbase : 2 ≤ c.baseHeight) :
    ∃ b rest, c.iterBlocks = c.genesis :: b :: rest ∧
      b.header.height ≠ c.genesis.header.height + 1 := by
  have hkept := hc.base
  have hlen := hc.length_eq
  have hcount : c.blockCount = c.height + 1 := hlen
  have hsplit : c.iterBlocks = c.genesis :: (List.range' 1 c.height).filterMap c.blockAtHeight := by
    rw [iterBlocks, hcount, List.range_eq_range', List.range'_succ, List.filterMap_cons]
    rfl
  have htip : c.latestBlock ∈ (List.range' 1 c.height).filterMap c.blockAtHeight := by
    rw [List.mem_filterMap]
    refine ⟨c.height, ?_, hc.blockAtHeight_tip⟩
    rw [List.mem_range'_1]
    omega
  cases hrest : (List.range' 1 c.height).filterMap c.blockAtHeight with
  | nil =>
    rw [hrest] at htip
    cases htip
  | cons b rest =>
    refine ⟨b, rest, by rw [hsplit, hrest], ?_⟩
    have hmem : b ∈ (List.range' 1 c.height).filterMap c.blockAtHeight := by simp [hrest]
    obtain ⟨k, hk, hread⟩ := List.mem_filterMap.mp hmem
    rw [List.mem_range'_1] at hk
    have hhigh : c.baseHeight ≤ k := by
      simp only [blockAtHeight, if_neg (Nat.ne_of_gt hk.1)] at hread
      by_contra hlow
      rw [if_pos (by omega)] at hread
      cases hread
    rw [hc.blockAtHeight_heights hread, hc.genesis_height]
    omega

/-- Recomputing is about the blocks and the state alone. -/
theorem Recomputes.congr {accounts : ByteMap AccountState} (h : Recomputes P accounts t c)
    (hst : c'.Straight) (hsame : SameState c' c) (hblocks : c'.blocks = c.blocks)
    (hgenesis : c'.genesis = c.genesis) (hconfig : c'.genesisConfig = c.genesisConfig)
    (hslashed : c'.slashedValidators = c.slashedValidators) : Recomputes P accounts t c' := by
  have hheight : c'.height = c.height := by simp only [height, blockCount, hblocks]
  have hepoch : c'.epochForHeight c'.height = c.epochForHeight c.height := by
    simp only [epochForHeight, hconfig, hheight]
  have hreplay : c'.replayState = c.replayState := by
    simp only [replayState, execState, hsame.accounts, hsame.contracts, hsame.receipts,
      hsame.tokenRegistry, hsame.governance, hsame.validatorMissedEpochs]
  have hagree : ∀ {d : Blockchain}, Agrees d c' → Agrees d c := by
    intro d hd
    refine ⟨hd.config.trans hconfig, hd.slashed.trans hslashed, ?_⟩
    intro k hk
    rw [hd.blocks k (by rw [hepoch, hconfig]; exact hk), hst.blockAtHeight, hblocks,
      h.straight.blockAtHeight]
  refine ⟨hst, ?_, ?_, ?_⟩
  · rw [hepoch, hsame.epochSnapshots]
    exact h.known
  · intro d later hlater hd hsnaps
    rw [hepoch, hsame.epochSnapshots] at hsnaps
    rw [hgenesis, hblocks, hreplay]
    exact h.replay hlater (hagree hd) hsnaps
  · intro d later hlater hd hsnaps
    rw [hgenesis, hblocks, hreplay, hsame.epochSnapshots]
    apply h.rebuild hlater (hagree hd)
    rw [hsnaps]
    simp only [snapshotForAccounts, hconfig, hslashed]

/-- A chain that its own blocks account for, slashed nobody, and has the genesis of `g`. -/
structure Accounted (P : Primitives) (g : GenesisConfig) (t : Int) (c : Blockchain) : Prop where
  config : c.genesisConfig = g
  slashed : c.slashedValidators = ∅
  recomputed : ∃ accounts, accountsFromGenesis P g = .ok accounts ∧
    c.genesis = genesisBlock P g accounts ∧ (c.baseHeight ≤ 1 → Recomputes P accounts t c)

/-- The node the tables of `c` open to. -/
structure Reopened (P : Primitives) (g : GenesisConfig) (t : Int) (c c' : Blockchain) : Prop where
  stacked : c'.Stacked
  same : SameState c' c
  blocks : c'.blocks = c.blocks
  genesis : c'.genesis = c.genesis
  base : c'.baseHeight ≤ 1
  accounted : Accounted P g t c'

theorem Reopened.latestBlock (h : Reopened P g t c c') (hc : c.Stacked) :
    c'.height = c.height ∧ c'.latestBlock = c.latestBlock := by
  have hheight : c'.height = c.height := by simp only [height, blockCount, h.blocks]
  refine ⟨hheight, ?_⟩
  have htip := h.stacked.latestBlock
  rw [hheight, h.blocks, hc.latestBlock] at htip
  exact (Option.some.inj htip).symm

section Reopen

variable {s : Storage} {expected : Option GenesisConfig}

/-- **A store whose watermark is at most 1 opens**, if the genesis row is there. -/
theorem reopen_ok (h : OnDisk g c s) (hc : c.Stacked) (ha : Accounted P g t c) (hle : t ≤ now)
    (hexpected : ∀ e ∈ expected, e = g) (hbase : c.baseHeight ≤ 1)
    (hrow : (s.blocks.getBlock 0).isSome) :
    ∃ c', s.withStorage P now expected = .ok (c', s) ∧ Reopened P g now c c' := by
  obtain ⟨accounts, haccounts, hgenesis, hrecomputes⟩ := ha.recomputed
  have hrec := hrecomputes hbase
  obtain ⟨cursor, hcursor, ho⟩ := h.opens hc hrow DEFAULT_BLOCK_CACHE_SIZE
  have hstacked := @assemble_stacked P g c s cursor hc hbase ho
  have hblocks := @assemble_blocks P g c s cursor hc hbase ho
  have hslashed : (s.assemble P g cursor).slashedValidators = c.slashedValidators :=
    (h.slashedAddresses_eq (P := P)).trans ha.slashed.symm
  have hstraight : (s.assemble P g cursor).Straight := by
    apply hstacked.straight
    show cursor.baseHeight ≤ 1
    rw [ho.base]
    split <;> omega
  have haccounts' : accountsFromGenesis P c.genesisConfig = .ok accounts := by
    rw [ha.config]
    exact haccounts
  -- Every block is on the disk again, so the replay ends where the chain is.
  obtain ⟨hok, hsame⟩ := hrec.rebuildCanonicalState hle haccounts' ha.config.symm hslashed
    hstraight hblocks
  generalize hrun : (s.assemble P g cursor).rebuildCanonicalState P now = run at *
  obtain ⟨result, c'⟩ := run
  dsimp only at hok hsame
  obtain ⟨hspine, hconfig, hkept⟩ := kept_of_rebuild hrun
  subst hok
  refine ⟨c', ?_, ?_⟩
  · have hheight := h.head
    simp only [Storage.withStorage, hheight, Storage.reopen, h.config, Option.getD_some, haccounts,
      hcursor, h.schema]
    rw [if_neg (not_not.mpr hexpected), if_neg, if_neg (not_not.mpr (OnDisk.whole hc ho)), hrun]
    · rfl
    · rw [ho.genesis, hgenesis]
      exact not_not.mpr rfl
  · have hblocks' : c'.blocks = c.blocks := (congrArg Spine.blocks hspine).trans hblocks
    have hgenesis' : c'.genesis = c.genesis := (congrArg Spine.genesis hspine).trans ho.genesis
    have hst' : c'.Straight := hstraight.of_spine hspine
    have hconfig' : c'.genesisConfig = g := hconfig
    have hslashed' : c'.slashedValidators = c.slashedValidators := hkept.trans hslashed
    refine ⟨hstacked.of_spine hspine, hsame, hblocks', hgenesis', hst'.base, hconfig',
      hslashed'.trans ha.slashed, accounts, haccounts, hgenesis'.trans hgenesis, ?_⟩
    intro _
    exact (hrec.mono hle).congr hst' hsame hblocks' hgenesis' (hconfig'.trans ha.config.symm) hslashed'

/-- **Any other store does not open**, and says why. -/
theorem reopen_error (now : Int) (h : OnDisk g c s) (hc : c.Stacked) (ha : Accounted P g t c)
    (hexpected : ∀ e ∈ expected, e = g)
    (hpruned : ¬ (c.baseHeight ≤ 1 ∧ (s.blocks.getBlock 0).isSome)) :
    s.withStorage P now expected = .error (.blockStore .missingGenesis) ∨
      ∃ e, s.withStorage P now expected = .error (.chain e) := by
  obtain ⟨accounts, haccounts, hgenesis, -⟩ := ha.recomputed
  have hheight := h.head
  simp only [Storage.withStorage, hheight, Storage.reopen, h.config, Option.getD_some, haccounts]
  rw [if_neg (not_not.mpr hexpected)]
  cases hrow : s.blocks.getBlock 0 with
  | none =>
    left
    simp only [BlockStoreCursor.new, BlockStoreCursor.newWithPersist, hrow]
  | some b =>
    right
    have hbase : 2 ≤ c.baseHeight := by
      by_contra hlow
      exact hpruned ⟨by omega, by simp [hrow]⟩
    obtain ⟨cursor, hcursor, ho⟩ := h.opens hc (by simp [hrow]) DEFAULT_BLOCK_CACHE_SIZE
    obtain ⟨b, rest, hblocks, hgap⟩ := hc.iterBlocks_gap hbase
    have hiter : (s.assemble P g cursor).iterBlocks = c.iterBlocks := by
      have hcount : (s.assemble P g cursor).blockCount = c.blockCount := by
        simp only [blockCount, hc.length_eq]
        simp [Storage.assemble, ho.count]
      simp only [iterBlocks, hcount]
      apply List.filterMap_congr
      intro k _
      exact assemble_blockAtHeight hc ho k
    obtain ⟨e, c', hrun⟩ := rebuildCanonicalState_error (P := P) now
      (hiter.trans hblocks) hgap
    refine ⟨e, ?_⟩
    simp only [hcursor]
    rw [if_neg, if_neg (not_not.mpr (OnDisk.whole hc ho)), hrun]
    rw [ho.genesis, hgenesis]
    exact not_not.mpr rfl

end Reopen

/-! ## The node -/

/-- A vote moves finality and the watermark, and nothing of the state. -/
theorem addFinalityVote_state (vote : FinalityVote) :
    SameState (c.addFinalityVote P vote).2 c ∧
      (c.addFinalityVote P vote).2.genesisConfig = c.genesisConfig ∧
      (c.addFinalityVote P vote).2.slashedValidators = c.slashedValidators := by
  obtain ⟨_, _, _, h⟩ := addFinalityVote_leaves P c vote
  rw [h]
  exact ⟨⟨rfl, rfl, rfl, rfl, rfl, rfl, rfl⟩, rfl, rfl⟩

/-- A watermark only goes up. -/
theorem Accounted.congr (h : Accounted P g t c) (hst : c'.baseHeight ≤ 1 → c'.Straight)
    (hsame : SameState c' c) (hblocks : c'.blocks = c.blocks) (hgenesis : c'.genesis = c.genesis)
    (hbase : c.baseHeight ≤ c'.baseHeight) (hconfig : c'.genesisConfig = c.genesisConfig)
    (hslashed : c'.slashedValidators = c.slashedValidators) : Accounted P g t c' := by
  obtain ⟨accounts, haccounts, hroot, hrec⟩ := h.recomputed
  refine ⟨hconfig.trans h.config, hslashed.trans h.slashed, accounts, haccounts,
    hgenesis.trans hroot, ?_⟩
  intro hlow
  exact (hrec (hbase.trans hlow)).congr (hst hlow) hsame hblocks hgenesis hconfig hslashed

theorem Accounted.addBlock (h : Accounted P g t c) (hle : t ≤ now)
    (hok : (c.addBlock P now block).1 = .ok ()) : Accounted P g now (c.addBlock P now block).2 := by
  obtain ⟨accounts, haccounts, hroot, hrec⟩ := h.recomputed
  obtain ⟨-, _, hspine⟩ := addBlock_ok_spine hok
  obtain ⟨_, haccepted⟩ := accepted_of_addBlock hok
  refine ⟨haccepted.config.trans h.config, haccepted.slashed.trans h.slashed, accounts, haccounts,
    (congrArg Spine.genesis hspine).trans hroot, ?_⟩
  intro hlow
  have hbase : (c.addBlock P now block).2.baseHeight = c.baseHeight :=
    congrArg Spine.baseHeight hspine
  rw [hbase] at hlow
  exact (hrec hlow).addBlock hle hok

theorem Accounted.later (h : Accounted P g t c) (hle : t ≤ now) : Accounted P g now c := by
  obtain ⟨accounts, haccounts, hroot, hrec⟩ := h.recomputed
  exact ⟨h.config, h.slashed, accounts, haccounts, hroot, fun hlow => (hrec hlow).mono hle⟩

end Blockchain

namespace SyncNode

open Blockchain

variable {P : Primitives} {g : GenesisConfig} {x : SyncNode} {now t : Int}

/-- A node whose tables hold its chain. -/
structure Backed (P : Primitives) (g : GenesisConfig) (t : Int) (x : SyncNode) : Prop where
  stacked : x.chain.Stacked
  disk : Blockchain.OnDisk g x.chain x.storage
  accounted : Accounted P g t x.chain

/-- The clock reading of a call. -/
def Op.reading : Op → Option Int
  | .addBlock now _ | .reopen now _ => some now
  | _ => none

/-- A refused block leaves the chain as it was. -/
def Traceless (P : Primitives) : SyncNode → List Op → Prop
  | _, [] => True
  | x, op :: rest =>
    (match op with
      | .addBlock now block => (x.chain.addBlock P now block).1 = .ok () ∨
          (x.chain.addBlock P now block).2 = x.chain
      | _ => True) ∧ Traceless P (x.step P op) rest

instance decidableTraceless : (x : SyncNode) → (ops : List Op) → Decidable (Traceless P x ops)
  | _, [] => inferInstanceAs (Decidable True)
  | x, op :: rest =>
    have := decidableTraceless (x.step P op) rest
    match op with
    | .addBlock now block => inferInstanceAs (Decidable
        (((x.chain.addBlock P now block).1 = .ok () ∨
          (x.chain.addBlock P now block).2 = x.chain) ∧
            Traceless P (x.step P (.addBlock now block)) rest))
    | .addFinalityVote vote =>
      inferInstanceAs (Decidable (True ∧ Traceless P (x.step P (.addFinalityVote vote)) rest))
    | .persistFullState =>
      inferInstanceAs (Decidable (True ∧ Traceless P (x.step P .persistFullState) rest))
    | .setPruneKeepBlocks keep =>
      inferInstanceAs (Decidable (True ∧ Traceless P (x.step P (.setPruneKeepBlocks keep)) rest))
    | .reopen now expected =>
      inferInstanceAs (Decidable (True ∧ Traceless P (x.step P (.reopen now expected)) rest))

theorem backed_create {c : Blockchain} {s : Storage}
    (h : Storage.withStorage P {} now (some g) = .ok (c, s)) (t : Int) :
    Backed P g t { chain := c, storage := s } := by
  simp only [Storage.withStorage, BlockStorage.getHeight, Option.getD_some] at h
  split at h
  · cases h
  · next c' hstart =>
    cases h
    obtain ⟨accounts, haccounts, hrec⟩ := recomputes_genesis hstart t
    obtain ⟨hblocks, hconfig⟩ := blocks_of_genesis hstart
    have hgenesis := hstart
    simp only [fromGenesis, haccounts] at hgenesis
    have hstacked : c.Stacked := by
      refine ⟨hrec.straight.head, hrec.straight.heights, ?_, ?_⟩
      · cases hgenesis
        exact Nat.zero_le _
      · cases hgenesis
        exact BlockTree.below_fromGenesis rfl _
    have hslashed : c.slashedValidators = ∅ := by
      cases hgenesis
      rfl
    have hroot : c.genesis = genesisBlock P g accounts := by
      cases hgenesis
      rfl
    have hget := hstacked.getBlock_replaceBlocks {}
    refine ⟨hstacked, ⟨congrArg some hconfig, rfl, rfl, hstacked.headHeight_replaceBlocks {},
      fun k _ => hget k, ?_⟩, hconfig, hslashed, accounts, haccounts, hroot, fun _ => hrec⟩
    intro b hb
    exact (Option.some.inj ((hget 0).symm.trans hb)).symm

theorem Backed.addBlock {block : Block} (h : Backed P g t x) (hle : t ≤ now)
    (hquiet : (x.chain.addBlock P now block).1 = .ok () ∨
      (x.chain.addBlock P now block).2 = x.chain) :
    Backed P g now (x.addBlock P now block) := by
  simp only [SyncNode.addBlock]
  cases hresult : x.chain.addBlock P now block with
  | mk result c =>
    rw [hresult] at hquiet
    cases result with
    | error e =>
      obtain hbad | rfl := hquiet
      · cases hbad
      · exact ⟨h.stacked, h.disk, h.accounted.later hle⟩
    | ok =>
      have hok : (x.chain.addBlock P now block).1 = .ok () := by rw [hresult]
      obtain ⟨hstacked, hblocks, -, hnext⟩ := h.stacked.addBlock hok
      obtain ⟨-, _, hspine⟩ := addBlock_ok_spine hok
      have haccounted := h.accounted.addBlock hle hok
      rw [hresult] at hstacked hblocks hspine haccounted
      have hdisk := h.disk.putBlock (P := P) h.stacked hblocks (congrArg Spine.genesis hspine)
        (congrArg Spine.baseHeight hspine) hnext
      dsimp only
      split
      · exact ⟨hstacked, (hdisk.writeFullState hstacked haccounted.config).1, haccounted⟩
      · exact ⟨hstacked, hdisk, haccounted⟩

theorem Backed.addFinalityVote (h : Backed P g t x) (vote : FinalityVote) :
    Backed P g t (x.addFinalityVote P vote) := by
  have hstacked := h.stacked.addFinalityVote (P := P) vote
  obtain ⟨hsame, hconfig, hslashed⟩ := @addFinalityVote_state P x.chain vote
  simp only [SyncNode.addFinalityVote]
  cases hresult : x.chain.addFinalityVote P vote with
  | mk result c =>
    rw [hresult] at hstacked hsame hconfig hslashed
    cases result with
    -- Nothing final: the cursor stays where it is, and so does the disk.
    | none =>
      have hcursor : c.genesis = x.chain.genesis ∧ c.blocks = x.chain.blocks ∧
          c.baseHeight = x.chain.baseHeight := by
        obtain ⟨-, hspine⟩ | ⟨_, -, ⟨_, -, -, hspine⟩ | ⟨_, _, _, -, hsome, -⟩⟩ :=
          addFinalityVote_spine_cases P x.chain vote
        · rw [hresult] at hspine
          exact ⟨congrArg Spine.genesis hspine, congrArg Spine.blocks hspine,
            congrArg Spine.baseHeight hspine⟩
        · rw [hresult] at hspine
          exact ⟨congrArg Spine.genesis hspine, congrArg Spine.blocks hspine,
            congrArg Spine.baseHeight hspine⟩
        · rw [hresult] at hsome
          cases hsome
      obtain ⟨hgenesis, hblocks, hbase⟩ := hcursor
      refine ⟨hstacked, h.disk.congr ?_ hgenesis ?_,
        h.accounted.congr hstacked.straight hsame hblocks hgenesis (Nat.le_of_eq hbase.symm) hconfig hslashed⟩
      · simp only [height, blockCount, hblocks]
      · intro k _
        simp only [blockAtHeight, hgenesis, hblocks, hbase]
    -- Finality writes its height, and may prune the disk to the new base.
    | some finalized =>
      obtain ⟨hgenesis, hblocks, -, hbase⟩ := addFinalityVote_some_spine hresult
      have hraised : x.chain.baseHeight ≤ c.baseHeight := by
        rw [hbase]
        exact Nat.le_max_left _ _
      have haccounted := h.accounted.congr hstacked.straight hsame hblocks hgenesis hraised hconfig hslashed
      have hdisk : Blockchain.OnDisk g x.chain (x.storage.commit P (.putFinalizedHeight finalized.height)) :=
        ⟨h.disk.config, h.disk.schema, h.disk.evidence, h.disk.head, h.disk.blocks, h.disk.genesis⟩
      refine ⟨hstacked, ?_, haccounted⟩
      dsimp only
      cases hprune : x.chain.pruneFrom finalized.height with
      | none =>
        rw [hprune, Option.getD_none, Nat.max_zero] at hbase
        refine hdisk.congr ?_ hgenesis ?_
        · simp only [height, blockCount, hblocks]
        · intro k _
          simp only [blockAtHeight, hgenesis, hblocks, hbase]
      | some keepFrom =>
        have hlt : x.chain.baseHeight < keepFrom := by
          simp only [pruneFrom] at hprune
          split at hprune
          · cases hprune
          · split at hprune
            · next hlt =>
              cases hprune
              exact hlt
            · cases hprune
        rw [hprune, Option.getD_some, Nat.max_eq_right (Nat.le_of_lt hlt)] at hbase
        exact (hdisk.prune hlt hblocks hbase).1

theorem Backed.reopen (h : Backed P g t x) (hle : t ≤ now) (expected : Option GenesisConfig) :
    Backed P g now (x.reopen P now expected) := by
  simp only [SyncNode.reopen]
  cases hresult : x.storage.withStorage P now expected with
  | error e => exact ⟨h.stacked, h.disk, h.accounted.later hle⟩
  | ok opened =>
    have hexpected : ∀ e ∈ expected, e = g := by
      by_contra hother
      simp only [Storage.withStorage, h.disk.head, Storage.reopen, h.disk.config, Option.getD_some,
        if_pos hother] at hresult
      cases hresult
    by_cases hpruned : x.chain.baseHeight ≤ 1 ∧ (x.storage.blocks.getBlock 0).isSome
    · obtain ⟨c, hopen, hr⟩ :=
        reopen_ok h.disk h.stacked h.accounted hle hexpected hpruned.1 hpruned.2
      rw [hresult] at hopen
      cases hopen
      refine ⟨hr.stacked, h.disk.congr (hr.latestBlock h.stacked).1 hr.genesis ?_, hr.accounted⟩
      intro k _
      rw [(hr.stacked.straight hr.base).blockAtHeight,
        (h.stacked.straight hpruned.1).blockAtHeight, hr.blocks]
    · exfalso
      obtain hmissing | ⟨e, herror⟩ :=
        reopen_error now h.disk h.stacked h.accounted hexpected hpruned
      · rw [hresult] at hmissing
        cases hmissing
      · rw [hresult] at herror
        cases herror

/-- **One call** keeps the tables with the chain. -/
theorem Backed.step {op : Op} (h : Backed P g t x) (hclock : ∀ u ∈ op.reading, t ≤ u)
    (hquiet : Traceless P x [op]) : Backed P g (op.reading.getD t) (x.step P op) := by
  cases op with
  | addBlock now block => exact h.addBlock (hclock now rfl) hquiet.1
  | addFinalityVote vote => exact h.addFinalityVote vote
  | persistFullState =>
    exact ⟨h.stacked, (h.disk.writeFullState h.stacked h.accounted.config).1, h.accounted⟩
  | setPruneKeepBlocks keep =>
    have hstacked : ({ x.chain with pruneKeepBlocks := keep } : Blockchain).Stacked :=
      ⟨h.stacked.head, h.stacked.heights, h.stacked.base, h.stacked.tree⟩
    exact ⟨hstacked, h.disk.congr rfl rfl fun _ _ => rfl,
      h.accounted.congr hstacked.straight ⟨rfl, rfl, rfl, rfl, rfl, rfl, rfl⟩ rfl rfl le_rfl rfl rfl⟩
  | reopen now expected => exact h.reopen (hclock now rfl) expected

theorem Backed.run {ops : List Op} (h : Backed P g t x)
    (hclock : (t :: (ops.filterMap Op.reading ++ [now])).Pairwise (· ≤ ·))
    (hquiet : Traceless P x ops) : Backed P g now (x.run P ops) := by
  induction ops generalizing x t with
  | nil =>
    have hle : t ≤ now := by simpa using hclock
    exact ⟨h.stacked, h.disk, h.accounted.later hle⟩
  | cons op rest ih =>
    have hstep : Backed P g (op.reading.getD t) (x.step P op) := by
      apply h.step ?_ ⟨hquiet.1, trivial⟩
      intro u hu
      apply (List.pairwise_cons.mp hclock).1
      simp only [Option.mem_def] at hu
      simp [hu]
    apply ih hstep ?_ hquiet.2
    cases hreading : op.reading with
    | none => simpa [List.filterMap_cons, hreading] using hclock
    | some u =>
      simp only [List.filterMap_cons, hreading, List.cons_append] at hclock
      exact (List.pairwise_cons.mp hclock).2

/-- Opening the store gives a chain with the tip and the state of `c`. -/
def Restarts (P : Primitives) (now : Int) (expected : Option GenesisConfig) (s : Storage)
    (c : Blockchain) : Prop :=
  ∃ c' s', s.withStorage P now expected = .ok (c', s') ∧ c'.height = c.height ∧
    c'.latestBlock.hash = c.latestBlock.hash ∧ c'.accounts = c.accounts ∧
    c'.contracts = c.contracts

/-- **When a pruned node can restart.** -/
theorem pruned_restart_iff {P : Primitives} {g : GenesisConfig} {c₀ : Blockchain} {s₀ : Storage}
    {x : SyncNode} {ops : List Op} {started now : Int} {expected : Option GenesisConfig}
    (hstart : Storage.withStorage P {} started (some g) = .ok (c₀, s₀))
    (hrun : x = SyncNode.run P { chain := c₀, storage := s₀ } ops)
    (hclock : (ops.filterMap Op.reading ++ [now]).Pairwise (· ≤ ·))
    (hquiet : Traceless P { chain := c₀, storage := s₀ } ops)
    (hexpected : ∀ e ∈ expected, e = g) :
    Restarts P now expected x.storage.flush x.chain ↔
      x.chain.baseHeight ≤ 1 ∧ (x.storage.blocks.getBlock 0).isSome := by
  have hbacked : Backed P g now x := by
    rw [hrun]
    exact (backed_create hstart _).run (pairwise_head_cons hclock (by simp)) hquiet
  constructor
  · rintro ⟨c', s', hopen, -⟩
    by_contra hpruned
    obtain hmissing | ⟨e, herror⟩ :=
      reopen_error now hbacked.disk hbacked.stacked hbacked.accounted hexpected hpruned
    · rw [Storage.flush, hmissing] at hopen
      cases hopen
    · rw [Storage.flush, herror] at hopen
      cases hopen
  · intro ⟨hbase, hrow⟩
    obtain ⟨c', hopen, hr⟩ :=
      reopen_ok hbacked.disk hbacked.stacked hbacked.accounted le_rfl hexpected hbase hrow
    obtain ⟨hheight, hlatest⟩ := hr.latestBlock hbacked.stacked
    refine ⟨c', x.storage, hopen, hheight, ?_, hr.same.accounts, hr.same.contracts⟩
    rw [hlatest]

namespace Sample

open Scenario RestartSample

/-- Two blocks of the only validator, with `keep` blocks to be kept, and a vote that finalizes the
`voted`-th. -/
def ops (keep voted : Nat) (calls : List (Int × Block)) : List Op :=
  .setPruneKeepBlocks (some keep) :: calls.map (fun e => .addBlock e.1 e.2) ++
    ((calls.drop (voted - 1)).take 1).map fun e =>
      .addFinalityVote (FinalityVote.new Reference.primitives e.2.hash voted voted (key 1))

def steps : List (Int × UInt8) := [(clock 1, 1), (clock 2, 1)]

/-- A new directory. -/
def create : Except OpenError (Blockchain × Storage) :=
  Storage.withStorage Reference.primitives {} (clock 0) (some config)

def nodeAfter (created : Blockchain × Storage) (ops : List Op) : SyncNode :=
  SyncNode.run Reference.primitives { chain := created.1, storage := created.2 } ops

end Sample

open Sample Scenario RestartSample in
/-- The prune takes the genesis row, and the next full state brings it back. -/
theorem pruned_restart_sample : ∃ created calls, create = .ok created ∧
    script created.1 steps = some calls ∧
      (nodeAfter created (ops 1 2 calls ++ [.persistFullState])).chain.baseHeight = 1 ∧
      Restarts Reference.primitives (clock 9) (some config)
        (nodeAfter created (ops 1 2 calls ++ [.persistFullState])).storage.flush
        (nodeAfter created (ops 1 2 calls ++ [.persistFullState])).chain := by
  have hrun : create.toOption.any (fun created => (script created.1 steps).any fun calls =>
      let run := ops 1 2 calls ++ [.persistFullState]
      decide ((run.filterMap Op.reading ++ [clock 9]).Pairwise (· ≤ ·) ∧
        Traceless Reference.primitives { chain := created.1, storage := created.2 } run ∧
        (nodeAfter created run).chain.baseHeight = 1 ∧
        ((nodeAfter created run).storage.blocks.getBlock 0).isSome)) = true := by
    decide +kernel
  obtain ⟨created, hcreate, hrest⟩ := Outcome.ok_of_any hrun
  obtain ⟨calls, hscript, hrest⟩ := (Option.any_eq_true _ _).mp hrest
  rw [decide_eq_true_eq] at hrest
  obtain ⟨hclock, hquiet, hbase, hrow⟩ := hrest
  refine ⟨created, calls, hcreate, hscript, hbase, ?_⟩
  exact (pruned_restart_iff hcreate rfl hclock hquiet (by simp)).mpr
    ⟨Nat.le_of_eq hbase, hrow⟩

open Sample Scenario RestartSample in
/-- Without that full state the node does not start: its genesis is gone from the disk. -/
theorem pruned_genesis_stops_restart : ∃ created calls, create = .ok created ∧
    script created.1 steps = some calls ∧
      (nodeAfter created (ops 1 2 calls)).chain.pruneKeepBlocks = some 1 ∧
      ∀ c, ¬ Restarts Reference.primitives (clock 9) (some config)
        (nodeAfter created (ops 1 2 calls)).storage.flush c := by
  have hrun : create.toOption.any (fun created => (script created.1 steps).any fun calls =>
      decide ((nodeAfter created (ops 1 2 calls)).chain.pruneKeepBlocks = some 1) &&
      match (nodeAfter created (ops 1 2 calls)).storage.withStorage Reference.primitives (clock 9)
          (some config) with
      | .error e => decide (e = .blockStore .missingGenesis)
      | .ok _ => false) = true := by
    decide +kernel
  obtain ⟨created, hcreate, hrest⟩ := Outcome.ok_of_any hrun
  obtain ⟨calls, hscript, hrest⟩ := (Option.any_eq_true _ _).mp hrest
  rw [Bool.and_eq_true, decide_eq_true_eq] at hrest
  obtain ⟨hkeep, hfails⟩ := hrest
  refine ⟨created, calls, hcreate, hscript, hkeep, ?_⟩
  rintro c ⟨c', s', hopen, -⟩
  rw [Storage.flush] at hopen
  rw [hopen] at hfails
  cases hfails

end SyncNode

end Curs3d
