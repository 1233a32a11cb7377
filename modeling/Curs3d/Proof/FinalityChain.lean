import Curs3d.Proof.Voting
import Curs3d.Proof.Tracker

/-!
# Finality over whole runs

Finality is kept twice, in the tracker and in the block tree. `Anchored` ties the two together
with the history of finalized blocks: the tree is sound, both name the same height, and the
finalized blocks form a line that ends at the tree's finalized block. Adding a block, the fork
choice and a vote keep it (`Anchored.addBlock`, `Anchored.forkChoice`, `Anchored.vote`).

A restart rebuilds the tree from the stored blocks with nothing finalized, and the tracker from
the stored height. It keeps the two together only while nothing is finalized.
-/

set_option autoImplicit false

namespace Curs3d

open Ancestry

/-- Tracker, tree and the blocks finalized so far (newest first) agree. -/
structure Anchored (s : Spine) (genesis : Block) (history : List FinalizedBlock) : Prop where
  sound : s.blockTree.Sound genesis
  genesis : s.genesis = genesis
  height : s.blockTree.finalizedHeight = s.finalityTracker.finalizedHeight
  line : ∀ f ∈ history, Reaches s.blockTree.ParentOf s.blockTree.finalizedHash f.hash
  chain : history.Pairwise fun newer older => Reaches s.blockTree.ParentOf newer.hash older.hash
  latest : ∀ f, history.head? = some f → 0 < f.height ∧
    f.hash = s.finalityTracker.finalizedHash ∧ f.height = s.finalityTracker.finalizedHeight
  hash : 0 < s.finalityTracker.finalizedHeight →
    s.blockTree.finalizedHash = s.finalityTracker.finalizedHash

variable {P : Primitives} {s : Spine} {genesis : Block} {history : List FinalizedBlock}

/-- Before the first finalization the tree names the genesis. -/
theorem Anchored.finalizedHash_of_zero (ha : Anchored s genesis history)
    (hz : s.finalityTracker.finalizedHeight = 0) : s.blockTree.finalizedHash = genesis.hash := by
  obtain ⟨f, hf, hheight⟩ := ha.sound.finalized
  exact ha.sound.root hf (by rw [hheight, ha.height, hz])

theorem Anchored.history_nil_of_zero (ha : Anchored s genesis history)
    (hz : s.finalityTracker.finalizedHeight = 0) : history = [] := by
  cases hh : history with
  | nil => rfl
  | cons f rest =>
    have := ha.latest f (by rw [hh]; rfl)
    omega

/-! ## Insertions -/

/-- Inserting a block keeps everything: the tree only grows. -/
theorem Anchored.insert (ha : Anchored s genesis history) {block : Block} {stake : Nat}
    {tree : BlockTree} {switched : Bool}
    (h : s.blockTree.insert block stake = .ok (tree, switched)) :
    Anchored { s with blockTree := tree } genesis history := by
  have hg := BlockTree.insert_grows h
  obtain ⟨hhash, hheight⟩ := BlockTree.insert_finalized h
  refine ⟨ha.sound.insert h, ha.genesis, hheight.trans ha.height, ?_,
    ha.chain.imp fun hr => hg.reaches hr, ha.latest, ?_⟩
  · intro f hf
    show Reaches tree.ParentOf tree.finalizedHash f.hash
    rw [hhash]
    exact hg.reaches (ha.line f hf)
  · intro hpos
    exact hhash.trans (ha.hash hpos)

theorem Anchored.insertIgnoringErrors (ha : Anchored s genesis history) (block : Block)
    (stake : Nat) :
    Anchored { s with blockTree := Blockchain.insertIgnoringErrors s.blockTree block stake }
      genesis history := by
  unfold Blockchain.insertIgnoringErrors
  split
  · next h => exact ha.insert h
  · exact ha

/-- The cursor may be replaced by any that starts at the genesis. -/
theorem Anchored.cursor (ha : Anchored s genesis history) (blocks : List Block) :
    Anchored { s with blocks } genesis history :=
  ⟨ha.sound, ha.genesis, ha.height, ha.line, ha.chain, ha.latest, ha.hash⟩

theorem Anchored.reorg (ha : Anchored s genesis history) :
    Anchored { s with
      blocks := s.blockTree.canonicalChain
      genesis := s.blockTree.canonicalChain.head?.getD s.genesis } genesis history := by
  obtain ⟨b, hb⟩ := ha.sound.tip
  have hhead := BlockTree.head?_canonicalChain ha.sound.toLinked hb
  refine ⟨ha.sound, ?_, ha.height, ha.line, ha.chain, ha.latest, ha.hash⟩
  show s.blockTree.canonicalChain.head?.getD s.genesis = genesis
  rw [hhead]
  rfl

/-- Every finalized block is on the tree's canonical chain. -/
theorem Anchored.onCanonicalChain (ha : Anchored s genesis history) {f : FinalizedBlock}
    (hf : f ∈ history) : s.blockTree.isOnCanonicalChain f.hash = true := by
  obtain ⟨b, hb⟩ := ha.sound.tip
  refine (BlockTree.isDescendantOf_iff ha.sound.toLinked hb).mpr ?_
  exact Relation.ReflTransGen.trans ha.sound.final (ha.line f hf)

/-- A cursor rebuilt from the tree holds every finalized block. -/
theorem Anchored.mem_canonicalChain (ha : Anchored s genesis history) {f : FinalizedBlock}
    (hf : f ∈ history) : f.hash ∈ s.blockTree.canonicalChain.map Block.hash := by
  obtain ⟨b, hb⟩ := ha.sound.tip
  have hreach : Reaches s.blockTree.ParentOf s.blockTree.canonicalTip f.hash :=
    Relation.ReflTransGen.trans ha.sound.final (ha.line f hf)
  obtain ⟨x, hx⟩ := ha.sound.toLinked.mem_of_reaches hb hreach
  have hhash := ha.sound.hash hx
  refine List.mem_map.mpr ⟨x, (BlockTree.mem_canonicalChain_iff ha.sound.toLinked).mpr ?_, hhash⟩
  rw [hhash]
  exact ⟨⟨b, hb⟩, hreach, hx⟩

/-! ## Votes -/

/-- What a counted vote was checked for. -/
theorem votable_of_snapshot {c : Blockchain} {vote : FinalityVote} {snapshot : EpochSnapshot}
    (h : c.votableSnapshot vote = some snapshot) :
    ∃ b, c.blockTree.get vote.blockHash = some b ∧ b.header.height = vote.blockHeight ∧
      vote.epoch = c.epochForHeight vote.blockHeight ∧
      c.blockTree.isOnCanonicalChain vote.blockHash = true ∧
      c.epochSnapshots[c.epochForHeight vote.blockHeight]? = some snapshot := by
  unfold Blockchain.votableSnapshot at h
  split at h
  · exact absurd h (by simp)
  · next b hb =>
    split at h
    · exact absurd h (by simp)
    · next hheight =>
      split at h
      · exact absurd h (by simp)
      · next hepoch =>
        split at h
        · exact absurd h (by simp)
        · next hcanon =>
          exact ⟨b, hb, by simpa using hheight, by simpa using hepoch, by simpa using hcanon, h⟩

/-- The block a vote finalizes descends from the one finalized before. -/
theorem Anchored.descends (ha : Anchored s genesis history) {hash : Bytes} {b : Block}
    (hb : s.blockTree.get hash = some b)
    (hheight : s.finalityTracker.finalizedHeight < b.header.height)
    (hcanon : Reaches s.blockTree.ParentOf s.blockTree.canonicalTip hash) :
    Reaches s.blockTree.ParentOf hash s.blockTree.finalizedHash := by
  obtain ⟨f, hf, hfh⟩ := ha.sound.finalized
  refine ha.sound.final.of_rank_le ha.sound.ranked hcanon ?_
  rw [BlockTree.heightOf_eq hf, BlockTree.heightOf_eq hb, hfh, ha.height]
  omega

/-- A finalization moves tracker and tree together and extends the line. -/
theorem Anchored.finalize (ha : Anchored s genesis history) {hash : Bytes} {b : Block}
    {tracker : FinalityTracker} (hb : s.blockTree.get hash = some b)
    (hheight : s.finalityTracker.finalizedHeight < b.header.height)
    (hcanon : Reaches s.blockTree.ParentOf s.blockTree.canonicalTip hash)
    (hth : tracker.finalizedHash = hash) (htheight : tracker.finalizedHeight = b.header.height) :
    Anchored { s with
        finalityTracker := tracker
        blockTree := s.blockTree.setFinalized hash b.header.height }
      genesis ({ hash, height := b.header.height } :: history) := by
  have hpos : 0 < b.header.height := by omega
  have hdesc := ha.descends hb hheight hcanon
  obtain ⟨hfh, hfheight, -⟩ := @BlockTree.setFinalized_fields s.blockTree hash b.header.height
  -- everything finalized so far is an ancestor of the new block, so pruning keeps it
  have hbelow : ∀ f ∈ history, Reaches s.blockTree.ParentOf hash f.hash :=
    fun f hf => Relation.ReflTransGen.trans hdesc (ha.line f hf)
  have hkept : ∀ d a, Reaches s.blockTree.ParentOf hash d → Reaches s.blockTree.ParentOf d a →
      Reaches (s.blockTree.setFinalized hash b.header.height).ParentOf d a :=
    fun d a hd hda =>
      (BlockTree.reaches_setFinalized ha.sound.toLinked hb hpos (.inr hd) hda).1
  have hline : ∀ f ∈ history,
      Reaches (s.blockTree.setFinalized hash b.header.height).ParentOf hash f.hash :=
    fun f hf => hkept hash f.hash Relation.ReflTransGen.refl (hbelow f hf)
  refine ⟨ha.sound.setFinalized hb rfl hpos hcanon, ha.genesis, hfheight.trans htheight.symm,
    ?_, ?_, ?_, ?_⟩
  · intro f hf
    show Reaches (s.blockTree.setFinalized hash b.header.height).ParentOf
      (s.blockTree.setFinalized hash b.header.height).finalizedHash f.hash
    rw [hfh]
    rcases List.mem_cons.mp hf with rfl | hf
    · exact Relation.ReflTransGen.refl
    · exact hline f hf
  · refine List.pairwise_cons.mpr ⟨hline, ?_⟩
    refine List.Pairwise.imp_of_mem ?_ ha.chain
    intro newer older hnew _ hr
    exact hkept newer.hash older.hash (hbelow newer hnew) hr
  · intro f hf
    cases hf
    exact ⟨hpos, hth.symm, htheight.symm⟩
  · intro _
    exact hfh.trans hth.symm

/-! ## The operations of a chain -/

namespace Blockchain

variable {c : Blockchain}

theorem anchored_addBlock (ha : Anchored c.spine genesis history) (now : Int) (block : Block) :
    Anchored (c.addBlock P now block).2.spine genesis history := by
  cases hres : (c.addBlock P now block).1 with
  | error e =>
    rw [addBlock_error_spine hres]
    exact ha
  | ok u =>
    obtain ⟨-, stake, hspine⟩ := addBlock_ok_spine hres
    rw [hspine]
    exact (ha.insertIgnoringErrors block stake).cursor (c.blocks ++ [block])

theorem anchored_forkChoice (ha : Anchored c.spine genesis history) (now : Int) (block : Block) :
    Anchored (c.addBlockWithForkChoice P now block).2.spine genesis history := by
  rcases addBlockWithForkChoice_cases P c now block with h | ⟨-, -, h⟩ |
    ⟨tree, switched, -, -, hstage, h | ⟨-, -, h⟩⟩
  · rw [h]
    exact ha
  · rw [h]
    exact anchored_addBlock ha now block
  · obtain ⟨stake, hinsert⟩ := insert_of_stage hstage
    rw [h]
    exact ha.insert hinsert
  · obtain ⟨stake, hinsert⟩ := insert_of_stage hstage
    rw [h]
    exact (ha.insert hinsert).reorg

/-- The finalized block, if any, joins the history. -/
theorem anchored_vote (ha : Anchored c.spine genesis history) (vote : FinalityVote) :
    Anchored (c.addFinalityVote P vote).2.spine genesis
      ((c.addFinalityVote P vote).1.toList ++ history) := by
  rcases addFinalityVote_spine_cases P c vote with ⟨hnone, h⟩ | ⟨snapshot, hsnap,
    ⟨tracker, hvote, hnone, h⟩ | ⟨tracker, finalized, base, hvote, hsome, h⟩⟩
  · rw [hnone, h]
    exact ha
  · rw [hnone, h]
    -- the tracker moved, but not its finalized block
    obtain ⟨hheight, hhash⟩ := FinalityTracker.finalized_of_addVote_none hvote
    refine ⟨ha.sound, ha.genesis, ha.height.trans hheight.symm, ha.line, ha.chain, ?_, ?_⟩
    · intro f hf
      obtain ⟨hpos, hfh, hfheight⟩ := ha.latest f hf
      exact ⟨hpos, hfh.trans hhash.symm, hfheight.trans hheight.symm⟩
    · intro hpos
      refine (ha.hash ?_).trans hhash.symm
      show 0 < c.finalityTracker.finalizedHeight
      rw [← hheight]
      exact hpos
  · obtain ⟨b, hb, hheight, -, hcanon, -⟩ := votable_of_snapshot hsnap
    obtain ⟨tip, htip⟩ := ha.sound.tip
    have hreach := (BlockTree.isDescendantOf_iff ha.sound.toLinked htip).mp hcanon
    obtain ⟨hlt, hth, htheight, rfl⟩ := FinalityTracker.finalized_of_addVote_some hvote
    have hfinal := ha.finalize hb (by rw [hheight]; exact hlt) hreach hth
      (htheight.trans hheight.symm)
    rw [hheight] at hfinal
    rw [hsome, h]
    exact ⟨hfinal.sound, hfinal.genesis, hfinal.height, hfinal.line, hfinal.chain, hfinal.latest,
      hfinal.hash⟩

/-! ## Restarts -/

theorem restart_spine {c' : Blockchain} {now : Int} (h : c.restart P now = .ok c') :
    ∃ base ≤ max c.baseHeight 1, c'.spine =
      { genesis := c.genesis
        blocks := c.blocks
        baseHeight := base
        pruneKeepBlocks := none
        blockTree := treeFromBlocks P c.accounts c.genesis c.storedBlocks
        finalityTracker := FinalityTracker.withFinalized c.finalityTracker.finalizedHeight
          (((c.blockAtHeight c.finalityTracker.finalizedHeight).map Block.hash).getD []) } := by
  unfold restart at h
  simp only [Outcome.except_bind_eq_ok] at h
  obtain ⟨accounts, -, _, -, h⟩ := h
  split at h
  · exact absurd h (by simp)
  · next c'' hrebuilt =>
    cases h
    refine ⟨if 1 < c.blockCount then max c.baseHeight 1 else 0, by split <;> omega, ?_⟩
    have hspine := congrArg (fun r => r.2.spine) hrebuilt
    dsimp only at hspine
    rw [rebuildCanonicalState_spine] at hspine
    exact hspine.symm

/-- The rebuilt tree is sound and has only the genesis finalized. -/
theorem sound_treeFromBlocks (accounts : ByteMap AccountState) (blocks : List Block)
    (hheight : genesis.header.height = 0) :
    (treeFromBlocks P accounts genesis blocks).Sound genesis ∧
      (treeFromBlocks P accounts genesis blocks).finalizedHeight = 0 := by
  unfold treeFromBlocks
  refine List.foldlRecOn (motive := fun t : BlockTree => t.Sound genesis ∧ t.finalizedHeight = 0)
    _ _ ⟨BlockTree.sound_fromGenesis hheight, rfl⟩ ?_
  rintro t ⟨hs, hz⟩ b -
  unfold insertIgnoringErrors
  split
  · next h => exact ⟨hs.insert h, (BlockTree.insert_finalized h).2.trans hz⟩
  · exact ⟨hs, hz⟩

/-- A restart before the first finalization keeps the two in step, and gives the tracker the
genesis hash. -/
theorem anchored_restart {c' : Blockchain} {now : Int} (ha : Anchored c.spine genesis history)
    (hz : c.finalityTracker.finalizedHeight = 0) (h : c.restart P now = .ok c') :
    Anchored c'.spine genesis history ∧ c'.finalityTracker.finalizedHash = genesis.hash := by
  obtain ⟨base, -, hspine⟩ := restart_spine h
  have hg : c.genesis = genesis := ha.genesis
  have hnil := ha.history_nil_of_zero hz
  obtain ⟨hs, hfz⟩ := @sound_treeFromBlocks P genesis c.accounts c.storedBlocks ha.sound.genesis.2
  have htracker : c'.finalityTracker = FinalityTracker.withFinalized 0 genesis.hash := by
    have := congrArg Spine.finalityTracker hspine
    dsimp only at this
    rw [hz] at this
    rw [show c'.finalityTracker = c'.spine.finalityTracker from rfl, this, ← hg]
    rfl
  rw [hspine, hg, hnil]
  constructor
  · refine ⟨hs, rfl, ?_, by simp, List.Pairwise.nil, by simp, ?_⟩
    · exact hfz.trans hz.symm
    · intro hpos
      exact absurd (hz ▸ hpos) (by simp)
  · rw [htracker]
    rfl

end Blockchain

/-! ## Runs -/

/-- The operations finality is stated over. -/
inductive ChainOp where
  | addBlock (now : Int) (block : Block)
  | addBlockWithForkChoice (now : Int) (block : Block)
  | addFinalityVote (vote : FinalityVote)
  | restart (now : Int)

/-- A chain with the blocks its votes finalized, newest first, and whether it was reopened. -/
structure ChainRun where
  chain : Blockchain
  finalized : List FinalizedBlock := []
  reopened : Bool := false

namespace ChainRun

def step (P : Primitives) (r : ChainRun) : ChainOp → ChainRun
  | .addBlock now block => { r with chain := (r.chain.addBlock P now block).2 }
  | .addBlockWithForkChoice now block =>
    { r with chain := (r.chain.addBlockWithForkChoice P now block).2 }
  | .addFinalityVote vote => { r with
      chain := (r.chain.addFinalityVote P vote).2
      finalized := (r.chain.addFinalityVote P vote).1.toList ++ r.finalized }
  | .restart now => match r.chain.restart P now with
    | .ok c => { r with chain := c, reopened := true }
    -- the node does not come up; the flushed state stays as it is
    | .error _ => r

def run (P : Primitives) (r : ChainRun) (ops : List ChainOp) : ChainRun := ops.foldl (step P) r

/-- Every restart of the run comes before the first finalization. -/
def RestartsBeforeFinality (P : Primitives) : ChainRun → List ChainOp → Prop
  | _, [] => True
  | r, op :: rest =>
    (match op with
      | .restart _ => r.chain.finalityTracker.finalizedHeight = 0
      | _ => True) ∧ RestartsBeforeFinality P (r.step P op) rest

/-- The hash the tracker starts from: empty on a fresh chain, the genesis on a reopened one. -/
structure Holds (r : ChainRun) (genesis : Block) : Prop where
  anchored : Anchored r.chain.spine genesis r.finalized
  start : r.chain.finalityTracker.finalizedHeight = 0 →
    r.chain.finalityTracker.finalizedHash = if r.reopened then genesis.hash else []

variable {r : ChainRun} {ops : List ChainOp}

theorem holds_start {g : GenesisConfig} {c : Blockchain} (h : fromGenesis P g = .ok c) :
    Holds { chain := c } c.genesis := by
  unfold fromGenesis at h
  simp only [Outcome.except_bind_eq_ok] at h
  obtain ⟨accounts, -, hc⟩ := h
  cases hc
  refine ⟨⟨BlockTree.sound_fromGenesis rfl, rfl, rfl, by simp, List.Pairwise.nil, by simp, ?_⟩, ?_⟩
  · intro hpos
    exact absurd hpos (by simp [Blockchain.spine])
  · intro _
    rfl

/-- The tracker of a chain whose operation finalized nothing keeps its hash while at height 0. -/
theorem tracker_of_addBlock (c : Blockchain) (now : Int) (block : Block) :
    (c.addBlock P now block).2.finalityTracker = c.finalityTracker := by
  cases hres : (c.addBlock P now block).1 with
  | error e => exact congrArg Spine.finalityTracker (Blockchain.addBlock_error_spine hres)
  | ok u =>
    obtain ⟨-, stake, hspine⟩ := Blockchain.addBlock_ok_spine hres
    exact congrArg Spine.finalityTracker hspine

theorem tracker_of_forkChoice (c : Blockchain) (now : Int) (block : Block) :
    (c.addBlockWithForkChoice P now block).2.finalityTracker = c.finalityTracker := by
  rcases Blockchain.addBlockWithForkChoice_cases P c now block with h | ⟨-, -, h⟩ |
    ⟨tree, switched, -, -, -, h | ⟨-, -, h⟩⟩
  · exact congrArg Spine.finalityTracker h
  · rw [h]
    exact tracker_of_addBlock c now block
  · exact congrArg Spine.finalityTracker h
  · exact congrArg Spine.finalityTracker h

/-- A vote that leaves the tracker at height 0 leaves its hash. -/
theorem tracker_of_vote {c : Blockchain} {vote : FinalityVote}
    (hz : (c.addFinalityVote P vote).2.finalityTracker.finalizedHeight = 0) :
    c.finalityTracker.finalizedHeight = 0 ∧
      (c.addFinalityVote P vote).2.finalityTracker.finalizedHash =
        c.finalityTracker.finalizedHash := by
  have htracker : ∀ {t : FinalityTracker},
      (c.addFinalityVote P vote).2.spine.finalityTracker = t → t.finalizedHeight = 0 :=
    fun ht => ht ▸ hz
  rcases Blockchain.addFinalityVote_spine_cases P c vote with ⟨-, h⟩ | ⟨snapshot, -,
    ⟨tracker, hvote, -, h⟩ | ⟨tracker, finalized, base, hvote, -, h⟩⟩
  · have ht := congrArg Spine.finalityTracker h
    exact ⟨htracker ht, congrArg FinalityTracker.finalizedHash ht⟩
  · have ht := congrArg Spine.finalityTracker h
    obtain ⟨hheight, hhash⟩ := FinalityTracker.finalized_of_addVote_none hvote
    exact ⟨hheight.symm.trans (htracker ht),
      (congrArg FinalityTracker.finalizedHash ht).trans hhash⟩
  · have hz' := htracker (congrArg Spine.finalityTracker h)
    obtain ⟨hlt, -, hheight, -⟩ := FinalityTracker.finalized_of_addVote_some hvote
    dsimp only at hz'
    omega

/-- One operation. -/
theorem Holds.step (hh : r.Holds genesis) {op : ChainOp}
    (hop : match op with
      | .restart _ => r.chain.finalityTracker.finalizedHeight = 0
      | _ => True) : (r.step P op).Holds genesis := by
  cases op with
  | addBlock now block =>
    refine ⟨Blockchain.anchored_addBlock hh.anchored now block, ?_⟩
    show (r.chain.addBlock P now block).2.finalityTracker.finalizedHeight = 0 →
      (r.chain.addBlock P now block).2.finalityTracker.finalizedHash = _
    rw [tracker_of_addBlock]
    exact hh.start
  | addBlockWithForkChoice now block =>
    refine ⟨Blockchain.anchored_forkChoice hh.anchored now block, ?_⟩
    show (r.chain.addBlockWithForkChoice P now block).2.finalityTracker.finalizedHeight = 0 →
      (r.chain.addBlockWithForkChoice P now block).2.finalityTracker.finalizedHash = _
    rw [tracker_of_forkChoice]
    exact hh.start
  | addFinalityVote vote =>
    refine ⟨Blockchain.anchored_vote hh.anchored vote, ?_⟩
    intro hz
    obtain ⟨hz', hhash⟩ := tracker_of_vote hz
    exact hhash.trans (hh.start hz')
  | restart now =>
    unfold ChainRun.step
    dsimp only
    split
    · next c h =>
      obtain ⟨ha, hhash⟩ := Blockchain.anchored_restart hh.anchored hop h
      exact ⟨ha, fun _ => by simpa using hhash⟩
    · exact hh

theorem Holds.run (hh : r.Holds genesis) (hops : r.RestartsBeforeFinality P ops) :
    (r.run P ops).Holds genesis := by
  induction ops generalizing r with
  | nil => exact hh
  | cons op rest ih => exact ih (hh.step hops.1) hops.2

/-! ## The cursor -/

/-- The hashes of the canonical cursor. -/
def cursor (r : ChainRun) : List Bytes := r.chain.blocks.map Block.hash

/-- No operation takes a finalized block off the cursor. -/
theorem Holds.cursor_step (hh : r.Holds genesis) {op : ChainOp} {f : FinalizedBlock}
    (hf : f ∈ r.finalized) (hmem : f.hash ∈ r.cursor) : f.hash ∈ (r.step P op).cursor := by
  have haccepted : ∀ now block,
      f.hash ∈ (r.chain.addBlock P now block).2.blocks.map Block.hash := by
    intro now block
    cases hres : (r.chain.addBlock P now block).1 with
    | error e =>
      have hblocks : (r.chain.addBlock P now block).2.blocks = r.chain.blocks :=
        congrArg Spine.blocks (Blockchain.addBlock_error_spine hres)
      rw [hblocks]
      exact hmem
    | ok u =>
      obtain ⟨-, stake, hspine⟩ := Blockchain.addBlock_ok_spine hres
      have hblocks : (r.chain.addBlock P now block).2.blocks = r.chain.blocks ++ [block] :=
        congrArg Spine.blocks hspine
      rw [hblocks, List.map_append]
      exact List.mem_append_left _ hmem
  cases op with
  | addBlock now block => exact haccepted now block
  | addBlockWithForkChoice now block =>
    show f.hash ∈ (r.chain.addBlockWithForkChoice P now block).2.blocks.map Block.hash
    rcases Blockchain.addBlockWithForkChoice_cases P r.chain now block with h | ⟨-, -, h⟩ |
      ⟨tree, switched, -, -, hstage, h | ⟨-, -, h⟩⟩
    · have hblocks : (r.chain.addBlockWithForkChoice P now block).2.blocks = r.chain.blocks :=
        congrArg Spine.blocks h
      rw [hblocks]
      exact hmem
    · rw [h]
      exact haccepted now block
    · have hblocks : (r.chain.addBlockWithForkChoice P now block).2.blocks = r.chain.blocks :=
        congrArg Spine.blocks h
      rw [hblocks]
      exact hmem
    · -- the new cursor is read off the tree, where every finalized block is canonical
      obtain ⟨stake, hinsert⟩ := Blockchain.insert_of_stage hstage
      have hblocks : (r.chain.addBlockWithForkChoice P now block).2.blocks = tree.canonicalChain :=
        congrArg Spine.blocks h
      rw [hblocks]
      exact (hh.anchored.insert hinsert).mem_canonicalChain hf
  | addFinalityVote vote =>
    show f.hash ∈ (r.chain.addFinalityVote P vote).2.blocks.map Block.hash
    obtain ⟨_, _, _, h⟩ := Blockchain.addFinalityVote_leaves P r.chain vote
    rw [h]
    exact hmem
  | restart now =>
    unfold ChainRun.step
    dsimp only
    split
    · next c h =>
      obtain ⟨base, -, hspine⟩ := Blockchain.restart_spine h
      have hblocks : c.blocks = r.chain.blocks := congrArg Spine.blocks hspine
      show f.hash ∈ c.blocks.map Block.hash
      rw [hblocks]
      exact hmem
    · exact hmem

theorem finalized_step {op : ChainOp} {f : FinalizedBlock} (hf : f ∈ r.finalized) :
    f ∈ (r.step P op).finalized := by
  cases op with
  | addFinalityVote vote => exact List.mem_append_right _ hf
  | restart now =>
    unfold ChainRun.step
    dsimp only
    split
    · exact hf
    · exact hf
  | addBlock now block => exact hf
  | addBlockWithForkChoice now block => exact hf

theorem Holds.cursor_run (hh : r.Holds genesis) (hops : r.RestartsBeforeFinality P ops)
    {f : FinalizedBlock} (hf : f ∈ r.finalized) (hmem : f.hash ∈ r.cursor) :
    f.hash ∈ (r.run P ops).cursor := by
  induction ops generalizing r with
  | nil => exact hmem
  | cons op rest ih =>
    exact ih (hh.step hops.1) hops.2 (finalized_step hf) (hh.cursor_step hf hmem)

theorem restartsBeforeFinality_append {before after : List ChainOp} :
    r.RestartsBeforeFinality P (before ++ after) ↔
      r.RestartsBeforeFinality P before ∧ (r.run P before).RestartsBeforeFinality P after := by
  induction before generalizing r with
  | nil => simp [RestartsBeforeFinality, run]
  | cons op rest ih =>
    simp only [List.cons_append, RestartsBeforeFinality, ih, and_assoc]
    rfl

end ChainRun

open ChainRun in
/-- **Finality is a chain** over every run that restarts only while nothing is finalized: in
every state reached the finalized blocks descend from one another, tracker and tree are at the
same height and, once a block is finalized or the chain was reopened, at the same hash; every
finalized block is on the tree's canonical chain; and one that is on the cursor stays on it. -/
theorem finality_is_a_chain {P : Primitives} {g : GenesisConfig} {c : Blockchain}
    {before after : List ChainOp} (hstart : fromGenesis P g = .ok c)
    (hops : RestartsBeforeFinality P { chain := c } (before ++ after)) :
    let r := run P { chain := c } before
    r.finalized.Pairwise (fun newer older =>
        r.chain.blockTree.isDescendantOf newer.hash older.hash = true) ∧
      (∀ f, r.finalized.head? = some f → f.hash = r.chain.finalityTracker.finalizedHash ∧
        f.height = r.chain.finalityTracker.finalizedHeight) ∧
      r.chain.blockTree.finalizedHeight = r.chain.finalityTracker.finalizedHeight ∧
      (0 < r.chain.finalityTracker.finalizedHeight ∨ r.reopened = true →
        r.chain.blockTree.finalizedHash = r.chain.finalityTracker.finalizedHash) ∧
      (∀ f ∈ r.finalized, r.chain.blockTree.isOnCanonicalChain f.hash = true) ∧
      (∀ f ∈ r.finalized, f.hash ∈ r.cursor →
        f.hash ∈ (run P { chain := c } (before ++ after)).cursor) := by
  intro r
  obtain ⟨hbefore, hafter⟩ := restartsBeforeFinality_append.mp hops
  have hh : r.Holds c.genesis := (holds_start hstart).run hbefore
  have ha := hh.anchored
  refine ⟨?_, ?_, ha.height, ?_, fun f hf => ha.onCanonicalChain hf, ?_⟩
  · refine List.Pairwise.imp_of_mem ?_ ha.chain
    intro newer older hnewer _ hr
    obtain ⟨fb, hfb, -⟩ := ha.sound.finalized
    obtain ⟨b, hb⟩ := ha.sound.toLinked.mem_of_reaches hfb (ha.line newer hnewer)
    exact (BlockTree.isDescendantOf_iff ha.sound.toLinked hb).mpr hr
  · intro f hf
    exact (ha.latest f hf).2
  · rintro (hpos | hre)
    · exact ha.hash hpos
    · rcases Nat.eq_zero_or_pos r.chain.finalityTracker.finalizedHeight with hz | hpos
      · have htree := ha.finalizedHash_of_zero hz
        have htracker := hh.start hz
        rw [hre] at htracker
        exact htree.trans htracker.symm
      · exact ha.hash hpos
  · intro f hf hmem
    unfold run
    rw [List.foldl_append]
    exact hh.cursor_run hafter hf hmem

namespace RestartSample

open Scenario

/-- One validator, and epochs of one block, so that block 1 is already in a voting epoch. -/
def config : GenesisConfig where
  chainId := [1]
  minimumStake := 1
  epochLength := 1
  allocations := [allocation 1 0 1]

def add (block : Block) : ChainOp := .addBlock (clock 9) block

def voteFor (block : Block) : ChainOp :=
  .addFinalityVote (FinalityVote.new Reference.primitives block.hash block.header.height
    block.header.height (key 1))

/-- Two blocks of the validator on `c`. -/
def blocks (c : Blockchain) : Option (Block × Block) := do
  let (b₁, c₁) ← extend c (clock 1) 1
  let (b₂, _) ← extend c₁ (clock 2) 1
  return (b₁, b₂)

def after (c : Blockchain) (ops : List ChainOp) : ChainRun :=
  ChainRun.run Reference.primitives { chain := c } ops

end RestartSample

open RestartSample ChainRun in
/-- A restart, block 1, the vote that finalizes it, then block 2: the hypotheses hold, block 1 is
finalized, and it is on the cursor before and after block 2. -/
theorem finality_is_a_chain_sample : ∃ c b₁ b₂, fromGenesis Reference.primitives config = .ok c ∧
    (after c [.restart (Scenario.clock 1), add b₁, voteFor b₁]).finalized = [⟨b₁.hash, 1⟩] ∧
    b₁.hash ∈ (after c ([.restart (Scenario.clock 1), add b₁, voteFor b₁] ++ [add b₂])).cursor := by
  have hrun : (fromGenesis Reference.primitives config).toOption.any (fun c =>
      (blocks c).any fun b => decide (c.finalityTracker.finalizedHeight = 0) &&
        (decide ((after c [.restart (Scenario.clock 1), add b.1, voteFor b.1]).finalized =
            [⟨b.1.hash, 1⟩]) &&
          decide (b.1.hash ∈
            (after c [.restart (Scenario.clock 1), add b.1, voteFor b.1]).cursor))) = true := by
    decide +kernel
  obtain ⟨c, hc, hb⟩ := Outcome.ok_of_any hrun
  obtain ⟨⟨b₁, b₂⟩, -, hb⟩ := (Option.any_eq_true _ _).mp hb
  simp only [Bool.and_eq_true, decide_eq_true_eq] at hb
  obtain ⟨hz, hfinal, hcursor⟩ := hb
  refine ⟨c, b₁, b₂, hc, hfinal, ?_⟩
  have hchain := @finality_is_a_chain Reference.primitives config c
    [.restart (Scenario.clock 1), add b₁, voteFor b₁] [add b₂] hc
    ⟨hz, trivial, trivial, trivial, trivial⟩
  exact hchain.2.2.2.2.2 ⟨b₁.hash, 1⟩ (by rw [show (run Reference.primitives { chain := c }
    [.restart (Scenario.clock 1), add b₁, voteFor b₁]).finalized = _ from hfinal]; simp) hcursor

open RestartSample ChainRun in
/-- Block 1 is added and finalized, then the node restarts: the tracker is at height 1, the
rebuilt tree at height 0. -/
theorem restart_forgets_tree_finality :
    ¬ ∀ (P : Primitives) (g : GenesisConfig) (c : Blockchain) (ops : List ChainOp),
        fromGenesis P g = .ok c →
        (run P { chain := c } ops).chain.blockTree.finalizedHeight =
          (run P { chain := c } ops).chain.finalityTracker.finalizedHeight := by
  intro h
  have hrun : (fromGenesis Reference.primitives config).toOption.any (fun c =>
      (blocks c).any fun b => decide
        ((after c [add b.1, voteFor b.1, .restart (Scenario.clock 9)]).chain.blockTree.finalizedHeight
          ≠ (after c [add b.1, voteFor b.1,
            .restart (Scenario.clock 9)]).chain.finalityTracker.finalizedHeight)) = true := by
    decide +kernel
  obtain ⟨c, hc, hb⟩ := Outcome.ok_of_any hrun
  obtain ⟨b, -, hb⟩ := (Option.any_eq_true _ _).mp hb
  rw [decide_eq_true_eq] at hb
  exact hb (h Reference.primitives config c _ hc)

end Curs3d
