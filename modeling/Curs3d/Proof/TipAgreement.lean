import Curs3d.Proof.FinalityChain
import Curs3d.Proof.Linear

/-!
# The tree and the cursor

A chain holds its canonical blocks twice: the cursor appends every accepted block, the tree moves
its tip only when the weight grows. `InStep` is what keeps the two the same list: the tip of the
tree is a leaf, so a block that does not build on it cannot become the tip without leaving the old
one, and then the fork choice rebuilds the cursor from the tree.

The invariant is lost where a child of the tip is appended to the cursor and the tree does not
follow (`Advances`), and nowhere else: the guards of a reorganisation never fire on a chain in step.
-/

set_option autoImplicit false

namespace Curs3d

open Ancestry

namespace BlockTree

variable {t t' : BlockTree} {genesis block tip : Block} {stake : Nat}

/-! ## Walks in two trees -/

/-- Two trees that hold the same blocks on the way down from `d` walk the same way. -/
theorem lineageFrom_of_path {fuel : Nat} {d : Bytes}
    (h : ∀ a, Reaches t.ParentOf d a → t'.get a = t.get a) :
    t'.lineageFrom fuel d = t.lineageFrom fuel d := by
  induction fuel generalizing d with
  | zero => rfl
  | succ fuel ih =>
    unfold lineageFrom
    rw [h d Relation.ReflTransGen.refl]
    cases hd : t.get d with
    | none => rfl
    | some b =>
      dsimp only
      by_cases hzero : b.header.height = 0
      · rw [if_pos hzero, if_pos hzero]
      · rw [if_neg hzero, if_neg hzero]
        have hparent : t.ParentOf d b.header.prevHash := ⟨b, hd, Nat.pos_of_ne_zero hzero, rfl⟩
        rw [ih fun a ha => h a (Relation.ReflTransGen.head hparent ha)]

theorem lineage_of_path {d : Bytes} (h : ∀ a, Reaches t.ParentOf d a → t'.get a = t.get a) :
    t'.lineage d = t.lineage d := by
  unfold lineage
  rw [h d Relation.ReflTransGen.refl]
  cases t.get d with
  | none => rfl
  | some b => exact lineageFrom_of_path h

/-- A tree that grew walks from its old blocks as it did before. -/
theorem Grows.path (hg : t.Grows t') (hl : t.Linked genesis) {d : Bytes} {b : Block}
    (hd : t.get d = some b) : ∀ a, Reaches t.ParentOf d a → t'.get a = t.get a := by
  intro a ha
  obtain ⟨x, hx⟩ := hl.mem_of_reaches hd ha
  rw [hx, hg a x hx]

theorem canonicalChain_of_path (htip : t'.canonicalTip = t.canonicalTip)
    (h : ∀ a, Reaches t.ParentOf t.canonicalTip a → t'.get a = t.get a) :
    t'.canonicalChain = t.canonicalChain := by
  unfold canonicalChain
  rw [htip, lineage_of_path h]

/-- A new tip on top of the old one is one more block of the canonical chain. -/
theorem canonicalChain_on_tip (hl : t.Linked genesis) (htip : t.get t.canonicalTip = some tip)
    (hgrows : t.Grows t') (hget : t'.get block.hash = some block)
    (hnew : t'.canonicalTip = block.hash) (hprev : block.header.prevHash = t.canonicalTip)
    (hheight : block.header.height = tip.header.height + 1) :
    t'.canonicalChain = t.canonicalChain ++ [block] := by
  have hbelow : t'.lineageFrom (tip.header.height + 1) t.canonicalTip =
      t.lineage t.canonicalTip := by
    rw [lineageFrom_of_path (hgrows.path hl htip), lineage, htip]
  have hlineage : t'.lineage block.hash = (block.hash, block) :: t.lineage t.canonicalTip := by
    have hstart : t'.lineage block.hash = t'.lineageFrom (block.header.height + 1) block.hash := by
      rw [lineage, hget]
    rw [hstart, lineageFrom, hget]
    dsimp only
    rw [if_neg (by omega), hprev, hheight, hbelow]
  unfold canonicalChain
  rw [hnew, hlineage]
  simp

/-- A walk meets only what it reaches. -/
theorem reaches_of_mem_lineageFrom {fuel : Nat} {d : Bytes} {e : Bytes × Block}
    (h : e ∈ t.lineageFrom fuel d) : Reaches t.ParentOf d e.1 := by
  induction fuel generalizing d with
  | zero => exact absurd h (by simp [lineageFrom])
  | succ fuel ih =>
    unfold lineageFrom at h
    cases hd : t.get d with
    | none => exact absurd h (by simp [hd])
    | some b =>
      simp only [hd, List.mem_cons] at h
      rcases h with rfl | h
      · exact Relation.ReflTransGen.refl
      · by_cases hzero : b.header.height = 0
        · exact absurd h (by simp [hzero])
        · rw [if_neg hzero] at h
          exact Relation.ReflTransGen.head ⟨b, hd, Nat.pos_of_ne_zero hzero, rfl⟩ (ih h)

theorem pairwise_lineageFrom {fuel : Nat} {d : Bytes} :
    (t.lineageFrom fuel d).Pairwise fun x y => Reaches t.ParentOf x.1 y.1 := by
  induction fuel generalizing d with
  | zero => exact List.Pairwise.nil
  | succ fuel ih =>
    unfold lineageFrom
    cases hd : t.get d with
    | none => exact List.Pairwise.nil
    | some b =>
      dsimp only
      by_cases hzero : b.header.height = 0
      · rw [if_pos hzero]
        exact List.pairwise_singleton _ _
      · rw [if_neg hzero]
        refine List.pairwise_cons.mpr ⟨?_, ih⟩
        intro e he
        exact Relation.ReflTransGen.head ⟨b, hd, Nat.pos_of_ne_zero hzero, rfl⟩
          (reaches_of_mem_lineageFrom he)

/-- The common ancestor of two blocks that descend from `f` descends from `f`: it is the first
block on the way down from the second that is also on the way down from the first. -/
theorem commonAncestor_above (hl : t.Linked genesis) {a b f : Bytes} {x y : Block}
    (ha : t.get a = some x) (hb : t.get b = some y) (haf : Reaches t.ParentOf a f)
    (hbf : Reaches t.ParentOf b f) :
    ∃ k z, t.commonAncestor a b = some k ∧ t.get k = some z ∧ Reaches t.ParentOf k f := by
  obtain ⟨fb, hf⟩ := hl.mem_of_reaches ha haf
  have hmem : ∀ {d : Bytes} {w : Block}, t.get d = some w → Reaches t.ParentOf d f →
      (f, fb) ∈ t.lineage d :=
    fun hd hr => (mem_lineage_iff hl).mpr ⟨⟨_, hd⟩, hr, hf⟩
  have hshared : ((t.lineage a).any fun e => e.1 = f) = true :=
    List.any_eq_true.mpr ⟨_, hmem ha haf, by simp⟩
  unfold commonAncestor
  cases hfind : ((t.lineage b).map Prod.fst).find? fun h => (t.lineage a).any fun e => e.1 = h with
  | none =>
    have := List.find?_eq_none.mp hfind f (List.mem_map.mpr ⟨_, hmem hb hbf, rfl⟩)
    exact absurd hshared this
  | some k =>
    obtain ⟨-, before, after, hsplit, hbefore⟩ := List.find?_eq_some_iff_append.mp hfind
    have hk : k ∈ (t.lineage b).map Prod.fst := by
      rw [hsplit]
      simp
    obtain ⟨⟨k', z⟩, hkz, rfl⟩ := List.mem_map.mp hk
    refine ⟨k', z, rfl, ((mem_lineage_iff hl).mp hkz).2.2, ?_⟩
    -- `f` itself qualifies, so it does not stand before the block that was found
    have hfmem : f ∈ k' :: after := by
      have hin : f ∈ (t.lineage b).map Prod.fst := List.mem_map.mpr ⟨_, hmem hb hbf, rfl⟩
      rw [hsplit] at hin
      rcases List.mem_append.mp hin with hin | hin
      · have hnot := hbefore f hin
        rw [hshared] at hnot
        exact absurd hnot (by simp)
      · exact hin
    have hsorted : ((t.lineage b).map Prod.fst).Pairwise (Reaches t.ParentOf) := by
      rw [List.pairwise_map, lineage, hb]
      exact pairwise_lineageFrom
    rw [hsplit] at hsorted
    rcases List.mem_cons.mp hfmem with rfl | hafter
    · exact Relation.ReflTransGen.refl
    · exact (List.pairwise_cons.mp (List.pairwise_append.mp hsorted).2.1).1 f hafter

/-! ## Insertions and the tip -/

/-- Nothing hangs under the tip. -/
def TipIsLeaf (t : BlockTree) : Prop :=
  ∀ h b, t.get h = some b → 0 < b.header.height → b.header.prevHash ≠ t.canonicalTip

theorem weightOf_attach {parent : BlockEntry} {weight : Nat}
    (hparent : t.entries[block.header.prevHash]? = some parent) (h : Bytes) :
    (t.attach block parent weight).weightOf h =
      if block.hash = h then weight else t.weightOf h := by
  unfold weightOf attach
  dsimp only
  rw [KeyMap.getElem?_insert_eq]
  split
  · rfl
  · rw [KeyMap.getElem?_insert_eq]
    split
    · next heq => rw [← heq, hparent]; rfl
    · rfl

/-- A child of the tip of a sound tree passes every check of `insert`; what is left is whether its
hash is new and whether the weight grows. -/
theorem insert_on_tip (hs : t.Sound genesis) (htip : t.get t.canonicalTip = some tip)
    (hprev : block.header.prevHash = t.canonicalTip)
    (hheight : block.header.height = tip.header.height + 1) (hnew : block.hash ∉ t.entries) :
    ∃ parent, t.entries[block.header.prevHash]? = some parent ∧
      t.insert block stake = .ok
        (if t.weightOf t.canonicalTip < U64.wrapAdd (t.weightOf t.canonicalTip) stake then
          ({ t.attach block parent (U64.wrapAdd (t.weightOf t.canonicalTip) stake) with
              canonicalTip := block.hash }, false)
        else (t.attach block parent (U64.wrapAdd (t.weightOf t.canonicalTip) stake), false)) := by
  obtain ⟨parent, hparent, rfl⟩ : ∃ parent, t.entries[t.canonicalTip]? = some parent ∧
      parent.block = tip := by
    simpa [get] using htip
  rw [← hprev] at hparent
  have hweight : t.weightOf t.canonicalTip = parent.cumulativeStakeWeight := by
    rw [← hprev, weightOf, hparent]
    rfl
  -- The final block is an ancestor of the tip, so it is below any child of the tip.
  have hlow : t.finalizedHeight < block.header.height := by
    obtain ⟨f, hf, hfheight⟩ := hs.finalized
    have hle := hs.final.rank_le hs.ranked
    rw [heightOf_eq hf, heightOf_eq htip] at hle
    omega
  have hdesc : t.isDescendantOf block.header.prevHash t.finalizedHash = true := by
    rw [hprev]
    exact (isDescendantOf_iff hs.toLinked htip).mpr hs.final
  have hne : block.hash ≠ t.canonicalTip := by
    intro heq
    rw [heq, ← hprev] at hnew
    exact hnew (Std.ExtTreeMap.mem_iff_isSome_getElem?.mpr (by rw [hparent]; rfl))
  set weight := U64.wrapAdd (t.weightOf t.canonicalTip) stake with hw
  have hl : (t.attach block parent weight).Linked genesis :=
    hs.toLinked.attach hparent hnew hheight
  refine ⟨parent, hparent, ?_⟩
  unfold insert
  rw [if_neg hnew, if_neg (by omega), hparent]
  dsimp only
  rw [if_neg (by omega), if_neg (by simp [hdesc]), ← hweight, ← hw, chooseTip]
  -- The weight of the tip is compared after the block is attached, which does not change it.
  have hsame : (t.attach block parent weight).weightOf (t.attach block parent weight).canonicalTip =
      t.weightOf t.canonicalTip := by
    rw [weightOf_attach hparent]
    exact if_neg hne
  rw [hsame]
  split
  · have hget : (t.attach block parent weight).get block.hash = some block := by
      rw [get_attach hparent, if_pos rfl]
    have hstep : (t.attach block parent weight).ParentOf block.hash t.canonicalTip :=
      ⟨block, hget, by omega, hprev⟩
    have hmoved : ({ t.attach block parent weight with canonicalTip := block.hash } : BlockTree).Linked
        genesis := ⟨hl.hash, hl.root, hl.genesis, hl.parent⟩
    have habove := (isDescendantOf_iff hmoved hget).mpr (Relation.ReflTransGen.single hstep)
    dsimp only
    rw [show (t.attach block parent weight).canonicalTip = t.canonicalTip from rfl, habove]
    rfl
  · rfl

theorem ne_of_get {h : Bytes} {b : Block} (hb : t.get h = some b) (hnew : block.hash ∉ t.entries) :
    block.hash ≠ h := by
  rintro rfl
  rw [get_eq_none hnew] at hb
  exact absurd hb (by simp)

/-- A block under a new hash is a leaf: its children would have been orphans. -/
theorem tipIsLeaf_attach {parent : BlockEntry} {weight : Nat} (hl : t.Linked genesis)
    (hparent : t.entries[block.header.prevHash]? = some parent) (hnew : block.hash ∉ t.entries) :
    TipIsLeaf { t.attach block parent weight with canonicalTip := block.hash } := by
  intro h b hb hpos heq
  have hget := @get_attach t block parent weight hparent h
  rw [show (t.attach block parent weight).get h = some b from hb] at hget
  split at hget
  · cases hget
    have hp : t.get block.header.prevHash = some parent.block := by rw [get, hparent]; rfl
    exact ne_of_get hp hnew heq.symm
  · obtain ⟨p, hp, -⟩ := hl.parent hget.symm hpos
    exact ne_of_get hp hnew heq.symm

/-- A tree whose tip is a leaf either keeps the tip when a block off the tip is hung into it, or
moves it away and says so. -/
theorem insert_off_tip (hs : t.Sound genesis) (hleaf : t.TipIsLeaf) {switched : Bool}
    (hprev : block.header.prevHash ≠ t.canonicalTip)
    (h : t.insert block stake = .ok (t', switched)) :
    t'.TipIsLeaf ∧ (switched = false → t'.canonicalTip = t.canonicalTip) := by
  rcases insert_cases h with ⟨rfl, rfl, -⟩ | ⟨hnew, parent, weight, hparent, hheight, -, hcase⟩
  · exact ⟨hleaf, fun _ => rfl⟩
  have hget := @get_attach t block parent weight hparent
  rcases hcase with ⟨rfl, rfl⟩ | ⟨rfl, hswitched⟩
  · refine ⟨?_, fun _ => rfl⟩
    intro h b hb hpos
    rw [hget] at hb
    split at hb
    · cases hb
      exact hprev
    · exact hleaf h b hb hpos
  · have hl := hs.toLinked
    refine ⟨tipIsLeaf_attach hl hparent hnew, ?_⟩
    intro hfalse
    rw [hfalse] at hswitched
    have hlinked := (hs.insert h).toLinked
    have hblock := (hget block.hash).trans (if_pos rfl)
    have hreach := (isDescendantOf_iff hlinked hblock).mp (by simpa using hswitched.symm)
    obtain ⟨tip, htip⟩ := hs.tip
    -- the last step of the walk down to the old tip would start at a child of it
    rcases Relation.ReflTransGen.cases_tail hreach with heq | ⟨child, -, b, hb, hpos, hchild⟩
    · exact absurd heq.symm (ne_of_get htip hnew)
    · have hfound : (t.attach block parent weight).get child = some b := hb
      rw [hget] at hfound
      split at hfound
      · cases hfound
        exact absurd hchild hprev
      · exact absurd hchild (hleaf child b hfound hpos)


/-- Finality prunes side branches, never the canonical chain. -/
theorem canonicalChain_setFinalized (hs : t.Sound genesis) {hash : Bytes} {height : Nat} {fb : Block}
    (hf : t.get hash = some fb) (hpos : 0 < height)
    (hcanon : Reaches t.ParentOf t.canonicalTip hash) :
    (t.setFinalized hash height).canonicalChain = t.canonicalChain := by
  have hl := hs.toLinked
  obtain ⟨tip, htip⟩ := hs.tip
  refine canonicalChain_of_path (setFinalized_fields hash height).2.2 ?_
  intro a ha
  obtain ⟨x, hx⟩ := hl.mem_of_reaches htip ha
  rw [hx, get_setFinalized_iff hl hf hpos]
  exact ⟨hx, Relation.ReflTransGen.total_of_right_unique hl.ranked.unique ha hcanon⟩

theorem TipIsLeaf.setFinalized (hleaf : t.TipIsLeaf) (hl : t.Linked genesis) {hash : Bytes}
    {height : Nat} {fb : Block} (hf : t.get hash = some fb) (hpos : 0 < height) :
    (t.setFinalized hash height).TipIsLeaf := by
  intro h b hb hb'
  rw [(setFinalized_fields hash height).2.2]
  exact hleaf h b ((get_setFinalized_iff hl hf hpos).mp hb).1 hb'

theorem canonicalChain_fromGenesis (hheight : genesis.header.height = 0) :
    (fromGenesis genesis).canonicalChain = [genesis] := by
  have hget : (fromGenesis genesis).get genesis.hash = some genesis := by
    rw [get_fromGenesis, if_pos rfl]
  unfold canonicalChain
  rw [show (fromGenesis genesis).canonicalTip = genesis.hash from rfl, lineage, hget]
  dsimp only
  rw [lineageFrom, hget]
  dsimp only
  rw [if_pos hheight]
  rfl

end BlockTree

namespace Blockchain

variable {P : Primitives} {c c' : Blockchain} {genesis : Block} {now : Int} {block : Block}

/-! ## A chain in step -/

/-- The tree and the cursor name the same tip and hold the same chain. -/
structure TipAgrees (c : Blockchain) : Prop where
  tip : c.blockTree.canonicalTip = c.latestBlock.hash
  chain : c.blockTree.canonicalChain = c.iterBlocks

/-- What keeps the two together. -/
structure InStep (c : Blockchain) (genesis : Block) : Prop where
  anchored : ∃ history, Anchored c.spine genesis history
  unpruned : c.Unpruned
  leaf : c.blockTree.TipIsLeaf
  chain : c.blockTree.canonicalChain = c.blocks

/-- Everything the invariant is about is on the spine. -/
theorem inStep_of_spine {s : Spine} (h : c.spine = s) (ha : ∃ history, Anchored s genesis history)
    (hbase : s.baseHeight = 0) (hkeep : s.pruneKeepBlocks = none) (hne : s.blocks ≠ [])
    (hleaf : s.blockTree.TipIsLeaf) (hchain : s.blockTree.canonicalChain = s.blocks) :
    c.InStep genesis := by
  subst h
  exact ⟨ha, ⟨hbase, hkeep, hne⟩, hleaf, hchain⟩

/-- An unpruned cursor over a list that starts at its genesis reads back that list. -/
theorem iterBlocks_of_head (hbase : c.baseHeight = 0) (hhead : c.blocks.head? = some c.genesis) :
    c.iterBlocks = c.blocks := by
  unfold iterBlocks
  have hread : c.blockAtHeight = fun k => c.blocks[k]? := by
    funext k
    unfold blockAtHeight
    by_cases hzero : k = 0
    · rw [if_pos hzero, hzero, ← hhead, List.head?_eq_getElem?]
    · rw [if_neg hzero, if_neg (by omega)]
  rw [hread]
  exact filterMap_getElem?_range c.blocks

theorem InStep.sound (h : c.InStep genesis) : c.blockTree.Sound genesis := by
  obtain ⟨history, ha⟩ := h.anchored
  exact ha.sound

theorem InStep.genesis_eq (h : c.InStep genesis) : c.genesis = genesis := by
  obtain ⟨history, ha⟩ := h.anchored
  exact ha.genesis

theorem InStep.head (h : c.InStep genesis) : c.blocks.head? = some c.genesis := by
  obtain ⟨tip, htip⟩ := h.sound.tip
  rw [← h.chain, BlockTree.head?_canonicalChain h.sound.toLinked htip, h.genesis_eq]

/-- The last block of the cursor is the block at the tip of the tree. -/
theorem InStep.tip (h : c.InStep genesis) :
    c.blockTree.get c.blockTree.canonicalTip = some c.latestBlock ∧
      c.blockTree.canonicalTip = c.latestBlock.hash := by
  obtain ⟨tip, htip⟩ := h.sound.tip
  have hlast : c.blocks.getLast? = some tip := by
    rw [← h.chain]
    exact BlockTree.getLast?_canonicalChain htip
  have hlatest : c.latestBlock = tip :=
    latestBlock_of_getLast h.unpruned.base hlast fun _ => h.head
  rw [hlatest]
  exact ⟨htip, (h.sound.hash htip).symm⟩

theorem InStep.agrees (h : c.InStep genesis) : c.TipAgrees where
  tip := h.tip.2
  chain := by rw [h.chain, iterBlocks_of_head h.unpruned.base h.head]

/-! ## A child of the tip -/

/-- The tree follows the cursor to an accepted child of the tip: the hash is new to it, and the
`u64` sum of the weight of the tip and the stake of the proposer after the block is more than the
weight of the tip. -/
def Advances (P : Primitives) (c : Blockchain) (now : Int) (block : Block) : Prop :=
  ∀ s, (c.prepareEpoch P block.header.height).validateBlockAgainstState P now block c.latestBlock
      (c.prepareEpoch P block.header.height).execState = .ok s →
    block.hash ∉ c.blockTree.entries ∧
      c.blockTree.weightOf c.blockTree.canonicalTip <
        U64.wrapAdd (c.blockTree.weightOf c.blockTree.canonicalTip) (proposerStake P s block)

/-- The spine of a chain that appended `block` with `stake` behind it. -/
def Appended (c c' : Blockchain) (block : Block) (stake : Nat) : Prop :=
  c'.spine = { c.spine with
    blocks := c.blocks ++ [block]
    blockTree := insertIgnoringErrors c.blockTree block stake }

theorem appended_of_addBlock (h : (c.addBlock P now block).1 = .ok ()) :
    ∃ s, (c.prepareEpoch P block.header.height).validateBlockAgainstState P now block c.latestBlock
        (c.prepareEpoch P block.header.height).execState = .ok s ∧
      c.Appended (c.addBlock P now block).2 block (proposerStake P s block) := by
  have hspine := @prepareEpoch_spine P c block.header.height
  rcases addBlock_cases P c now block with ⟨e, he⟩ | ⟨s, hs, hok⟩
  · rw [he] at h
    exact absurd h (by simp)
  · rw [latestBlock_congr hspine] at hs
    refine ⟨s, hs, ?_⟩
    unfold Appended
    rw [hok, commitBlock_spine, hspine,
      show (c.prepareEpoch P block.header.height).blocks = c.blocks from
        congrArg Spine.blocks hspine,
      show (c.prepareEpoch P block.header.height).blockTree = c.blockTree from
        congrArg Spine.blockTree hspine]

variable {stake : Nat}

theorem InStep.appended_unpruned (h : c.InStep genesis) (happ : c.Appended c' block stake) :
    c'.Unpruned := by
  refine ⟨(congrArg Spine.baseHeight happ).trans h.unpruned.base,
    (congrArg Spine.pruneKeepBlocks happ).trans h.unpruned.keep, ?_⟩
  rw [show c'.blocks = c.blocks ++ [block] from congrArg Spine.blocks happ]
  simp

/-- The new block is the tip of both. -/
theorem InStep.extend (h : c.InStep genesis) (hfollows : Follows P block c.latestBlock)
    (happ : c.Appended c' block stake) (hnew : block.hash ∉ c.blockTree.entries)
    (hgrows : c.blockTree.weightOf c.blockTree.canonicalTip <
      U64.wrapAdd (c.blockTree.weightOf c.blockTree.canonicalTip) stake) : c'.InStep genesis := by
  obtain ⟨htip, hhash⟩ := h.tip
  have hprev : block.header.prevHash = c.blockTree.canonicalTip := hfollows.prevHash.trans hhash.symm
  obtain ⟨parent, hparent, hinsert⟩ :=
    @BlockTree.insert_on_tip _ _ _ _ stake h.sound htip hprev hfollows.height hnew
  rw [if_pos hgrows] at hinsert
  have htree : insertIgnoringErrors c.blockTree block stake =
      { c.blockTree.attach block parent
          (U64.wrapAdd (c.blockTree.weightOf c.blockTree.canonicalTip) stake) with
        canonicalTip := block.hash } := by
    rw [insertIgnoringErrors, hinsert]
  obtain ⟨history, ha⟩ := h.anchored
  refine inStep_of_spine happ ⟨history, ?_⟩ h.unpruned.base h.unpruned.keep (by simp) ?_ ?_
  · exact (ha.insertIgnoringErrors block stake).cursor (c.blocks ++ [block])
  · dsimp only
    rw [htree]
    exact BlockTree.tipIsLeaf_attach h.sound.toLinked hparent hnew
  · dsimp only
    rw [htree, ← h.chain]
    refine BlockTree.canonicalChain_on_tip h.sound.toLinked htip
      (BlockTree.insert_grows hinsert) ?_ rfl hprev hfollows.height
    exact (BlockTree.get_attach hparent block.hash).trans (if_pos rfl)

/-- The cursor is one block longer than the chain of the tree. -/
theorem InStep.left_behind (h : c.InStep genesis) (hfollows : Follows P block c.latestBlock)
    (happ : c.Appended c' block stake)
    (hstays : ¬ (block.hash ∉ c.blockTree.entries ∧
      c.blockTree.weightOf c.blockTree.canonicalTip <
        U64.wrapAdd (c.blockTree.weightOf c.blockTree.canonicalTip) stake)) : ¬ c'.TipAgrees := by
  obtain ⟨htip, hhash⟩ := h.tip
  have hprev : block.header.prevHash = c.blockTree.canonicalTip := hfollows.prevHash.trans hhash.symm
  have htree : c'.blockTree = insertIgnoringErrors c.blockTree block stake :=
    congrArg Spine.blockTree happ
  have hsame : c'.blockTree.canonicalChain = c.blockTree.canonicalChain := by
    by_cases hnew : block.hash ∈ c.blockTree.entries
    · rw [htree, insertIgnoringErrors, BlockTree.insert, if_pos hnew]
    · obtain ⟨parent, hparent, hinsert⟩ :=
        @BlockTree.insert_on_tip _ _ _ _ stake h.sound htip hprev hfollows.height hnew
      rw [if_neg fun hgrows => hstays ⟨hnew, hgrows⟩] at hinsert
      rw [htree, insertIgnoringErrors, hinsert]
      exact BlockTree.canonicalChain_of_path rfl
        ((BlockTree.attach_grows hparent hnew).path h.sound.toLinked htip)
  have hblocks : c'.blocks = c.blocks ++ [block] := congrArg Spine.blocks happ
  have hread : c'.iterBlocks = c'.blocks := by
    refine iterBlocks_of_head (h.appended_unpruned happ).base ?_
    rw [hblocks, show c'.genesis = c.genesis from congrArg Spine.genesis happ,
      List.head?_append_of_ne_nil _ h.unpruned.nonempty, h.head]
  intro hagrees
  have hlength := congrArg List.length hagrees.chain
  rw [hsame, h.chain, hread, hblocks, List.length_append, List.length_singleton] at hlength
  omega

/-! ## A block off the tip -/

/-- A tip that descends from the finalized block passes the guards of a reorganisation, and so does
its common ancestor with the tip before. -/
theorem checkReorg_of_sound {tree : BlockTree} {history : List FinalizedBlock}
    (ha : Anchored { c.spine with blockTree := tree } genesis history) {old : Block}
    (hold : tree.get c.latestBlock.hash = some old)
    (hfinal : Reaches tree.ParentOf c.latestBlock.hash tree.finalizedHash) :
    { c with blockTree := tree }.checkReorg tree.canonicalChain = .ok () := by
  have hs : tree.Sound genesis := ha.sound
  obtain ⟨tip, htip⟩ := hs.tip
  obtain ⟨f, hf, hfheight⟩ := hs.finalized
  have hheight : tree.finalizedHeight = c.finalityTracker.finalizedHeight := ha.height
  have hlast := BlockTree.getLast?_canonicalChain htip
  have habove : ∀ {d : Bytes} {b : Block}, tree.get d = some b →
      Reaches tree.ParentOf d tree.finalizedHash →
      c.finalityTracker.finalizedHeight ≤ b.header.height := by
    intro d b hb hr
    have hle := hr.rank_le hs.ranked
    rw [BlockTree.heightOf_eq hb, BlockTree.heightOf_eq hf, hfheight, hheight] at hle
    exact hle
  unfold checkReorg
  dsimp only
  rw [hlast]
  simp only [Option.map_some, Option.getD_some]
  rw [if_neg (not_lt.mpr (habove htip hs.final))]
  split
  · rfl
  · next hne =>
    have hhash : tip.hash = tree.canonicalTip := hs.hash htip
    obtain ⟨k, z, hk, hz, hkf⟩ := BlockTree.commonAncestor_above hs.toLinked hold htip hfinal hs.final
    have hlatest : { c with blockTree := tree }.latestBlock = c.latestBlock :=
      latestBlock_eq rfl rfl rfl
    rw [hlatest, hhash, hk]
    dsimp only
    rw [hz]
    dsimp only
    rw [if_neg (not_lt.mpr (habove hz hkf))]
    have htracker : tree.finalizedHash = c.finalityTracker.finalizedHash :=
      ha.hash (Nat.pos_of_ne_zero hne)
    have hdesc := (BlockTree.isDescendantOf_iff hs.toLinked htip).mpr hs.final
    rw [← htracker, hdesc]
    rfl

/-- What the fork path does with a staged block when no guard fires. -/
theorem forkChoice_of_stage {tree : BlockTree} {switched : Bool} (hold : c.tooOld block = false)
    (hprev : block.header.prevHash ≠ c.latestBlock.hash)
    (hstage : c.stageForkBlock P now block = .ok (tree, switched))
    (hcheck : switched = true → { c with blockTree := tree }.checkReorg tree.canonicalChain = .ok ()) :
    (c.addBlockWithForkChoice P now block).2.spine =
      if switched then { c.spine with
        blockTree := tree
        blocks := tree.canonicalChain
        genesis := tree.canonicalChain.head?.getD c.genesis }
      else { c.spine with blockTree := tree } := by
  unfold addBlockWithForkChoice
  rw [if_neg (by simp [hold]), if_neg hprev, hstage]
  cases switched with
  | false => rfl
  | true =>
    have hreorg := @reorgToCanonicalTip_spine P { c with blockTree := tree } now
    rcases hreorg with ⟨-, hrefused⟩ | ⟨-, hspine⟩
    · exact absurd (hcheck rfl) hrefused
    · dsimp only
      rw [if_pos rfl]
      cases hres : ({ c with blockTree := tree }.reorgToCanonicalTip P now) with
      | mk res c' =>
        rw [hres] at hspine
        cases res with
        | error e => exact hspine
        | ok u => exact hspine

/-- A block off the tip leaves the chain in step, whether or not the node reorganises to it and
whether or not the rebuild that follows succeeds. -/
theorem InStep.fork (h : c.InStep genesis) (hold : c.tooOld block = false)
    (hprev : block.header.prevHash ≠ c.latestBlock.hash) :
    (c.addBlockWithForkChoice P now block).2.InStep genesis := by
  cases hstage : c.stageForkBlock P now block with
  | error e =>
    have hsame : (c.addBlockWithForkChoice P now block).2 = c := by
      unfold addBlockWithForkChoice
      rw [if_neg (by simp [hold]), if_neg hprev, hstage]
    rw [hsame]
    exact h
  | ok staged =>
    obtain ⟨tree, switched⟩ := staged
    obtain ⟨stake, hinsert⟩ := insert_of_stage hstage
    obtain ⟨htip, hhash⟩ := h.tip
    obtain ⟨history, ha⟩ := h.anchored
    have hgrows := BlockTree.insert_grows hinsert
    have ha' : Anchored { c.spine with blockTree := tree } genesis history := ha.insert hinsert
    obtain ⟨hleaf, hkeep⟩ := BlockTree.insert_off_tip h.sound h.leaf (by rwa [hhash]) hinsert
    have hspine := forkChoice_of_stage hold hprev hstage fun _ => by
      refine checkReorg_of_sound ha' (by rw [← hhash]; exact hgrows _ _ htip) ?_
      rw [(BlockTree.insert_finalized hinsert).1, ← hhash]
      exact hgrows.reaches h.sound.final
    cases switched with
    | false =>
      rw [if_neg (by simp)] at hspine
      refine inStep_of_spine hspine ⟨history, ha'⟩ h.unpruned.base h.unpruned.keep
        h.unpruned.nonempty hleaf ?_
      rw [BlockTree.canonicalChain_of_path (hkeep rfl) (hgrows.path h.sound.toLinked htip)]
      exact h.chain
    | true =>
      rw [if_pos rfl] at hspine
      refine inStep_of_spine hspine ⟨history, ha'.reorg⟩ h.unpruned.base h.unpruned.keep ?_ hleaf rfl
      intro hnil
      obtain ⟨tip, htip⟩ := ha'.sound.tip
      have hlast := BlockTree.getLast?_canonicalChain htip
      rw [show tree.canonicalChain = [] from hnil] at hlast
      exact absurd hlast (by simp)

/-- A vote prunes side branches at most. -/
theorem InStep.vote (h : c.InStep genesis) (vote : FinalityVote) :
    (c.addFinalityVote P vote).2.InStep genesis := by
  obtain ⟨history, ha⟩ := h.anchored
  have ha' := anchored_vote (P := P) ha vote
  have hu := (h.unpruned.addFinalityVote (P := P) vote).1
  rcases addFinalityVote_spine_cases P c vote with ⟨-, hspine⟩ | ⟨snapshot, hsnap,
    ⟨tracker, -, -, hspine⟩ | ⟨tracker, finalized, base, hvote, -, hspine⟩⟩
  · exact inStep_of_spine hspine h.anchored h.unpruned.base h.unpruned.keep h.unpruned.nonempty
      h.leaf h.chain
  · rw [hspine] at ha'
    exact inStep_of_spine hspine ⟨_, ha'⟩ h.unpruned.base h.unpruned.keep h.unpruned.nonempty
      h.leaf h.chain
  · obtain ⟨b, hb, hheight, -, hcanon, -⟩ := votable_of_snapshot hsnap
    have hreach := (BlockTree.isDescendantOf_iff h.sound.toLinked h.tip.1).mp hcanon
    obtain ⟨hlt, -, -, rfl⟩ := FinalityTracker.finalized_of_addVote_some hvote
    have hpos : 0 < vote.blockHeight := by omega
    have hbase : base = 0 := by
      rw [← hu.base]
      exact (congrArg Spine.baseHeight hspine).symm
    rw [hspine] at ha'
    refine inStep_of_spine hspine ⟨_, ha'⟩ hbase h.unpruned.keep h.unpruned.nonempty ?_ ?_
    · exact h.leaf.setFinalized h.sound.toLinked hb hpos
    · exact (BlockTree.canonicalChain_setFinalized h.sound hb hpos hreach).trans h.chain

/-! ## Runs -/

/-- The operations that touch the tree or the cursor. -/
inductive ForkOp where
  | addBlock (now : Int) (block : Block)
  | addBlockWithForkChoice (now : Int) (block : Block)
  | addFinalityVote (vote : FinalityVote)

/-- The chain an operation leaves, whether it succeeds or not. -/
def attempt (P : Primitives) (c : Blockchain) : ForkOp → Blockchain
  | .addBlock now block => (c.addBlock P now block).2
  | .addBlockWithForkChoice now block => (c.addBlockWithForkChoice P now block).2
  | .addFinalityVote vote => (c.addFinalityVote P vote).2

def attemptAll (P : Primitives) (c : Blockchain) (ops : List ForkOp) : Blockchain :=
  ops.foldl (attempt P) c

/-- The tree follows where the operation adds a child of the tip. -/
def OpAdvances (P : Primitives) (c : Blockchain) : ForkOp → Prop
  | .addBlock now block => c.Advances P now block
  | .addBlockWithForkChoice now block =>
    c.tooOld block = false → block.header.prevHash = c.latestBlock.hash → c.Advances P now block
  | .addFinalityVote _ => True

def AlwaysAdvances (P : Primitives) (c : Blockchain) : List ForkOp → Prop
  | [] => True
  | op :: rest => OpAdvances P c op ∧ AlwaysAdvances P (attempt P c op) rest

variable {op : ForkOp} {ops : List ForkOp}

theorem InStep.congr (h : c.InStep genesis) (hspine : c'.spine = c.spine) : c'.InStep genesis :=
  inStep_of_spine hspine h.anchored h.unpruned.base h.unpruned.keep h.unpruned.nonempty h.leaf h.chain

/-- `add_block` keeps a chain in step when the tree follows, and only then. -/
theorem InStep.addBlock (h : c.InStep genesis) :
    (c.Advances P now block → (c.addBlock P now block).2.InStep genesis) ∧
      ((c.addBlock P now block).2.TipAgrees → c.Advances P now block) := by
  constructor
  · intro hadvances
    cases hres : (c.addBlock P now block).1 with
    | error e => exact h.congr (addBlock_error_spine hres)
    | ok u =>
      obtain ⟨s, hvalid, happ⟩ := appended_of_addBlock hres
      obtain ⟨hnew, hgrows⟩ := hadvances s hvalid
      exact h.extend (follows_of_validate hvalid) happ hnew hgrows
  · intro hagrees s hvalid
    obtain ⟨s', hvalid', happ⟩ := appended_of_addBlock
      (addBlock_ok_iff.mpr ⟨s, by rw [prepareEpoch_eq] at hvalid ⊢; exact hvalid⟩)
    cases hvalid.symm.trans hvalid'
    by_contra hstays
    exact h.left_behind (follows_of_validate hvalid) happ hstays hagrees

/-- The fork path on a child of the tip is `add_block`. -/
theorem forkChoice_of_child (hold : c.tooOld block = false)
    (hprev : block.header.prevHash = c.latestBlock.hash) :
    (c.addBlockWithForkChoice P now block).2 = (c.addBlock P now block).2 := by
  unfold addBlockWithForkChoice
  rw [if_neg (by simp [hold]), if_pos hprev]
  split
  · next hres => rw [hres]
  · next hres => rw [hres]

/-- One operation on a chain in step. -/
theorem InStep.attempt (h : c.InStep genesis) :
    (OpAdvances P c op → (attempt P c op).InStep genesis) ∧
      ((Blockchain.attempt P c op).TipAgrees → OpAdvances P c op) := by
  cases op with
  | addBlock now block => exact h.addBlock
  | addBlockWithForkChoice now block =>
    by_cases hold : c.tooOld block = true
    · have hsame : (c.addBlockWithForkChoice P now block).2 = c := by
        unfold addBlockWithForkChoice
        rw [if_pos hold]
      refine ⟨fun _ => by rw [Blockchain.attempt, hsame]; exact h, ?_⟩
      intro _ hyoung
      exact absurd hold (by simp [hyoung])
    · have hyoung : c.tooOld block = false := by simpa using hold
      by_cases hprev : block.header.prevHash = c.latestBlock.hash
      · rw [Blockchain.attempt, forkChoice_of_child hyoung hprev]
        exact ⟨fun hadv => h.addBlock.1 (hadv hyoung hprev), fun hagr _ _ => h.addBlock.2 hagr⟩
      · exact ⟨fun _ => h.fork hyoung hprev, fun _ _ hchild => absurd hchild hprev⟩
  | addFinalityVote vote => exact ⟨fun _ => h.vote vote, fun _ => trivial⟩

/-- Along a run, tree and cursor agree in every state as long as every operation advances, and the
first that does not is the last state in which they agree. -/
theorem InStep.attemptAll (h : c.InStep genesis) :
    (∀ n ≤ ops.length, (attemptAll P c (ops.take n)).TipAgrees) ↔ AlwaysAdvances P c ops := by
  induction ops generalizing c with
  | nil =>
    refine ⟨fun _ => trivial, fun _ n _ => ?_⟩
    rw [List.take_nil]
    exact h.agrees
  | cons op rest ih =>
    constructor
    · intro hagrees
      have hop := h.attempt.2 (hagrees 1 (by simp))
      refine ⟨hop, (ih (h.attempt.1 hop)).mp ?_⟩
      intro n hn
      exact hagrees (n + 1) (by simpa using hn)
    · rintro ⟨hop, hrest⟩ n hn
      cases n with
      | zero => exact h.agrees
      | succ n => exact (ih (h.attempt.1 hop)).mpr hrest n (by simpa using hn)

theorem inStep_genesis {g : GenesisConfig} (h : fromGenesis P g = .ok c) :
    c.InStep c.genesis := by
  have hstart := ChainRun.holds_start h
  unfold fromGenesis at h
  simp only [Outcome.except_bind_eq_ok] at h
  obtain ⟨accounts, -, hc⟩ := h
  cases hc
  refine ⟨⟨_, hstart.anchored⟩, ⟨rfl, rfl, by simp⟩, ?_, ?_⟩
  · intro h b hb hpos
    rw [BlockTree.get_fromGenesis] at hb
    split at hb
    · cases hb
      exact absurd hpos (by simp [genesisBlock, Block.genesisWithStateRoot])
    · exact absurd hb (by simp)
  · exact BlockTree.canonicalChain_fromGenesis rfl

end Blockchain

open Blockchain in
/-- Tree and cursor agree in every state of a run from genesis exactly when the tree follows every
child of the tip the run adds. -/
theorem tip_agreement {P : Primitives} {g : GenesisConfig} {c : Blockchain} {ops : List ForkOp}
    (h : fromGenesis P g = .ok c) :
    (∀ n ≤ ops.length, (attemptAll P c (ops.take n)).TipAgrees) ↔ AlwaysAdvances P c ops :=
  (inStep_genesis h).attemptAll

namespace TipSample

open Scenario Blockchain

/-- Nobody at stake, so anybody may produce, with no weight. -/
def genesis : GenesisConfig where
  chainId := [1]
  allocations := [allocation 1 0 0]

/-- `Advances`, by running the validation. -/
def advancesHere (c : Blockchain) (now : Int) (block : Block) : Bool :=
  ((c.prepareEpoch Reference.primitives block.header.height).validateBlockAgainstState
    Reference.primitives now block c.latestBlock
      (c.prepareEpoch Reference.primitives block.header.height).execState).toOption.all fun s =>
    decide (block.hash ∉ c.blockTree.entries ∧
      c.blockTree.weightOf c.blockTree.canonicalTip <
        U64.wrapAdd (c.blockTree.weightOf c.blockTree.canonicalTip)
          (proposerStake Reference.primitives s block))

theorem advances_of_here {c : Blockchain} {now : Int} {block : Block}
    (h : advancesHere c now block = true) : c.Advances Reference.primitives now block := by
  intro s hs
  unfold advancesHere at h
  rw [hs] at h
  exact of_decide_eq_true h

/-- Two blocks on `DoubleVote.genesis`, and a heavier one beside the second. -/
def ops (c : Blockchain) : Option (List ForkOp) := do
  let (b₁, c₁) ← extend c (clock 1) 3
  let (a₂, _) ← extend c₁ (clock 2) 1
  let (b₂, _) ← extend c₁ (clock 2) 2
  return [.addBlock (clock 9) b₁, .addBlock (clock 9) a₂, .addBlockWithForkChoice (clock 9) b₂]

def allAdvanceHere (c : Blockchain) : List ForkOp → Bool
  | [] => true
  | op :: rest =>
    (match op with
      | .addBlock now block => advancesHere c now block
      | .addBlockWithForkChoice now block => advancesHere c now block
      | .addFinalityVote _ => true) && allAdvanceHere (attempt Reference.primitives c op) rest

theorem alwaysAdvances_of_here {c : Blockchain} {ops : List ForkOp}
    (h : allAdvanceHere c ops = true) : AlwaysAdvances Reference.primitives c ops := by
  induction ops generalizing c with
  | nil => trivial
  | cons op rest ih =>
    unfold allAdvanceHere at h
    rw [Bool.and_eq_true] at h
    refine ⟨?_, ih h.2⟩
    cases op with
    | addBlock now block => exact advances_of_here h.1
    | addBlockWithForkChoice now block => exact fun _ _ => advances_of_here h.1
    | addFinalityVote vote => trivial

end TipSample

open TipSample Scenario Blockchain in
/-- Two blocks and a reorganisation to a heavier sibling of the second. -/
theorem tip_agreement_sample : ∃ c run b₁ b₂,
    fromGenesis Reference.primitives DoubleVote.genesis = .ok c ∧
      (attemptAll Reference.primitives c run).iterBlocks = [c.genesis, b₁, b₂] ∧ run.length = 3 ∧
      ∀ n ≤ run.length, (attemptAll Reference.primitives c (run.take n)).TipAgrees := by
  have hrun : (fromGenesis Reference.primitives DoubleVote.genesis).toOption.any (fun c =>
      (ops c).any fun run => allAdvanceHere c run && decide (run.length = 3) &&
        decide ((attemptAll Reference.primitives c run).iterBlocks.head? = some c.genesis ∧
          (attemptAll Reference.primitives c run).iterBlocks.length = 3)) = true := by
    decide +kernel
  obtain ⟨c, hstart, hrest⟩ := Outcome.ok_of_any hrun
  obtain ⟨run, -, hops⟩ := (Option.any_eq_true _ _).mp hrest
  simp only [Bool.and_eq_true, decide_eq_true_eq] at hops
  obtain ⟨⟨hadv, hlength⟩, hhead, hthree⟩ := hops
  obtain ⟨x, b₁, b₂, hblocks⟩ := List.length_eq_three.mp hthree
  rw [hblocks] at hhead
  cases hhead
  exact ⟨c, run, b₁, b₂, hstart, hblocks, hlength,
    (tip_agreement hstart).mpr (alwaysAdvances_of_here hadv)⟩

open TipSample Scenario Blockchain in
/-- With nobody at stake the cursor goes to block 1 and the tree stays at the genesis. -/
theorem tip_left_behind : ∃ c block,
    fromGenesis Reference.primitives genesis = .ok c ∧
      (c.addBlock Reference.primitives (clock 1) block).1 = .ok () ∧
      (attemptAll Reference.primitives c [.addBlock (clock 1) block]).blockTree.canonicalTip =
        c.genesis.hash ∧
      ¬ (attemptAll Reference.primitives c [.addBlock (clock 1) block]).TipAgrees := by
  have hrun : (fromGenesis Reference.primitives genesis).toOption.any (fun c =>
      (extend c (clock 1) 1).any fun e =>
        decide ((c.addBlock Reference.primitives (clock 1) e.1).1 = .ok () ∧
          (c.addBlock Reference.primitives (clock 1) e.1).2.blockTree.canonicalTip =
            c.genesis.hash ∧
          (c.addBlock Reference.primitives (clock 1) e.1).2.latestBlock.hash ≠ c.genesis.hash)) =
        true := by
    decide +kernel
  obtain ⟨c, hstart, hrest⟩ := Outcome.ok_of_any hrun
  obtain ⟨⟨block, _⟩, -, hblock⟩ := (Option.any_eq_true _ _).mp hrest
  rw [decide_eq_true_eq] at hblock
  refine ⟨c, block, hstart, hblock.1, hblock.2.1, ?_⟩
  intro hagrees
  exact hblock.2.2 (hagrees.tip.symm.trans hblock.2.1)

end Curs3d
