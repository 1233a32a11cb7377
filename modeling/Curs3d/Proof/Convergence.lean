import Curs3d.Proof.TipAgreement
import Mathlib.Data.List.MinMax

/-!
# Fork choice over two nodes

The tip of a tree is the first of the heaviest blocks it was given: `insert` moves it only to a
block that weighs more. So two nodes with the same blocks agree on the weights, and on the tip as
far as the same one of the heaviest blocks came first to both (`Weighed.insert`).

What a block weighs is what its state root commits to: whichever way a node came to execute it, on
its tip or on a replay of a side branch, the stake of the proposer is read from the state that the
header names. A restart is the exception. It weighs the stored blocks again with the stakes of the
day, and it forgets the side branches.
-/

set_option autoImplicit false

namespace Curs3d

open Ancestry

/-- Where the first of the largest stands. -/
theorem argmax_of_split {α : Type} {f : α → Nat} {before after : List α} {m : α}
    (hbefore : ∀ a ∈ before, f a < f m) (hafter : ∀ a ∈ after, f a ≤ f m) :
    (before ++ m :: after).argmax f = some m := by
  induction after using List.reverseRecOn with
  | nil =>
    rw [List.argmax_concat]
    cases hmax : before.argmax f with
    | none => rfl
    | some a => exact if_pos (hbefore a (List.argmax_mem hmax))
  | append_singleton after x ih =>
    have hrest := ih fun a ha => hafter a (List.mem_append_left _ ha)
    rw [show before ++ m :: (after ++ [x]) = (before ++ m :: after) ++ [x] by simp,
      List.argmax_concat, hrest]
    exact if_neg (not_lt.mpr (hafter x (by simp)))

namespace BlockTree

variable {t t' : BlockTree} {genesis block : Block} {stake : Nat} {switched : Bool}
  {weight : Bytes → Nat} {order : List Block}

/-! ## What an insertion does to weights and tip -/

/-- A block under a new hash, in full: it hangs under its parent with the stake on top of the
parent's weight, and it is the tip when it weighs more than the old one. -/
theorem insert_new (hs : t.Sound genesis) (h : t.insert block stake = .ok (t', switched))
    (hnew : block.hash ∉ t.entries) :
    ∃ parent, t.entries[block.header.prevHash]? = some parent ∧
      (∀ x, t'.get x = if block.hash = x then some block else t.get x) ∧
      (∀ x, t'.weightOf x = if block.hash = x then
        U64.wrapAdd (t.weightOf block.header.prevHash) stake else t.weightOf x) ∧
      t'.canonicalTip = if t.weightOf t.canonicalTip <
        U64.wrapAdd (t.weightOf block.header.prevHash) stake then block.hash else t.canonicalTip := by
  obtain ⟨tip, htip⟩ := hs.tip
  unfold insert at h
  rw [if_neg hnew] at h
  split at h
  · exact absurd h (by simp)
  split at h
  · exact absurd h (by simp)
  next parent hparent =>
  split at h
  · exact absurd h (by simp)
  split at h
  · exact absurd h (by simp)
  have hweight : parent.cumulativeStakeWeight = t.weightOf block.header.prevHash := by
    rw [weightOf, hparent]
    rfl
  rw [hweight] at h
  have hget := @get_attach t block parent
    (U64.wrapAdd (t.weightOf block.header.prevHash) stake) hparent
  have hweights := @weightOf_attach t block parent
    (U64.wrapAdd (t.weightOf block.header.prevHash) stake) hparent
  have hsame := hweights t.canonicalTip
  rw [if_neg (ne_of_get htip hnew)] at hsame
  refine ⟨parent, hparent, ?_⟩
  unfold chooseTip at h
  dsimp only at h
  rw [show (t.attach block parent (U64.wrapAdd (t.weightOf block.header.prevHash) stake)).canonicalTip
    = t.canonicalTip from rfl, hsame] at h
  split at h
  · next hheavier =>
    cases h
    exact ⟨hget, hweights, (if_pos hheavier).symm⟩
  · next hlighter =>
    cases h
    exact ⟨hget, hweights, (if_neg hlighter).symm⟩

/-- A block under a new hash has no children: they would have been orphans. -/
theorem childless_of_insert (hs : t.Sound genesis) (h : t.insert block stake = .ok (t', switched))
    (hnew : block.hash ∉ t.entries) {x : Bytes} {b : Block} (hb : t'.get x = some b)
    (hpos : 0 < b.header.height) : b.header.prevHash ≠ block.hash := by
  obtain ⟨parent, hparent, hget, -, -⟩ := insert_new hs h hnew
  rw [hget] at hb
  split at hb
  · cases hb
    have hp : t.get block.header.prevHash = some parent.block := by rw [get, hparent]; rfl
    exact (ne_of_get hp hnew).symm
  · obtain ⟨p, hp, -⟩ := hs.parent hb hpos
    exact (ne_of_get hp hnew).symm

/-- Walks from an old block of a tree that grew were there before. -/
theorem Grows.reaches_before (hg : t.Grows t') (hl : t.Linked genesis) {d a : Bytes} {b : Block}
    (hd : t.get d = some b) (h : Reaches t'.ParentOf d a) : Reaches t.ParentOf d a := by
  induction h using Relation.ReflTransGen.head_induction_on generalizing b with
  | refl => exact Relation.ReflTransGen.refl
  | head hstep _ ih =>
    obtain ⟨x, hx, hpos, rfl⟩ := hstep
    cases (hg _ _ hd).symm.trans hx
    obtain ⟨p, hp, -⟩ := hl.parent hd hpos
    exact Relation.ReflTransGen.head ⟨b, hd, hpos, rfl⟩ (ih hp)

/-- A tree grown from the blocks of `order`: every block has its weight, and the tip is the first of
the heaviest. The blocks below the tip are lighter. -/
structure Weighed (weight : Bytes → Nat) (order : List Block) (t : BlockTree) : Prop where
  known : ∀ h b, t.get h = some b → b ∈ order
  weights : ∀ h b, t.get h = some b → t.weightOf h = weight h
  tip : (order.map Block.hash).argmax weight = some t.canonicalTip
  below : ∀ a, Reaches t.ParentOf t.canonicalTip a → a ≠ t.canonicalTip →
    weight a < weight t.canonicalTip

theorem Weighed.le_tip (hw : Weighed weight order t) {b : Block} (hb : b ∈ order) :
    weight b.hash ≤ weight t.canonicalTip :=
  List.le_of_mem_argmax (List.mem_map_of_mem hb) hw.tip

theorem Weighed.of_entry (hw : Weighed weight order t) (hs : t.Sound genesis) {h : Bytes}
    (hin : h ∈ t.entries) : ∃ b ∈ order, t.get h = some b ∧ b.hash = h := by
  obtain ⟨entry, hentry⟩ := Option.isSome_iff_exists.mp
    (Std.ExtTreeMap.mem_iff_isSome_getElem?.mp hin)
  have hget : t.get h = some entry.block := by rw [get, hentry]; rfl
  exact ⟨entry.block, hw.known _ _ hget, hget, hs.hash hget⟩

theorem weighed_fromGenesis (hzero : weight genesis.hash = 0) (hheight : genesis.header.height = 0) :
    Weighed weight [genesis] (fromGenesis genesis) := by
  have honly : ∀ h b, (fromGenesis genesis).get h = some b → h = genesis.hash ∧ b = genesis := by
    intro h b hb
    rw [get_fromGenesis] at hb
    split at hb
    · next hh => exact ⟨hh.symm, (Option.some.inj hb).symm⟩
    · exact absurd hb (by simp)
  refine ⟨?_, ?_, rfl, ?_⟩
  · intro h b hb
    rw [(honly h b hb).2]
    exact List.mem_singleton_self _
  · intro h b hb
    rw [(honly h b hb).1, hzero, weightOf, fromGenesis]
    simp
  · intro a ha hne
    have hl := (sound_fromGenesis hheight).toLinked
    obtain ⟨b, hb⟩ := hl.mem_of_reaches hl.genesis.1 ha
    exact absurd (honly a b hb).1 hne

/-- One more block, new or not. -/
theorem Weighed.insert (hw : Weighed weight order t) (hs : t.Sound genesis)
    (h : t.insert block stake = .ok (t', switched))
    (hweight : weight block.hash = U64.wrapAdd (weight block.header.prevHash) stake) :
    Weighed weight (order ++ [block]) t' := by
  have hargmax : ((order ++ [block]).map Block.hash).argmax weight =
      some (if weight t.canonicalTip < weight block.hash then block.hash else t.canonicalTip) := by
    rw [List.map_append, List.map_singleton, List.argmax_concat, hw.tip]
    dsimp only
    split <;> rfl
  by_cases hnew : block.hash ∈ t.entries
  · -- the tree had the block already, and with it its weight
    obtain ⟨rfl, -⟩ : t' = t ∧ switched = false := by
      rcases insert_cases h with ⟨rfl, hsw, -⟩ | ⟨habsent, -⟩
      · exact ⟨rfl, hsw⟩
      · exact absurd hnew habsent
    obtain ⟨b, hb, -, hhash⟩ := hw.of_entry hs hnew
    have hle := hw.le_tip hb
    rw [hhash] at hle
    refine ⟨fun x b hb => List.mem_append_left _ (hw.known x b hb), hw.weights, ?_, hw.below⟩
    rw [hargmax, if_neg (not_lt.mpr hle)]
  · obtain ⟨parent, hparent, hget, hweights, htip'⟩ := insert_new hs h hnew
    obtain ⟨tip, htip⟩ := hs.tip
    have hprev : t.get block.header.prevHash = some parent.block := by rw [get, hparent]; rfl
    rw [hw.weights _ _ htip, hw.weights _ _ hprev, ← hweight] at htip'
    refine ⟨?_, ?_, ?_, ?_⟩
    · intro x b hb
      rw [hget] at hb
      split at hb
      · cases hb
        simp
      · exact List.mem_append_left _ (hw.known x b hb)
    · intro x b hb
      rw [hget] at hb
      rw [hweights]
      split at hb
      · next hx => rw [if_pos hx, hw.weights _ _ hprev, ← hx, hweight]
      · next hx => rw [if_neg hx, hw.weights x b hb]
    · rw [hargmax, htip']
    · -- a new tip outweighs the old one, which outweighs everything below either
      intro a ha hne
      have hs' := hs.insert h
      obtain ⟨tip', hget'⟩ := hs'.tip
      obtain ⟨b, hb⟩ := hs'.toLinked.mem_of_reaches hget' ha
      rw [htip'] at ha hne ⊢
      split at hne
      · next hheavier =>
        rw [if_pos hheavier]
        rw [hget] at hb
        rw [if_neg (Ne.symm hne)] at hb
        have hle := hw.le_tip (hw.known a b hb)
        rw [hs.hash hb] at hle
        exact hle.trans_lt hheavier
      · next hlighter =>
        rw [if_neg hlighter] at ha ⊢
        exact hw.below a ((insert_grows h).reaches_before hs.toLinked htip ha) hne

/-- Without finality a child of a block of the tree always goes in. -/
theorem insert_child (hopen : t.finalizedHeight = 0) {parent : Block}
    (hparent : t.get block.header.prevHash = some parent)
    (hheight : block.header.height = parent.header.height + 1) :
    ∃ staged, t.insert block stake = .ok staged := by
  obtain ⟨entry, hentry, rfl⟩ : ∃ entry, t.entries[block.header.prevHash]? = some entry ∧
      entry.block = parent := by
    simpa [get] using hparent
  unfold insert
  split
  · exact ⟨_, rfl⟩
  · rw [if_neg (by omega), hentry]
    dsimp only
    rw [if_neg (by omega), if_neg (by omega)]
    exact ⟨_, rfl⟩

/-- The tree of one branch, block by block. -/
theorem Weighed.path {blocks : List Block} {top : Block} {stakes : Block → Nat}
    (hw : Weighed weight order t) (hs : t.Sound genesis) (hopen : t.finalizedHeight = 0)
    (htop : t.get top.hash = some top) (hfiled : ∀ b ∈ order, t.get b.hash = some b)
    (hchain : (top :: blocks).IsChain fun p b =>
      b.header.prevHash = p.hash ∧ b.header.height = p.header.height + 1)
    (hnodup : ((order ++ blocks).map Block.hash).Nodup)
    (hweight : ∀ b ∈ blocks,
      weight b.hash = U64.wrapAdd (weight b.header.prevHash) (stakes b)) :
    Weighed weight (order ++ blocks)
        (blocks.foldl (fun t b => Blockchain.insertIgnoringErrors t b (stakes b)) t) ∧
      ∀ b ∈ order ++ blocks,
        (blocks.foldl (fun t b => Blockchain.insertIgnoringErrors t b (stakes b)) t).get b.hash =
          some b := by
  induction blocks generalizing t top order with
  | nil => simpa using ⟨hw, hfiled⟩
  | cons b rest ih =>
    rw [List.isChain_cons_cons] at hchain
    obtain ⟨⟨hprev, hheight⟩, hrest⟩ := hchain
    obtain ⟨⟨t', switched⟩, hinsert⟩ : ∃ staged, t.insert b (stakes b) = .ok staged :=
      insert_child hopen (by rw [hprev]; exact htop) hheight
    have hstep : Blockchain.insertIgnoringErrors t b (stakes b) = t' := by
      unfold Blockchain.insertIgnoringErrors
      rw [hinsert]
    have hnew : b.hash ∉ t.entries := by
      intro hin
      obtain ⟨b', hb', -, hhash⟩ := hw.of_entry hs hin
      rw [List.map_append, List.nodup_append] at hnodup
      exact hnodup.2.2 b.hash (hhash ▸ List.mem_map_of_mem hb') b.hash (by simp) rfl
    obtain ⟨-, -, hget, -, -⟩ := insert_new hs hinsert hnew
    have hself : t'.get b.hash = some b := (hget b.hash).trans (if_pos rfl)
    rw [List.foldl_cons, hstep, show order ++ b :: rest = (order ++ [b]) ++ rest by simp]
    refine ih (hw.insert hs hinsert (hweight b (by simp))) (hs.insert hinsert)
      ((insert_finalized hinsert).2.trans hopen) hself ?_ hrest (by simpa using hnodup)
      (fun b' hb' => hweight b' (List.mem_cons_of_mem _ hb'))
    intro b' hb'
    rcases List.mem_append.mp hb' with hb' | hb'
    · exact insert_grows hinsert _ _ (hfiled b' hb')
    · rw [List.mem_singleton.mp hb']
      exact hself

/-- Every block of the canonical chain is a child of the one before it. -/
theorem linked_canonicalChain (hl : t.Linked genesis) : t.canonicalChain.IsChain fun p b =>
    b.header.prevHash = p.hash ∧ b.header.height = p.header.height + 1 := by
  refine List.IsChain.imp_of_mem_imp ?_ (isChain_canonicalChain hl)
  rintro p b hp hb ⟨hpos, hprev⟩
  obtain ⟨-, -, hgetb⟩ := (mem_canonicalChain_iff hl).mp hb
  obtain ⟨-, -, hgetp⟩ := (mem_canonicalChain_iff hl).mp hp
  obtain ⟨q, hq, hheight⟩ := hl.parent hgetb hpos
  rw [hprev] at hq
  cases hgetp.symm.trans hq
  exact ⟨hprev, hheight⟩

theorem height_of_linked {blocks : List Block} {n k : Nat} {b : Block}
    (hfirst : ∀ b ∈ blocks.head?, b.header.height = n)
    (hchain : blocks.IsChain fun p b =>
      b.header.prevHash = p.hash ∧ b.header.height = p.header.height + 1)
    (hb : blocks[k]? = some b) : b.header.height = n + k := by
  induction blocks generalizing n k with
  | nil => exact absurd hb (by simp)
  | cons a rest ih =>
    have ha : a.header.height = n := hfirst a rfl
    cases k with
    | zero =>
      cases hb
      exact ha
    | succ k =>
      have hnext : ∀ b ∈ rest.head?, b.header.height = n + 1 := by
        intro b' hb'
        rw [(List.isChain_cons.mp hchain).1 b' hb' |>.2, ha]
      have := ih hnext (List.isChain_cons.mp hchain).2 (by simpa using hb)
      omega

/-- A branch that is filed in the tree leads down from its last block to each of the others. -/
theorem reaches_of_linked {below : List Block} {top a : Block}
    (hfiled : ∀ b ∈ below ++ [top], t.get b.hash = some b)
    (hchain : (below ++ [top]).IsChain fun p b =>
      b.header.prevHash = p.hash ∧ b.header.height = p.header.height + 1)
    (ha : a ∈ below) : Reaches t.ParentOf top.hash a.hash := by
  induction below using List.reverseRecOn generalizing top with
  | nil => exact absurd ha (by simp)
  | append_singleton below p ih =>
    obtain ⟨hinit, -, hlast⟩ := List.isChain_append.mp hchain
    obtain ⟨hprev, hheight⟩ := hlast p (by simp) top (by simp)
    have hstep : t.ParentOf top.hash p.hash := ⟨top, hfiled top (by simp), by omega, hprev⟩
    rcases List.mem_append.mp ha with ha | ha
    · exact Relation.ReflTransGen.head hstep
        (ih (fun b hb => hfiled b (List.mem_append_left _ hb)) hinit ha)
    · rw [List.mem_singleton.mp ha]
      exact Relation.ReflTransGen.single hstep

end BlockTree

namespace Blockchain

variable {P : Primitives} {g : GenesisConfig} {c c' : Blockchain} {now : Int} {block : Block}
  {weight : Bytes → Nat} {order : List Block} {stake : Nat}

/-! ## A node and the blocks it accepted -/

/-- The state `block` leads to, as the node finds it out: on the settled state of its tip, or on a
replay of the parent. -/
def executed (P : Primitives) (c : Blockchain) (now : Int) (block : Block) :
    Except ChainError ExecState :=
  if block.header.prevHash = c.latestBlock.hash then
    (c.prepareEpoch P block.header.height).validateBlockAgainstState P now block c.latestBlock
      (c.prepareEpoch P block.header.height).execState
  else match c.blockTree.get block.header.prevHash with
    | none => .error (.blockTree .orphanBlock)
    | some parent => do
      let parentState ← c.replayStateToTip P now parent.hash
      c.validateBlockAgainstState P now block parent parentState

/-- A cursor rebuilt from a linked tree is straight. -/
theorem straight_canonicalChain {t : BlockTree} {genesis tip : Block} (hl : t.Linked genesis)
    (htip : t.get t.canonicalTip = some tip) (hbase : c.baseHeight ≤ 1)
    (hblocks : c.blocks = t.canonicalChain) (hgenesis : c.genesis = genesis) : c.Straight := by
  have hhead := BlockTree.head?_canonicalChain hl htip
  refine ⟨hbase, by rw [hblocks, hgenesis, hhead], ?_⟩
  intro k b hb
  rw [hblocks] at hb
  refine (BlockTree.height_of_linked ?_ (BlockTree.linked_canonicalChain hl) hb).trans
    (Nat.zero_add k)
  intro b' hb'
  cases hhead.symm.trans hb'
  exact hl.genesis.2

/-- What a node is like that accepted the blocks of `order` one by one and finalized none: the
cursor is one branch of its tree with a leaf at the end. -/
structure Synced (weight : Bytes → Nat) (order : List Block) (c : Blockchain) : Prop where
  straight : c.Straight
  linked : c.blocks.IsChain fun p b =>
    b.header.prevHash = p.hash ∧ b.header.height = p.header.height + 1
  sound : c.blockTree.Sound c.genesis
  unfinalized : c.blockTree.finalizedHeight = 0
  filed : ∀ b ∈ c.blocks, c.blockTree.get b.hash = some b
  leaf : ∀ h b, c.blockTree.get h = some b → 0 < b.header.height →
    b.header.prevHash ≠ c.latestBlock.hash
  weighed : c.blockTree.Weighed weight order
  root : weight c.genesis.hash = 0

theorem synced_genesis (h : fromGenesis P g = .ok c) (hzero : weight c.genesis.hash = 0) :
    Synced weight [c.genesis] c := by
  obtain ⟨accounts, -, hrec⟩ := recomputes_genesis h 0
  have hstep := inStep_genesis h
  have hblocks := (blocks_of_genesis h).1
  have htree : c.blockTree = BlockTree.fromGenesis c.genesis := by
    unfold fromGenesis at h
    simp only [Outcome.except_bind_eq_ok] at h
    obtain ⟨accounts, -, hc⟩ := h
    cases hc
    rfl
  refine ⟨hrec.straight, ?_, hstep.sound, ?_, ?_, ?_, ?_, hzero⟩
  · rw [hblocks]
    exact List.IsChain.singleton _
  · rw [htree]
    rfl
  · intro b hb
    rw [hblocks, List.mem_singleton] at hb
    rw [hb]
    exact hstep.sound.genesis.1
  · intro h' b hb hpos
    rw [← hstep.tip.2]
    exact hstep.leaf h' b hb hpos
  · rw [htree]
    exact BlockTree.weighed_fromGenesis hzero hstep.sound.genesis.2

theorem Synced.latest_mem (h : Synced weight order c) : c.latestBlock ∈ c.blocks :=
  List.mem_of_getElem? h.straight.latestBlock

theorem latestBlock_of_straight_append {blocks : List Block} (hst : c'.Straight)
    (hblocks : c'.blocks = blocks ++ [block]) : c'.latestBlock = block := by
  have hlast := hst.latestBlock
  have hheight : c'.height = blocks.length := by
    unfold height blockCount
    rw [hblocks]
    simp
  rw [hheight, hblocks] at hlast
  simpa using hlast.symm

theorem linked_addBlock (hst : c.Straight) (hok : (c.addBlock P now block).1 = .ok ())
    (hlinked : c.blocks.IsChain fun p b =>
      b.header.prevHash = p.hash ∧ b.header.height = p.header.height + 1) :
    (c.addBlock P now block).2.blocks.IsChain fun p b =>
      b.header.prevHash = p.hash ∧ b.header.height = p.header.height + 1 := by
  obtain ⟨hfollows, -⟩ := addBlock_ok_spine hok
  rw [(hst.addBlock hok).2.1, List.isChain_append]
  refine ⟨hlinked, List.IsChain.singleton _, ?_⟩
  intro p hp b hb
  cases hst.getLast?.symm.trans hp
  cases hb
  exact ⟨hfollows.prevHash, hfollows.height⟩

/-- **A child of the tip.** -/
theorem Synced.addBlock (h : Synced weight order c) (hok : (c.addBlock P now block).1 = .ok ())
    (hhash : ∀ b ∈ order, b.hash = block.hash → b.header = block.header)
    (hweight : ∀ s, executed P c now block = .ok s →
      weight block.hash = U64.wrapAdd (weight block.header.prevHash) (proposerStake P s block)) :
    Synced weight (order ++ [block]) (c.addBlock P now block).2 := by
  obtain ⟨s, hvalid, happ⟩ := appended_of_addBlock hok
  obtain ⟨hst, hblocks, hgenesis, -, -⟩ := h.straight.addBlock hok
  have hfollows := follows_of_validate hvalid
  have hexecuted : executed P c now block = .ok s := by
    unfold executed
    rw [if_pos hfollows.prevHash, hvalid]
  have htip : c.blockTree.get block.header.prevHash = some c.latestBlock := by
    rw [hfollows.prevHash]
    exact h.filed _ h.latest_mem
  -- nothing hangs under the tip yet, this block neither
  have hnew : block.hash ∉ c.blockTree.entries := by
    intro hin
    obtain ⟨b, hb, hget, hsame⟩ := h.weighed.of_entry h.sound hin
    have hheader := hhash b hb hsame
    have hheight := hfollows.height
    refine h.leaf _ b hget ?_ ?_
    · rw [hheader]
      omega
    · rw [hheader]
      exact hfollows.prevHash
  obtain ⟨⟨tree, switched⟩, hinsert⟩ : ∃ staged,
      c.blockTree.insert block (proposerStake P s block) = .ok staged :=
    BlockTree.insert_child h.unfinalized htip hfollows.height
  have htree : (c.addBlock P now block).2.blockTree = tree := by
    refine (congrArg Spine.blockTree happ).trans ?_
    show insertIgnoringErrors c.blockTree block (proposerStake P s block) = tree
    unfold insertIgnoringErrors
    rw [hinsert]
  obtain ⟨-, -, hget, -, -⟩ := BlockTree.insert_new h.sound hinsert hnew
  have hlatest := latestBlock_of_straight_append hst hblocks
  refine ⟨hst, ?_, ?_, ?_, ?_, ?_, ?_, by rw [hgenesis]; exact h.root⟩
  · exact linked_addBlock h.straight hok h.linked
  · rw [htree, hgenesis]
    exact h.sound.insert hinsert
  · rw [htree]
    exact (BlockTree.insert_finalized hinsert).2.trans h.unfinalized
  · intro b hb
    rw [htree]
    rw [hblocks] at hb
    rcases List.mem_append.mp hb with hb | hb
    · exact BlockTree.insert_grows hinsert _ _ (h.filed b hb)
    · rw [List.mem_singleton.mp hb, hget, if_pos rfl]
  · rw [htree, hlatest]
    intro x b hb hpos
    exact BlockTree.childless_of_insert h.sound hinsert hnew hb hpos
  · rw [htree]
    exact h.weighed.insert h.sound hinsert (hweight s hexecuted)

/-- A staged block, with the state it was found to lead to. -/
theorem executed_of_stage {tree : BlockTree} {switched : Bool}
    (hprev : block.header.prevHash ≠ c.latestBlock.hash)
    (h : c.stageForkBlock P now block = .ok (tree, switched)) :
    ∃ s, executed P c now block = .ok s ∧
      c.blockTree.insert block (proposerStake P s block) = .ok (tree, switched) := by
  unfold stageForkBlock at h
  unfold executed
  rw [if_neg hprev]
  cases hparent : c.blockTree.get block.header.prevHash with
  | none => exact absurd h (by simp [hparent])
  | some parent =>
    simp only [hparent, Outcome.except_bind_eq_ok] at h ⊢
    obtain ⟨parentState, hreplay, s, hvalid, h⟩ := h
    refine ⟨s, ⟨parentState, hreplay, hvalid⟩, ?_⟩
    split at h
    · exact absurd h (by simp)
    · next staged hinsert =>
      cases h
      exact hinsert

/-- The fork path that succeeds: the block is staged, and if the tip moved away the cursor follows. -/
theorem spine_of_forkChoice {switched : Bool}
    (hok : c.addBlockWithForkChoice P now block = (.ok switched, c'))
    (hprev : block.header.prevHash ≠ c.latestBlock.hash) :
    ∃ tree sw, c.stageForkBlock P now block = .ok (tree, sw) ∧ c'.spine =
      if sw then { c.spine with
        blockTree := tree
        blocks := tree.canonicalChain
        genesis := tree.canonicalChain.head?.getD c.genesis }
      else { c.spine with blockTree := tree } := by
  unfold addBlockWithForkChoice at hok
  rw [if_neg hprev] at hok
  split at hok
  · exact absurd (congrArg Prod.fst hok) (by simp)
  split at hok
  · exact absurd (congrArg Prod.fst hok) (by simp)
  · next tree hstage =>
    cases hok
    exact ⟨tree, false, hstage, rfl⟩
  · next tree hstage =>
    refine ⟨tree, true, hstage, ?_⟩
    rcases @reorgToCanonicalTip_spine P { c with blockTree := tree } now with ⟨-, hrefused⟩ |
      ⟨-, hspine⟩
    · -- a refused reorganisation is an error
      exfalso
      unfold reorgToCanonicalTip at hok
      dsimp only at hok
      cases hcheck : { c with blockTree := tree }.checkReorg tree.canonicalChain with
      | ok u => exact hrefused hcheck
      | error e =>
        rw [hcheck] at hok
        exact absurd (congrArg Prod.fst hok) (by simp)
    · split at hok
      · exact absurd (congrArg Prod.fst hok) (by simp)
      · next hres =>
        cases hok
        rw [hres] at hspine
        exact hspine

/-- A block hung off the tip that does not become the new one. -/
theorem Synced.hung {tree : BlockTree} (h : Synced weight order c)
    (hinsert : c.blockTree.insert block stake = .ok (tree, false))
    (hspine : c'.spine = { c.spine with blockTree := tree })
    (hprev : block.header.prevHash ≠ c.latestBlock.hash)
    (hweight : weight block.hash = U64.wrapAdd (weight block.header.prevHash) stake) :
    Synced weight (order ++ [block]) c' := by
  have hblocks : c'.blocks = c.blocks := congrArg Spine.blocks hspine
  have hgenesis : c'.genesis = c.genesis := congrArg Spine.genesis hspine
  have hbase : c'.baseHeight = c.baseHeight := congrArg Spine.baseHeight hspine
  have htree : c'.blockTree = tree := congrArg Spine.blockTree hspine
  have hlatest : c'.latestBlock = c.latestBlock := latestBlock_eq hgenesis hblocks hbase
  refine ⟨⟨hbase ▸ h.straight.base, ?_, ?_⟩, ?_, ?_, ?_, ?_, ?_, ?_, by rw [hgenesis]; exact h.root⟩
  · rw [hblocks, hgenesis]
    exact h.straight.head
  · rw [hblocks]
    exact h.straight.heights
  · rw [hblocks]
    exact h.linked
  · rw [htree, hgenesis]
    exact h.sound.insert hinsert
  · rw [htree]
    exact (BlockTree.insert_finalized hinsert).2.trans h.unfinalized
  · rw [hblocks, htree]
    exact fun b hb => BlockTree.insert_grows hinsert _ _ (h.filed b hb)
  · -- the block itself hangs elsewhere
    rw [htree, hlatest]
    intro x b hb hpos
    rcases BlockTree.get_insert hinsert hb with hold | rfl
    · exact h.leaf x b hold hpos
    · exact hprev
  · rw [htree]
    exact h.weighed.insert h.sound hinsert hweight

/-- A block that becomes the new tip, with the cursor rebuilt to it. -/
theorem Synced.moved {tree : BlockTree} (h : Synced weight order c)
    (hinsert : c.blockTree.insert block stake = .ok (tree, true))
    (hspine : c'.spine = { c.spine with
      blockTree := tree
      blocks := tree.canonicalChain
      genesis := tree.canonicalChain.head?.getD c.genesis })
    (hweight : weight block.hash = U64.wrapAdd (weight block.header.prevHash) stake) :
    Synced weight (order ++ [block]) c' := by
  have hs := h.sound.insert hinsert
  obtain ⟨htip, hget⟩ := BlockTree.canonicalTip_of_switched hinsert
  rw [← htip] at hget
  have hblocks : c'.blocks = tree.canonicalChain := congrArg Spine.blocks hspine
  have hgenesis : c'.genesis = c.genesis := by
    refine (congrArg Spine.genesis hspine).trans ?_
    dsimp only
    rw [BlockTree.head?_canonicalChain hs.toLinked hget]
    rfl
  have hbase : c'.baseHeight = c.baseHeight := congrArg Spine.baseHeight hspine
  have htree : c'.blockTree = tree := congrArg Spine.blockTree hspine
  have hst : c'.Straight :=
    straight_canonicalChain hs.toLinked hget (hbase ▸ h.straight.base) hblocks hgenesis
  -- The canonical chain ends at the tip of the new tree, which is the block.
  have hlatest : c'.latestBlock = block := by
    have hlast := hst.getLast?
    rw [hblocks, BlockTree.getLast?_canonicalChain hget] at hlast
    exact (Option.some.inj hlast).symm
  have hnew : block.hash ∉ c.blockTree.entries := by
    rcases BlockTree.insert_cases hinsert with ⟨-, hsw, -⟩ | ⟨hnew, -⟩
    · exact absurd hsw (by simp)
    · exact hnew
  refine ⟨hst, ?_, ?_, ?_, ?_, ?_, ?_, by rw [hgenesis]; exact h.root⟩
  · rw [hblocks]
    exact BlockTree.linked_canonicalChain hs.toLinked
  · rw [htree, hgenesis]
    exact hs
  · rw [htree]
    exact (BlockTree.insert_finalized hinsert).2.trans h.unfinalized
  · intro b hb
    rw [hblocks] at hb
    rw [htree]
    exact ((BlockTree.mem_canonicalChain_iff hs.toLinked).mp hb).2.2
  · rw [htree, hlatest]
    intro x b hb hpos
    exact BlockTree.childless_of_insert h.sound hinsert hnew hb hpos
  · rw [htree]
    exact h.weighed.insert h.sound hinsert hweight

/-- **A block off the tip**, whether or not the node reorganises to it. -/
theorem Synced.fork {switched : Bool} (h : Synced weight order c)
    (hok : c.addBlockWithForkChoice P now block = (.ok switched, c'))
    (hprev : block.header.prevHash ≠ c.latestBlock.hash)
    (hweight : ∀ s, executed P c now block = .ok s →
      weight block.hash = U64.wrapAdd (weight block.header.prevHash) (proposerStake P s block)) :
    Synced weight (order ++ [block]) c' := by
  obtain ⟨tree, sw, hstage, hspine⟩ := spine_of_forkChoice hok hprev
  obtain ⟨s, hexecuted, hinsert⟩ := executed_of_stage hprev hstage
  cases sw with
  | false =>
    rw [if_neg (by simp)] at hspine
    exact h.hung hinsert hspine hprev (hweight s hexecuted)
  | true =>
    rw [if_pos rfl] at hspine
    exact h.moved hinsert hspine (hweight s hexecuted)

/-! ## Restarts -/

theorem storedBlocks_eq (hst : c.Straight) : c.storedBlocks = c.blocks.tail := by
  have hlen : c.blocks.tail.length = c.height := by
    rw [List.length_tail]
    rfl
  have hread : ∀ k, c.blockAtHeight (1 + k) = c.blocks.tail[k]? := by
    intro k
    rw [hst.blockAtHeight, List.getElem?_tail, Nat.add_comm]
  unfold storedBlocks
  rw [List.takeWhile_eq_self_iff.mpr]
  · rw [List.range'_eq_map_range, List.map_map, List.filterMap_map, ← hlen]
    refine Eq.trans ?_ (filterMap_getElem?_range c.blocks.tail)
    refine List.filterMap_congr ?_
    intro k _
    exact hread k
  · intro b hb
    rw [List.range'_eq_map_range, List.map_map, List.mem_map] at hb
    obtain ⟨k, hk, rfl⟩ := hb
    rw [List.mem_range, ← hlen] at hk
    rw [Function.comp_apply, hread, List.getElem?_eq_getElem hk]
    rfl

theorem Synced.nodup (h : Synced weight order c) : (c.blocks.map Block.hash).Nodup := by
  have hheights : c.blocks.map (fun b => b.header.height) = List.range c.blocks.length := by
    refine List.ext_getElem? fun k => ?_
    rw [List.getElem?_map]
    cases hb : c.blocks[k]? with
    | none =>
      rw [List.getElem?_eq_none (by simpa using hb)]
      rfl
    | some b =>
      have hlt := (List.getElem?_eq_some_iff.mp hb).1
      rw [List.getElem?_range hlt, Option.map_some, h.straight.heights hb]
  have hdistinct : c.blocks.Nodup :=
    List.Nodup.of_map (fun b => b.header.height) (hheights ▸ List.nodup_range)
  refine List.Nodup.map_on ?_ hdistinct
  intro b hb b' hb' hhash
  have hsame := h.filed b hb
  rw [hhash, h.filed b' hb'] at hsame
  exact (Option.some.inj hsame).symm

/-- The tip is the first of the heaviest on its own branch too. -/
theorem Synced.argmax_blocks (h : Synced weight order c)
    (htip : c.blockTree.canonicalTip ∈ c.blocks.map Block.hash) :
    (c.blocks.map Block.hash).argmax weight = some c.blockTree.canonicalTip := by
  obtain ⟨top, htop, hhash⟩ := List.mem_map.mp htip
  obtain ⟨before, after, hsplit⟩ := List.append_of_mem htop
  rw [hsplit, List.map_append, List.map_cons, hhash]
  refine argmax_of_split ?_ ?_
  · intro a ha
    obtain ⟨b, hb, rfl⟩ := List.mem_map.mp ha
    have hreach : Reaches c.blockTree.ParentOf top.hash b.hash := by
      refine BlockTree.reaches_of_linked (fun x hx => h.filed x ?_) ?_ hb
      · rw [hsplit]
        simp only [List.mem_append, List.mem_cons] at hx ⊢
        tauto
      · have hlinked := h.linked
        rw [hsplit, show before ++ top :: after = (before ++ [top]) ++ after by simp] at hlinked
        exact (List.isChain_append.mp hlinked).1
    rw [hhash] at hreach
    refine h.weighed.below _ hreach ?_
    intro heq
    have hdup := h.nodup
    rw [hsplit, List.map_append, List.nodup_append] at hdup
    exact hdup.2.2 _ (List.mem_map_of_mem hb) _ (by simp) (heq.trans hhash.symm)
  · intro a ha
    obtain ⟨b, hb, rfl⟩ := List.mem_map.mp ha
    exact h.weighed.le_tip (h.weighed.known _ _ (h.filed b (by rw [hsplit]; simp [hb])))

/-- **A restart** that still has the tip on the stored branch and finds the stakes as they were. -/
theorem Synced.restart (h : Synced weight order c) (hok : c.restart P now = .ok c')
    (htip : c.blockTree.canonicalTip ∈ c.blocks.map Block.hash)
    (hweight : ∀ b ∈ c.storedBlocks, weight b.hash =
      U64.wrapAdd (weight b.header.prevHash) (proposerStake P c.execState b)) :
    Synced weight order c' := by
  obtain ⟨base, hbase, hspine⟩ := restart_spine hok
  have hblocks : c'.blocks = c.blocks := congrArg Spine.blocks hspine
  have hgenesis : c'.genesis = c.genesis := congrArg Spine.genesis hspine
  have htree : c'.blockTree = treeFromBlocks P c.accounts c.genesis c.storedBlocks :=
    congrArg Spine.blockTree hspine
  have hgheight := h.sound.genesis.2
  obtain ⟨hs, hopen⟩ := @sound_treeFromBlocks P c.genesis c.accounts c.storedBlocks hgheight
  have hchain := h.linked
  have hnodup := h.nodup
  rw [h.straight.blocks_eq] at hchain hnodup
  have hstored := storedBlocks_eq h.straight
  obtain ⟨hweighed, hfiled⟩ := (BlockTree.weighed_fromGenesis h.root hgheight).path
    (BlockTree.sound_fromGenesis hgheight) rfl (BlockTree.sound_fromGenesis hgheight).genesis.1
    (fun b hb => by
      rw [List.mem_singleton.mp hb]
      exact (BlockTree.sound_fromGenesis hgheight).genesis.1)
    hchain hnodup (fun b hb => hweight b (hstored ▸ hb))
  rw [← hstored] at hweighed hfiled
  change (treeFromBlocks P c.accounts c.genesis c.storedBlocks).Weighed weight _ at hweighed
  change ∀ b ∈ _, (treeFromBlocks P c.accounts c.genesis c.storedBlocks).get b.hash = some b at hfiled
  have hall : [c.genesis] ++ c.storedBlocks = c.blocks := by
    rw [hstored]
    exact h.straight.blocks_eq.symm
  rw [hall] at hweighed hfiled
  have hknown : ∀ b ∈ c.blocks, b ∈ order := fun b hb => h.weighed.known _ _ (h.filed b hb)
  have hsametip : (treeFromBlocks P c.accounts c.genesis c.storedBlocks).canonicalTip =
      c.blockTree.canonicalTip :=
    Option.some.inj (hweighed.tip.symm.trans (h.argmax_blocks htip))
  have hbase' : c'.baseHeight ≤ 1 := by
    have hone := h.straight.base
    rw [show c'.baseHeight = base from congrArg Spine.baseHeight hspine]
    omega
  have hst : c'.Straight := by
    refine ⟨hbase', ?_, ?_⟩
    · rw [hblocks, hgenesis]
      exact h.straight.head
    · rw [hblocks]
      exact h.straight.heights
  have hlatest : c'.latestBlock = c.latestBlock := by
    have hlast := hst.latestBlock
    rw [show c'.height = c.height by unfold height blockCount; rw [hblocks], hblocks,
      h.straight.latestBlock] at hlast
    exact (Option.some.inj hlast).symm
  refine ⟨hst, ?_, ?_, ?_, ?_, ?_, ?_, by rw [hgenesis]; exact h.root⟩
  · rw [hblocks]
    exact h.linked
  · rw [htree, hgenesis]
    exact hs
  · rw [htree]
    exact hopen
  · rw [hblocks, htree]
    exact hfiled
  · rw [htree, hlatest]
    intro x b hb hpos
    exact h.leaf b.hash b (h.filed b (hweighed.known x b hb)) hpos
  · rw [htree]
    refine ⟨fun x b hb => hknown b (hweighed.known x b hb), hweighed.weights, ?_, hweighed.below⟩
    rw [hsametip]
    exact h.weighed.tip

/-! ## Runs -/

inductive SyncOp where
  | addBlock (now : Int) (block : Block)
  | addBlockWithForkChoice (now : Int) (block : Block)
  | addFinalityVote (vote : FinalityVote)
  | restart (now : Int)

/-- The block a call delivers, and the clock reading. -/
def SyncOp.call : SyncOp → Option (Int × Block)
  | .addBlock now block => some (now, block)
  | .addBlockWithForkChoice now block => some (now, block)
  | .addFinalityVote _ => none
  | .restart _ => none

def delivered (ops : List SyncOp) : List Block :=
  ops.filterMap fun op => op.call.map Prod.snd

/-- The node after one call that succeeds and finalizes nothing. -/
def sync (P : Primitives) (c : Blockchain) : SyncOp → Option Blockchain
  | .addBlock now block => match c.addBlock P now block with
    | (.ok (), c') => some c'
    | (.error _, _) => none
  | .addBlockWithForkChoice now block => match c.addBlockWithForkChoice P now block with
    | (.ok _, c') => some c'
    | (.error _, _) => none
  | .addFinalityVote vote => match c.addFinalityVote P vote with
    | (none, c') => some c'
    | (some _, _) => none
  | .restart now => (c.restart P now).toOption

def syncAll (P : Primitives) : Blockchain → List SyncOp → Option Blockchain
  | c, [] => some c
  | c, op :: rest => match sync P c op with
    | some c' => syncAll P c' rest
    | none => none

/-- The states a run executed its blocks to. -/
def executedStates (P : Primitives) : Blockchain → List SyncOp → List ExecState
  | _, [] => []
  | c, op :: rest =>
    (op.call.bind fun e => (executed P c e.1 e.2).toOption).toList ++
      match sync P c op with
      | some c' => executedStates P c' rest
      | none => []

/-- The state root that `s` has under the protocol of `block` is the one `block` names. -/
def HasRoot (P : Primitives) (block : Block) (s : ExecState) : Prop :=
  StateRoot.computeAtProtocol P s.accounts s.contracts block.header.version = block.header.stateRoot

instance (P : Primitives) (block : Block) (s : ExecState) : Decidable (HasRoot P block s) :=
  inferInstanceAs (Decidable (_ = _))

/-- The stake behind `block`: that of its proposer in the state its header names. -/
def committedStake (P : Primitives) (states : List ExecState) (block : Block) : Nat :=
  ((states.find? fun s => HasRoot P block s).map fun s => proposerStake P s block).getD 0

/-- Among these blocks and states the hashes have no collision. -/
structure NoCollision (P : Primitives) (blocks : List Block) (states : List ExecState) : Prop where
  hash : ∀ b ∈ blocks, ∀ b' ∈ blocks, b.hash = b'.hash → b.header = b'.header
  root : ∀ b ∈ blocks, ∀ s ∈ states, ∀ s' ∈ states, HasRoot P b s → HasRoot P b s' →
    s.accounts = s'.accounts

/-- `weight` is the `u64` sum of the stakes behind a block and the blocks below it. -/
structure BranchWeight (gain : Block → Nat) (genesis : Block) (blocks : List Block)
    (weight : Bytes → Nat) : Prop where
  genesis : weight genesis.hash = 0
  child : ∀ b ∈ blocks, weight b.hash = U64.wrapAdd (weight b.header.prevHash) (gain b)

/-- Before every restart of a run the tip is on the stored branch, and each proposer of that branch
has the stake it had right after its block. -/
def SteadyRestarts (P : Primitives) (gain : Block → Nat) : Blockchain → List SyncOp → Prop
  | _, [] => True
  | c, op :: rest =>
    (match op with
      | .restart _ => c.blockTree.canonicalTip ∈ c.blocks.map Block.hash ∧
          ∀ b ∈ c.storedBlocks, proposerStake P c.execState b = gain b
      | _ => True) ∧
    match sync P c op with
    | some c' => SteadyRestarts P gain c' rest
    | none => True

instance decidableSteadyRestarts (P : Primitives) (gain : Block → Nat) :
    (c : Blockchain) → (ops : List SyncOp) → Decidable (SteadyRestarts P gain c ops)
  | _, [] => isTrue trivial
  | c, op :: rest =>
    haveI : Decidable (match op with
        | .restart _ => c.blockTree.canonicalTip ∈ c.blocks.map Block.hash ∧
            ∀ b ∈ c.storedBlocks, proposerStake P c.execState b = gain b
        | _ => True) :=
      match op with
      | .restart _ => inferInstanceAs (Decidable (_ ∧ _))
      | .addBlock _ _ => isTrue trivial
      | .addBlockWithForkChoice _ _ => isTrue trivial
      | .addFinalityVote _ => isTrue trivial
    haveI : Decidable (match sync P c op with
        | some c' => SteadyRestarts P gain c' rest
        | none => True) :=
      match sync P c op with
      | some c' => decidableSteadyRestarts P gain c' rest
      | none => isTrue trivial
    inferInstanceAs (Decidable (_ ∧ _))

variable {blocks : List Block} {states : List ExecState} {ops : List SyncOp} {op : SyncOp}

/-- A validated block names the root of the state it leads to. -/
theorem hasRoot_of_validate {parent : Block} {s s' : ExecState}
    (h : c.validateBlockAgainstState P now block parent s = .ok s') : HasRoot P block s' := by
  obtain ⟨hheader, -, q, -, hfinish⟩ := validate_eq_ok.mp h
  have hversion : block.header.version = c.protocolVersionAtHeight block.header.height := by
    unfold checkHeader at hheader
    simp only [Outcome.except_bind_eq_ok, ensure_eq_ok, decide_eq_true_eq] at hheader
    obtain ⟨_, -, _, -, _, -, _, -, _, -, _, -, _, hversion, -⟩ := hheader
    exact hversion
  unfold finishBlock at hfinish
  simp only [Outcome.except_bind_eq_ok] at hfinish
  obtain ⟨governed, -, _, -, hfinish⟩ := hfinish
  split at hfinish
  · exact absurd hfinish (by simp)
  · simp only [Outcome.except_bind_eq_ok, ensure_eq_ok, decide_eq_true_eq] at hfinish
    obtain ⟨_, -, _, -, accounts, -, _, hroot, hs⟩ := hfinish
    cases hs
    unfold HasRoot
    rw [hversion]
    exact hroot.symm

theorem hasRoot_of_executed {s : ExecState} (h : executed P c now block = .ok s) :
    HasRoot P block s := by
  unfold executed at h
  split at h
  · exact hasRoot_of_validate h
  · split at h
    · exact absurd h (by simp)
    · simp only [Outcome.except_bind_eq_ok] at h
      obtain ⟨_, -, hvalid⟩ := h
      exact hasRoot_of_validate hvalid

theorem committedStake_eq (hno : NoCollision P blocks states) (hb : block ∈ blocks) {s : ExecState}
    (hs : s ∈ states) (hroot : HasRoot P block s) :
    committedStake P states block = proposerStake P s block := by
  unfold committedStake
  cases hfind : states.find? fun s => HasRoot P block s with
  | none => exact absurd hroot (by simpa using List.find?_eq_none.mp hfind s hs)
  | some s' =>
    have hroot' : HasRoot P block s' := by simpa using List.find?_some hfind
    have haccounts := hno.root block hb s' (List.mem_of_find?_eq_some hfind) s hs hroot' hroot
    show proposerStake P s' block = proposerStake P s block
    unfold proposerStake
    rw [haccounts]

theorem addBlock_of_forkChoice {switched : Bool}
    (hok : c.addBlockWithForkChoice P now block = (.ok switched, c'))
    (hprev : block.header.prevHash = c.latestBlock.hash) :
    c.addBlock P now block = (.ok (), c') := by
  unfold addBlockWithForkChoice at hok
  rw [if_pos hprev] at hok
  split at hok
  · exact absurd (congrArg Prod.fst hok) (by simp)
  · split at hok
    · exact absurd (congrArg Prod.fst hok) (by simp)
    · next hadd =>
      cases hok
      exact hadd

/-- The tracker has no part in it. -/
theorem Synced.withTracker (h : Synced weight order c) (tracker : FinalityTracker) :
    Synced weight order { c with finalityTracker := tracker } :=
  ⟨⟨h.straight.base, h.straight.head, h.straight.heights⟩, h.linked, h.sound, h.unfinalized, h.filed,
    h.leaf, h.weighed, h.root⟩

/-- **One call** of a run over the blocks `received`. -/
theorem Synced.sync {genesis : Block} {received : List Block} (h : Synced weight order c)
    (hok : Blockchain.sync P c op = some c') (hno : NoCollision P (genesis :: received) states)
    (hweight : BranchWeight (committedStake P states) genesis received weight)
    (hgenesis : genesis.header.height = 0) (horder : ∀ b ∈ order, b ∈ genesis :: received)
    (hreceived : ∀ b ∈ delivered [op], b ∈ received)
    (hstates : ∀ s ∈ executedStates P c [op], s ∈ states)
    (hsteady : SteadyRestarts P (committedStake P states) c [op]) :
    Synced weight (order ++ delivered [op]) c' := by
  -- whichever way the block was executed, its weight is the one it commits to
  have hblock : ∀ {now : Int} {block : Block}, op.call = some (now, block) →
      (∀ b ∈ order, b.hash = block.hash → b.header = block.header) ∧
      ∀ s, executed P c now block = .ok s →
        weight block.hash = U64.wrapAdd (weight block.header.prevHash) (proposerStake P s block) := by
    intro now block hcall
    have hb : block ∈ received := hreceived block (by simp [delivered, hcall])
    refine ⟨fun b hmem => hno.hash b (horder b hmem) block (List.mem_cons_of_mem _ hb), ?_⟩
    intro s hs
    have hin : s ∈ states := hstates s (by simp [executedStates, hcall, hs, Except.toOption])
    rw [hweight.child block hb,
      committedStake_eq hno (List.mem_cons_of_mem _ hb) hin (hasRoot_of_executed hs)]
  cases op with
  | addBlock now block =>
    obtain ⟨hhash, hstake⟩ := hblock rfl
    unfold Blockchain.sync at hok
    dsimp only at hok
    split at hok
    · next hres =>
      cases hok
      have hafter := h.addBlock (congrArg Prod.fst hres) hhash hstake
      rw [hres] at hafter
      exact hafter
    · exact absurd hok (by simp)
  | addBlockWithForkChoice now block =>
    obtain ⟨hhash, hstake⟩ := hblock rfl
    unfold Blockchain.sync at hok
    dsimp only at hok
    split at hok
    · next hres =>
      cases hok
      by_cases hprev : block.header.prevHash = c.latestBlock.hash
      · have hadd := addBlock_of_forkChoice hres hprev
        have hafter := h.addBlock (congrArg Prod.fst hadd) hhash hstake
        rw [hadd] at hafter
        exact hafter
      · exact h.fork hres hprev hstake
    · exact absurd hok (by simp)
  | addFinalityVote vote =>
    have hnothing : delivered [SyncOp.addFinalityVote vote] = [] := rfl
    rw [hnothing, List.append_nil]
    unfold Blockchain.sync at hok
    dsimp only at hok
    rcases addFinalityVote_cases P c vote with hv | ⟨snapshot, -, ⟨tracker, -, hv⟩ |
      ⟨tracker, finalized, -, hv⟩⟩
    · rw [hv] at hok
      cases hok
      exact h
    · rw [hv] at hok
      cases hok
      exact h.withTracker tracker
    · rw [hv] at hok
      exact absurd hok (by simp)
  | restart now =>
    have hnothing : delivered [SyncOp.restart now] = [] := rfl
    rw [hnothing, List.append_nil]
    obtain ⟨⟨htip, hstakes⟩, -⟩ := hsteady
    have hres : c.restart P now = .ok c' := by
      unfold Blockchain.sync at hok
      dsimp only at hok
      cases hr : c.restart P now with
      | error e => exact absurd hok (by simp [hr, Except.toOption])
      | ok c'' =>
        rw [hr] at hok
        cases hok
        rfl
    refine h.restart hres htip ?_
    intro b hb
    have hmem : b ∈ c.blocks.tail := storedBlocks_eq h.straight ▸ hb
    have hknown := horder b (h.weighed.known _ _ (h.filed b (List.mem_of_mem_tail hmem)))
    have hreceived' : b ∈ received := by
      rcases List.mem_cons.mp hknown with rfl | hin
      · -- only the first block of the cursor has height 0
        obtain ⟨k, hk⟩ := List.mem_iff_getElem?.mp hmem
        rw [List.getElem?_tail] at hk
        have := h.straight.heights hk
        omega
      · exact hin
    rw [hweight.child b hreceived', hstakes b hb]

theorem delivered_cons : delivered (op :: ops) = delivered [op] ++ delivered ops := by
  unfold delivered
  rw [← List.filterMap_append]
  rfl

/-- **A whole run.** -/
theorem Synced.syncAll {genesis : Block} {received : List Block} (h : Synced weight order c)
    (hok : Blockchain.syncAll P c ops = some c') (hno : NoCollision P (genesis :: received) states)
    (hweight : BranchWeight (committedStake P states) genesis received weight)
    (hgenesis : genesis.header.height = 0) (horder : ∀ b ∈ order, b ∈ genesis :: received)
    (hreceived : ∀ b ∈ delivered ops, b ∈ received)
    (hstates : ∀ s ∈ executedStates P c ops, s ∈ states)
    (hsteady : SteadyRestarts P (committedStake P states) c ops) :
    Synced weight (order ++ delivered ops) c' := by
  induction ops generalizing c order with
  | nil =>
    cases hok
    simpa [delivered] using h
  | cons op rest ih =>
    unfold Blockchain.syncAll at hok
    cases hstep : Blockchain.sync P c op with
    | none => exact absurd hok (by simp [hstep])
    | some c₁ =>
      rw [hstep] at hok
      dsimp only at hok
      unfold executedStates at hstates
      unfold SteadyRestarts at hsteady
      rw [hstep] at hstates hsteady
      rw [delivered_cons] at hreceived ⊢
      have hone : ∀ b ∈ delivered [op], b ∈ received :=
        fun b hb => hreceived b (List.mem_append_left _ hb)
      have hafter := h.sync hstep hno hweight hgenesis horder hone
        (fun s hs => hstates s (by
          simp only [executedStates, hstep, List.append_nil] at hs
          exact List.mem_append_left _ hs))
        (by
          unfold SteadyRestarts
          rw [hstep]
          exact ⟨hsteady.1, trivial⟩)
      rw [← List.append_assoc]
      refine ih hafter hok ?_ (fun b hb => hreceived b (List.mem_append_right _ hb))
        (fun s hs => hstates s (List.mem_append_right _ hs)) hsteady.2
      intro b hb
      rcases List.mem_append.mp hb with hb | hb
      · exact horder b hb
      · exact List.mem_cons_of_mem _ (hone b hb)

/-- What two nodes agree on once the fork choice has converged. -/
structure Converged (c₁ c₂ : Blockchain) : Prop where
  tip : c₁.blockTree.canonicalTip = c₂.blockTree.canonicalTip
  weights : ∀ h b₁ b₂, c₁.blockTree.get h = some b₁ → c₂.blockTree.get h = some b₂ →
    c₁.blockTree.weightOf h = c₂.blockTree.weightOf h

/-- The genesis and the blocks of a run, in the order they came. -/
def receivedHashes (genesis : Block) (ops : List SyncOp) : List Bytes :=
  (genesis :: delivered ops).map Block.hash

end Blockchain

open Blockchain in
/-- **When fork choice converges.** Two nodes of one genesis accept blocks in any order each, with
restarts that find the stakes as they were and the tip on the stored branch. They always agree on
the weights, and they agree on the tip exactly when the same block came first to both among the
heaviest. -/
theorem fork_choice_converges_iff {P : Primitives} {g : GenesisConfig} {c₀ c₁ c₂ : Blockchain}
    {ops₁ ops₂ : List SyncOp} {weight : Bytes → Nat} {states : List ExecState}
    (hstart : fromGenesis P g = .ok c₀) (hrun₁ : syncAll P c₀ ops₁ = some c₁)
    (hrun₂ : syncAll P c₀ ops₂ = some c₂)
    (hstates : states = executedStates P c₀ ops₁ ++ executedStates P c₀ ops₂)
    (hno : Blockchain.NoCollision P (c₀.genesis :: (delivered ops₁ ++ delivered ops₂)) states)
    (hweight : BranchWeight (committedStake P states) c₀.genesis (delivered ops₁ ++ delivered ops₂)
      weight)
    (hsteady₁ : SteadyRestarts P (committedStake P states) c₀ ops₁)
    (hsteady₂ : SteadyRestarts P (committedStake P states) c₀ ops₂) :
    Converged c₁ c₂ ↔ (receivedHashes c₀.genesis ops₁).argmax weight =
      (receivedHashes c₀.genesis ops₂).argmax weight := by
  have hfirst := synced_genesis hstart hweight.genesis
  have hgenesis := hfirst.sound.genesis.2
  have hsynced₁ : Synced weight ([c₀.genesis] ++ delivered ops₁) c₁ :=
    hfirst.syncAll hrun₁ hno hweight hgenesis (by simp) (fun b hb => List.mem_append_left _ hb)
      (fun s hs => hstates ▸ List.mem_append_left _ hs) hsteady₁
  have hsynced₂ : Synced weight ([c₀.genesis] ++ delivered ops₂) c₂ :=
    hfirst.syncAll hrun₂ hno hweight hgenesis (by simp) (fun b hb => List.mem_append_right _ hb)
      (fun s hs => hstates ▸ List.mem_append_right _ hs) hsteady₂
  have htip₁ : (receivedHashes c₀.genesis ops₁).argmax weight = some c₁.blockTree.canonicalTip :=
    hsynced₁.weighed.tip
  have htip₂ : (receivedHashes c₀.genesis ops₂).argmax weight = some c₂.blockTree.canonicalTip :=
    hsynced₂.weighed.tip
  rw [htip₁, htip₂, Option.some.injEq]
  constructor
  · exact fun hconv => hconv.tip
  · intro htip
    refine ⟨htip, ?_⟩
    intro h b₁ b₂ hb₁ hb₂
    rw [hsynced₁.weighed.weights h b₁ hb₁, hsynced₂.weighed.weights h b₂ hb₂]

namespace ConvergenceSample

open Scenario Blockchain

/-- Block 1 of the only validator, another block 1 of the same validator, and a block 2 on that. -/
def branches (c : Blockchain) : Option (Block × Block × Block) := do
  let (a₁, _) ← extend c (clock 1) 1
  let (b₁, c₁) ← extend c (clock 2) 1
  let (b₂, _) ← extend c₁ (clock 3) 1
  return (a₁, b₁, b₂)

def receive (block : Block) : SyncOp := .addBlockWithForkChoice (clock 5) block

end ConvergenceSample

open ConvergenceSample LinearSample Scenario Blockchain in
/-- The longer branch reaches one node last and the other first, with a restart in between. -/
theorem fork_choice_converges_sample : ∃ c₀ a₁ b₁ b₂ c₁ c₂,
    fromGenesis Reference.primitives genesis = .ok c₀ ∧ branches c₀ = some (a₁, b₁, b₂) ∧
      syncAll Reference.primitives c₀ [receive a₁, receive b₁, receive b₂] = some c₁ ∧
      syncAll Reference.primitives c₀ [receive b₁, receive b₂, .restart (clock 9), receive a₁] =
        some c₂ ∧
      Converged c₁ c₂ := by
  have hrun : (fromGenesis Reference.primitives genesis).toOption.any (fun c₀ =>
      (branches c₀).any fun e =>
        let ops₁ := [receive e.1, receive e.2.1, receive e.2.2]
        let ops₂ := [receive e.2.1, receive e.2.2, .restart (clock 9), receive e.1]
        let received := delivered ops₁ ++ delivered ops₂
        let states := executedStates Reference.primitives c₀ ops₁ ++
          executedStates Reference.primitives c₀ ops₂
        let gain := committedStake Reference.primitives states
        (syncAll Reference.primitives c₀ ops₁).any fun c₁ =>
          (syncAll Reference.primitives c₀ ops₂).any fun _ => decide (
            (∀ b ∈ c₀.genesis :: received, ∀ b' ∈ c₀.genesis :: received,
              b.hash = b'.hash → b.header = b'.header) ∧
            (∀ b ∈ c₀.genesis :: received, ∀ s ∈ states, ∀ s' ∈ states,
              HasRoot Reference.primitives b s → HasRoot Reference.primitives b s' →
                s.accounts = s'.accounts) ∧
            c₁.blockTree.weightOf c₀.genesis.hash = 0 ∧
            (∀ b ∈ received, c₁.blockTree.weightOf b.hash =
              U64.wrapAdd (c₁.blockTree.weightOf b.header.prevHash) (gain b)) ∧
            SteadyRestarts Reference.primitives gain c₀ ops₁ ∧
            SteadyRestarts Reference.primitives gain c₀ ops₂ ∧
            (receivedHashes c₀.genesis ops₁).argmax c₁.blockTree.weightOf =
              (receivedHashes c₀.genesis ops₂).argmax c₁.blockTree.weightOf)) = true := by
    decide +kernel
  obtain ⟨c₀, hstart, hrest⟩ := Outcome.ok_of_any hrun
  obtain ⟨⟨a₁, b₁, b₂⟩, hbranches, hrest⟩ := (Option.any_eq_true _ _).mp hrest
  obtain ⟨c₁, hrun₁, hrest⟩ := (Option.any_eq_true _ _).mp hrest
  obtain ⟨c₂, hrun₂, hrest⟩ := (Option.any_eq_true _ _).mp hrest
  rw [decide_eq_true_eq] at hrest
  obtain ⟨hhash, hroot, hzero, hchild, hsteady₁, hsteady₂, hfirst⟩ := hrest
  exact ⟨c₀, a₁, b₁, b₂, c₁, c₂, hstart, hbranches, hrun₁, hrun₂,
    (fork_choice_converges_iff hstart hrun₁ hrun₂ rfl ⟨hhash, hroot⟩ ⟨hzero, hchild⟩ hsteady₁
      hsteady₂).mpr hfirst⟩

open ConvergenceSample LinearSample Scenario Blockchain in
/-- The same two blocks of one proposer in either order: each node stays on the one it saw first. -/
theorem tie_keeps_first_seen : ∃ c₀ a₁ b₁ b₂ c₁ c₂,
    fromGenesis Reference.primitives genesis = .ok c₀ ∧ branches c₀ = some (a₁, b₁, b₂) ∧
      syncAll Reference.primitives c₀ [receive a₁, receive b₁] = some c₁ ∧
      syncAll Reference.primitives c₀ [receive b₁, receive a₁] = some c₂ ∧
      c₁.blockTree.weightOf a₁.hash = c₂.blockTree.weightOf b₁.hash ∧
      c₁.blockTree.canonicalTip = a₁.hash ∧ c₂.blockTree.canonicalTip = b₁.hash ∧
      ¬ Converged c₁ c₂ := by
  have hrun : (fromGenesis Reference.primitives genesis).toOption.any (fun c₀ =>
      (branches c₀).any fun e =>
        (syncAll Reference.primitives c₀ [receive e.1, receive e.2.1]).any fun c₁ =>
          (syncAll Reference.primitives c₀ [receive e.2.1, receive e.1]).any fun c₂ => decide (
            c₁.blockTree.weightOf e.1.hash = c₂.blockTree.weightOf e.2.1.hash ∧
            c₁.blockTree.canonicalTip = e.1.hash ∧ c₂.blockTree.canonicalTip = e.2.1.hash ∧
            e.1.hash ≠ e.2.1.hash)) = true := by
    decide +kernel
  obtain ⟨c₀, hstart, hrest⟩ := Outcome.ok_of_any hrun
  obtain ⟨⟨a₁, b₁, b₂⟩, hbranches, hrest⟩ := (Option.any_eq_true _ _).mp hrest
  obtain ⟨c₁, hrun₁, hrest⟩ := (Option.any_eq_true _ _).mp hrest
  obtain ⟨c₂, hrun₂, hrest⟩ := (Option.any_eq_true _ _).mp hrest
  rw [decide_eq_true_eq] at hrest
  obtain ⟨hweight, htip₁, htip₂, hne⟩ := hrest
  refine ⟨c₀, a₁, b₁, b₂, c₁, c₂, hstart, hbranches, hrun₁, hrun₂, hweight, htip₁, htip₂, ?_⟩
  intro hconv
  exact hne (htip₁.symm.trans (hconv.tip.trans htip₂))

end Curs3d
