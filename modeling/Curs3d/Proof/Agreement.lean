import Curs3d.Network.System
import Curs3d.Proof.FinalityChain

/-!
# Agreement between nodes

A finalized block carries a certificate: distinct validators that hold two thirds of a snapshot's
stake signed for it. If the quorums of two snapshots always share a validator, two certificates
name one node that voted for both blocks. A node votes for blocks on its own cursor, and as long
as no reorganisation takes a block it voted for off that cursor, the two blocks are on one line.

`ChainOk` is the invariant of one chain against the messages sent so far, `NodeOk` adds the
node's votes, `Network.Ok` is all nodes together. The condition on reorganisations is
`Node.KeepsVotes`: nothing in the code enforces it.
-/

set_option autoImplicit false

namespace Curs3d

open U64 Ancestry

/-! ## Quorums and certificates -/

/-- The test of `add_vote`: the stake behind `votes` is two thirds of the snapshot's. -/
def EpochSnapshot.HasQuorum (s : EpochSnapshot) (votes : List FinalityVote) : Prop :=
  0 < s.totalStake ∧
    satMul s.totalStake 2 ≤ satMul (FinalityTracker.votedStake s.validatorStakes votes) 3

def DistinctVoters (votes : List FinalityVote) : Prop :=
  (votes.map FinalityVote.voterPublicKey).Nodup

/-- Any quorum of the one shares a validator with any quorum of the other. -/
def EpochSnapshot.Overlaps (s t : EpochSnapshot) : Prop :=
  ∀ vs ws, DistinctVoters vs → DistinctVoters ws → s.HasQuorum vs → t.HasQuorum ws →
    ∃ v ∈ vs, ∃ w ∈ ws, v.voterPublicKey = w.voterPublicKey

/-- Snapshots of one validator set overlap. -/
theorem EpochSnapshot.overlaps_of_eq {s t : EpochSnapshot} (hs : s.WellFormed)
    (hv : t.validators = s.validators) (ht : t.totalStake = s.totalStake) : s.Overlaps t := by
  intro vs ws hvs hws hqs hqt
  have hstakes : t.validatorStakes = s.validatorStakes := by
    unfold EpochSnapshot.validatorStakes
    rw [hv]
  have hweight : ∀ votes, DistinctVoters votes →
      satMul s.totalStake 2 ≤ satMul (FinalityTracker.votedStake s.validatorStakes votes) 3 →
      2 * Quorum.weight s.stakeOf s.keys ≤
        3 * Quorum.weight s.stakeOf (voters votes ∩ s.keys) := by
    intro votes hnd hq
    rw [FinalityTracker.votedStake_eq_weight hs.exact hnd] at hq
    rw [EpochSnapshot.weight_keys hs.exact, EpochSnapshot.weight_inter_keys]
    have hbound := hs.bound
    unfold satMul u64Max at hq
    unfold modulus at hbound
    omega
  have hpos : 0 < Quorum.weight s.stakeOf s.keys := by
    rw [EpochSnapshot.weight_keys hs.exact]
    exact hqs.1
  have hqt' := hqt.2
  rw [hstakes, ht] at hqt'
  obtain ⟨pk, h₁, h₂⟩ := Quorum.exists_common_of_two_thirds s.stakeOf
    Finset.inter_subset_right Finset.inter_subset_right hpos (hweight vs hvs hqs.2) (hweight ws hws hqt')
  have hmem : ∀ votes, pk ∈ voters votes ∩ s.keys → ∃ v ∈ votes, v.voterPublicKey = pk := by
    intro votes h
    have hv := (Finset.mem_inter.mp h).1
    rw [voters, List.mem_toFinset] at hv
    exact List.mem_map.mp hv
  obtain ⟨v, hv, rfl⟩ := hmem vs h₁
  obtain ⟨w, hw, hwv⟩ := hmem ws h₂
  exact ⟨v, hv, w, hw, hwv.symm⟩

/-- Distinct validators with a quorum of a known snapshot signed for `hash`. -/
def Certified (votes : List FinalityVote) (known : EpochSnapshot → Prop) (hash : Bytes) : Prop :=
  ∃ s, known s ∧ ∃ signed, DistinctVoters signed ∧ s.HasQuorum signed ∧
    ∀ v ∈ signed, v ∈ votes ∧ v.blockHash = hash

theorem Certified.mono {votes votes' : List FinalityVote} {known : EpochSnapshot → Prop}
    {hash : Bytes} (h : Certified votes known hash) (hsub : votes ⊆ votes') :
    Certified votes' known hash := by
  obtain ⟨s, hs, signed, hnd, hq, hmem⟩ := h
  exact ⟨s, hs, signed, hnd, hq, fun v hv => ⟨hsub (hmem v hv).1, (hmem v hv).2⟩⟩

/-! ## One chain against the messages sent -/

/-- `sent` are the blocks and `votes` the votes broadcast so far, `known` the snapshots votes are
counted against. -/
structure ChainOk (P : Primitives) (genesis : Block) (sent : List Block)
    (votes : List FinalityVote) (known : EpochSnapshot → Prop) (c : Blockchain) : Prop where
  unpruned : c.Unpruned
  anchored : ∃ history, Anchored c.spine genesis history
  head : c.blocks.head? = some genesis
  tree : ∀ {h b}, c.blockTree.get h = some b → b = genesis ∨ b ∈ sent
  cursor : c.blocks.IsChain fun parent child => child ∈ sent ∧ child.header.prevHash = parent.hash
  recorded : c.finalityTracker.Recorded P votes
  certified : 0 < c.finalityTracker.finalizedHeight →
    Certified votes known c.finalityTracker.finalizedHash

namespace ChainOk

variable {P : Primitives} {genesis : Block} {sent : List Block} {votes : List FinalityVote}
  {known : EpochSnapshot → Prop} {c c' : Blockchain} {block : Block} {now : Int}

theorem mono {sent' : List Block} {votes' : List FinalityVote}
    (h : ChainOk P genesis sent votes known c) (hsent : sent ⊆ sent') (hvotes : votes ⊆ votes') :
    ChainOk P genesis sent' votes' known c where
  unpruned := h.unpruned
  anchored := h.anchored
  head := h.head
  tree := fun hb => (h.tree hb).imp_right fun hs => hsent hs
  cursor := h.cursor.imp fun _ _ hr => ⟨hsent hr.1, hr.2⟩
  recorded := h.recorded.mono hvotes
  certified := fun hpos => (h.certified hpos).mono hvotes

theorem congr (h : ChainOk P genesis sent votes known c) (hspine : c'.spine = c.spine) :
    ChainOk P genesis sent votes known c' := by
  have hb : c'.blocks = c.blocks := congrArg Spine.blocks hspine
  have ht : c'.blockTree = c.blockTree := congrArg Spine.blockTree hspine
  have hf : c'.finalityTracker = c.finalityTracker := congrArg Spine.finalityTracker hspine
  refine ⟨h.unpruned.congr hspine, ?_, ?_, ?_, ?_, ?_, ?_⟩
  · rw [hspine]; exact h.anchored
  · rw [hb]; exact h.head
  · rw [ht]; exact h.tree
  · rw [hb]; exact h.cursor
  · rw [hf]; exact h.recorded
  · rw [hf]; exact h.certified

/-- The tip is the last block of the cursor. -/
theorem getLast (h : ChainOk P genesis sent votes known c) :
    c.blocks.getLast? = some c.latestBlock := by
  obtain ⟨history, ha⟩ := h.anchored
  have hlast := List.getLast?_eq_getLast_of_ne_nil h.unpruned.nonempty
  have hg : c.genesis = genesis := ha.genesis
  rw [Blockchain.latestBlock_of_getLast h.unpruned.base hlast fun _ => by rw [hg]; exact h.head]
  exact hlast

/-- The tree after an insertion holds sent blocks only. -/
theorem tree_insert (h : ChainOk P genesis sent votes known c) (hblock : block ∈ sent)
    {stake : Nat} {tree : BlockTree} {switched : Bool}
    (hinsert : c.blockTree.insert block stake = .ok (tree, switched)) {hash : Bytes} {b : Block}
    (hb : tree.get hash = some b) : b = genesis ∨ b ∈ sent := by
  rcases BlockTree.get_insert hinsert hb with hold | rfl
  · exact h.tree hold
  · exact .inr hblock

theorem addBlock (h : ChainOk P genesis sent votes known c) (hblock : block ∈ sent) :
    ChainOk P genesis sent votes known (c.addBlock P now block).2 := by
  cases hres : (c.addBlock P now block).1 with
  | error e => exact h.congr (Blockchain.addBlock_error_spine hres)
  | ok u =>
    obtain ⟨hfollows, stake, hspine⟩ := Blockchain.addBlock_ok_spine hres
    have hb : (c.addBlock P now block).2.blocks = c.blocks ++ [block] :=
      congrArg Spine.blocks hspine
    have ht : (c.addBlock P now block).2.blockTree =
        Blockchain.insertIgnoringErrors c.blockTree block stake := congrArg Spine.blockTree hspine
    have hf : (c.addBlock P now block).2.finalityTracker = c.finalityTracker :=
      congrArg Spine.finalityTracker hspine
    obtain ⟨history, ha⟩ := h.anchored
    refine ⟨(h.unpruned.addBlock hres).1,
      ⟨history, Blockchain.anchored_addBlock ha now block⟩, ?_, ?_, ?_, ?_, ?_⟩
    · rw [hb, List.head?_append, h.head]
      rfl
    · intro hash b hget
      rw [ht] at hget
      unfold Blockchain.insertIgnoringErrors at hget
      split at hget
      · next hinsert => exact h.tree_insert hblock hinsert hget
      · exact h.tree hget
    · rw [hb]
      refine h.cursor.append (List.IsChain.singleton _) ?_
      intro x hx y hy
      rw [h.getLast] at hx
      cases hx
      cases hy
      exact ⟨hblock, hfollows.prevHash⟩
    · rw [hf]; exact h.recorded
    · rw [hf]; exact h.certified

/-- A cursor read off a sound tree of sent blocks climbs along sent blocks. -/
theorem isChain_of_tree {tree : BlockTree} (hl : tree.Linked genesis)
    (hsent : ∀ {h b}, tree.get h = some b → b = genesis ∨ b ∈ sent) :
    tree.canonicalChain.IsChain fun parent child =>
      child ∈ sent ∧ child.header.prevHash = parent.hash := by
  refine List.IsChain.imp_of_mem_imp ?_ (BlockTree.isChain_canonicalChain hl)
  rintro parent child - hchild ⟨hpos, hprev⟩
  refine ⟨?_, hprev⟩
  obtain ⟨-, -, hget⟩ := (BlockTree.mem_canonicalChain_iff hl).mp hchild
  rcases hsent hget with rfl | hmem
  · have := hl.genesis.2
    omega
  · exact hmem

theorem forkChoice (h : ChainOk P genesis sent votes known c) (hblock : block ∈ sent) :
    ChainOk P genesis sent votes known (c.addBlockWithForkChoice P now block).2 := by
  obtain ⟨history, ha⟩ := h.anchored
  have hu := (h.unpruned.forkChoice (P := P) now block).1
  have ha' : ∃ history, Anchored (c.addBlockWithForkChoice P now block).2.spine genesis history :=
    ⟨history, Blockchain.anchored_forkChoice ha now block⟩
  rcases Blockchain.addBlockWithForkChoice_cases P c now block with hs | ⟨-, -, heq⟩ |
    ⟨tree, switched, -, -, hstage, hs | ⟨-, -, hs⟩⟩
  · exact h.congr hs
  · rw [heq]
    exact h.addBlock hblock
  · obtain ⟨stake, hinsert⟩ := Blockchain.insert_of_stage hstage
    have hb : (c.addBlockWithForkChoice P now block).2.blocks = c.blocks :=
      congrArg Spine.blocks hs
    have ht : (c.addBlockWithForkChoice P now block).2.blockTree = tree :=
      congrArg Spine.blockTree hs
    have hf : (c.addBlockWithForkChoice P now block).2.finalityTracker = c.finalityTracker :=
      congrArg Spine.finalityTracker hs
    refine ⟨hu, ha', ?_, ?_, ?_, ?_, ?_⟩
    · rw [hb]; exact h.head
    · rw [ht]; exact fun hget => h.tree_insert hblock hinsert hget
    · rw [hb]; exact h.cursor
    · rw [hf]; exact h.recorded
    · rw [hf]; exact h.certified
  · obtain ⟨stake, hinsert⟩ := Blockchain.insert_of_stage hstage
    have hb : (c.addBlockWithForkChoice P now block).2.blocks = tree.canonicalChain :=
      congrArg Spine.blocks hs
    have ht : (c.addBlockWithForkChoice P now block).2.blockTree = tree :=
      congrArg Spine.blockTree hs
    have hf : (c.addBlockWithForkChoice P now block).2.finalityTracker = c.finalityTracker :=
      congrArg Spine.finalityTracker hs
    have hsound : tree.Sound genesis := (ha.insert hinsert).sound
    have htree : ∀ {h b}, tree.get h = some b → b = genesis ∨ b ∈ sent :=
      fun hget => h.tree_insert hblock hinsert hget
    obtain ⟨tip, htip⟩ := hsound.tip
    refine ⟨hu, ha', ?_, ?_, ?_, ?_, ?_⟩
    · rw [hb]; exact BlockTree.head?_canonicalChain hsound.toLinked htip
    · rw [ht]; exact htree
    · rw [hb]; exact isChain_of_tree hsound.toLinked htree
    · rw [hf]; exact h.recorded
    · rw [hf]; exact h.certified

/-- A delivered vote that was sent keeps the invariant; a finalized block is certified. -/
theorem vote (h : ChainOk P genesis sent votes known c) {v : FinalityVote} (hv : v ∈ votes)
    (hknown : ∀ (epoch : Nat) (s : EpochSnapshot), c.epochSnapshots[epoch]? = some s → known s) :
    ChainOk P genesis sent votes known (c.addFinalityVote P v).2 := by
  obtain ⟨history, ha⟩ := h.anchored
  have hu := (h.unpruned.addFinalityVote (P := P) v).1
  have ha' : ∃ history, Anchored (c.addFinalityVote P v).2.spine genesis history :=
    ⟨_, Blockchain.anchored_vote ha v⟩
  rcases Blockchain.addFinalityVote_spine_cases P c v with ⟨-, hs⟩ | ⟨snapshot, hsnap,
    ⟨tracker, hvote, -, hs⟩ | ⟨tracker, finalized, base, hvote, -, hs⟩⟩
  · exact h.congr hs
  · have hf : (c.addFinalityVote P v).2.finalityTracker = tracker :=
      congrArg Spine.finalityTracker hs
    have hb : (c.addFinalityVote P v).2.blocks = c.blocks := congrArg Spine.blocks hs
    have ht : (c.addFinalityVote P v).2.blockTree = c.blockTree := congrArg Spine.blockTree hs
    obtain ⟨hheight, hhash⟩ := FinalityTracker.finalized_of_addVote_none hvote
    refine ⟨hu, ha', ?_, ?_, ?_, ?_, ?_⟩
    · rw [hb]; exact h.head
    · rw [ht]; exact h.tree
    · rw [hb]; exact h.cursor
    · rw [hf]; exact h.recorded.addVote hv hvote
    · rw [hf, hheight, hhash]; exact h.certified
  · have hf : (c.addFinalityVote P v).2.finalityTracker = tracker :=
      congrArg Spine.finalityTracker hs
    have hb : (c.addFinalityVote P v).2.blocks = c.blocks := congrArg Spine.blocks hs
    have ht : (c.addFinalityVote P v).2.blockTree =
        c.blockTree.setFinalized finalized.hash finalized.height := congrArg Spine.blockTree hs
    obtain ⟨b, hget, hheight, -, -, hstored⟩ := votable_of_snapshot hsnap
    obtain ⟨hlt, hhash, -, rfl⟩ := FinalityTracker.finalized_of_addVote_some hvote
    refine ⟨hu, ha', ?_, ?_, ?_, ?_, ?_⟩
    · rw [hb]; exact h.head
    · intro hash x hx
      rw [ht] at hx
      have hpos : 0 < v.blockHeight := by omega
      exact h.tree ((BlockTree.get_setFinalized_iff ha.sound.toLinked hget hpos).mp hx).1
    · rw [hb]; exact h.cursor
    · rw [hf]; exact h.recorded.addVote hv hvote
    · intro _
      rw [hf, hhash]
      -- Only a vote that completes a quorum finalizes; its voters are the certificate.
      rcases FinalityTracker.addVote_cases hvote with ⟨-, -, -, hn⟩ |
        ⟨hver, -, hfresh, ⟨-, hn⟩ | ⟨hpos, hq, -, -⟩⟩
      · exact absurd hn (by simp)
      · exact absurd hn (by simp)
      · obtain ⟨hnd, hmem⟩ := h.recorded.append hv hver hfresh
        exact ⟨snapshot, hknown _ _ hstored, _, hnd, ⟨hpos, hq⟩,
          fun w hw => ⟨(hmem w hw).1, (hmem w hw).2.2⟩⟩

theorem start {g : GenesisConfig} (h : fromGenesis P g = .ok c) :
    ChainOk P c.genesis [] [] known c := by
  have ha := (ChainRun.holds_start h).anchored
  unfold fromGenesis at h
  simp only [Outcome.except_bind_eq_ok] at h
  obtain ⟨accounts, -, hc⟩ := h
  cases hc
  refine ⟨⟨rfl, rfl, by simp⟩, ⟨_, ha⟩, rfl, ?_, List.IsChain.singleton _,
    FinalityTracker.recorded_withFinalized 0 [], fun hpos => absurd hpos (by simp)⟩
  intro hash b hb
  rw [BlockTree.get_fromGenesis] at hb
  split at hb
  · exact .inl (Option.some.inj hb).symm
  · exact absurd hb (by simp)

end ChainOk

/-! ## One node -/

namespace Blockchain

variable {P : Primitives} {c : Blockchain}

theorem addFinalityVote_blocks (vote : FinalityVote) :
    (c.addFinalityVote P vote).2.blocks = c.blocks := by
  obtain ⟨_, _, _, h⟩ := addFinalityVote_leaves P c vote
  rw [h]

theorem addFinalityVote_epochSnapshots (vote : FinalityVote) :
    (c.addFinalityVote P vote).2.epochSnapshots = c.epochSnapshots := by
  obtain ⟨_, _, _, h⟩ := addFinalityVote_leaves P c vote
  rw [h]

end Blockchain

/-- A node whose votes are all for blocks of its cursor, signed with its key. -/
structure NodeOk (P : Primitives) (genesis : Block) (sent : List Block)
    (votes : List FinalityVote) (known : EpochSnapshot → Prop) (n : Node) : Prop extends
    ChainOk P genesis sent votes known n.chain where
  voted : ∀ v ∈ n.votes, v.blockHash ∈ n.chain.blocks.map Block.hash
  signed : ∀ v ∈ n.votes, n.validatorKey.map KeyPair.publicKey = some v.voterPublicKey

/-- A reorganisation that receiving `block` triggers lands on a block that descends from every
block the node voted for. -/
def Node.KeepsVotes (P : Primitives) (n : Node) (now : Int) (block : Block) : Prop :=
  (n.chain.addBlock P now block).1 ≠ .ok () →
    ∀ tree, (n.chain.addBlock P now block).2.stageForkBlock P now block = .ok (tree, true) →
      ∀ v ∈ n.votes, tree.isDescendantOf block.hash v.blockHash = true

namespace NodeOk

variable {P : Primitives} {genesis : Block} {sent : List Block} {votes : List FinalityVote}
  {known : EpochSnapshot → Prop} {n : Node} {block : Block} {now : Int}

theorem mono {sent' : List Block} {votes' : List FinalityVote}
    (h : NodeOk P genesis sent votes known n) (hsent : sent ⊆ sent') (hvotes : votes ⊆ votes') :
    NodeOk P genesis sent' votes' known n where
  toChainOk := h.toChainOk.mono hsent hvotes
  voted := h.voted
  signed := h.signed

/-- The chain moved and kept every voted block on its cursor. -/
theorem move (h : NodeOk P genesis sent votes known n) {c : Blockchain}
    (hc : ChainOk P genesis sent votes known c)
    (hkeep : ∀ v ∈ n.votes, v.blockHash ∈ c.blocks.map Block.hash) :
    NodeOk P genesis sent votes known { n with chain := c } where
  toChainOk := hc
  voted := hkeep
  signed := h.signed

theorem rejected (h : NodeOk P genesis sent votes known n) {e : ChainError}
    (herr : (n.chain.addBlock P now block).1 = .error e) :
    NodeOk P genesis sent votes known { n with chain := (n.chain.addBlock P now block).2 } := by
  have hspine := Blockchain.addBlock_error_spine herr
  refine h.move (h.toChainOk.congr hspine) ?_
  rw [show (n.chain.addBlock P now block).2.blocks = n.chain.blocks from
    congrArg Spine.blocks hspine]
  exact h.voted

/-- An accepted block leaves every voted block on the cursor and joins it. -/
theorem accepted (h : NodeOk P genesis sent votes known n) (hblock : block ∈ sent)
    (hok : (n.chain.addBlock P now block).1 = .ok ()) :
    NodeOk P genesis sent votes known { n with chain := (n.chain.addBlock P now block).2 } ∧
      block.hash ∈ (n.chain.addBlock P now block).2.blocks.map Block.hash := by
  obtain ⟨-, stake, hspine⟩ := Blockchain.addBlock_ok_spine hok
  have hb : (n.chain.addBlock P now block).2.blocks = n.chain.blocks ++ [block] :=
    congrArg Spine.blocks hspine
  refine ⟨h.move (h.toChainOk.addBlock hblock) ?_, ?_⟩
  · intro v hv
    rw [hb, List.map_append]
    exact List.mem_append_left _ (h.voted v hv)
  · rw [hb]
    simp

/-- Voting for a block of the cursor; the vote is among those sent. -/
theorem castVote (h : NodeOk P genesis sent votes known n) {keypair : KeyPair}
    (hkey : n.validatorKey = some keypair) (hblock : block.hash ∈ n.chain.blocks.map Block.hash)
    (hvotes : (n.castVote P keypair block).votes ⊆ votes)
    (hknown : ∀ (epoch : Nat) (s : EpochSnapshot),
      (n.castVote P keypair block).chain.epochSnapshots[epoch]? = some s → known s) :
    NodeOk P genesis sent votes known (n.castVote P keypair block) := by
  have hmem := fun v => @hvotes v
  unfold Node.castVote at hmem hknown ⊢
  dsimp only at hmem hknown ⊢
  rw [Blockchain.addFinalityVote_epochSnapshots] at hknown
  refine ⟨h.toChainOk.vote (hmem _ (by simp)) hknown, ?_, ?_⟩
  · intro v hv
    dsimp only at hv ⊢
    rw [Blockchain.addFinalityVote_blocks]
    rcases List.mem_append.mp hv with hv | hv
    · exact h.voted v hv
    · rw [List.mem_singleton.mp hv]
      exact hblock
  · intro v hv
    rcases List.mem_append.mp hv with hv | hv
    · exact h.signed v hv
    · rw [List.mem_singleton.mp hv, hkey]
      rfl

theorem produce (h : NodeOk P genesis sent votes known n) {connectedPeers : Nat}
    (hsent : (n.produce P now connectedPeers).2.toList ⊆ sent)
    (hvotes : (n.produce P now connectedPeers).1.votes ⊆ votes)
    (hknown : ∀ (epoch : Nat) (s : EpochSnapshot),
      (n.produce P now connectedPeers).1.chain.epochSnapshots[epoch]? = some s → known s) :
    NodeOk P genesis sent votes known (n.produce P now connectedPeers).1 := by
  rcases Node.produce_cases P n now connectedPeers with hp | ⟨keypair, block, hkey,
    ⟨e, herr, hp⟩ | ⟨hok, hp⟩⟩
  · rw [hp]
    exact h
  · rw [hp]
    exact h.rejected herr
  · rw [hp] at hsent hvotes hknown ⊢
    obtain ⟨hacc, hmem⟩ := h.accepted (hsent (by simp)) hok
    exact hacc.castVote hkey hmem hvotes hknown

/-- The fork path casts no vote; only a reorganisation can move a voted block off the cursor. -/
theorem handleForkBlock (h : NodeOk P genesis sent votes known n) (hblock : block ∈ sent)
    (hkeep : ∀ tree, n.chain.stageForkBlock P now block = .ok (tree, true) →
      ∀ v ∈ n.votes, tree.isDescendantOf block.hash v.blockHash = true) :
    NodeOk P genesis sent votes known (n.handleForkBlock P now block) := by
  have hchain : ChainOk P genesis sent votes known
      (n.chain.addBlockWithForkChoice P now block).2 := h.toChainOk.forkChoice hblock
  have hvoted : ∀ v ∈ n.votes, v.blockHash ∈
      (n.chain.addBlockWithForkChoice P now block).2.blocks.map Block.hash := by
    intro v hv
    rcases Blockchain.addBlockWithForkChoice_cases P n.chain now block with hs | ⟨-, hok, heq⟩ |
      ⟨tree, switched, -, -, hstage, hs | ⟨rfl, -, hs⟩⟩
    · rw [show (n.chain.addBlockWithForkChoice P now block).2.blocks = n.chain.blocks from
        congrArg Spine.blocks hs]
      exact h.voted v hv
    · rw [heq]
      exact (h.accepted hblock hok).1.voted v hv
    · rw [show (n.chain.addBlockWithForkChoice P now block).2.blocks = n.chain.blocks from
        congrArg Spine.blocks hs]
      exact h.voted v hv
    · rw [show (n.chain.addBlockWithForkChoice P now block).2.blocks = tree.canonicalChain from
        congrArg Spine.blocks hs]
      -- After a reorganisation a voted block stays: `hkeep` has it below the new tip.
      obtain ⟨stake, hinsert⟩ := Blockchain.insert_of_stage hstage
      obtain ⟨history, ha⟩ := h.anchored
      have hl : tree.Linked genesis := (ha.insert hinsert).sound.toLinked
      obtain ⟨htip, hget⟩ := BlockTree.canonicalTip_of_switched hinsert
      have hreach := (BlockTree.isDescendantOf_iff hl hget).mp (hkeep tree hstage v hv)
      obtain ⟨x, hx⟩ := hl.mem_of_reaches hget hreach
      refine List.mem_map.mpr ⟨x, (BlockTree.mem_canonicalChain_iff hl).mpr ?_, hl.hash hx⟩
      rw [hl.hash hx, htip]
      exact ⟨⟨block, hget⟩, hreach, hx⟩
  unfold Node.handleForkBlock
  split
  · next c hres =>
    rw [hres] at hchain hvoted
    exact h.move hchain hvoted
  · next c hres =>
    rw [hres] at hchain hvoted
    have hspine := Node.punishEquivocation_spine (P := P) (c := c) block
    refine h.move (hchain.congr hspine) ?_
    rw [show (Node.punishEquivocation P c block).blocks = c.blocks from
      congrArg Spine.blocks hspine]
    exact hvoted

theorem handleNewBlock (h : NodeOk P genesis sent votes known n) (hblock : block ∈ sent)
    (hkeep : n.KeepsVotes P now block) (hvotes : (n.handleNewBlock P now block).votes ⊆ votes)
    (hknown : ∀ (epoch : Nat) (s : EpochSnapshot),
      (n.handleNewBlock P now block).chain.epochSnapshots[epoch]? = some s → known s) :
    NodeOk P genesis sent votes known (n.handleNewBlock P now block) := by
  rcases Node.handleNewBlock_cases P n now block with ⟨hok, hn⟩ | ⟨e, herr, hn | hn⟩
  · obtain ⟨hacc, hmem⟩ := h.accepted hblock hok
    rw [hn] at hvotes hknown ⊢
    rcases Node.voteIfValidator_cases P { n with chain := (n.chain.addBlock P now block).2 } block
      with hv | ⟨keypair, hkey, hv⟩
    · rw [hv]
      exact hacc
    · rw [hv] at hvotes hknown ⊢
      exact hacc.castVote hkey hmem hvotes hknown
  · rw [hn]
    exact h.rejected herr
  · rw [hn]
    exact (h.rejected herr).handleForkBlock hblock (hkeep (by rw [herr]; simp))

theorem handleVote (h : NodeOk P genesis sent votes known n) {v : FinalityVote} (hv : v ∈ votes)
    (hknown : ∀ (epoch : Nat) (s : EpochSnapshot),
      (n.handleVote P v).chain.epochSnapshots[epoch]? = some s → known s) :
    NodeOk P genesis sent votes known (n.handleVote P v) := by
  unfold Node.handleVote at hknown ⊢
  dsimp only at hknown
  rw [Blockchain.addFinalityVote_epochSnapshots] at hknown
  refine h.move (h.toChainOk.vote hv hknown) ?_
  rw [Blockchain.addFinalityVote_blocks]
  exact h.voted

end NodeOk

/-! ## All nodes -/

namespace Node

variable {P : Primitives} {n : Node}

/-- No event takes a vote back or changes the key. -/
structure Extends (n n' : Node) : Prop where
  key : n'.validatorKey = n.validatorKey
  votes : n.votes <+: n'.votes

theorem Extends.chain (c : Blockchain) : n.Extends { n with chain := c } :=
  ⟨rfl, List.prefix_refl _⟩

theorem Extends.castVote (c : Blockchain) (keypair : KeyPair) (block : Block) :
    n.Extends ({ n with chain := c }.castVote P keypair block) :=
  ⟨rfl, List.prefix_append _ _⟩

theorem Extends.produce (now : Int) (connectedPeers : Nat) :
    n.Extends (n.produce P now connectedPeers).1 := by
  rcases produce_cases P n now connectedPeers with h | ⟨keypair, block, -, ⟨e, -, h⟩ | ⟨-, h⟩⟩
  · rw [h]
    exact .chain n.chain
  · rw [h]
    exact .chain _
  · rw [h]
    exact .castVote _ keypair block

theorem Extends.handleNewBlock (now : Int) (block : Block) :
    n.Extends (n.handleNewBlock P now block) := by
  rcases handleNewBlock_cases P n now block with ⟨-, h⟩ | ⟨e, -, h | h⟩
  · rw [h]
    rcases voteIfValidator_cases P { n with chain := (n.chain.addBlock P now block).2 } block with
      hv | ⟨keypair, -, hv⟩
    · rw [hv]
      exact .chain _
    · rw [hv]
      exact .castVote _ keypair block
  · rw [h]
    exact .chain _
  · rw [h]
    unfold handleForkBlock
    split
    · exact .chain _
    · exact .chain _

end Node

namespace Network

variable {ι : Type} [DecidableEq ι] {P : Primitives} {genesis : Block}
  {known : EpochSnapshot → Prop} {net : Network ι}

structure Ok (P : Primitives) (genesis : Block) (known : EpochSnapshot → Prop)
    (net : Network ι) : Prop where
  nodes : ∀ i, NodeOk P genesis net.sentBlocks net.sentVotes known (net.node i)
  owned : ∀ v ∈ net.sentVotes, ∃ i, v ∈ (net.node i).votes
  sent : ∀ i, (net.node i).votes ⊆ net.sentVotes

/-- What the code does not enforce of a delivered block: see `Node.KeepsVotes`. -/
def KeepsVotes (P : Primitives) (net : Network ι) : NetEvent ι → Prop
  | .deliverBlock i now block => (net.node i).KeepsVotes P now block
  | _ => True

theorem node_moved (net : Network ι) (i : ι) (n : Node) (blocks : List Block) :
    (net.moved i n blocks).node i = n :=
  Function.update_self ..

theorem node_moved_of_ne {i j : ι} (hj : j ≠ i) (n : Node) (blocks : List Block) :
    (net.moved i n blocks).node j = net.node j :=
  Function.update_of_ne hj ..

/-- The votes of a node that moved are among those sent once its new ones are. -/
theorem votes_moved (h : net.Ok P genesis known) {i : ι} {n : Node}
    (hext : (net.node i).Extends n) (blocks : List Block) :
    n.votes ⊆ (net.moved i n blocks).sentVotes := by
  obtain ⟨new, hnew⟩ := hext.votes
  intro v hv
  rw [← hnew] at hv
  rcases List.mem_append.mp hv with hv | hv
  · exact List.mem_append_left _ (h.sent i hv)
  · refine List.mem_append_right _ ?_
    rw [← hnew, List.drop_left]
    exact hv

/-- One node moved: the others see more messages, nothing else. -/
theorem Ok.moved (h : net.Ok P genesis known) {i : ι} {n : Node} {blocks : List Block}
    (hext : (net.node i).Extends n)
    (hn : NodeOk P genesis (net.moved i n blocks).sentBlocks (net.moved i n blocks).sentVotes
      known n) :
    (net.moved i n blocks).Ok P genesis known := by
  refine ⟨fun j => ?_, fun v hv => ?_, fun j => ?_⟩
  · by_cases hj : j = i
    · subst hj
      rw [node_moved]
      exact hn
    · rw [node_moved_of_ne hj]
      exact (h.nodes j).mono (List.subset_append_left _ _) (List.subset_append_left _ _)
  · rcases List.mem_append.mp hv with hv | hv
    · obtain ⟨j, hj⟩ := h.owned v hv
      refine ⟨j, ?_⟩
      by_cases hji : j = i
      · subst hji
        rw [node_moved]
        exact hext.votes.subset hj
      · rw [node_moved_of_ne hji]
        exact hj
    · refine ⟨i, ?_⟩
      rw [node_moved]
      exact List.mem_of_mem_drop hv
  · by_cases hj : j = i
    · subst hj
      rw [node_moved]
      exact votes_moved h hext blocks
    · rw [node_moved_of_ne hj]
      exact List.Subset.trans (h.sent j) (List.subset_append_left _ _)

/-- One event. -/
theorem Ok.step (h : net.Ok P genesis known) {event : NetEvent ι} (hsent : net.Sent event)
    (hkeep : net.KeepsVotes P event)
    (hknown : ∀ (i : ι) (epoch : Nat) (s : EpochSnapshot),
      ((net.step P event).node i).chain.epochSnapshots[epoch]? = some s → known s) :
    (net.step P event).Ok P genesis known := by
  have hmono : ∀ (i : ι) (n : Node) (blocks : List Block), NodeOk P genesis
      (net.moved i n blocks).sentBlocks (net.moved i n blocks).sentVotes known (net.node i) :=
    fun i _ _ => (h.nodes i).mono (List.subset_append_left _ _) (List.subset_append_left _ _)
  cases event with
  | tick i now connectedPeers =>
    have hext := Node.Extends.produce (P := P) (n := net.node i) now connectedPeers
    have hk := hknown i
    unfold Network.step at hk ⊢
    rw [node_moved] at hk
    exact h.moved hext ((hmono i _ _).produce (List.subset_append_right _ _)
      (votes_moved h hext _) hk)
  | deliverBlock i now block =>
    have hext := Node.Extends.handleNewBlock (P := P) (n := net.node i) now block
    have hk := hknown i
    unfold Network.step at hk ⊢
    rw [node_moved] at hk
    exact h.moved hext ((hmono i _ _).handleNewBlock (List.mem_append_left _ hsent) hkeep
      (votes_moved h hext []) hk)
  | deliverVote i vote =>
    have hk := hknown i
    unfold Network.step at hk ⊢
    rw [node_moved] at hk
    exact h.moved (.chain _) ((hmono i _ _).handleVote (List.mem_append_left _ hsent) hk)

/-! ## Whole runs -/

theorem Along.of_prefix {p : Network ι → NetEvent ι → Prop} {events before : List (NetEvent ι)}
    (h : Along P p net events) (hb : before <+: events) : Along P p net before := by
  obtain ⟨after, rfl⟩ := hb
  induction before generalizing net with
  | nil => trivial
  | cons event rest ih => exact ⟨h.1, ih h.2⟩

theorem Ok.run (h : net.Ok P genesis known) {events : List (NetEvent ι)}
    (hsent : Along P Sent net events) (hkeep : Along P (KeepsVotes P) net events)
    (hknown : ∀ before, before <+: events → ∀ (i : ι) (epoch : Nat) (s : EpochSnapshot),
      ((net.run P before).node i).chain.epochSnapshots[epoch]? = some s → known s) :
    (net.run P events).Ok P genesis known := by
  induction events generalizing net with
  | nil => exact h
  | cons event rest ih =>
    refine ih (h.step hsent.1 hkeep.1 (hknown [event] ⟨rest, rfl⟩)) hsent.2 hkeep.2 ?_
    intro before hb
    exact hknown (event :: before) (List.cons_prefix_cons.mpr ⟨rfl, hb⟩)

/-- Messages and keys stay over one event. -/
theorem step_stays (net : Network ι) (event : NetEvent ι) :
    net.sentVotes ⊆ (net.step P event).sentVotes ∧
      ∀ i, ((net.step P event).node i).validatorKey = (net.node i).validatorKey := by
  have hmoved : ∀ (i : ι) (n : Node) (blocks : List Block), (net.node i).Extends n →
      net.sentVotes ⊆ (net.moved i n blocks).sentVotes ∧
        ∀ j, ((net.moved i n blocks).node j).validatorKey = (net.node j).validatorKey := by
    intro i n blocks hext
    refine ⟨List.subset_append_left _ _, fun j => ?_⟩
    by_cases hj : j = i
    · subst hj
      rw [node_moved, hext.key]
    · rw [node_moved_of_ne hj]
  cases event with
  | tick i now connectedPeers => exact hmoved i _ _ (.produce now connectedPeers)
  | deliverBlock i now block => exact hmoved i _ _ (.handleNewBlock now block)
  | deliverVote i vote => exact hmoved i _ _ (.chain _)

theorem run_stays (net : Network ι) (events : List (NetEvent ι)) :
    net.sentVotes ⊆ (net.run P events).sentVotes ∧
      ∀ i, ((net.run P events).node i).validatorKey = (net.node i).validatorKey := by
  induction events generalizing net with
  | nil => exact ⟨List.Subset.refl _, fun _ => rfl⟩
  | cons event rest ih =>
    obtain ⟨hvotes, hkey⟩ := step_stays (P := P) net event
    obtain ⟨hvotes', hkey'⟩ := ih (net.step P event)
    exact ⟨List.Subset.trans hvotes hvotes', fun i => (hkey' i).trans (hkey i)⟩

theorem sentVotes_of_prefix {events before : List (NetEvent ι)} (hb : before <+: events) :
    (net.run P before).sentVotes ⊆ (net.run P events).sentVotes := by
  obtain ⟨after, rfl⟩ := hb
  rw [show net.run P (before ++ after) = (net.run P before).run P after from List.foldl_append ..]
  exact (run_stays _ after).1

omit [DecidableEq ι] in
theorem ok_start {g : GenesisConfig} (h : net.Starts P g) {i : ι} :
    net.Ok P (net.node i).chain.genesis known := by
  obtain ⟨hnodes, hblocks, hvotes⟩ := h
  have hfresh : ∀ j, fromGenesis P g = .ok (net.node j).chain ∧ (net.node j).votes = [] := by
    intro j
    have hj := hnodes j
    unfold Node.start at hj
    simp only [Outcome.except_bind_eq_ok] at hj
    obtain ⟨chain, hchain, hn⟩ := hj
    have hn := Except.ok.inj hn
    rw [← hn]
    exact ⟨hchain, rfl⟩
  refine ⟨fun j => ⟨?_, ?_, ?_⟩, ?_, fun j => ?_⟩
  · rw [hblocks, hvotes]
    have hsame : (net.node i).chain = (net.node j).chain :=
      Except.ok.inj ((hfresh i).1.symm.trans (hfresh j).1)
    rw [hsame]
    exact ChainOk.start (hfresh j).1
  · simp [(hfresh j).2]
  · simp [(hfresh j).2]
  · simp [hvotes]
  · simp [(hfresh j).2]

end Network

/-- `d` is `a` or has it as an ancestor among the blocks of `sent`. -/
def Descends (sent : List Block) (d a : Bytes) : Prop :=
  Reaches (fun child parent => ∃ b ∈ sent, b.hash = child ∧ b.header.prevHash = parent) d a

/-- Two blocks of a chain of sent blocks are on one line. -/
theorem descends_of_isChain {sent blocks : List Block}
    (h : blocks.IsChain fun parent child => child ∈ sent ∧ child.header.prevHash = parent.hash)
    {a b : Bytes} (ha : a ∈ blocks.map Block.hash) (hb : b ∈ blocks.map Block.hash) :
    Descends sent a b ∨ Descends sent b a := by
  have htrans : (blocks.map Block.hash).Pairwise fun x y => Descends sent y x := by
    rw [List.pairwise_map]
    have : IsTrans Block fun x y => Descends sent y.hash x.hash :=
      ⟨fun _ _ _ hxy hyz => Relation.ReflTransGen.trans hyz hxy⟩
    refine List.IsChain.pairwise (h.imp ?_)
    intro parent child hr
    exact Relation.ReflTransGen.single ⟨child, hr.1, rfl, hr.2⟩
  exact List.Pairwise.forall_of_forall_of_flip
    (R := fun x y => Descends sent x y ∨ Descends sent y x)
    (fun _ _ => .inl Relation.ReflTransGen.refl) (htrans.imp .inr) (htrans.imp .inl) ha hb

/-- **Agreement**: when no reorganisation takes a block its node voted for off the cursor, and the
quorums of the snapshots held overlap, whatever two nodes ever finalize is on one line. -/
theorem agreement {ι : Type} [DecidableEq ι] {P : Primitives} {g : GenesisConfig}
    {net : Network ι} {events : List (NetEvent ι)} (hstart : net.Starts P g)
    (hsent : net.Along P Network.Sent events)
    (hkeys : net.DistinctKeys)
    (hkeep : net.Along P (Network.KeepsVotes P) events)
    (hoverlap : ∀ s t, net.Holds P events s → net.Holds P events t → s.Overlaps t) :
    ∀ before₁ before₂, before₁ <+: events → before₂ <+: events → ∀ i j,
      ∀ a ∈ (net.run P before₁).finalized i, ∀ b ∈ (net.run P before₂).finalized j,
        Descends (net.run P events).sentBlocks a b ∨
          Descends (net.run P events).sentBlocks b a := by
  intro before₁ before₂ h₁ h₂ i j a ha b hb
  have hok : ∀ before, before <+: events →
      (net.run P before).Ok P (net.node i).chain.genesis (net.Holds P events) := by
    intro before hbefore
    refine (Network.ok_start hstart).run (hsent.of_prefix hbefore) (hkeep.of_prefix hbefore) ?_
    intro before' hb' k epoch s hs
    exact ⟨before', hb'.trans hbefore, k, epoch, hs⟩
  have hcert : ∀ before, before <+: events → ∀ k, ∀ x ∈ (net.run P before).finalized k,
      Certified (net.run P events).sentVotes (net.Holds P events) x := by
    intro before hbefore k x hx
    unfold Network.finalized at hx
    dsimp only at hx
    split at hx
    · next hpos =>
      cases hx
      exact (((hok before hbefore).nodes k).certified hpos).mono
        (Network.sentVotes_of_prefix hbefore)
    · exact absurd hx (by simp)
  -- the two certificates share a voter, and it is one node
  obtain ⟨s, hs, vs, hvs, hqs, hva⟩ := hcert before₁ h₁ i a ha
  obtain ⟨t, ht, ws, hws, hqt, hwb⟩ := hcert before₂ h₂ j b hb
  obtain ⟨v, hv, w, hw, hvw⟩ := hoverlap s t hs ht vs ws hvs hws hqs hqt
  have hfinal := hok events (List.prefix_refl _)
  obtain ⟨k, hk⟩ := hfinal.owned v (hva v hv).1
  obtain ⟨l, hl⟩ := hfinal.owned w (hwb w hw).1
  have hkl : k = l := by
    have hkeyk := (hfinal.nodes k).signed v hk
    have hkeyl := (hfinal.nodes l).signed w hl
    rw [(Network.run_stays net events).2, Option.map_eq_some_iff] at hkeyk hkeyl
    obtain ⟨kp, hkp, hpk⟩ := hkeyk
    obtain ⟨kp', hkp', hpk'⟩ := hkeyl
    exact hkeys k l kp hkp kp' hkp' (by rw [hpk, hpk', hvw])
  subst hkl
  have hcursor := (hfinal.nodes k).voted
  have hva' := hcursor v hk
  have hwb' := hcursor w hl
  rw [(hva v hv).2] at hva'
  rw [(hwb w hw).2] at hwb'
  exact descends_of_isChain (hfinal.nodes k).cursor hva' hwb'

/-! ## Runs of three validators -/

/-- A list of hashes closed under parents holds every ancestor of its members. -/
theorem mem_of_descends {sent : List Block} {line : List Bytes} {d a : Bytes}
    (hclosed : ∀ b ∈ sent, b.hash ∈ line → b.header.prevHash ∈ line) (hd : d ∈ line)
    (h : Descends sent d a) : a ∈ line := by
  have hkept := @Reaches.restrict _ _ _ _ (fun _ _ => True) (· ∈ line) h hd
  refine (hkept ?_ fun _ _ => trivial).2
  rintro child parent hchild ⟨b, hb, rfl, rfl⟩
  exact hclosed b hb hchild

namespace SplitFinality

open Scenario

/-- Validators 1, 2 and 3 stake one, two and five units; epochs of two blocks. -/
def genesis : GenesisConfig where
  chainId := [1]
  minimumStake := 1
  epochLength := 2
  allocations := [allocation 1 0 1, allocation 2 0 2, allocation 3 0 5]

def opening (c : Blockchain) : Network (Fin 3) where
  node i := { chain := c, validatorKey := some (key (UInt8.ofNat (i + 1))), votes := [] }
  sentBlocks := []
  sentVotes := []

theorem starts_opening {c : Blockchain} (h : fromGenesis Reference.primitives genesis = .ok c) :
    (opening c).Starts Reference.primitives genesis := by
  refine ⟨fun i => ?_, rfl, rfl⟩
  unfold Node.start
  rw [h]
  rfl

theorem distinctKeys_opening (c : Blockchain) : (opening c).DistinctKeys := by
  have hkeys : ∀ i j : Fin 3, (key (UInt8.ofNat (i + 1))).publicKey =
      (key (UInt8.ofNat (j + 1))).publicKey → i = j := by
    decide +kernel
  intro i j a ha b hb hab
  cases ha
  cases hb
  exact hkeys i j hab

/-- An event that names its message by its place among those sent. -/
inductive Move where
  | tick (i : Fin 3) (minutes : Int)
  | block (i : Fin 3) (minutes : Int) (k : Nat)
  | vote (i : Fin 3) (k : Nat)

def Move.event (net : Network (Fin 3)) : Move → Option (NetEvent (Fin 3))
  | .tick i minutes => some (.tick i (clock minutes) 2)
  | .block i minutes k => net.sentBlocks[k]?.map (.deliverBlock i (clock minutes))
  | .vote i k => net.sentVotes[k]?.map (.deliverVote i)

/-- The events of a list of moves; one that names no message yet is left out. -/
def record : Network (Fin 3) → List Move → List (NetEvent (Fin 3))
  | _, [] => []
  | net, move :: rest => match move.event net with
    | none => record net rest
    | some event => event :: record (net.step Reference.primitives event) rest

theorem sent_event {net : Network (Fin 3)} {move : Move} {event : NetEvent (Fin 3)}
    (h : move.event net = some event) : net.Sent event := by
  cases move with
  | tick i minutes => cases h; trivial
  | block i minutes k =>
    obtain ⟨b, hb, rfl⟩ := Option.map_eq_some_iff.mp h
    exact List.mem_of_getElem? hb
  | vote i k =>
    obtain ⟨v, hv, rfl⟩ := Option.map_eq_some_iff.mp h
    exact List.mem_of_getElem? hv

theorem sent_record (net : Network (Fin 3)) (moves : List Move) :
    net.Along Reference.primitives Network.Sent (record net moves) := by
  induction moves generalizing net with
  | nil => trivial
  | cons move rest ih =>
    unfold record
    split
    · exact ih net
    · next event h => exact ⟨sent_event h, ih _⟩

/-- Two blocks reach everybody; validators 1 and 2 each build a third. -/
def opened : List Move :=
  [.tick 1 1, .block 0 1 0, .block 2 1 0, .tick 2 2, .block 0 2 1, .block 1 2 1, .tick 0 3,
    .tick 1 3]

/-- Validator 3 votes for the third block of validator 1, and both learn of its finality. -/
def agreed : List Move := opened ++ [.block 2 3 2, .vote 0 8, .vote 2 6]

/-- The heavier third block takes validator 3 over to the other line, where it votes for the
fourth. -/
def split : List Move := opened ++ [.block 2 3 2, .vote 0 8, .block 2 3 3, .tick 1 4, .block 2 4 4, .vote 1 10]

/-- The parent of the first block, and the blocks sent at the places `ks`. -/
def lineOf (sent : List Block) (ks : List Nat) : List Bytes :=
  (sent.take 1).map (fun b => b.header.prevHash) ++ (ks.filterMap (sent[·]?)).map Block.hash

def conflict (net : Network (Fin 3)) : Bool :=
  match net.finalized 0, net.finalized 1 with
  | some a, some b =>
    let left := lineOf net.sentBlocks [0, 1, 2]
    let right := lineOf net.sentBlocks [0, 1, 3, 4]
    decide (a ∈ left ∧ a ∉ right ∧ b ∈ right ∧ b ∉ left) &&
      (net.sentBlocks.all fun b => decide (b.hash ∈ left → b.header.prevHash ∈ left)) &&
      net.sentBlocks.all fun b => decide (b.hash ∈ right → b.header.prevHash ∈ right)
  | _, _ => false

theorem not_descends_of_conflict {net : Network (Fin 3)} (h : conflict net = true) :
    ∃ a ∈ net.finalized 0, ∃ b ∈ net.finalized 1,
      ¬ Descends net.sentBlocks a b ∧ ¬ Descends net.sentBlocks b a := by
  unfold conflict at h
  split at h
  · next a b ha hb =>
    simp only [Bool.and_eq_true, List.all_eq_true, decide_eq_true_eq] at h
    obtain ⟨⟨⟨hal, har, hbr, hbl⟩, hleft⟩, hright⟩ := h
    exact ⟨a, ha, b, hb, fun hd => hbl (mem_of_descends hleft hal hd),
      fun hd => har (mem_of_descends hright hbr hd)⟩
  · exact absurd h (by simp)

/-- A snapshot of the validators of `s`, or of none. -/
def similar (s t : EpochSnapshot) : Bool :=
  decide (t.totalStake = 0 ∨ t.validators = s.validators ∧ t.totalStake = s.totalStake)

/-- Every delivered block extends the tip, and all snapshots are similar to `s`. -/
def calm (s : EpochSnapshot) : Network (Fin 3) → List (NetEvent (Fin 3)) → Bool
  | net, events =>
    decide (∀ i, ((net.node i).chain.epochSnapshots.toList.all fun x => similar s x.2) = true) &&
    match events with
    | [] => true
    | event :: rest =>
      (match event with
        | .deliverBlock i now block => decide
          (((net.node i).chain.addBlock Reference.primitives now block).1 = .ok ())
        | _ => true) && calm s (net.step Reference.primitives event) rest

theorem keepsVotes_of_calm {s : EpochSnapshot} {net : Network (Fin 3)}
    {events : List (NetEvent (Fin 3))} (h : calm s net events = true) :
    net.Along Reference.primitives (Network.KeepsVotes Reference.primitives) events := by
  induction events generalizing net with
  | nil => trivial
  | cons event rest ih =>
    unfold calm at h
    simp only [Bool.and_eq_true] at h
    refine ⟨?_, ih h.2.2⟩
    cases event with
    | deliverBlock i now block => exact fun hne => absurd (decide_eq_true_eq.mp h.2.1) hne
    | tick i now connectedPeers => trivial
    | deliverVote i vote => trivial

theorem similar_of_calm {s t : EpochSnapshot} {net : Network (Fin 3)}
    {events : List (NetEvent (Fin 3))} (h : calm s net events = true)
    (ht : net.Holds Reference.primitives events t) : similar s t = true := by
  obtain ⟨before, hb, i, epoch, hget⟩ := ht
  induction before generalizing net events with
  | nil =>
    unfold calm at h
    rw [Bool.and_eq_true, decide_eq_true_eq] at h
    have hmem := Std.ExtTreeMap.mem_toList_iff_getElem?_eq_some.mpr hget
    exact List.all_eq_true.mp (h.1 i) _ hmem
  | cons event before ih =>
    obtain ⟨after, rfl⟩ := hb
    unfold calm at h
    simp only [List.cons_append, Bool.and_eq_true] at h
    exact ih h.2.2 (List.prefix_append _ _) hget

theorem overlaps_of_calm {s : EpochSnapshot} (hs : s.WellFormed) {net : Network (Fin 3)}
    {events : List (NetEvent (Fin 3))} (h : calm s net events = true) (t u : EpochSnapshot)
    (ht : net.Holds Reference.primitives events t) (hu : net.Holds Reference.primitives events u) :
    t.Overlaps u := by
  have hone := fun x hx => decide_eq_true_eq.mp (@similar_of_calm s x net events h hx)
  intro vs ws hvs hws hqt hqu
  rcases hone t ht with hz | ⟨htv, htt⟩
  · exact absurd hqt.1 (by omega)
  rcases hone u hu with hz | ⟨huv, hut⟩
  · exact absurd hqu.1 (by omega)
  have hwf : t.WellFormed := by
    refine ⟨?_, ?_, ?_⟩
    · rw [htv]; exact hs.nodup
    · rw [htv, htt]; exact hs.total
    · rw [htt]; exact hs.bound
  exact EpochSnapshot.overlaps_of_eq hwf (huv.trans htv.symm) (hut.trans htt.symm) vs ws hvs hws
    hqt hqu

end SplitFinality

open SplitFinality in
/-- The run up to the finalization, and validator 3 finalizing the same block. -/
theorem agreement_sample : ∃ c, fromGenesis Reference.primitives genesis = .ok c ∧
    ∃ a, ((opening c).run Reference.primitives (record (opening c) agreed)).finalized 0 = some a ∧
    ∃ b, ((opening c).run Reference.primitives (record (opening c) agreed)).finalized 2 = some b ∧
      (Descends ((opening c).run Reference.primitives (record (opening c) agreed)).sentBlocks a b ∨
        Descends ((opening c).run Reference.primitives
          (record (opening c) agreed)).sentBlocks b a) := by
  have hrun : (fromGenesis Reference.primitives genesis).toOption.any (fun c =>
      ((((opening c).run Reference.primitives (record (opening c) agreed)).node
          0).chain.epochSnapshots[1]?).any fun s =>
        decide ((s.validators.map Validator.publicKey).Nodup ∧
          s.totalStake = (s.validators.map Validator.stake).sum ∧
          3 * s.totalStake < U64.modulus) &&
        calm s (opening c) (record (opening c) agreed) &&
        (((opening c).run Reference.primitives (record (opening c) agreed)).finalized 0).isSome &&
        (((opening c).run Reference.primitives
          (record (opening c) agreed)).finalized 2).isSome) = true := by
    decide +kernel
  obtain ⟨c, hc, hs⟩ := Outcome.ok_of_any hrun
  obtain ⟨s, -, hs⟩ := (Option.any_eq_true _ _).mp hs
  simp only [Bool.and_eq_true, decide_eq_true_eq, Option.isSome_iff_exists] at hs
  obtain ⟨⟨⟨⟨hnodup, htotal, hbound⟩, hcalm⟩, a, ha⟩, b, hb⟩ := hs
  exact ⟨c, hc, a, ha, b, hb, agreement (starts_opening hc) (sent_record _ _)
    (distinctKeys_opening c) (keepsVotes_of_calm hcalm)
    (overlaps_of_calm ⟨hnodup, htotal, hbound⟩ hcalm) _ _ (List.prefix_refl _)
    (List.prefix_refl _) 0 2 a ha b hb⟩

open SplitFinality in
/-- Node 0 finalizes the third block of one line and node 1 the fourth of the other: validator 3
voted on both, moved by a reorganisation in between. -/
theorem finalizes_both_sides :
    ¬ ∀ (ι : Type) [DecidableEq ι] (P : Primitives) (g : GenesisConfig) (net : Network ι)
        (events : List (NetEvent ι)), net.Starts P g → net.Along P Network.Sent events →
        net.DistinctKeys → ∀ before₁ before₂, before₁ <+: events → before₂ <+: events → ∀ i j,
          ∀ a ∈ (net.run P before₁).finalized i, ∀ b ∈ (net.run P before₂).finalized j,
            Descends (net.run P events).sentBlocks a b ∨
              Descends (net.run P events).sentBlocks b a := by
  intro h
  have hrun : (fromGenesis Reference.primitives genesis).toOption.any (fun c => conflict
      ((opening c).run Reference.primitives (record (opening c) split))) = true := by
    decide +kernel
  obtain ⟨c, hc, hconflict⟩ := Outcome.ok_of_any hrun
  obtain ⟨a, ha, b, hb, hab, hba⟩ := not_descends_of_conflict hconflict
  rcases h (Fin 3) Reference.primitives genesis (opening c) (record (opening c) split)
    (starts_opening hc) (sent_record _ _) (distinctKeys_opening c) _ _ (List.prefix_refl _)
    (List.prefix_refl _) 0 1 a ha b hb with hd | hd
  · exact hab hd
  · exact hba hd

end Curs3d
