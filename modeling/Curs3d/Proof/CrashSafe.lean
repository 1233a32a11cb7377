import Curs3d.Chain.LiveNode
import Curs3d.Proof.CatchUp
import Curs3d.Proof.Convergence
import Curs3d.Proof.FinalityChain
import Curs3d.Proof.Rebuilt

/-!
# A crash between two transactions

The block table is replaced as a whole, by the blocks of a chain its blocks account for, so whatever else was
committed, a crashed store opens to that chain again. The finalized height is written apart from
the blocks, as a job of its own and as the second transaction of a full state, and nothing holds it back until
the table has the block. Where the table has it whenever the height is committed, the two never come apart
(`crash_consistent`): a table that replaces another holds what its own state had finalized.
-/

set_option autoImplicit false

namespace Curs3d

open Ancestry Handoff

namespace Blockchain

variable {P : Primitives} {g : GenesisConfig} {t now : Int} {c c' : Blockchain} {block : Block}
  {finalized finalized' : List FinalizedBlock}

/-! ## The chain -/

/-- The block the tracker names is on the cursor. -/
def FinalOn (finalized : List FinalizedBlock) (c : Blockchain) : Prop :=
  c.finalityTracker.finalizedHeight = 0 ∨ ∃ f ∈ finalized, f.height = c.finalityTracker.finalizedHeight ∧
    (c.blockAtHeight c.finalityTracker.finalizedHeight).map Block.hash = some f.hash

theorem FinalOn.grow (h : c.FinalOn finalized)
    (htracker : c'.finalityTracker.finalizedHeight = c.finalityTracker.finalizedHeight)
    (hread : ∀ k b, c.blockAtHeight k = some b → c'.blockAtHeight k = some b)
    (hsub : ∀ f ∈ finalized, f ∈ finalized') : c'.FinalOn finalized' := by
  rcases h with hzero | ⟨f, hf, hheight, hhash⟩
  · exact Or.inl (htracker.trans hzero)
  · refine Or.inr ⟨f, hsub f hf, hheight.trans htracker.symm, ?_⟩
    obtain ⟨b, hb, hbhash⟩ := Option.map_eq_some_iff.mp hhash
    rw [htracker, hread _ b hb]
    exact congrArg some hbhash

/-- A chain whose full state may be written. -/
structure Writable (P : Primitives) (g : GenesisConfig) (t : Int) (finalized : List FinalizedBlock)
    (c : Blockchain) : Prop where
  stacked : c.Stacked
  base : c.baseHeight = 0
  accounted : Accounted P g t c
  final : c.FinalOn finalized

theorem Writable.later (h : Writable P g t finalized c) (hle : t ≤ now)
    (hsub : ∀ f ∈ finalized, f ∈ finalized') : Writable P g now finalized' c :=
  ⟨h.stacked, h.base, h.accounted.later hle, h.final.grow rfl (fun _ _ hb => hb) hsub⟩

/-- The chain of a live node that convicted nobody and pruned nothing. -/
structure Alive (P : Primitives) (g : GenesisConfig) (t : Int) (finalized : List FinalizedBlock)
    (c : Blockchain) : Prop where
  straight : c.Straight
  base : c.baseHeight = 0
  accounted : Accounted P g t c
  anchored : Anchored c.spine c.genesis finalized
  final : c.FinalOn finalized

namespace Alive

theorem later (h : Alive P g t finalized c) (hle : t ≤ now) : Alive P g now finalized c :=
  ⟨h.straight, h.base, h.accounted.later hle, h.anchored, h.final⟩

/-- Its full state is also that of a chain with no other branch in its tree. -/
theorem writable (h : Alive P g t finalized c) :
    Writable P g t finalized { c with blockTree := BlockTree.fromGenesis c.genesis } := by
  have hzero : c.genesis.header.height = 0 := by
    have hhead := h.straight.head
    rw [List.head?_eq_getElem?] at hhead
    exact h.straight.heights hhead
  refine ⟨⟨h.straight.head, h.straight.heights, ?_, BlockTree.below_fromGenesis hzero _⟩, h.base, ?_,
    h.final.grow rfl (fun _ _ hb => hb) (fun _ hf => hf)⟩
  · show c.baseHeight ≤ c.height
    rw [h.base]
    exact Nat.zero_le _
  · apply h.accounted.congr
    · intro _
      exact ⟨h.straight.base, h.straight.head, h.straight.heights⟩
    · exact ⟨rfl, rfl, rfl, rfl, rfl, rfl, rfl⟩
    · rfl
    · rfl
    · exact le_rfl
    · rfl
    · rfl

/-- What changes neither the state nor the cursor. -/
theorem congr (h : Alive P g t finalized c) (hsame : SameState c' c) (hblocks : c'.blocks = c.blocks)
    (hgenesis : c'.genesis = c.genesis) (hbase : c'.baseHeight = c.baseHeight)
    (hconfig : c'.genesisConfig = c.genesisConfig) (hslashed : c'.slashedValidators = c.slashedValidators)
    (hanchored : Anchored c'.spine c.genesis finalized') (hfinal : c'.FinalOn finalized') :
    Alive P g t finalized' c' := by
  have hst : c'.Straight := by
    refine ⟨?_, ?_, ?_⟩
    · rw [hbase]
      exact h.straight.base
    · rw [hblocks, hgenesis]
      exact h.straight.head
    · rw [hblocks]
      exact h.straight.heights
  refine ⟨hst, hbase.trans h.base, ?_, ?_, hfinal⟩
  · exact h.accounted.congr (fun _ => hst) hsame hblocks hgenesis (le_of_eq hbase.symm) hconfig hslashed
  · rw [hgenesis]
    exact hanchored

theorem addBlock (h : Alive P g t finalized c) (hle : t ≤ now) (hok : (c.addBlock P now block).1 = .ok ()) :
    Alive P g now finalized (c.addBlock P now block).2 := by
  obtain ⟨hst, hblocks, hgenesis, -, -⟩ := h.straight.addBlock hok
  obtain ⟨-, _, hspine⟩ := addBlock_ok_spine hok
  refine ⟨hst, (congrArg Spine.baseHeight hspine).trans h.base, h.accounted.addBlock hle hok, ?_, ?_⟩
  · rw [hgenesis]
    exact anchored_addBlock h.anchored now block
  · apply h.final.grow (congrArg (fun s => s.finalityTracker.finalizedHeight) hspine)
    · intro k b hb
      rw [h.straight.blockAtHeight] at hb
      rw [hst.blockAtHeight, hblocks, List.getElem?_append_left (List.getElem?_eq_some_iff.mp hb).1]
      exact hb
    · exact fun f hf => hf

/-- A node that reorganises installs the canonical chain of its tree and rebuilds the state. -/
theorem reorganised {switched : Bool}
    (hok : c.addBlockWithForkChoice P now block = (.ok switched, c'))
    (hprev : block.header.prevHash ≠ c.latestBlock.hash) :
    ∃ tree, c.stageForkBlock P now block = .ok (tree, switched) ∧
      ((switched = false ∧ c' = { c with blockTree := tree }) ∨
        (switched = true ∧
          ({ c with blockTree := tree }.replaceAllBlocks tree.canonicalChain).rebuildCanonicalState P now =
            (.ok (), c'))) := by
  simp only [addBlockWithForkChoice, if_neg hprev] at hok
  split at hok
  · cases hok
  split at hok
  · cases hok
  · next tree hstage =>
    cases hok
    exact ⟨tree, hstage, Or.inl ⟨rfl, rfl⟩⟩
  · next tree hstage =>
    simp only [reorgToCanonicalTip] at hok
    cases hcheck : ({ c with blockTree := tree } : Blockchain).checkReorg tree.canonicalChain with
    | error e =>
      rw [hcheck] at hok
      cases hok
    | ok u =>
      rw [hcheck] at hok
      dsimp only at hok
      split at hok
      · cases hok
      · next hrun =>
        cases hok
        exact ⟨tree, hstage, Or.inr ⟨rfl, hrun⟩⟩

/-- The canonical chain of the tree holds the finalized block at its height. -/
theorem final_of_canonical {s : Spine} {genesis : Block} (ha : Anchored s genesis finalized)
    (hst : c.Straight) (hblocks : c.blocks = s.blockTree.canonicalChain)
    (htracker : c.finalityTracker = s.finalityTracker)
    (hnamed : c.finalityTracker.finalizedHeight = 0 ∨ finalized ≠ []) : c.FinalOn finalized := by
  rcases hnamed with hzero | hne
  · exact Or.inl hzero
  right
  obtain ⟨f, rest, hlist⟩ := List.exists_cons_of_ne_nil hne
  have hmem : f ∈ finalized := by
    rw [hlist]
    exact List.mem_cons_self
  obtain ⟨hpos, hhash, hheight⟩ := ha.latest f (by rw [hlist]; rfl)
  rw [htracker]
  refine ⟨f, hmem, hheight, ?_⟩
  obtain ⟨b, hb, hbhash⟩ := List.mem_map.mp (ha.mem_canonicalChain hmem)
  obtain ⟨-, -, hget⟩ := (BlockTree.mem_canonicalChain_iff ha.sound.toLinked).mp hb
  obtain ⟨fb, hfb, hfbheight⟩ := ha.sound.finalized
  -- the tree knows one block by that hash
  rw [ha.hash (by rw [← hheight]; exact hpos), ← hhash, ← hbhash, hget] at hfb
  cases hfb
  obtain ⟨k, hk⟩ := List.getElem?_of_mem hb
  rw [← hblocks] at hk
  have hindex : k = s.finalityTracker.finalizedHeight := by
    rw [← hst.heights hk, hfbheight, ha.height]
  rw [hst.blockAtHeight, ← hindex, hk]
  exact congrArg some hbhash

/-- **A block off the tip**, whether or not the node reorganises to it. -/
theorem fork (h : Alive P g t finalized c) (hle : t ≤ now) {switched : Bool}
    (hok : c.addBlockWithForkChoice P now block = (.ok switched, c'))
    (hprev : block.header.prevHash ≠ c.latestBlock.hash) : Alive P g now finalized c' := by
  have hanchored := @anchored_forkChoice P c.genesis finalized c h.anchored now block
  rw [hok] at hanchored
  obtain ⟨tree, hstage, ⟨-, rfl⟩ | ⟨-, hrun⟩⟩ := reorganised hok hprev
  · apply (h.later hle).congr
    · exact ⟨rfl, rfl, rfl, rfl, rfl, rfl, rfl⟩
    · rfl
    · rfl
    · rfl
    · rfl
    · rfl
    · exact hanchored
    · exact h.final.grow rfl (fun _ _ hb => hb) fun _ hf => hf
  · obtain ⟨stake, hinsert⟩ := insert_of_stage hstage
    have ha := h.anchored.insert hinsert
    obtain ⟨tip, htip⟩ := ha.sound.tip
    set replaced := ({ c with blockTree := tree } : Blockchain).replaceAllBlocks tree.canonicalChain
      with hreplaced
    have hgenesis : replaced.genesis = c.genesis := by
      show tree.canonicalChain.head?.getD c.genesis = c.genesis
      rw [BlockTree.head?_canonicalChain ha.sound.toLinked htip]
      rfl
    have hst : replaced.Straight :=
      straight_canonicalChain ha.sound.toLinked htip (by show c.baseHeight ≤ 1; rw [h.base]; omega) rfl
        hgenesis
    obtain ⟨accounts, haccounts, hroot, -⟩ := h.accounted.recomputed
    have hrec : Recomputes P accounts now c' :=
      recomputes_of_rebuild hst (by rw [← h.accounted.config] at haccounts; exact haccounts) hrun
    obtain ⟨hspine, hconfig, hslashed⟩ := kept_of_rebuild hrun
    have hgenesis' : c'.genesis = c.genesis := (congrArg Spine.genesis hspine).trans hgenesis
    have htracker : c'.finalityTracker = c.finalityTracker := congrArg Spine.finalityTracker hspine
    refine ⟨hrec.straight, (congrArg Spine.baseHeight hspine).trans h.base, ?_, ?_, ?_⟩
    · exact ⟨hconfig.trans h.accounted.config, hslashed.trans h.accounted.slashed, accounts, haccounts,
        hgenesis'.trans hroot, fun _ => hrec⟩
    · rw [hgenesis']
      exact hanchored
    · apply final_of_canonical ha hrec.straight (congrArg Spine.blocks hspine) htracker
      rw [htracker]
      rcases h.final with hzero | ⟨f, hf, -⟩
      · exact Or.inl hzero
      · exact Or.inr (List.ne_nil_of_mem hf)

/-- A vote that finalizes nothing. -/
theorem vote_none (h : Alive P g t finalized c) {vote : FinalityVote}
    (hv : c.addFinalityVote P vote = (none, c')) : Alive P g t finalized c' := by
  obtain ⟨hsame, hconfig, hslashed⟩ := @addFinalityVote_state P c vote
  have hanchored := anchored_vote (P := P) h.anchored vote
  have hheight := finalizedHeight_addFinalityVote_none hv
  have hcursor : c'.genesis = c.genesis ∧ c'.blocks = c.blocks ∧ c'.baseHeight = c.baseHeight := by
    rcases addFinalityVote_cases P c vote with hcase | ⟨_, -, ⟨_, -, hcase⟩ | ⟨_, _, -, hcase⟩⟩
    · rw [hcase] at hv
      cases hv
      exact ⟨rfl, rfl, rfl⟩
    · rw [hcase] at hv
      cases hv
      exact ⟨rfl, rfl, rfl⟩
    · rw [hcase] at hv
      cases hv
  rw [hv] at hsame hconfig hslashed hanchored
  obtain ⟨hgenesis, hblocks, hbase⟩ := hcursor
  apply h.congr hsame hblocks hgenesis hbase hconfig hslashed hanchored
  apply h.final.grow hheight
  · intro k b hb
    simpa only [blockAtHeight, hgenesis, hblocks, hbase] using hb
  · exact fun _ hf => hf

/-- A vote that finalizes a block of the cursor, and prunes nothing. -/
theorem vote_some (h : Alive P g t finalized c) {vote : FinalityVote} {f : FinalizedBlock}
    (hv : c.addFinalityVote P vote = (some f, c'))
    (hcursor : (c.blockAtHeight f.height).map Block.hash = some f.hash)
    (hprune : c.pruneFrom f.height = none) : Alive P g t (f :: finalized) c' := by
  obtain ⟨hsame, hconfig, hslashed⟩ := @addFinalityVote_state P c vote
  have hanchored := anchored_vote (P := P) h.anchored vote
  have hheight := finalizedHeight_addFinalityVote_some hv
  obtain ⟨hgenesis, hblocks, -, hbase⟩ := addFinalityVote_some_spine hv
  rw [hprune, Option.getD_none, Nat.max_zero] at hbase
  rw [hv] at hsame hconfig hslashed hanchored
  apply h.congr hsame hblocks hgenesis hbase hconfig hslashed hanchored
  refine Or.inr ⟨f, List.mem_cons_self, hheight.symm, ?_⟩
  rw [hheight]
  simpa only [blockAtHeight, hgenesis, hblocks, hbase] using hcursor

theorem addTransaction (h : Alive P g t finalized c) (now : Int) (tx : Transaction) :
    Alive P g t finalized (c.addTransaction P now tx).2 := by
  obtain ⟨pool, hpool⟩ := addTransaction_pool (P := P) c now tx
  rw [hpool]
  apply h.congr
  · exact ⟨rfl, rfl, rfl, rfl, rfl, rfl, rfl⟩
  · rfl
  · rfl
  · rfl
  · rfl
  · rfl
  · exact h.anchored
  · exact h.final.grow rfl (fun _ _ hb => hb) fun _ hf => hf

end Alive

end Blockchain

open Blockchain

section Tables

variable {P : Primitives} {g : GenesisConfig} {t now : Int} {finalized finalized' : List FinalizedBlock}
  {s s' : Storage} {state : PersistedChainState}

/-! ## The tables -/

/-- The full state of a writable chain. -/
def PersistedChainState.Held (P : Primitives) (g : GenesisConfig) (t : Int)
    (finalized : List FinalizedBlock) (state : PersistedChainState) : Prop :=
  ∃ c, Writable P g t finalized c ∧ state = PersistedChainState.fromChain c

theorem PersistedChainState.Held.later (h : state.Held P g t finalized) (hle : t ≤ now)
    (hsub : ∀ f ∈ finalized, f ∈ finalized') : state.Held P g now finalized' := by
  obtain ⟨c, hc, rfl⟩ := h
  exact ⟨c, hc.later hle hsub, rfl⟩

theorem Blockchain.Alive.held {c : Blockchain} (h : Alive P g t finalized c) :
    (PersistedChainState.fromChain c).Held P g t finalized :=
  ⟨_, h.writable, rfl⟩

/-- Tables that open to a writable chain, with the finalized block among its blocks. -/
structure Storage.Stored (P : Primitives) (g : GenesisConfig) (t : Int) (finalized : List FinalizedBlock)
    (s : Storage) : Prop where
  chain : ∃ c, Writable P g t finalized c ∧ Blockchain.OnDisk g c s
  genesis : (s.blocks.getBlock 0).isSome
  final : s.HoldsFinal finalized (s.finalizedHeight.getD 0)

namespace Storage

theorem HoldsFinal.mono {height : Nat} (h : s.HoldsFinal finalized height)
    (hblocks : s'.blocks = s.blocks) (hsub : ∀ f ∈ finalized, f ∈ finalized') :
    s'.HoldsFinal finalized' height := by
  rcases h with hzero | ⟨f, hf, hheight, hhash⟩
  · exact Or.inl hzero
  · refine Or.inr ⟨f, hsub f hf, hheight, ?_⟩
    rw [hblocks]
    exact hhash

namespace Stored

theorem later (h : s.Stored P g t finalized) (hle : t ≤ now) (hsub : ∀ f ∈ finalized, f ∈ finalized') :
    s.Stored P g now finalized' := by
  obtain ⟨c, hc, hdisk⟩ := h.chain
  exact ⟨⟨c, hc.later hle hsub, hdisk⟩, h.genesis, h.final.mono rfl hsub⟩

/-- A transaction on other tables. -/
theorem other (h : s.Stored P g t finalized) (hblocks : s'.blocks = s.blocks)
    (hconfig : s'.chainConfig = s.chainConfig) (hschema : s'.schemaVersion = s.schemaVersion)
    (hevidence : s'.evidence = s.evidence) (hheight : s'.finalizedHeight = s.finalizedHeight) :
    s'.Stored P g t finalized := by
  obtain ⟨c, hc, hdisk⟩ := h.chain
  refine ⟨⟨c, hc, ?_⟩, ?_, ?_⟩
  · refine ⟨hconfig.trans hdisk.config, hschema.trans hdisk.schema, hevidence.trans hdisk.evidence, ?_, ?_, ?_⟩
    · rw [hblocks]
      exact hdisk.head
    · rw [hblocks]
      exact hdisk.blocks
    · rw [hblocks]
      exact hdisk.genesis
  · rw [hblocks]
    exact h.genesis
  · rw [hheight]
    exact h.final.mono hblocks fun _ hf => hf

theorem putFinalizedHeight (h : s.Stored P g t finalized) {height : Nat}
    (hfinal : s.HoldsFinal finalized height) :
    (s.commit P (.putFinalizedHeight height)).Stored P g t finalized := by
  obtain ⟨c, hc, hdisk⟩ := h.chain
  have hdisk' : Blockchain.OnDisk g c (s.commit P (.putFinalizedHeight height)) :=
    ⟨hdisk.config, hdisk.schema, hdisk.evidence, hdisk.head, hdisk.blocks, hdisk.genesis⟩
  exact ⟨⟨c, hc, hdisk'⟩, h.genesis, hfinal.mono rfl fun _ hf => hf⟩

/-- The blocks of a writable chain take the place of the others, once its finalized height is written. -/
theorem replaceBlocks (h : s.Stored P g t finalized) (hheld : state.Held P g t finalized)
    (hheight : s.finalizedHeight = some state.finalizedHeight) :
    (s.commit P (.replaceBlocks state.blocks)).Stored P g t finalized := by
  obtain ⟨old, -, hdisk⟩ := h.chain
  obtain ⟨c, hc, rfl⟩ := hheld
  have hget := hc.stacked.getBlock_replaceBlocks s.blocks
  refine ⟨⟨c, hc, hdisk.config, hdisk.schema, hdisk.evidence, hc.stacked.headHeight_replaceBlocks s.blocks, ?_, ?_⟩,
    ?_, ?_⟩
  · exact fun k _ => hget k
  · intro b hb
    exact (Option.some.inj ((hget 0).symm.trans hb)).symm
  · show ((s.blocks.replaceBlocks c.iterBlocks).getBlock 0).isSome
    rw [hget]
    rfl
  · show HoldsFinal _ finalized (s.finalizedHeight.getD 0)
    rw [hheight]
    rcases hc.final with hzero | ⟨f, hf, hfheight, hfhash⟩
    · exact Or.inl hzero
    · refine Or.inr ⟨f, hf, hfheight, ?_⟩
      rw [← hfhash]
      exact congrArg (Option.map Block.hash) (hget _)

/-- **One transaction of a full state.** From the second to the sixth, the finalized height stored is that of the
state whose blocks come in the sixth. -/
theorem write (h : s.Stored P g t finalized) (hheld : state.Held P g t finalized) {n : Nat} {tx : StorageTx}
    (htx : (writeFullStateToStorage state)[n]? = some tx)
    (hphase : 2 ≤ n → n ≤ 5 → s.finalizedHeight = some state.finalizedHeight)
    (hfinal : ∀ height, tx = .putFinalizedHeight height → s.HoldsFinal finalized height) :
    (s.commit P tx).Stored P g t finalized ∧
      (2 ≤ n + 1 → n + 1 ≤ 5 → (s.commit P tx).finalizedHeight = some state.finalizedHeight) := by
  have hn : n < 11 := (List.getElem?_eq_some_iff.mp htx).1
  have hrest : ∀ {s' : Storage}, s'.blocks = s.blocks → s'.chainConfig = s.chainConfig →
      s'.schemaVersion = s.schemaVersion → s'.evidence = s.evidence →
      s'.finalizedHeight = s.finalizedHeight → s'.Stored P g t finalized := h.other
  obtain ⟨old, hold, hdisk⟩ := h.chain
  have hconfig : state.genesisConfig = g := by
    obtain ⟨c, hc, rfl⟩ := hheld
    exact hc.accounted.config
  interval_cases n
  all_goals cases htx
  case «0» =>
    refine ⟨⟨⟨old, hold, congrArg some hconfig, hdisk.schema, hdisk.evidence, hdisk.head, hdisk.blocks,
      hdisk.genesis⟩, h.genesis, h.final.mono rfl fun _ hf => hf⟩, ?_⟩
    intro hlow
    exact absurd hlow (by decide)
  case «1» => exact ⟨h.putFinalizedHeight (hfinal _ rfl), fun _ _ => rfl⟩
  case «2» =>
    exact ⟨⟨⟨old, hold, hdisk.config, rfl, hdisk.evidence, hdisk.head, hdisk.blocks, hdisk.genesis⟩,
      h.genesis, h.final.mono rfl fun _ hf => hf⟩, fun _ _ => hphase (by decide) (by decide)⟩
  case «3» => exact ⟨hrest rfl rfl rfl rfl rfl, fun _ _ => hphase (by decide) (by decide)⟩
  case «4» => exact ⟨hrest rfl rfl rfl rfl rfl, fun _ _ => hphase (by decide) (by decide)⟩
  case «5» =>
    refine ⟨h.replaceBlocks hheld (hphase (by decide) (by decide)), ?_⟩
    intro _ hhigh
    exact absurd hhigh (by decide)
  all_goals
    refine ⟨hrest rfl rfl rfl rfl rfl, ?_⟩
    intro _ hhigh
    exact absurd hhigh (by decide)

/-- The transaction of a job. -/
theorem job (h : s.Stored P g t finalized) {job : PersistJob} {tx : StorageTx}
    (htx : tx ∈ job.transactions) (hevidence : job.evidence? = none)
    (hfinal : ∀ height, tx = .putFinalizedHeight height → s.HoldsFinal finalized height) :
    (s.commit P tx).Stored P g t finalized := by
  cases job with
  | pendingTransactions txs =>
    rw [PersistJob.transactions, List.mem_singleton] at htx
    rw [htx]
    exact h.other rfl rfl rfl rfl rfl
  | finalizedHeight height =>
    rw [PersistJob.transactions, List.mem_singleton] at htx
    rw [htx]
    exact h.putFinalizedHeight (hfinal height htx)
  | equivocationEvidence evidence address account => cases hevidence

end Stored

end Storage

/-! ## The worker -/

theorem each_drop_cons {time n : Nat} {txs : List StorageTx} {head : Dated StorageTx}
    {rest : List (Dated StorageTx)} (h : head :: rest = Dated.each time (txs.drop n)) :
    txs[n]? = some head.value ∧ rest = Dated.each time (txs.drop (n + 1)) := by
  cases hdrop : txs.drop n with
  | nil =>
    rw [hdrop] at h
    cases h
  | cons tx more =>
    rw [hdrop] at h
    cases h
    have hget := congrArg List.head? hdrop
    rw [List.head?_drop] at hget
    have htail := congrArg List.tail hdrop
    rw [List.tail_drop] at htail
    exact ⟨hget, congrArg (Dated.each time) htail.symm⟩

/-- What the worker is at: a full state of a writable chain, `n` transactions into it, or a job that is no
evidence. -/
def WorkSound (P : Primitives) (g : GenesisConfig) (t : Int) (finalized : List FinalizedBlock) (s : Storage) :
    Worker (Dated PersistedChainState) (Dated PersistJob) (Dated StorageTx) → Prop
  | .writing _ state todo | .flushing state todo => state.value.Held P g t finalized ∧
      ∃ n, todo = Dated.each state.time ((writeFullStateToStorage state.value).drop n) ∧
        (2 ≤ n → n ≤ 5 → s.finalizedHeight = some state.value.finalizedHeight)
  | .working job todo => job.value.evidence? = none ∧
      ∃ n, todo = Dated.each job.time (job.value.transactions.drop n)
  | _ => True

structure HandleSound (P : Primitives) (g : GenesisConfig) (t : Int) (finalized : List FinalizedBlock)
    (h : DatedHandle) : Prop where
  slot : ∀ state, h.slot = some state → state.value.Held P g t finalized
  jobs : ∀ job ∈ h.ahead, job.value.evidence? = none
  work : WorkSound P g t finalized h.store.tables h.worker
  stored : h.store.tables.Stored P g t finalized

namespace HandleSound

variable {h : DatedHandle}

theorem later (hh : HandleSound P g t finalized h) (hle : t ≤ now)
    (hsub : ∀ f ∈ finalized, f ∈ finalized') : HandleSound P g now finalized' h := by
  refine ⟨fun state hs => (hh.slot state hs).later hle hsub, hh.jobs, ?_, hh.stored.later hle hsub⟩
  have hwork := hh.work
  cases hworker : h.worker with
  | writing m state todo =>
    rw [hworker] at hwork
    exact ⟨hwork.1.later hle hsub, hwork.2⟩
  | flushing state todo =>
    rw [hworker] at hwork
    exact ⟨hwork.1.later hle hsub, hwork.2⟩
  | working job todo =>
    rw [hworker] at hwork
    exact hwork
  | waiting => trivial
  | draining m => trivial
  | closing => trivial
  | stopped => trivial

theorem put (hh : HandleSound P g t finalized h) {state : Dated PersistedChainState}
    (hstate : state.value.Held P g t finalized) :
    HandleSound P g t finalized (h.step (datedProtocol P) (.put state)) := by
  simp only [State.step]
  split
  · exact hh
  · refine ⟨?_, hh.jobs, hh.work, hh.stored⟩
    intro other hother
    cases hother
    exact hstate

/-- A message that is no evidence. -/
theorem offer (hh : HandleSound P g t finalized h) {m : Message (Dated PersistJob)}
    (hm : ∀ job, m = .job job → job.value.evidence? = none) :
    HandleSound P g t finalized (h.offer (datedProtocol P) m) := by
  rcases @State.offer_eq _ _ _ _ (datedProtocol P) h m with heq | ⟨heq, -⟩
  · rw [heq]
    refine ⟨hh.slot, ?_, hh.work, hh.stored⟩
    intro job hjob
    rw [State.ahead_append, List.mem_append, Option.mem_toList] at hjob
    rcases hjob with hjob | hjob
    · exact hh.jobs job hjob
    · apply hm
      cases m with
      | job a =>
        cases hjob
        rfl
      | wake => cases hjob
      | shutdown => cases hjob
  · rw [heq]
    exact hh

theorem send (hh : HandleSound P g t finalized h) {job : Dated PersistJob}
    (hjob : job.value.evidence? = none) :
    HandleSound P g t finalized (h.step (datedProtocol P) (.send job)) := by
  simp only [State.step]
  split
  · exact hh
  · apply hh.offer
    intro other hother
    cases hother
    exact hjob

theorem signal (hh : HandleSound P g t finalized h) :
    HandleSound P g t finalized (h.step (datedProtocol P) .signal) := by
  simp only [State.step]
  split
  · have hoffered := hh.offer (m := .wake) fun job hjob => by cases hjob
    exact ⟨hoffered.slot, hoffered.jobs, hoffered.work, hoffered.stored⟩
  · exact hh

theorem receive (hh : HandleSound P g t finalized h) :
    HandleSound P g t finalized (h.step (datedProtocol P) .receive) := by
  have hjobs := hh.jobs
  simp only [State.step]
  split
  · next m rest hworker hqueue =>
    refine ⟨hh.slot, ?_, trivial, hh.stored⟩
    simpa [State.ahead, Worker.held, hworker, hqueue] using hjobs
  · exact hh

/-- The worker takes what is in the slot, or turns to the job. -/
theorem drain (hh : HandleSound P g t finalized h) :
    HandleSound P g t finalized (h.step (datedProtocol P) .drain) := by
  have hjobs := hh.jobs
  simp only [State.step]
  split
  · next m state hworker hslot =>
    refine ⟨fun other hother => (by cases hother), ?_, ?_, hh.stored⟩
    · simpa [State.ahead, Worker.held, hworker] using hjobs
    · exact ⟨hh.slot state hslot, 0, rfl, fun hlow => absurd hlow (by decide)⟩
  · next m hworker hslot =>
    cases m with
    | wake =>
      refine ⟨hh.slot, ?_, trivial, hh.stored⟩
      simpa [State.ahead, Worker.held, Worker.turnTo, hworker, Message.job?, List.filterMap_cons] using hjobs
    | job a =>
      have hall : a.value.evidence? = none ∧ ∀ job ∈ h.queue.filterMap Message.job?,
          job.value.evidence? = none := by
        simpa [State.ahead, Worker.held, hworker, Message.job?, List.filterMap_cons] using hjobs
      refine ⟨hh.slot, ?_, ⟨hall.1, 0, rfl⟩, hh.stored⟩
      simpa [State.ahead, Worker.held, Worker.turnTo] using hall.2
    | shutdown =>
      refine ⟨hh.slot, ?_, trivial, hh.stored⟩
      simpa [State.ahead, Worker.held, Worker.turnTo, hworker, Message.job?, List.filterMap_cons] using hjobs
  · next state hworker hslot =>
    refine ⟨fun other hother => (by cases hother), ?_, ?_, hh.stored⟩
    · simpa [State.ahead, Worker.held, hworker] using hjobs
    · exact ⟨hh.slot state hslot, 0, rfl, fun hlow => absurd hlow (by decide)⟩
  · next hworker hslot =>
    refine ⟨hh.slot, ?_, trivial, hh.stored⟩
    simpa [State.ahead, Worker.held, hworker] using hjobs
  · exact hh

/-- **One transaction** that is no finalized height ahead of its block. -/
theorem commit (hh : HandleSound P g t finalized h)
    (hfinal : ∀ height, h.worker.todo.head?.map Dated.value = some (.putFinalizedHeight height) →
      h.store.tables.HoldsFinal finalized height) :
    HandleSound P g t finalized (h.step (datedProtocol P) .commit) := by
  have hwork := hh.work
  have hjobs := hh.jobs
  simp only [State.step]
  split
  · next m state tx rest hworker =>
    rw [hworker] at hwork hfinal
    obtain ⟨hheld, n, htodo, hphase⟩ := hwork
    obtain ⟨htx, hrest⟩ := each_drop_cons htodo
    obtain ⟨hstored, hphase'⟩ := hh.stored.write hheld htx hphase fun height heq =>
      hfinal height (congrArg some heq)
    refine ⟨hh.slot, ?_, ⟨hheld, n + 1, hrest, hphase'⟩, hstored⟩
    simpa [State.ahead, Worker.held, hworker] using hjobs
  · next job tx rest hworker =>
    rw [hworker] at hwork hfinal
    obtain ⟨hevidence, n, htodo⟩ := hwork
    obtain ⟨htx, hrest⟩ := each_drop_cons htodo
    have hstored := hh.stored.job (List.mem_of_getElem? htx) hevidence fun height heq =>
      hfinal height (congrArg some heq)
    refine ⟨hh.slot, ?_, ⟨hevidence, n + 1, hrest⟩, hstored⟩
    simpa [State.ahead, Worker.held, hworker] using hjobs
  · next state tx rest hworker =>
    rw [hworker] at hwork hfinal
    obtain ⟨hheld, n, htodo, hphase⟩ := hwork
    obtain ⟨htx, hrest⟩ := each_drop_cons htodo
    obtain ⟨hstored, hphase'⟩ := hh.stored.write hheld htx hphase fun height heq =>
      hfinal height (congrArg some heq)
    refine ⟨hh.slot, ?_, ⟨hheld, n + 1, hrest, hphase'⟩, hstored⟩
    simpa [State.ahead, Worker.held, hworker] using hjobs
  · exact hh

theorem finish (hh : HandleSound P g t finalized h) :
    HandleSound P g t finalized (h.step (datedProtocol P) .finish) := by
  have hjobs := hh.jobs
  simp only [State.step]
  split
  · next hworker =>
    refine ⟨hh.slot, ?_, trivial, hh.stored⟩
    simpa [State.ahead, Worker.held, hworker] using hjobs
  · next hworker =>
    refine ⟨hh.slot, ?_, trivial, hh.stored⟩
    simpa [State.ahead, Worker.held, hworker] using hjobs
  · next hworker =>
    refine ⟨hh.slot, ?_, trivial, hh.stored⟩
    simpa [State.ahead, Worker.held, hworker] using hjobs
  · exact hh

end HandleSound

end Tables

namespace LiveNode

open AsyncNode

variable {P : Primitives} {g : GenesisConfig} {t now : Int} {x : LiveNode}

/-! ## What has to hold of the steps -/

/-- A refused block leaves the chain as it was, a vote finalizes a block of the cursor and prunes nothing, and no
evidence convicts. -/
def CallSteady (P : Primitives) (c : Blockchain) : ChainCall → Prop
  | .addBlock now block => (c.addBlock P now block).1 = .ok () ∨ (c.addBlock P now block).2 = c
  | .addFinalityVote vote => ∀ f ∈ (c.addFinalityVote P vote).1,
      (c.blockAtHeight f.height).map Block.hash = some f.hash ∧ c.pruneFrom f.height = none
  | .processEquivocation evidence => ¬ c.Convicts P evidence
  | .addTransaction _ _ => True

/-- The worker writes a finalized height only when the table has its block. -/
def CommitSteady (x : LiveNode) : Prop :=
  match x.node.nextCommit with
  | some (.putFinalizedHeight height) => x.tables.HoldsFinal x.finalized height
  | _ => True

def Steady (P : Primitives) (x : LiveNode) : LiveEvent → Prop
  | .async (.call call) => ¬ x.node.Busy → CallSteady P x.node.chain call
  | .async .commit => x.CommitSteady
  | .async _ => True
  | .forkBlock now block => ¬ x.node.Busy →
      (x.node.chain.addBlockWithForkChoice P now block).1.toOption.isSome ∨
        (x.node.chain.addBlockWithForkChoice P now block).2 = x.node.chain

def SteadyRun (P : Primitives) : LiveNode → List LiveEvent → Prop
  | _, [] => True
  | x, e :: rest => x.Steady P e ∧ SteadyRun P (x.step P e) rest

/-! ## What the steps keep -/

structure Sound (P : Primitives) (g : GenesisConfig) (t : Int) (x : LiveNode) : Prop where
  alive : Alive P g t x.finalized x.node.chain
  handle : HandleSound P g t x.finalized x.node.handle
  pruning : x.node.pruning = none

/-- The chain and the handle of a step, the finalized blocks it adds to, and no prune. -/
structure NodeSound (P : Primitives) (g : GenesisConfig) (t : Int) (finalized : List FinalizedBlock)
    (x : AsyncNode) : Prop where
  alive : Alive P g t finalized x.chain
  handle : HandleSound P g t finalized x.handle
  pruning : x.pruning = none

theorem sound_iff {clock : Nat} {finalized : List FinalizedBlock} {y : AsyncNode} :
    Sound P g t ⟨{ y with clock := clock }, finalized⟩ ↔ NodeSound P g t finalized y :=
  ⟨fun h => ⟨h.alive, h.handle, h.pruning⟩, fun h => ⟨h.alive, h.handle, h.pruning⟩⟩

section Steps

variable {y : AsyncNode} {finalized : List FinalizedBlock} {block : Block} {c : Blockchain}

theorem NodeSound.persist (h : NodeSound P g t finalized y) (hc : Alive P g t finalized c) :
    NodeSound P g t finalized (y.persistFullState P c) :=
  ⟨hc, h.handle.put hc.held, h.pruning⟩

theorem NodeSound.later (h : NodeSound P g t finalized y) (hle : t ≤ now) :
    NodeSound P g now finalized y :=
  ⟨h.alive.later hle, h.handle.later hle fun _ hf => hf, h.pruning⟩

theorem NodeSound.withChain (h : NodeSound P g t finalized y) (hc : Alive P g t finalized c) :
    NodeSound P g t finalized { y with chain := c } :=
  ⟨hc, h.handle, h.pruning⟩

theorem NodeSound.addBlock (h : NodeSound P g t finalized y) (hle : t ≤ now)
    (hsteady : (y.chain.addBlock P now block).1 = .ok () ∨ (y.chain.addBlock P now block).2 = y.chain) :
    NodeSound P g now finalized (y.addBlock P now block) := by
  have hlater := h.later hle
  simp only [AsyncNode.addBlock]
  cases hresult : y.chain.addBlock P now block with
  | mk result c =>
    rw [hresult] at hsteady
    cases result with
    | error e =>
      rcases hsteady with hbad | rfl
      · cases hbad
      · exact hlater.withChain hlater.alive
    | ok u =>
      have halive := h.alive.addBlock hle (by rw [hresult] : (y.chain.addBlock P now block).1 = .ok ())
      rw [hresult] at halive
      dsimp only
      split
      · exact hlater.persist halive
      · exact hlater.withChain halive

theorem NodeSound.forkBlock (h : NodeSound P g t finalized y) (hle : t ≤ now)
    (hsteady : (y.chain.addBlockWithForkChoice P now block).1.toOption.isSome ∨
      (y.chain.addBlockWithForkChoice P now block).2 = y.chain) :
    NodeSound P g now finalized (y.addBlockWithForkChoice P now block) := by
  have hlater := h.later hle
  simp only [AsyncNode.addBlockWithForkChoice]
  split
  · exact hlater
  next hold =>
  split
  · next hprev =>
    apply h.addBlock hle
    rcases hsteady with hok | hsame
    · left
      cases hresult : y.chain.addBlockWithForkChoice P now block with
      | mk result c =>
        rw [hresult] at hok
        cases result with
        | error e => cases hok
        | ok switched => rw [addBlock_of_forkChoice hresult hprev]
    · right
      rw [← forkChoice_of_child (by simpa using hold) hprev]
      exact hsame
  next hprev =>
  cases hresult : y.chain.addBlockWithForkChoice P now block with
  | mk result c =>
    rw [hresult] at hsteady
    cases result with
    | error e =>
      rcases hsteady with hbad | rfl
      · cases hbad
      · exact hlater.withChain hlater.alive
    | ok switched =>
      have halive := h.alive.fork hle hresult hprev
      cases switched with
      | true => exact hlater.persist halive
      | false => exact hlater.withChain halive

theorem NodeSound.addFinalityVote (h : NodeSound P g t finalized y) (vote : FinalityVote)
    (hsteady : CallSteady P y.chain (.addFinalityVote vote)) :
    NodeSound P g t ((y.chain.addFinalityVote P vote).1.toList ++ finalized) (y.addFinalityVote P vote) := by
  simp only [CallSteady] at hsteady
  simp only [AsyncNode.addFinalityVote]
  cases hresult : y.chain.addFinalityVote P vote with
  | mk result c =>
    rw [hresult] at hsteady
    cases result with
    | none => exact h.withChain (h.alive.vote_none hresult)
    | some f =>
      obtain ⟨hcursor, hprune⟩ := hsteady f rfl
      have hhandle := h.handle.later le_rfl (fun f' hf' => List.mem_cons_of_mem f hf')
      refine ⟨h.alive.vote_some hresult hcursor hprune, ?_, hprune⟩
      apply hhandle.send
      rfl

theorem NodeSound.processEquivocation (h : NodeSound P g t finalized y) {evidence : EquivocationEvidence}
    (hsteady : ¬ y.chain.Convicts P evidence) :
    NodeSound P g t finalized (y.processEquivocation P evidence) := by
  simp only [AsyncNode.processEquivocation]
  cases hresult : y.chain.processEquivocation P evidence with
  | mk result c =>
    cases result with
    | error e =>
      rw [processEquivocation_error hresult]
      exact h.withChain h.alive
    | ok penalty => exact absurd (processEquivocation_ok hresult).1 hsteady

theorem NodeSound.addTransaction (h : NodeSound P g t finalized y) (now : Int) (tx : Transaction) :
    NodeSound P g t finalized (y.addTransaction P now tx) := by
  have halive := h.alive.addTransaction now tx
  simp only [AsyncNode.addTransaction]
  cases hresult : y.chain.addTransaction P now tx with
  | mk result c =>
    rw [hresult] at halive
    cases result with
    | error e => exact h.withChain halive
    | ok u =>
      refine ⟨halive, ?_, h.pruning⟩
      apply h.handle.send
      rfl

theorem NodeSound.turn (h : NodeSound P g t finalized y)
    {e : Event (Dated PersistedChainState) (Dated PersistJob)}
    (hhandle : HandleSound P g t finalized (y.handle.step (datedProtocol P) e)) :
    NodeSound P g t finalized (y.turn P e) :=
  ⟨h.alive, hhandle, h.pruning⟩

end Steps

theorem Sound.node (h : Sound P g t x) : NodeSound P g t x.finalized x.node :=
  ⟨h.alive, h.handle, h.pruning⟩

/-- The worker's steps and the signal finalize nothing. -/
theorem Sound.turn (h : Sound P g t x) {e : Event (Dated PersistedChainState) (Dated PersistJob)}
    (hhandle : HandleSound P g t x.finalized (x.node.handle.step (datedProtocol P) e)) (clock : Nat) :
    Sound P g t ⟨{ x.node.turn P e with clock := clock }, x.finalized⟩ :=
  sound_iff.mpr (h.node.turn hhandle)

/-- A call that is served, or that finds the chain busy. -/
theorem Sound.call (h : Sound P g t x) {call : ChainCall}
    (hclock : ∀ u ∈ (LiveEvent.async (.call call)).reading, t ≤ u)
    (hsteady : x.Steady P (.async (.call call))) :
    Sound P g ((LiveEvent.async (.call call)).reading.getD t) (x.step P (.async (.call call))) := by
  apply sound_iff.mpr
  by_cases hbusy : x.node.Busy
  · simp only [AsyncNode.act, if_pos hbusy]
    cases call with
    | addBlock now block => exact h.node.later (hclock now rfl)
    | addFinalityVote vote =>
      simp only [AsyncNode.finalizes, if_pos hbusy]
      exact h.node
    | processEquivocation evidence => exact h.node
    | addTransaction now tx => exact h.node
  · have hcall := hsteady hbusy
    simp only [AsyncNode.act, if_neg hbusy]
    cases call with
    | addBlock now block => exact h.node.addBlock (hclock now rfl) hcall
    | addFinalityVote vote =>
      simp only [AsyncNode.finalizes, if_neg hbusy]
      exact h.node.addFinalityVote vote hcall
    | processEquivocation evidence => exact h.node.processEquivocation hcall
    | addTransaction now tx => exact h.node.addTransaction now tx

/-- **One step** keeps the chain, what is on the way and the tables sound. -/
theorem Sound.step (h : Sound P g t x) {e : LiveEvent} (hclock : ∀ u ∈ e.reading, t ≤ u)
    (hsteady : x.Steady P e) : Sound P g (e.reading.getD t) (x.step P e) := by
  cases e with
  | forkBlock now block =>
    have hle : t ≤ now := hclock now rfl
    simp only [LiveNode.step, LiveEvent.reading, Option.getD_some]
    apply sound_iff.mpr
    split
    · exact h.node.later hle
    · next hfree => exact h.node.forkBlock hle (hsteady hfree)
  | async e =>
    cases e with
    | signal => exact h.turn h.handle.signal _
    | receive => exact h.turn h.handle.receive _
    | drain => exact h.turn h.handle.drain _
    | finish => exact h.turn h.handle.finish _
    | prune =>
      apply sound_iff.mpr
      simp only [AsyncNode.act, AsyncNode.prune, h.pruning]
      exact h.node
    | commit =>
      apply h.turn
      apply h.handle.commit
      intro height hnext
      have hcommit : x.CommitSteady := hsteady
      simp only [CommitSteady, AsyncNode.nextCommit, hnext] at hcommit
      exact hcommit
    | call call =>
      exact h.call hclock hsteady

theorem Sound.run (h : Sound P g t x) {events : List LiveEvent}
    (hclock : (t :: (events.filterMap LiveEvent.reading ++ [now])).Pairwise (· ≤ ·))
    (hsteady : SteadyRun P x events) : Sound P g now (x.run P events) := by
  induction events generalizing x t with
  | nil =>
    have hle : t ≤ now := by simpa using hclock
    have hlater := h.node.later hle
    exact ⟨hlater.alive, hlater.handle, hlater.pruning⟩
  | cons e rest ih =>
    have hstep : Sound P g (e.reading.getD t) (x.step P e) := by
      apply h.step ?_ hsteady.1
      intro u hu
      apply (List.pairwise_cons.mp hclock).1
      simp only [Option.mem_def] at hu
      simp [hu]
    apply ih hstep ?_ hsteady.2
    cases hreading : e.reading with
    | none => simpa [List.filterMap_cons, hreading] using hclock
    | some u =>
      simp only [List.filterMap_cons, hreading, List.cons_append] at hclock
      exact (List.pairwise_cons.mp hclock).2

/-! ## After a crash -/

/-- What a crash should leave: the stored height reaches the finalized one, the block there is the one that was
finalized, and the next start opens the store with it. -/
structure Consistent (P : Primitives) (now : Int) (expected : Option GenesisConfig) (x : LiveNode) : Prop where
  reaches : ∃ head, x.tables.blocks.getHeight = some head ∧ x.tables.finalizedHeight.getD 0 ≤ head
  final : x.tables.HoldsFinal x.finalized (x.tables.finalizedHeight.getD 0)
  opens : ∃ b c, x.tables.blocks.getBlock (x.tables.finalizedHeight.getD 0) = some b ∧
    x.tables.withStorage P now expected = .ok (c, x.tables) ∧
    c.finalityTracker.finalizedHeight = x.tables.finalizedHeight.getD 0 ∧
    c.finalityTracker.finalizedHash = b.hash

/-- An opened chain has the stored finalized height, with the hash its cursor finds there. -/
theorem tracker_of_withStorage {s s' : Storage} {c : Blockchain} {height : Nat}
    {expected : Option GenesisConfig} (hheight : s.blocks.getHeight = some height)
    (hopen : s.withStorage P now expected = .ok (c, s')) :
    ∃ cursor, BlockStoreCursor.new s.blocks DEFAULT_BLOCK_CACHE_SIZE = .ok cursor ∧
      c.finalityTracker = FinalityTracker.withFinalized (s.finalizedHeight.getD 0)
        (((s.read cursor (s.finalizedHeight.getD 0)).map Block.hash).getD []) := by
  simp only [Storage.withStorage, hheight, Storage.reopen] at hopen
  split at hopen
  · cases hopen
  split at hopen
  · cases hopen
  split at hopen
  · cases hopen
  next cursor hcursor =>
  split at hopen
  · cases hopen
  split at hopen
  · cases hopen
  split at hopen
  · cases hopen
  · next c' hrun =>
    cases hopen
    refine ⟨cursor, hcursor, ?_⟩
    have hspine := @rebuildCanonicalState_spine P (s.assemble P (s.chainConfig.getD GenesisConfig.default)
      cursor) now
    rw [hrun] at hspine
    exact congrArg Spine.finalityTracker hspine

theorem Sound.consistent (h : Sound P g t x) (hle : t ≤ now) {expected : Option GenesisConfig}
    (hexpected : ∀ e ∈ expected, e = g) : Consistent P now expected x := by
  obtain ⟨⟨c, hc, hdisk⟩, hrow, hfinal⟩ := h.handle.stored
  change Blockchain.OnDisk g c x.tables at hdisk
  change (x.tables.blocks.getBlock 0).isSome at hrow
  change x.tables.HoldsFinal x.finalized (x.tables.finalizedHeight.getD 0) at hfinal
  generalize hF : x.tables.finalizedHeight.getD 0 = height at hfinal
  have hread : x.tables.blocks.getBlock height = c.blockAtHeight height := by
    rcases Nat.eq_zero_or_pos height with rfl | hpos
    · obtain ⟨b, hb⟩ := Option.isSome_iff_exists.mp hrow
      rw [hb, hdisk.genesis b hb]
      rfl
    · exact hdisk.blocks height hpos
  have hblock : ∃ b, x.tables.blocks.getBlock height = some b := by
    rcases hfinal with rfl | ⟨f, -, -, hhash⟩
    · exact Option.isSome_iff_exists.mp hrow
    · obtain ⟨b, hb, -⟩ := Option.map_eq_some_iff.mp hhash
      exact ⟨b, hb⟩
  obtain ⟨b, hb⟩ := hblock
  obtain ⟨c', hopen, -⟩ := reopen_ok hdisk hc.stacked hc.accounted hle hexpected (by rw [hc.base]; omega) hrow
  obtain ⟨cursor, hcursor, htracker⟩ := tracker_of_withStorage hdisk.head hopen
  obtain ⟨cursor', hcursor', ho⟩ := hdisk.opens hc.stacked hrow DEFAULT_BLOCK_CACHE_SIZE
  rw [hcursor] at hcursor'
  cases hcursor'
  rw [hF, ho.read, ← hread, hb] at htracker
  refine ⟨⟨c.height, hdisk.head, ?_⟩, by rw [hF]; exact hfinal, b, c', by rw [hF]; exact hb, hopen, ?_, ?_⟩
  · rw [hF]
    rw [hb, (hc.stacked.straight (by rw [hc.base]; omega)).blockAtHeight] at hread
    have hlt := (List.getElem?_eq_some_iff.mp hread.symm).1
    have hlen := hc.stacked.length_eq
    omega
  · rw [htracker, hF]
    rfl
  · rw [htracker]
    rfl

/-- A new directory, and the chain in it. -/
theorem sound_spawn {c : Blockchain} {s : Storage} (h : Storage.withStorage P {} now (some g) = .ok (c, s))
    (keep : Option Nat) (t : Int) : Sound P g t (spawn { c with pruneKeepBlocks := keep } s) := by
  have hbacked := SyncNode.backed_create h t
  have hrow : (s.blocks.getBlock 0).isSome ∧ s.finalizedHeight = some 0 ∧ c.baseHeight = 0 ∧
      c.finalityTracker.finalizedHeight = 0 ∧ Anchored c.spine c.genesis [] := by
    simp only [Storage.withStorage, BlockStorage.getHeight, Option.getD_some] at h
    split at h
    · cases h
    · next c' hstart =>
      have hanchored := (ChainRun.holds_start hstart).anchored
      have hget := hbacked.stacked.getBlock_replaceBlocks {} 0
      cases h
      -- A chain just made from the genesis has nothing final and nothing pruned.
      have hfields : c.baseHeight = 0 ∧ c.finalityTracker.finalizedHeight = 0 := by
        simp only [fromGenesis, Outcome.except_bind_eq_ok] at hstart
        obtain ⟨accounts, -, hc⟩ := hstart
        cases hc
        exact ⟨rfl, rfl⟩
      refine ⟨?_, ?_, hfields.1, hfields.2, hanchored⟩
      · show ((BlockStorage.replaceBlocks {} c.iterBlocks).getBlock 0).isSome
        rw [hget]
        rfl
      · show some c.finalityTracker.finalizedHeight = some 0
        rw [hfields.2]
  obtain ⟨hrow, hstored, hbase, hheight, hanchored⟩ := hrow
  have hst := hbacked.stacked.straight (by rw [hbase]; omega)
  refine ⟨⟨⟨hst.base, hst.head, hst.heights⟩, hbase, ?_, ⟨hanchored.sound, hanchored.genesis, hanchored.height,
      hanchored.line, hanchored.chain, hanchored.latest, hanchored.hash⟩, Or.inl hheight⟩,
    ⟨?_, ?_, trivial, ⟨c, ⟨hbacked.stacked, hbase, hbacked.accounted, Or.inl hheight⟩, hbacked.disk⟩, hrow, ?_⟩,
    rfl⟩
  · apply hbacked.accounted.congr
    · intro _
      exact ⟨hst.base, hst.head, hst.heights⟩
    · exact ⟨rfl, rfl, rfl, rfl, rfl, rfl, rfl⟩
    · rfl
    · rfl
    · exact le_rfl
    · rfl
    · rfl
  · intro state hstate
    cases hstate
  · intro job hjob
    cases hjob
  · left
    show s.finalizedHeight.getD 0 = 0
    rw [hstored]
    rfl

namespace Sample

open Scenario RestartSample AsyncNode.Sample

/-- `Steady`, for the steps the samples take. -/
def calm (P : Primitives) (x : LiveNode) : LiveEvent → Bool
  | .async (.call (.addBlock now block)) => (x.node.chain.addBlock P now block).1.toOption.isSome
  | .async (.call (.addFinalityVote vote)) => (x.node.chain.addFinalityVote P vote).1.all fun f =>
      decide ((x.node.chain.blockAtHeight f.height).map Block.hash = some f.hash ∧
        x.node.chain.pruneFrom f.height = none)
  | .async .commit => match x.node.nextCommit with
    | some (.putFinalizedHeight height) => decide (x.tables.HoldsFinal x.finalized height)
    | _ => true
  | .async (.call _) | .forkBlock .. => false
  | .async _ => true

def calmRun (P : Primitives) : LiveNode → List LiveEvent → Bool
  | _, [] => true
  | x, e :: rest => calm P x e && calmRun P (x.step P e) rest

theorem steady_of_calm {x : LiveNode} {e : LiveEvent} (h : calm P x e = true) : x.Steady P e := by
  cases e with
  | forkBlock now block => cases h
  | async e =>
    cases e with
    | signal => trivial
    | prune => trivial
    | receive => trivial
    | drain => trivial
    | finish => trivial
    | commit =>
      simp only [Steady, CommitSteady]
      simp only [calm] at h
      split
      · next height hnext =>
        rw [hnext] at h
        exact of_decide_eq_true h
      · trivial
    | call call =>
      intro _
      cases call with
      | addBlock now block =>
        left
        simp only [calm] at h
        cases hresult : (x.node.chain.addBlock P now block).1 with
        | error e =>
          rw [hresult] at h
          cases h
        | ok u => rfl
      | addFinalityVote vote =>
        intro f hf
        simp only [calm, Option.mem_def.mp hf] at h
        exact of_decide_eq_true h
      | processEquivocation evidence => cases h
      | addTransaction now tx => cases h

theorem steady_of_calmRun {x : LiveNode} {events : List LiveEvent} (h : calmRun P x events = true) :
    SteadyRun P x events := by
  induction events generalizing x with
  | nil => trivial
  | cons e rest ih =>
    simp only [calmRun, Bool.and_eq_true] at h
    exact ⟨steady_of_calm h.1, ih h.2⟩

def onNode (events : List AsyncEvent) : List LiveEvent := events.map LiveEvent.async

/-- Block 1 and its full state, then the vote that finalizes it and the height it leaves to the worker. -/
def written (calls : List (Int × Block)) : List LiveEvent :=
  onNode (((calls.take 1).flatMap fun e => blockEvents e.1 e.2) ++ writeEvents ++
    (calls.take 1).map (fun e => voteEvent e.2) ++ [.receive, .drain, .commit])

/-- The vote for block 1 comes before the worker moves, and so does block 2. The worker then writes two
transactions of the full state that block 2 left. -/
def overtaken (calls : List (Int × Block)) : List LiveEvent :=
  onNode (((calls.take 1).flatMap fun e => blockEvents e.1 e.2) ++ (calls.take 1).map (fun e => voteEvent e.2) ++
    ((calls.drop 1).flatMap fun e => blockEvents e.1 e.2) ++ [.receive, .drain, .commit, .commit])

def twoSteps : List (Int × UInt8) := [(Scenario.clock 1, 1), (Scenario.clock 2, 1)]

def opened : Except OpenError (Blockchain × Storage) :=
  Storage.withStorage Reference.primitives {} (Scenario.clock 0) (some config)

def runOf (p : Blockchain × Storage) (events : List LiveEvent) : LiveNode :=
  (spawn { p.1 with pruneKeepBlocks := none } p.2).run Reference.primitives events

end Sample

end LiveNode

end Curs3d
