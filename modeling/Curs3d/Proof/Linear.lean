import Curs3d.Chain.Finality
import Curs3d.Proof.Rejected
import Curs3d.Proof.Validate
import Curs3d.Proof.Voting

/-!
# Adding, replaying and rebuilding a chain

Three loops execute the blocks of a chain: `add_block` one call at a time, `replayBlocks` over the
snapshots the node holds, `rebuildBlocks` over snapshots it takes as it goes. One step of either
replay from the state before an accepted block reaches the state after it
(`replayBlock_of_addBlock`), on any chain that holds the right snapshots and knows who produced
the settled epochs. `Recomputes` carries that through a whole run.

What a replay needs of the chain `d` it is run on is little, and not that `d` holds the blocks
being replayed: the configuration, the slashed set, the snapshots up to the last epoch, and the
producers of the epochs before it.
-/

set_option autoImplicit false

namespace Curs3d

open Outcome

namespace Blockchain

variable {P : Primitives} {g : GenesisConfig} {c c' d : Blockchain} {now later : Int}
  {block : Block} {height : Nat}

/-! ## One step -/

theorem settlement_congr {snapshots snapshots' : HeightMap EpochSnapshot} {producers : List Bytes}
    {accounts : ByteMap AccountState} {missed : ByteMap Nat}
    (h : ∀ e < height / g.epochLen, snapshots'[e]? = snapshots[e]?) :
    applyEpochSettlementForBlock g height snapshots' producers accounts missed =
      applyEpochSettlementForBlock g height snapshots producers accounts missed := by
  unfold applyEpochSettlementForBlock
  cases hs : settlingEpoch g height with
  | none => rfl
  | some epoch =>
    have hlt : epoch < height / g.epochLen := by
      unfold settlingEpoch at hs
      dsimp only at hs
      split at hs
      · exact absurd hs (by simp)
      · cases hs
        omega
    dsimp only
    rw [h epoch hlt]

/-- The producers of a settled epoch are read below the boundary. -/
theorem proposers_congr (hg : d.genesisConfig = c.genesisConfig)
    (h : ∀ k < c.epochForHeight height * c.genesisConfig.epochLen,
      d.blockAtHeight k = c.blockAtHeight k) :
    d.proposerAddressesForSettlingEpoch P height = c.proposerAddressesForSettlingEpoch P height := by
  unfold proposerAddressesForSettlingEpoch
  rw [hg]
  cases settlingEpoch c.genesisConfig height with
  | none => rfl
  | some epoch =>
    refine List.filterMap_congr ?_
    intro k hk
    have hlt : k < c.epochForHeight height * c.genesisConfig.epochLen := by
      rw [List.mem_range'_1] at hk
      unfold epochForHeight
      omega
    rw [h k hlt]

theorem commitBlock_execState (c : Blockchain) (block : Block) (s : ExecState) :
    (c.commitBlock P block s).execState =
      { s with receipts := extendReceipts c.receipts s.receipts } := by
  have hfield := congrArg execState (@commitBlock_unindexed P c block s)
  exact hfield

theorem commitBlock_epochSnapshots (c : Blockchain) (block : Block) (s : ExecState) :
    (c.commitBlock P block s).epochSnapshots = c.epochSnapshots ∧
      (c.commitBlock P block s).validatorMissedEpochs = c.validatorMissedEpochs ∧
      (c.commitBlock P block s).slashedValidators = c.slashedValidators := by
  have hsnaps := congrArg epochSnapshots (@commitBlock_unindexed P c block s)
  have hmissed := congrArg validatorMissedEpochs (@commitBlock_unindexed P c block s)
  have hslashed := congrArg slashedValidators (@commitBlock_unindexed P c block s)
  exact ⟨hsnaps, hmissed, hslashed⟩

/-- An accepted block: the settled state was valid for it, and what it leaves. -/
structure Accepted (P : Primitives) (c : Blockchain) (now : Int) (block : Block) (s : ExecState) :
    Prop where
  valid : (c.prepareEpoch P block.header.height).validateBlockAgainstState P now block c.latestBlock
    { c.execState with accounts := (c.settledAt P block.header.height).1 } = .ok s
  result : c.addBlock P now block =
    (.ok (), (c.prepareEpoch P block.header.height).commitBlock P block s)
  execState : (c.addBlock P now block).2.execState =
    { s with receipts := extendReceipts c.receipts s.receipts }
  missed : (c.addBlock P now block).2.validatorMissedEpochs =
    (c.settledAt P block.header.height).2
  snapshots : (c.addBlock P now block).2.epochSnapshots =
    (c.ensureEpochSnapshot block.header.height).epochSnapshots
  config : (c.addBlock P now block).2.genesisConfig = c.genesisConfig
  slashed : (c.addBlock P now block).2.slashedValidators = c.slashedValidators

theorem accepted_of_addBlock (h : (c.addBlock P now block).1 = .ok ()) :
    ∃ s, Accepted P c now block s := by
  rcases addBlock_cases P c now block with ⟨e, he⟩ | ⟨s, hs, hok⟩
  · rw [he] at h
    exact absurd h (by simp)
  · have hlatest : (c.prepareEpoch P block.header.height).latestBlock = c.latestBlock :=
      latestBlock_congr (prepareEpoch_spine _)
    have hexec : (c.prepareEpoch P block.header.height).execState =
        { c.execState with accounts := (c.settledAt P block.header.height).1 } := by
      rw [prepareEpoch_eq]
      rfl
    obtain ⟨hsnaps, hmissed, hslashed⟩ :=
      @commitBlock_epochSnapshots P (c.prepareEpoch P block.header.height) block s
    rw [hlatest, hexec] at hs
    refine ⟨s, hs, hok, ?_, ?_, ?_, ?_, ?_⟩
    · rw [hok, commitBlock_execState, prepareEpoch_eq]
    · rw [hok, hmissed, prepareEpoch_eq]
    · rw [hok, hsnaps, prepareEpoch_eq]
    · rw [hok, commitBlock_genesisConfig, prepareEpoch_genesisConfig]
    · rw [hok, hslashed, prepareEpoch_eq]

/-- No checkpoint is recorded, so `add_block` accepts what it validates on the settled state. -/
theorem addBlock_ok_iff : (c.addBlock P now block).1 = .ok () ↔
    ∃ s, (c.prepareEpoch P block.header.height).validateBlockAgainstState P now block c.latestBlock
      { c.execState with accounts := (c.settledAt P block.header.height).1 } = .ok s := by
  constructor
  · intro h
    obtain ⟨s, ha⟩ := accepted_of_addBlock h
    exact ⟨s, ha.valid⟩
  · rintro ⟨s, hs⟩
    have hlatest : (c.prepareEpoch P block.header.height).latestBlock = c.latestBlock :=
      latestBlock_congr (prepareEpoch_spine _)
    have hexec : (c.prepareEpoch P block.header.height).execState =
        { c.execState with accounts := (c.settledAt P block.header.height).1 } := by
      rw [prepareEpoch_eq]
      rfl
    unfold addBlock
    dsimp only
    rw [hlatest, hexec, hs]
    rfl

/-- The state a replay carries at the tip of `c`. -/
def replayState (c : Blockchain) : ReplayState :=
  { state := c.execState, missed := c.validatorMissedEpochs }

/-- **One step of a replay is one `add_block`.** -/
theorem replayBlock_of_addBlock (hok : (c.addBlock P now block).1 = .ok ()) (hle : now ≤ later)
    (hg : d.genesisConfig = c.genesisConfig) (hs : d.slashedValidators = c.slashedValidators)
    (hsnaps : ∀ e ≤ c.epochForHeight block.header.height,
      d.epochSnapshots[e]? = (c.addBlock P now block).2.epochSnapshots[e]?)
    (hblocks : ∀ k < c.epochForHeight block.header.height * c.genesisConfig.epochLen,
      d.blockAtHeight k = c.blockAtHeight k) :
    d.replayBlock P later c.latestBlock block c.replayState =
      .ok (c.addBlock P now block).2.replayState := by
  obtain ⟨s, ha⟩ := accepted_of_addBlock hok
  rw [ha.snapshots] at hsnaps
  have hsettled : applyEpochSettlementForBlock d.genesisConfig block.header.height
      d.epochSnapshots (d.proposerAddressesForSettlingEpoch P block.header.height)
      c.accounts c.validatorMissedEpochs = c.settledAt P block.header.height := by
    unfold settledAt
    rw [hg, proposers_congr hg hblocks, ← settlement_ensureEpochSnapshot]
    apply settlement_congr
    intro e he
    exact hsnaps e (Nat.le_of_lt he)
  have hvalid : d.validateBlockAgainstState P later block c.latestBlock
      { c.execState with accounts := (c.settledAt P block.header.height).1 } = .ok s := by
    refine validate_later hle ?_
    rw [← ha.valid]
    apply validate_congr
    · rw [hg, prepareEpoch_genesisConfig]
    · rw [hs, prepareEpoch_eq]
    · rw [prepareEpoch_eq]
      exact hsnaps _ le_rfl
  unfold replayBlock
  dsimp only [replayState]
  rw [show c.execState.accounts = c.accounts from rfl, hsettled, hvalid]
  dsimp only
  rw [ha.execState, ha.missed]
  rfl

/-! ## The cursor of a straight chain -/

/-- Reading a list at every index gives the list. -/
theorem filterMap_getElem?_range {α : Type} (l : List α) :
    (List.range l.length).filterMap (fun k => l[k]?) = l := by
  induction l using List.reverseRecOn with
  | nil => rfl
  | append_singleton l a ih =>
    have hinit : (List.range l.length).filterMap (fun k => (l ++ [a])[k]?) = l := by
      nth_rewrite 3 [← ih]
      refine List.filterMap_congr ?_
      intro k hk
      exact List.getElem?_append_left (List.mem_range.mp hk)
    rw [List.length_append, List.length_singleton, List.range_succ, List.filterMap_append, hinit]
    simp

/-- The cursor holds the genesis and a block at every height after it, and can read them all. -/
structure Straight (c : Blockchain) : Prop where
  base : c.baseHeight ≤ 1
  head : c.blocks.head? = some c.genesis
  heights : ∀ {k : Nat} {b : Block}, c.blocks[k]? = some b → b.header.height = k

namespace Straight

theorem blocks_eq (h : c.Straight) : c.blocks = c.genesis :: c.blocks.tail := by
  have hhead := h.head
  cases hb : c.blocks with
  | nil => rw [hb] at hhead; exact absurd hhead (by simp)
  | cons b rest => rw [hb] at hhead; cases hhead; rfl

theorem length_pos (h : c.Straight) : 0 < c.blocks.length := by
  rw [h.blocks_eq]
  exact Nat.succ_pos _

theorem blockAtHeight (h : c.Straight) (k : Nat) : c.blockAtHeight k = c.blocks[k]? := by
  unfold Blockchain.blockAtHeight
  have hbase := h.base
  split
  · next hk => rw [hk, h.blocks_eq]; rfl
  · rw [if_neg (by omega)]

theorem latestBlock (h : c.Straight) : c.blocks[c.height]? = some c.latestBlock := by
  have hpos := h.length_pos
  unfold Blockchain.latestBlock
  rw [h.blockAtHeight]
  have hlt : c.height < c.blocks.length := by
    unfold height blockCount
    omega
  rw [List.getElem?_eq_getElem hlt]
  rfl

theorem latestBlock_height (h : c.Straight) : c.latestBlock.header.height = c.height :=
  h.heights h.latestBlock

theorem getLast? (h : c.Straight) : c.blocks.getLast? = some c.latestBlock := by
  rw [List.getLast?_eq_getElem?]
  exact h.latestBlock

theorem getLast (h : c.Straight) :
    (c.genesis :: c.blocks.tail).getLast (List.cons_ne_nil _ _) = c.latestBlock := by
  have hlast := h.getLast?
  rw [h.blocks_eq] at hlast
  exact Option.some.inj ((List.getLast?_eq_some_getLast _).symm.trans hlast)

theorem iterBlocks (h : c.Straight) : c.iterBlocks = c.blocks := by
  unfold Blockchain.iterBlocks blockCount
  rw [show c.blockAtHeight = fun k => c.blocks[k]? from funext h.blockAtHeight]
  exact filterMap_getElem?_range c.blocks

theorem of_spine {c' : Blockchain} (h : c.Straight) (hs : c'.spine = c.spine) :
    c'.Straight := by
  have hbase : c'.baseHeight = c.baseHeight := congrArg Spine.baseHeight hs
  have hblocks : c'.blocks = c.blocks := congrArg Spine.blocks hs
  have hgenesis : c'.genesis = c.genesis := congrArg Spine.genesis hs
  refine ⟨hbase ▸ h.base, by rw [hblocks, hgenesis, h.head], ?_⟩
  intro k b hb
  rw [hblocks] at hb
  exact h.heights hb

/-- An accepted block goes on top. -/
theorem addBlock (h : c.Straight) (hok : (c.addBlock P now block).1 = .ok ()) :
    (c.addBlock P now block).2.Straight ∧
      (c.addBlock P now block).2.blocks = c.blocks ++ [block] ∧
      (c.addBlock P now block).2.genesis = c.genesis ∧
      (c.addBlock P now block).2.height = c.height + 1 ∧ block.header.height = c.height + 1 := by
  obtain ⟨hfollows, stake, hspine⟩ := addBlock_ok_spine hok
  have hblocks : (c.addBlock P now block).2.blocks = c.blocks ++ [block] :=
    congrArg Spine.blocks hspine
  have hgenesis : (c.addBlock P now block).2.genesis = c.genesis := congrArg Spine.genesis hspine
  have hbase : (c.addBlock P now block).2.baseHeight = c.baseHeight :=
    congrArg Spine.baseHeight hspine
  have hheight : block.header.height = c.height + 1 := by
    rw [hfollows.height, h.latestBlock_height]
  have hpos := h.length_pos
  have hlen : c.height + 1 = c.blocks.length := by
    unfold height blockCount
    omega
  refine ⟨⟨hbase ▸ h.base, ?_, ?_⟩, hblocks, hgenesis, ?_, hheight⟩
  · rw [hblocks, hgenesis, List.head?_append, h.head]
    rfl
  · intro k b hb
    rw [hblocks] at hb
    rcases Nat.lt_or_ge k c.blocks.length with hk | hk
    · rw [List.getElem?_append_left hk] at hb
      exact h.heights hb
    · rw [List.getElem?_append_right hk, List.getElem?_singleton] at hb
      split at hb
      · cases hb
        omega
      · exact absurd hb (by simp)
  · show (c.addBlock P now block).2.blocks.length - 1 = c.height + 1
    rw [hblocks, List.length_append, List.length_singleton]
    omega

end Straight

/-! ## One more block at the end -/

theorem replayBlocks_concat {previous : Block} {blocks : List Block} {r r' : ReplayState}
    (h : d.replayBlocks P now previous blocks r = .ok r') :
    d.replayBlocks P now previous (blocks ++ [block]) r =
      d.replayBlock P now ((previous :: blocks).getLast (List.cons_ne_nil _ _)) block r' := by
  induction blocks generalizing previous r with
  | nil =>
    cases h
    rw [List.nil_append, replayBlocks]
    show _ = d.replayBlock P now previous block r'
    cases d.replayBlock P now previous block r' with
    | error e => rfl
    | ok r'' => rfl
  | cons b rest ih =>
    unfold replayBlocks at h
    rw [List.cons_append]
    unfold replayBlocks
    cases hb : d.replayBlock P now previous b r with
    | error e => rw [hb] at h; exact absurd h (by simp)
    | ok r₁ =>
      rw [hb] at h
      dsimp only at h ⊢
      rw [ih h]
      rfl

theorem rebuildBlocks_concat {previous : Block} {blocks : List Block} {r r' : ReplayState}
    (h : rebuildBlocks P now d previous blocks r = (.ok r', c)) :
    rebuildBlocks P now d previous (blocks ++ [block]) r =
      rebuildBlocks P now c ((previous :: blocks).getLast (List.cons_ne_nil _ _)) [block] r' := by
  induction blocks generalizing d previous r with
  | nil =>
    cases h
    rfl
  | cons b rest ih =>
    rw [rebuildBlocks_cons] at h
    rw [List.cons_append, rebuildBlocks_cons]
    split at h
    · exact absurd (congrArg Prod.fst h) (by simp)
    · rw [ih h]
      rfl

/-! ## Whole runs -/

/-- `d` can replay `c`: it is of the same configuration and slashed set, and it knows the
producers of every epoch before the one `c` ends in. -/
structure Agrees (d c : Blockchain) : Prop where
  config : d.genesisConfig = c.genesisConfig
  slashed : d.slashedValidators = c.slashedValidators
  blocks : ∀ k < c.epochForHeight c.height * c.genesisConfig.epochLen,
    d.blockAtHeight k = c.blockAtHeight k

/-- Both replays recompute `c` from the genesis accounts, at any clock reading from `t` on. -/
structure Recomputes (P : Primitives) (genesisAccounts : ByteMap AccountState) (t : Int)
    (c : Blockchain) : Prop where
  straight : c.Straight
  known : ∀ e ≤ c.epochForHeight c.height, e ∈ c.epochSnapshots
  replay : ∀ {d : Blockchain} {later : Int}, t ≤ later → Agrees d c →
    (∀ e ≤ c.epochForHeight c.height, d.epochSnapshots[e]? = c.epochSnapshots[e]?) →
    d.replayBlocks P later c.genesis c.blocks.tail (genesisReplay genesisAccounts) =
      .ok c.replayState
  rebuild : ∀ {d : Blockchain} {later : Int}, t ≤ later → Agrees d c →
    d.epochSnapshots = genesisSnapshots (c.snapshotForAccounts 0 genesisAccounts) →
    rebuildBlocks P later d c.genesis c.blocks.tail (genesisReplay genesisAccounts) =
      (.ok c.replayState, { d with epochSnapshots := c.epochSnapshots })

/-- From any later reading on, too. -/
theorem Recomputes.mono {accounts : ByteMap AccountState} {t : Int}
    (h : Recomputes P accounts t c) (hle : t ≤ now) : Recomputes P accounts now c :=
  ⟨h.straight, h.known, fun hl => h.replay (hle.trans hl), fun hl => h.rebuild (hle.trans hl)⟩

theorem recomputes_genesis (h : fromGenesis P g = .ok c) (t : Int) :
    ∃ accounts, accountsFromGenesis P g = .ok accounts ∧ Recomputes P accounts t c := by
  unfold fromGenesis at h
  simp only [except_bind_eq_ok] at h
  obtain ⟨accounts, haccounts, hc⟩ := h
  cases hc
  refine ⟨accounts, haccounts, ⟨by simp, rfl, ?_⟩, ?_, ?_, ?_⟩
  · intro k b hb
    rw [List.getElem?_singleton] at hb
    split at hb
    · next hk => cases hb; rw [hk]; rfl
    · exact absurd hb (by simp)
  · intro e he
    have hzero : e = 0 := by
      simpa [epochForHeight, height, blockCount] using he
    rw [hzero]
    exact Std.ExtTreeMap.mem_insert_self
  · intro d later _ _ _
    rfl
  · intro d later _ _ hsnaps
    show (Except.ok _, d) = (Except.ok _, { d with epochSnapshots := _ })
    refine Prod.ext rfl ?_
    obtain ⟨⟩ := d
    dsimp only at hsnaps
    subst hsnaps
    rfl

theorem epochLen_pos (g : GenesisConfig) : 0 < g.epochLen := by
  unfold GenesisConfig.epochLen
  omega

/-- An epoch that starts after height `n` and not after the next starts there. -/
theorem boundary_of_epoch {n e : Nat} (he : e ≤ c.epochForHeight (n + 1))
    (hnew : ¬ e ≤ c.epochForHeight n) :
    (n + 1) % c.genesisConfig.epochLen = 0 ∧ e = c.epochForHeight (n + 1) := by
  unfold epochForHeight at *
  rw [Nat.succ_div] at he
  rw [Nat.succ_div]
  split at he
  · next hdvd =>
    rw [if_pos hdvd]
    exact ⟨Nat.mod_eq_zero_of_dvd hdvd, by omega⟩
  · exact absurd he hnew

theorem ensureEpochSnapshot_of_mem {e : Nat} (he : e ∈ c.epochSnapshots) :
    (c.ensureEpochSnapshot height).epochSnapshots[e]? = c.epochSnapshots[e]? := by
  unfold ensureEpochSnapshot
  split
  · next hnew =>
    refine KeyMap.getElem?_insert_ne _ _ ?_
    rintro rfl
    exact hnew.2.2 he
  · rfl

theorem mem_ensureEpochSnapshot {e : Nat} (he : e ∈ c.epochSnapshots) :
    e ∈ (c.ensureEpochSnapshot height).epochSnapshots := by
  rw [Std.ExtTreeMap.mem_iff_isSome_getElem?, ensureEpochSnapshot_of_mem he]
  exact Std.ExtTreeMap.mem_iff_isSome_getElem?.mp he

/-- The snapshot of a block's epoch is there once the block is prepared, if those before are. -/
theorem mem_ensureEpochSnapshot_next {n : Nat}
    (h : ∀ e ≤ c.epochForHeight n, e ∈ c.epochSnapshots) {e : Nat}
    (he : e ≤ c.epochForHeight (n + 1)) :
    e ∈ (c.ensureEpochSnapshot (n + 1)).epochSnapshots := by
  by_cases hold : e ∈ c.epochSnapshots
  · exact mem_ensureEpochSnapshot hold
  · -- a new epoch starts at the next height, and this is it
    obtain ⟨hboundary, rfl⟩ := boundary_of_epoch he fun hle => hold (h e hle)
    unfold ensureEpochSnapshot
    rw [if_pos ⟨Nat.succ_pos _, hboundary, hold⟩]
    exact Std.ExtTreeMap.mem_insert_self

/-- An accepted block leaves the stored snapshots and adds at most that of its own epoch. -/
theorem addBlock_epochSnapshots (hok : (c.addBlock P now block).1 = .ok ()) {e : Nat}
    (he : e ∈ c.epochSnapshots) :
    (c.addBlock P now block).2.epochSnapshots[e]? = c.epochSnapshots[e]? := by
  obtain ⟨s, ha⟩ := accepted_of_addBlock hok
  rw [ha.snapshots]
  exact ensureEpochSnapshot_of_mem he

/-- What agrees with the chain after a block agrees with it before the block. -/
theorem Agrees.before (hst : c.Straight) (hok : (c.addBlock P now block).1 = .ok ())
    (h : Agrees d (c.addBlock P now block).2) : Agrees d c := by
  obtain ⟨s, ha⟩ := accepted_of_addBlock hok
  obtain ⟨hst', hblocks, -, hheight, -⟩ := hst.addBlock hok
  refine ⟨h.config.trans ha.config, h.slashed.trans ha.slashed, ?_⟩
  intro k hk
  have hmul : c.epochForHeight c.height * c.genesisConfig.epochLen ≤ c.height :=
    Nat.div_mul_le_self _ _
  have hlt : k < c.blocks.length := by
    have hlen : c.height = c.blocks.length - 1 := rfl
    omega
  have hepoch : c.epochForHeight c.height ≤ (c.addBlock P now block).2.epochForHeight
      (c.addBlock P now block).2.height := by
    rw [epochForHeight_congr ha.config, hheight]
    exact Nat.div_le_div_right (Nat.le_succ _)
  have hread := h.blocks k (by
    rw [ha.config]
    exact lt_of_lt_of_le hk (Nat.mul_le_mul_right _ hepoch))
  rw [hread, hst'.blockAtHeight, hst.blockAtHeight, hblocks, List.getElem?_append_left hlt]

/-- The step's own premises, from agreement with the chain after it. -/
theorem replayBlock_of_agrees (hst : c.Straight) (hok : (c.addBlock P now block).1 = .ok ())
    (hle : now ≤ later) (h : Agrees d (c.addBlock P now block).2)
    (hsnaps : ∀ e ≤ c.epochForHeight (c.height + 1),
      d.epochSnapshots[e]? = (c.addBlock P now block).2.epochSnapshots[e]?) :
    d.replayBlock P later c.latestBlock block c.replayState =
      .ok (c.addBlock P now block).2.replayState := by
  obtain ⟨s, ha⟩ := accepted_of_addBlock hok
  obtain ⟨hst', hblocks, -, hheight, hbh⟩ := hst.addBlock hok
  apply replayBlock_of_addBlock hok hle (h.config.trans ha.config) (h.slashed.trans ha.slashed)
  · rw [hbh]
    exact hsnaps
  · intro k hk
    rw [hbh] at hk
    have hmul : c.epochForHeight (c.height + 1) * c.genesisConfig.epochLen ≤ c.height + 1 :=
      Nat.div_mul_le_self _ _
    have hlt : k < c.blocks.length := by
      have hlen : c.height = c.blocks.length - 1 := rfl
      have hpos := hst.length_pos
      omega
    have hread := h.blocks k (by
      rw [ha.config, epochForHeight_congr ha.config, hheight]
      exact hk)
    rw [hread, hst'.blockAtHeight, hst.blockAtHeight, hblocks, List.getElem?_append_left hlt]

/-- The rebuild takes the snapshot of a boundary as `add_block` does. -/
theorem withBoundarySnapshot_eq (hg : d.genesisConfig = c.genesisConfig)
    (hs : d.slashedValidators = c.slashedValidators) (height : Nat) :
    { d with epochSnapshots := c.epochSnapshots }.withBoundarySnapshot height c.accounts =
      { d with epochSnapshots := (c.ensureEpochSnapshot height).epochSnapshots } := by
  have hepoch : ({ d with epochSnapshots := c.epochSnapshots } : Blockchain).epochForHeight height =
      c.epochForHeight height := epochForHeight_congr hg height
  have hsnap : ({ d with epochSnapshots := c.epochSnapshots } : Blockchain).snapshotForAccounts
      (c.epochForHeight height) c.accounts =
      c.snapshotForAccounts (c.epochForHeight height) c.accounts := by
    unfold snapshotForAccounts
    rw [hg, hs]
  unfold withBoundarySnapshot ensureEpochSnapshot createEpochSnapshotFromAccounts
  rw [hepoch, hsnap, hg]
  split
  · rfl
  · rfl

/-- **One more accepted block is recomputed too.** -/
theorem Recomputes.addBlock {genesisAccounts : ByteMap AccountState} {t : Int}
    (h : Recomputes P genesisAccounts t c) (hle : t ≤ now)
    (hok : (c.addBlock P now block).1 = .ok ()) :
    Recomputes P genesisAccounts now (c.addBlock P now block).2 := by
  obtain ⟨s, ha⟩ := accepted_of_addBlock hok
  obtain ⟨hst', hblocks, hgenesis, hheight, hbh⟩ := h.straight.addBlock hok
  have htail : (c.addBlock P now block).2.blocks.tail = c.blocks.tail ++ [block] := by
    rw [hblocks, h.straight.blocks_eq]
    rfl
  have hepoch : ∀ k, (c.addBlock P now block).2.epochForHeight k = c.epochForHeight k :=
    epochForHeight_congr ha.config
  refine ⟨hst', ?_, ?_, ?_⟩
  · intro e he
    rw [hepoch, hheight] at he
    rw [ha.snapshots, hbh]
    exact mem_ensureEpochSnapshot_next h.known he
  · intro d later hlater hagree hsnaps
    rw [hepoch, hheight] at hsnaps
    have hbefore := h.replay (hle.trans hlater) (hagree.before h.straight hok) (by
      intro e he
      rw [hsnaps e (he.trans (Nat.div_le_div_right (Nat.le_succ _)))]
      exact addBlock_epochSnapshots hok (h.known e he))
    rw [htail, hgenesis, replayBlocks_concat hbefore, h.straight.getLast]
    exact replayBlock_of_agrees h.straight hok hlater hagree hsnaps
  · intro d later hlater hagree hsnaps
    have hfirst : (c.addBlock P now block).2.snapshotForAccounts 0 genesisAccounts =
        c.snapshotForAccounts 0 genesisAccounts := by
      unfold snapshotForAccounts
      rw [ha.config, ha.slashed]
    rw [hfirst] at hsnaps
    have hbefore := h.rebuild (hle.trans hlater) (hagree.before h.straight hok) hsnaps
    rw [htail, hgenesis, rebuildBlocks_concat hbefore, h.straight.getLast, rebuildBlocks_cons]
    have hboundary : ({ d with epochSnapshots := c.epochSnapshots } :
        Blockchain).withBoundarySnapshot block.header.height c.replayState.state.accounts =
        { d with epochSnapshots := (c.addBlock P now block).2.epochSnapshots } := by
      rw [ha.snapshots]
      exact withBoundarySnapshot_eq (hagree.config.trans ha.config)
        (hagree.slashed.trans ha.slashed) _
    have hstep : ({ d with epochSnapshots := (c.addBlock P now block).2.epochSnapshots } :
        Blockchain).replayBlock P later c.latestBlock block c.replayState =
        .ok (c.addBlock P now block).2.replayState :=
      replayBlock_of_agrees h.straight hok hlater
        ⟨hagree.config, hagree.slashed, hagree.blocks⟩ (fun _ _ => rfl)
    rw [hboundary, hstep]
    rfl

/-! ## The rebuild as a whole -/

/-- Everything that executing the blocks determines. -/
structure SameState (c' c : Blockchain) : Prop where
  accounts : c'.accounts = c.accounts
  contracts : c'.contracts = c.contracts
  receipts : c'.receipts = c.receipts
  tokenRegistry : c'.tokenRegistry = c.tokenRegistry
  governance : c'.governance = c.governance
  validatorMissedEpochs : c'.validatorMissedEpochs = c.validatorMissedEpochs
  epochSnapshots : c'.epochSnapshots = c.epochSnapshots

theorem SameState.of_unindexed (h : c'.unindexed = c.unindexed) : SameState c' c := by
  have haccounts := congrArg Blockchain.accounts h
  have hcontracts := congrArg Blockchain.contracts h
  have hreceipts := congrArg Blockchain.receipts h
  have htokens := congrArg Blockchain.tokenRegistry h
  have hgov := congrArg Blockchain.governance h
  have hmissed := congrArg Blockchain.validatorMissedEpochs h
  have hsnaps := congrArg Blockchain.epochSnapshots h
  exact ⟨haccounts, hcontracts, hreceipts, htokens, hgov, hmissed, hsnaps⟩

theorem SameState.trans {c'' : Blockchain} (h : SameState c'' c') (h' : SameState c' c) :
    SameState c'' c :=
  ⟨h.accounts.trans h'.accounts, h.contracts.trans h'.contracts, h.receipts.trans h'.receipts,
    h.tokenRegistry.trans h'.tokenRegistry, h.governance.trans h'.governance,
    h.validatorMissedEpochs.trans h'.validatorMissedEpochs,
    h.epochSnapshots.trans h'.epochSnapshots⟩

/-- **A rebuild over the blocks of `c` recomputes `c`**, whatever state it started from. -/
theorem Recomputes.rebuildCanonicalState {genesisAccounts : ByteMap AccountState} {t : Int}
    (h : Recomputes P genesisAccounts t c) (hle : t ≤ now)
    (haccounts : accountsFromGenesis P c.genesisConfig = .ok genesisAccounts)
    (hg : d.genesisConfig = c.genesisConfig) (hs : d.slashedValidators = c.slashedValidators)
    (hst : d.Straight) (hblocks : d.blocks = c.blocks) :
    (d.rebuildCanonicalState P now).1 = .ok () ∧ SameState (d.rebuildCanonicalState P now).2 c := by
  set started : Blockchain :=
    { d with epochSnapshots := genesisSnapshots (d.snapshotForAccounts 0 genesisAccounts) }
    with hstarted
  set indexed := started.reindexBlocks P (c.genesis :: c.blocks.tail) with hindexed
  have hunindexed : indexed.unindexed = started.unindexed := reindexBlocks_unindexed _
  -- Filing the blocks touches the indexes only, so `Agrees` is a matter of `d` and `c`.
  have hagree : Agrees indexed c := by
    have hc := congrArg genesisConfig hunindexed
    have hsl := congrArg slashedValidators hunindexed
    refine ⟨Eq.trans hc hg, Eq.trans hsl hs, ?_⟩
    intro k _
    have hspine : indexed.spine = d.spine := (spine_congr hunindexed).trans rfl
    have hst' : indexed.Straight := by
      refine ⟨?_, ?_, ?_⟩
      · rw [show indexed.baseHeight = d.baseHeight from congrArg Spine.baseHeight hspine]
        exact hst.base
      · rw [show indexed.blocks = d.blocks from congrArg Spine.blocks hspine,
          show indexed.genesis = d.genesis from congrArg Spine.genesis hspine]
        exact hst.head
      · rw [show indexed.blocks = d.blocks from congrArg Spine.blocks hspine]
        exact hst.heights
    rw [hst'.blockAtHeight, h.straight.blockAtHeight,
      show indexed.blocks = d.blocks from congrArg Spine.blocks hspine, hblocks]
  have hsnaps : indexed.epochSnapshots =
      genesisSnapshots (c.snapshotForAccounts 0 genesisAccounts) := by
    have hfield := congrArg epochSnapshots hunindexed
    have hfirst : d.snapshotForAccounts 0 genesisAccounts =
        c.snapshotForAccounts 0 genesisAccounts := by
      unfold snapshotForAccounts
      rw [hg, hs]
    rw [← hfirst]
    exact hfield
  have hrun := h.rebuild hle hagree hsnaps
  have hiter : d.iterBlocks = c.genesis :: c.blocks.tail := by
    rw [hst.iterBlocks, hblocks]
    exact h.straight.blocks_eq
  rw [← hg] at haccounts
  unfold Blockchain.rebuildCanonicalState
  rw [haccounts]
  dsimp only
  rw [hiter, ← hstarted, ← hindexed]
  dsimp only
  rw [hrun]
  refine ⟨rfl, SameState.trans (SameState.of_unindexed rebuildReceiptIndexes_unindexed) ?_⟩
  exact ⟨rfl, rfl, rfl, rfl, rfl, rfl, rfl⟩

/-! ## The tree of a straight chain -/

/-- The tree holds the blocks of the cursor, under their hashes, and nothing else. -/
structure Filed (c : Blockchain) : Prop where
  filed : ∀ {b : Block}, b ∈ c.blocks → c.blockTree.get b.hash = some b
  only : ∀ {h : Bytes} {b : Block}, c.blockTree.get h = some b → h ∈ c.blocks.map Block.hash
  unfinalized : c.blockTree.finalizedHeight = 0
  linked : ∀ {k : Nat} {b b' : Block}, c.blocks[k]? = some b → c.blocks[k + 1]? = some b' →
    b'.header.prevHash = b.hash

theorem filed_genesis (h : fromGenesis P g = .ok c) : c.Filed := by
  unfold fromGenesis at h
  simp only [except_bind_eq_ok] at h
  obtain ⟨accounts, -, hc⟩ := h
  cases hc
  refine ⟨?_, ?_, rfl, ?_⟩
  · intro b hb
    rw [List.mem_singleton] at hb
    subst hb
    rw [BlockTree.get_fromGenesis, if_pos rfl]
  · intro h b hb
    rw [BlockTree.get_fromGenesis] at hb
    split at hb
    · next heq => simp [heq]
    · exact absurd hb (by simp)
  · intro k b b' _ hb'
    exact absurd hb' (by simp)

/-- A block with a hash of its own goes into the tree. -/
theorem get_insertIgnoringErrors {t : BlockTree} {parent : Block} {stake : Nat}
    (hnew : t.get block.hash = none) (hparent : t.get block.header.prevHash = some parent)
    (hheight : block.header.height = parent.header.height + 1) (hopen : t.finalizedHeight = 0)
    (h : Bytes) :
    (insertIgnoringErrors t block stake).get h = (if block.hash = h then some block else t.get h) ∧
      (insertIgnoringErrors t block stake).finalizedHeight = 0 := by
  have hmem : block.hash ∉ t.entries := by
    intro hmem
    rw [BlockTree.get, Std.ExtTreeMap.getElem?_eq_some_getElem hmem] at hnew
    exact absurd hnew (by simp)
  obtain ⟨entry, hentry, rfl⟩ := Option.map_eq_some_iff.mp hparent
  have hinsert : t.insert block stake = .ok
      ((t.attach block entry (U64.wrapAdd entry.cumulativeStakeWeight stake)).chooseTip block.hash
        (U64.wrapAdd entry.cumulativeStakeWeight stake)) := by
    unfold BlockTree.insert
    rw [if_neg hmem, if_neg (by omega), hentry]
    dsimp only
    rw [if_neg (not_not.mpr hheight), if_neg (by omega)]
  have hchoose : ∀ (t : BlockTree) (hash : Bytes) (weight : Nat),
      (t.chooseTip hash weight).1.entries = t.entries ∧
        (t.chooseTip hash weight).1.finalizedHeight = t.finalizedHeight := by
    intro t hash weight
    unfold BlockTree.chooseTip
    split
    · exact ⟨rfl, rfl⟩
    · exact ⟨rfl, rfl⟩
  unfold insertIgnoringErrors
  rw [hinsert]
  dsimp only
  obtain ⟨hentries, hfinal⟩ := hchoose
    (t.attach block entry (U64.wrapAdd entry.cumulativeStakeWeight stake)) block.hash
    (U64.wrapAdd entry.cumulativeStakeWeight stake)
  refine ⟨?_, hfinal.trans hopen⟩
  rw [← BlockTree.get_attach hentry h]
  unfold BlockTree.get
  rw [hentries]

theorem Filed.addBlock (h : c.Filed) (hst : c.Straight)
    (hok : (c.addBlock P now block).1 = .ok ()) (hnew : block.hash ∉ c.blocks.map Block.hash) :
    (c.addBlock P now block).2.Filed := by
  obtain ⟨hfollows, stake, hspine⟩ := addBlock_ok_spine hok
  have hblocks : (c.addBlock P now block).2.blocks = c.blocks ++ [block] :=
    congrArg Spine.blocks hspine
  have htree : (c.addBlock P now block).2.blockTree =
      insertIgnoringErrors c.blockTree block stake := congrArg Spine.blockTree hspine
  have hlatest : c.latestBlock ∈ c.blocks := List.mem_of_getElem? hst.latestBlock
  have hnone : c.blockTree.get block.hash = none := by
    cases hget : c.blockTree.get block.hash with
    | none => rfl
    | some b => exact absurd (h.only hget) hnew
  have hget := @get_insertIgnoringErrors block c.blockTree c.latestBlock stake hnone
    (by rw [hfollows.prevHash]; exact h.filed hlatest) hfollows.height h.unfinalized
  refine ⟨?_, ?_, ?_, ?_⟩
  · intro b hb
    rw [hblocks, List.mem_append, List.mem_singleton] at hb
    rw [htree, (hget b.hash).1]
    rcases hb with hb | rfl
    · rw [if_neg]
      · exact h.filed hb
      · intro heq
        exact hnew (List.mem_map.mpr ⟨b, hb, heq.symm⟩)
    · rw [if_pos rfl]
  · intro hash b hb
    rw [htree, (hget hash).1] at hb
    rw [hblocks, List.map_append, List.mem_append]
    split at hb
    · next heq => right; simp [heq]
    · exact .inl (h.only hb)
  · rw [htree]
    exact (hget []).2
  · intro k b b' hb hb'
    rw [hblocks] at hb hb'
    have hlen : k + 1 < c.blocks.length + 1 := by
      have hlt := (List.getElem?_eq_some_iff.mp hb').1
      simpa using hlt
    rw [List.getElem?_append_left (by omega)] at hb
    rcases Nat.lt_or_ge (k + 1) c.blocks.length with hk | hk
    · rw [List.getElem?_append_left hk] at hb'
      exact h.linked hb hb'
    · -- the new block follows the old tip
      rw [List.getElem?_append_right hk, List.getElem?_singleton, if_pos (by omega)] at hb'
      cases hb'
      have hk' : k = c.height := by
        unfold height blockCount
        omega
      rw [hk', hst.latestBlock] at hb
      cases hb
      exact hfollows.prevHash

/-- The walk of `replay_state_to_tip` from the block at height `k` finds the blocks up to it. -/
theorem Filed.lineageToGenesis (h : c.Filed) (hst : c.Straight)
    (hnodup : (c.blocks.map Block.hash).Nodup) {k fuel : Nat} {b : Block}
    (hb : c.blocks[k]? = some b) (hfuel : k < fuel) :
    c.lineageToGenesis fuel b.hash = .ok (c.blocks.take (k + 1)).reverse := by
  have hfirst : c.blocks[0]? = some c.genesis := by
    rw [← List.head?_eq_getElem?]
    exact hst.head
  induction k generalizing fuel b with
  | zero =>
    obtain ⟨fuel, rfl⟩ := Nat.exists_eq_succ_of_ne_zero (Nat.ne_of_gt hfuel)
    cases hfirst.symm.trans hb
    unfold Blockchain.lineageToGenesis
    rw [h.filed (List.mem_of_getElem? hfirst)]
    dsimp only
    rw [if_pos rfl, hst.blocks_eq]
    rfl
  | succ k ih =>
    obtain ⟨fuel, rfl⟩ := Nat.exists_eq_succ_of_ne_zero (Nat.ne_of_gt (Nat.zero_lt_of_lt hfuel))
    obtain ⟨p, hp⟩ : ∃ p, c.blocks[k]? = some p := by
      have hlt := (List.getElem?_eq_some_iff.mp hb).1
      exact ⟨_, List.getElem?_eq_getElem (by omega)⟩
    -- only the genesis has the genesis hash
    have hne : b.hash ≠ c.genesis.hash := by
      intro heq
      have hbh : (c.blocks.map Block.hash)[k + 1]? = some b.hash := by rw [List.getElem?_map, hb]; rfl
      have hgh : (c.blocks.map Block.hash)[0]? = some b.hash := by
        rw [List.getElem?_map, hfirst, heq]
        rfl
      have hidx := (List.getElem?_inj (List.getElem?_eq_some_iff.mp hgh).1 hnodup).mp
        (hgh.trans hbh.symm)
      exact absurd hidx (by omega)
    unfold Blockchain.lineageToGenesis
    rw [h.filed (List.mem_of_getElem? hb)]
    dsimp only
    have htake : c.blocks.take (k + 1 + 1) = c.blocks.take (k + 1) ++ [b] := by
      rw [List.take_add_one, hb]
      rfl
    rw [if_neg hne, h.linked hp hb, ih hp (by omega), htake]
    simp [Except.map]

/-! ## Runs -/

theorem offer_append (a b : List (Int × Block)) :
    offer P c (a ++ b) = offer P (offer P c a) b := List.foldl_append

theorem accepts_append {a b : List (Int × Block)} :
    Accepts P c (a ++ b) ↔ Accepts P c a ∧ Accepts P (offer P c a) b := by
  induction a generalizing c with
  | nil => simp [Accepts, offer]
  | cons call rest ih =>
    rw [List.cons_append, Accepts, Accepts, ih, and_assoc]
    rfl

/-- What later blocks keep of a straight chain. -/
structure Continues (c c' : Blockchain) : Prop where
  config : c'.genesisConfig = c.genesisConfig
  slashed : c'.slashedValidators = c.slashedValidators
  blocks : c.blocks <+: c'.blocks
  snapshots : ∀ e ∈ c.epochSnapshots, c'.epochSnapshots[e]? = c.epochSnapshots[e]?

theorem continues_offer {calls : List (Int × Block)} (h : c.Straight)
    (hok : c.Accepts P calls) : Continues c (offer P c calls) := by
  induction calls generalizing c with
  | nil => exact ⟨rfl, rfl, List.prefix_rfl, fun _ _ => rfl⟩
  | cons call rest ih =>
    obtain ⟨s, ha⟩ := accepted_of_addBlock hok.1
    obtain ⟨hst', hblocks, -, -, -⟩ := h.addBlock hok.1
    have hrest := ih hst' hok.2
    have hlookup : ∀ e ∈ c.epochSnapshots,
        (c.addBlock P call.1 call.2).2.epochSnapshots[e]? = c.epochSnapshots[e]? :=
      fun e he => addBlock_epochSnapshots hok.1 he
    refine ⟨hrest.config.trans ha.config, hrest.slashed.trans ha.slashed, ?_, ?_⟩
    · refine List.IsPrefix.trans ?_ hrest.blocks
      rw [hblocks]
      exact List.prefix_append _ _
    · intro e he
      rw [← hlookup e he]
      apply hrest.snapshots
      rw [Std.ExtTreeMap.mem_iff_isSome_getElem?, hlookup e he,
        ← Std.ExtTreeMap.mem_iff_isSome_getElem?]
      exact he

theorem Straight.offer {calls : List (Int × Block)} (h : c.Straight) (hok : c.Accepts P calls) :
    (Blockchain.offer P c calls).Straight ∧
      (Blockchain.offer P c calls).blocks = c.blocks ++ calls.map Prod.snd := by
  induction calls generalizing c with
  | nil => exact ⟨h, by simp [Blockchain.offer]⟩
  | cons call rest ih =>
    obtain ⟨hst', hblocks, -, -, -⟩ := h.addBlock hok.1
    obtain ⟨hst, hall⟩ := ih hst' hok.2
    refine ⟨hst, ?_⟩
    show (Blockchain.offer P (c.addBlock P call.1 call.2).2 rest).blocks = _
    rw [hall, hblocks, List.map_cons, List.append_assoc]
    rfl

/-- **A run of accepted blocks on a clock that does not go back is recomputed.** -/
theorem Recomputes.offer {genesisAccounts : ByteMap AccountState} {t : Int}
    {calls : List (Int × Block)} (h : Recomputes P genesisAccounts t c) (hok : c.Accepts P calls)
    (hclock : (t :: (calls.map Prod.fst ++ [now])).Pairwise (· ≤ ·)) :
    Recomputes P genesisAccounts now (Blockchain.offer P c calls) := by
  induction calls generalizing c t with
  | nil =>
    have hle : t ≤ now := by simpa using hclock
    exact h.mono hle
  | cons call rest ih =>
    rw [List.map_cons, List.cons_append, List.pairwise_cons] at hclock
    exact ih (h.addBlock (hclock.1 call.1 (by simp)) hok.1) hok.2 hclock.2

theorem Filed.offer {calls : List (Int × Block)} (h : c.Filed) (hst : c.Straight)
    (hok : c.Accepts P calls) (hnodup : ((Blockchain.offer P c calls).blocks.map Block.hash).Nodup) :
    (Blockchain.offer P c calls).Filed := by
  induction calls generalizing c with
  | nil => exact h
  | cons call rest ih =>
    obtain ⟨hst', hblocks, -, -, -⟩ := hst.addBlock hok.1
    refine ih (h.addBlock hst hok.1 ?_) hst' hok.2 hnodup
    have hpre := (continues_offer hst' hok.2).blocks
    have hnd : (((c.addBlock P call.1 call.2).2.blocks).map Block.hash).Nodup :=
      hnodup.sublist (hpre.sublist.map Block.hash)
    rw [hblocks, List.map_append, List.nodup_append] at hnd
    intro hmem
    exact hnd.2.2 _ hmem _ (by simp) rfl

theorem blocks_of_genesis (h : fromGenesis P g = .ok c) :
    c.blocks = [c.genesis] ∧ c.genesisConfig = g := by
  unfold fromGenesis at h
  simp only [except_bind_eq_ok] at h
  obtain ⟨accounts, -, hc⟩ := h
  cases hc
  exact ⟨rfl, rfl⟩

/-! ## The three loops -/

/-- A chain replays every block of its own cursor, as the chain that first had it at its tip. -/
theorem Continues.replayStateToTip {genesisAccounts : ByteMap AccountState} {t : Int}
    (hcont : Continues c c') (h : Recomputes P genesisAccounts t c) (hle : t ≤ now)
    (haccounts : accountsFromGenesis P c.genesisConfig = .ok genesisAccounts)
    (hst' : c'.Straight) (hfiled : c'.Filed) (hnodup : (c'.blocks.map Block.hash).Nodup) :
    c'.replayStateToTip P now c.latestBlock.hash = .ok c.execState := by
  have hread : ∀ k < c.blocks.length, c'.blocks[k]? = c.blocks[k]? := by
    intro k hk
    obtain ⟨rest, hrest⟩ := hcont.blocks
    rw [← hrest, List.getElem?_append_left hk]
  have hpos := h.straight.length_pos
  have hlen : c.height + 1 = c.blocks.length := by
    unfold height blockCount
    omega
  have hlast : c'.blocks[c.height]? = some c.latestBlock := by
    rw [hread _ (by omega)]
    exact h.straight.latestBlock
  have hlineage : c'.lineageToGenesis (c.height + 1) c.latestBlock.hash = .ok c.blocks.reverse := by
    rw [hfiled.lineageToGenesis hst' hnodup hlast (Nat.lt_succ_self _), hlen]
    obtain ⟨rest, hrest⟩ := hcont.blocks
    rw [← hrest, List.take_left]
  have hagree : Agrees c' c := by
    refine ⟨hcont.config, hcont.slashed, ?_⟩
    intro k hk
    have hmul : c.epochForHeight c.height * c.genesisConfig.epochLen ≤ c.height :=
      Nat.div_mul_le_self _ _
    rw [hst'.blockAtHeight, h.straight.blockAtHeight, hread k (by omega)]
  have hreplay := h.replay hle hagree fun e he => hcont.snapshots e (h.known e he)
  unfold Blockchain.replayStateToTip
  have hfuel : ((c'.blockTree.get c.latestBlock.hash).map fun b => b.header.height + 1).getD 1 =
      c.height + 1 := by
    rw [hfiled.filed (List.mem_of_getElem? hlast)]
    exact congrArg (· + 1) h.straight.latestBlock_height
  simp only [except_bind_eq_ok]
  refine ⟨c.blocks.reverse, by rw [hfuel]; exact hlineage, genesisAccounts,
    by rw [hcont.config]; exact haccounts, ?_⟩
  rw [List.reverse_reverse, h.straight.blocks_eq]
  simp only [except_bind_eq_ok]
  exact ⟨c.replayState, hreplay, rfl⟩

end Blockchain

/-- The first reading of a clock that does not go back is below all of them. -/
theorem pairwise_head_cons {l : List Int} (h : l.Pairwise (· ≤ ·)) (hne : l ≠ []) :
    (l.head hne :: l).Pairwise (· ≤ ·) := by
  cases l with
  | nil => exact absurd rfl hne
  | cons t rest =>
    rw [List.head_cons, List.pairwise_cons]
    refine ⟨?_, h⟩
    intro u hu
    rcases List.mem_cons.mp hu with rfl | hu
    · exact le_rfl
    · exact (List.pairwise_cons.mp h).1 u hu

namespace Scenario

theorem addBlock_of_extend {c c' : Blockchain} {now : Int} {producer : UInt8} {block : Block}
    (h : extend c now producer = some (block, c')) :
    c.addBlock Reference.primitives now block = (.ok (), c') := by
  unfold extend at h
  split at h
  · exact absurd h (by simp)
  · split at h
    · next hadd =>
      cases h
      exact hadd
    · exact absurd h (by simp)

/-- The blocks that producers build in turn, each at its own clock reading. -/
def script : Blockchain → List (Int × UInt8) → Option (List (Int × Block))
  | _, [] => some []
  | c, (now, producer) :: rest => do
    let (block, c') ← extend c now producer
    let calls ← script c' rest
    return (now, block) :: calls

theorem accepts_script {c : Blockchain} {steps : List (Int × UInt8)} {calls : List (Int × Block)}
    (h : script c steps = some calls) :
    c.Accepts Reference.primitives calls ∧ calls.map Prod.fst = steps.map Prod.fst := by
  induction steps generalizing c calls with
  | nil =>
    cases h
    exact ⟨trivial, rfl⟩
  | cons step rest ih =>
    obtain ⟨now, producer⟩ := step
    simp only [script, Option.bind_eq_bind, Option.bind_eq_some_iff] at h
    obtain ⟨⟨block, c'⟩, hextend, more, hmore, hcalls⟩ := h
    cases hcalls
    have hadd := addBlock_of_extend hextend
    obtain ⟨hok, htimes⟩ := ih hmore
    refine ⟨⟨by rw [hadd], ?_⟩, by simp [htimes]⟩
    rw [hadd]
    exact hok

end Scenario

namespace LinearSample

open Scenario

/-- One validator with two coins at stake, and epochs of two blocks. -/
def genesis : GenesisConfig where
  chainId := [1]
  minimumStake := 1
  epochLength := 2
  allocations := [allocation 1 0 2000000]

def steps : List (Int × UInt8) := [(clock 1, 1), (clock 2, 1), (clock 3, 1), (clock 4, 1)]

end LinearSample

end Curs3d
