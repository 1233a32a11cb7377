import Curs3d.Proof.PrunedRestart

/-!
# A rebuild that succeeded succeeds again

`rebuild_canonical_state` reads the blocks, the configuration, the slashed set and the clock, and nothing
of the state it replaces. A chain it has rebuilt is therefore one its blocks account for
(`recomputes_of_rebuild`), as a chain grown block by block is.

A boundary stores the snapshot of its own epoch only, and no later boundary is of that epoch, so the snapshots
a block was validated with are still the same at the end (`snapshots_rebuildBlocks`).
-/

set_option autoImplicit false

namespace Curs3d

open Outcome

namespace Blockchain

variable {P : Primitives} {c c' d : Blockchain} {now later : Int} {previous block : Block}
  {blocks : List Block} {r r' : ReplayState}

/-! ## One block -/

/-- A block replays the same on a chain that knows the same. -/
theorem replayBlock_again (hrun : c.replayBlock P now previous block r = .ok r') (hle : now ≤ later)
    (hg : d.genesisConfig = c.genesisConfig) (hs : d.slashedValidators = c.slashedValidators)
    (hsnaps : ∀ e ≤ c.epochForHeight block.header.height, d.epochSnapshots[e]? = c.epochSnapshots[e]?)
    (hread : ∀ k < c.epochForHeight block.header.height * c.genesisConfig.epochLen,
      d.blockAtHeight k = c.blockAtHeight k) :
    d.replayBlock P later previous block r = .ok r' := by
  have hsettled : applyEpochSettlementForBlock d.genesisConfig block.header.height d.epochSnapshots
      (d.proposerAddressesForSettlingEpoch P block.header.height) r.state.accounts r.missed =
      applyEpochSettlementForBlock c.genesisConfig block.header.height c.epochSnapshots
        (c.proposerAddressesForSettlingEpoch P block.header.height) r.state.accounts r.missed := by
    rw [hg, proposers_congr hg hread]
    apply settlement_congr
    intro e he
    exact hsnaps e (Nat.le_of_lt he)
  simp only [replayBlock] at hrun ⊢
  rw [hsettled]
  split at hrun
  · cases hrun
  next s hvalid =>
  cases hrun
  have hagain := validate_later hle hvalid
  rw [← validate_congr hg hs (hsnaps _ le_rfl)] at hagain
  rw [hagain]

theorem height_of_replayBlock (hrun : c.replayBlock P now previous block r = .ok r') :
    block.header.height = previous.header.height + 1 := by
  simp only [replayBlock] at hrun
  split at hrun
  · cases hrun
  · next hvalid => exact (follows_of_validate hvalid).height

/-- A rebuild that went through, one block at a time. -/
theorem rebuildBlocks_cons_ok
    (hrun : rebuildBlocks P now c previous (block :: blocks) r = (.ok r', c')) :
    ∃ r₁, (c.withBoundarySnapshot block.header.height r.state.accounts).replayBlock P now previous block r =
        .ok r₁ ∧
      rebuildBlocks P now (c.withBoundarySnapshot block.header.height r.state.accounts) block blocks r₁ =
        (.ok r', c') := by
  rw [rebuildBlocks_cons] at hrun
  split at hrun
  · cases hrun
  · next r₁ hreplay => exact ⟨r₁, hreplay, hrun⟩

/-! ## The snapshots -/

theorem withBoundarySnapshot_fields (height : Nat) (accounts : ByteMap AccountState) :
    (c.withBoundarySnapshot height accounts).genesisConfig = c.genesisConfig ∧
      (c.withBoundarySnapshot height accounts).slashedValidators = c.slashedValidators := by
  simp only [withBoundarySnapshot]
  split
  · exact ⟨rfl, rfl⟩
  · exact ⟨rfl, rfl⟩

/-- A boundary above `height` stores no snapshot of an epoch up to that of `height`. -/
theorem snapshots_withBoundarySnapshot {height boundary e : Nat} (accounts : ByteMap AccountState)
    (hlt : height < boundary) (he : e ≤ c.epochForHeight height) :
    (c.withBoundarySnapshot boundary accounts).epochSnapshots[e]? = c.epochSnapshots[e]? := by
  simp only [withBoundarySnapshot]
  split
  · next hboundary =>
    apply KeyMap.getElem?_insert_ne
    have hlen := epochLen_pos c.genesisConfig
    have hfirst : c.epochForHeight boundary * c.genesisConfig.epochLen = boundary :=
      Nat.div_mul_cancel (Nat.dvd_of_mod_eq_zero hboundary.2.1)
    have hepoch : c.epochForHeight height < c.epochForHeight boundary :=
      (Nat.div_lt_iff_lt_mul hlen).mpr (by rw [hfirst]; exact hlt)
    omega
  · rfl

theorem snapshots_rebuildBlocks
    (hrun : rebuildBlocks P now c previous blocks r = (.ok r', c')) {e : Nat}
    (he : e ≤ c.epochForHeight previous.header.height) :
    c'.epochSnapshots[e]? = c.epochSnapshots[e]? := by
  induction blocks generalizing c previous r with
  | nil =>
    cases hrun
    rfl
  | cons block rest ih =>
    obtain ⟨r₁, hreplay, hrest⟩ := rebuildBlocks_cons_ok hrun
    have hnext := height_of_replayBlock hreplay
    have hconfig := (@withBoundarySnapshot_fields c block.header.height r.state.accounts).1
    have hmono : c.epochForHeight previous.header.height ≤ c.epochForHeight block.header.height := by
      apply Nat.div_le_div_right
      omega
    rw [ih hrest (by rw [epochForHeight_congr hconfig]; exact he.trans hmono)]
    exact snapshots_withBoundarySnapshot _ (by omega) he

/-- At the end every epoch entered has its snapshot. -/
theorem known_rebuildBlocks (hrun : rebuildBlocks P now c previous blocks r = (.ok r', c'))
    (hknown : ∀ e ≤ c.epochForHeight previous.header.height, e ∈ c.epochSnapshots) :
    ∀ e ≤ c.epochForHeight (previous.header.height + blocks.length), e ∈ c'.epochSnapshots := by
  induction blocks generalizing c previous r with
  | nil =>
    cases hrun
    exact hknown
  | cons block rest ih =>
    obtain ⟨r₁, hreplay, hrest⟩ := rebuildBlocks_cons_ok hrun
    have hnext := height_of_replayBlock hreplay
    have hconfig := (@withBoundarySnapshot_fields c block.header.height r.state.accounts).1
    have hall := ih hrest
    rw [epochForHeight_congr hconfig, epochForHeight_congr hconfig, hnext] at hall
    have hlength : previous.header.height + (block :: rest).length =
        previous.header.height + 1 + rest.length := by
      rw [List.length_cons]
      omega
    rw [hlength]
    apply hall
    intro e he
    simp only [withBoundarySnapshot]
    by_cases hold : e ≤ c.epochForHeight previous.header.height
    · split
      · exact Std.ExtTreeMap.mem_insert.mpr (.inr (hknown e hold))
      · exact hknown e hold
    · -- the block is the first of its epoch
      obtain ⟨hmod, rfl⟩ := boundary_of_epoch he hold
      split
      · exact Std.ExtTreeMap.mem_insert_self
      · next hstored =>
        by_contra hmissing
        exact hstored ⟨Nat.succ_pos _, hmod, hmissing⟩

/-! ## All blocks -/

/-- What `d` must know of `c` to replay `blocks` as `c` does. -/
structure Informed (d c : Blockchain) (blocks : List Block) : Prop where
  config : d.genesisConfig = c.genesisConfig
  slashed : d.slashedValidators = c.slashedValidators
  read : ∀ b ∈ blocks, ∀ k < c.epochForHeight b.header.height * c.genesisConfig.epochLen,
    d.blockAtHeight k = c.blockAtHeight k

theorem blockAtHeight_withBoundarySnapshot (height : Nat) (accounts : ByteMap AccountState) (k : Nat) :
    (c.withBoundarySnapshot height accounts).blockAtHeight k = c.blockAtHeight k := by
  simp only [withBoundarySnapshot]
  split <;> rfl

theorem Informed.next (h : Informed d c (block :: blocks)) (accounts : ByteMap AccountState) :
    Informed d (c.withBoundarySnapshot block.header.height accounts) blocks := by
  obtain ⟨hconfig, hslashed⟩ := @withBoundarySnapshot_fields c block.header.height accounts
  refine ⟨h.config.trans hconfig.symm, h.slashed.trans hslashed.symm, ?_⟩
  intro b hb k hk
  rw [epochForHeight_congr hconfig, hconfig] at hk
  rw [h.read b (List.mem_cons_of_mem _ hb) k hk, blockAtHeight_withBoundarySnapshot]

/-- The step on a chain that knows the snapshots up to the block's epoch. -/
theorem Informed.replayBlock (h : Informed d c (block :: blocks)) (hle : now ≤ later)
    {accounts : ByteMap AccountState}
    (hreplay : (c.withBoundarySnapshot block.header.height accounts).replayBlock P now previous block r =
      .ok r')
    (hsnaps : ∀ e ≤ c.epochForHeight block.header.height,
      d.epochSnapshots[e]? = (c.withBoundarySnapshot block.header.height accounts).epochSnapshots[e]?) :
    d.replayBlock P later previous block r = .ok r' := by
  obtain ⟨hconfig, hslashed⟩ := @withBoundarySnapshot_fields c block.header.height accounts
  apply replayBlock_again hreplay hle (h.config.trans hconfig.symm) (h.slashed.trans hslashed.symm)
  · rw [epochForHeight_congr hconfig]
    exact hsnaps
  · intro k hk
    rw [epochForHeight_congr hconfig, hconfig] at hk
    rw [h.read block (by simp) k hk, blockAtHeight_withBoundarySnapshot]

theorem rebuildBlocks_again (hrun : rebuildBlocks P now c previous blocks r = (.ok r', c'))
    (hle : now ≤ later) (h : Informed d c blocks) :
    rebuildBlocks P later { d with epochSnapshots := c.epochSnapshots } previous blocks r =
      (.ok r', { d with epochSnapshots := c'.epochSnapshots }) := by
  induction blocks generalizing c previous r with
  | nil =>
    cases hrun
    rfl
  | cons block rest ih =>
    obtain ⟨r₁, hreplay, hrest⟩ := rebuildBlocks_cons_ok hrun
    have hboundary : ({ d with epochSnapshots := c.epochSnapshots } :
        Blockchain).withBoundarySnapshot block.header.height r.state.accounts =
        { d with
          epochSnapshots := (c.withBoundarySnapshot block.header.height r.state.accounts).epochSnapshots } := by
      have hepoch : ({ d with epochSnapshots := c.epochSnapshots } : Blockchain).epochForHeight
          block.header.height = c.epochForHeight block.header.height := epochForHeight_congr h.config _
      have hsnap : ({ d with epochSnapshots := c.epochSnapshots } : Blockchain).snapshotForAccounts
          (c.epochForHeight block.header.height) r.state.accounts =
          c.snapshotForAccounts (c.epochForHeight block.header.height) r.state.accounts := by
        simp only [snapshotForAccounts, h.config, h.slashed]
      simp only [withBoundarySnapshot, createEpochSnapshotFromAccounts]
      rw [hepoch, hsnap, h.config]
      split
      · rfl
      · rfl
    have hinformed : Informed { d with
        epochSnapshots := (c.withBoundarySnapshot block.header.height r.state.accounts).epochSnapshots }
        c (block :: rest) := ⟨h.config, h.slashed, h.read⟩
    rw [rebuildBlocks_cons, hboundary, hinformed.replayBlock hle hreplay fun _ _ => rfl]
    exact ih hrest (h.next _)

/-- A plain replay, with the snapshots the rebuild ended with. -/
theorem replayBlocks_again (hrun : rebuildBlocks P now c previous blocks r = (.ok r', c'))
    (hle : now ≤ later) (h : Informed d c blocks)
    (hsnaps : ∀ e ≤ c.epochForHeight (previous.header.height + blocks.length),
      d.epochSnapshots[e]? = c'.epochSnapshots[e]?) :
    d.replayBlocks P later previous blocks r = .ok r' := by
  induction blocks generalizing c previous r with
  | nil =>
    cases hrun
    rfl
  | cons block rest ih =>
    obtain ⟨r₁, hreplay, hrest⟩ := rebuildBlocks_cons_ok hrun
    have hnext := height_of_replayBlock hreplay
    have hconfig := (@withBoundarySnapshot_fields c block.header.height r.state.accounts).1
    have hlength : previous.header.height + (block :: rest).length =
        block.header.height + rest.length := by
      rw [List.length_cons]
      omega
    rw [hlength] at hsnaps
    have hstep : d.replayBlock P later previous block r = .ok r₁ := by
      apply h.replayBlock hle hreplay
      intro e he
      have hlater : c.epochForHeight block.header.height ≤
          c.epochForHeight (block.header.height + rest.length) :=
        Nat.div_le_div_right (Nat.le_add_right _ _)
      rw [hsnaps e (he.trans hlater)]
      exact snapshots_rebuildBlocks hrest (by rw [epochForHeight_congr hconfig]; exact he)
    simp only [replayBlocks]
    rw [hstep]
    apply ih hrest (h.next _)
    rw [epochForHeight_congr hconfig]
    exact hsnaps

/-- What agrees with a straight chain can tell the producers of its blocks. -/
theorem Agrees.informed (hd : Agrees d c') (hst' : c'.Straight) (hst : c.Straight)
    (hblocks : c.blocks = c'.blocks) (hconfig : c.genesisConfig = c'.genesisConfig)
    (hslashed : c.slashedValidators = c'.slashedValidators) : Informed d c c.blocks.tail := by
  refine ⟨hd.config.trans hconfig.symm, hd.slashed.trans hslashed.symm, ?_⟩
  intro b hb k hk
  obtain ⟨j, hj⟩ := List.getElem?_of_mem (List.mem_of_mem_tail hb)
  have hle : b.header.height ≤ c'.height := by
    rw [hst.heights hj]
    have hlt := (List.getElem?_eq_some_iff.mp hj).1
    rw [hblocks] at hlt
    exact Nat.le_sub_one_of_lt hlt
  have hbound : k < c'.epochForHeight c'.height * c'.genesisConfig.epochLen := by
    rw [epochForHeight_congr hconfig, hconfig] at hk
    exact lt_of_lt_of_le hk (Nat.mul_le_mul_right _ (Nat.div_le_div_right hle))
  rw [hd.blocks k hbound, hst'.blockAtHeight, hst.blockAtHeight, hblocks]

/-- **A chain just rebuilt is one its blocks account for.** -/
theorem recomputes_of_rebuild {accounts : ByteMap AccountState} (hst : c.Straight)
    (haccounts : accountsFromGenesis P c.genesisConfig = .ok accounts)
    (hrun : c.rebuildCanonicalState P now = (.ok (), c')) : Recomputes P accounts now c' := by
  obtain ⟨hspine, hconfig', hslashed'⟩ := kept_of_rebuild hrun
  have hst' : c'.Straight := hst.of_spine hspine
  have hblocks' : c'.blocks = c.blocks := congrArg Spine.blocks hspine
  have hgenesis' : c'.genesis = c.genesis := congrArg Spine.genesis hspine
  set started : Blockchain :=
    { c with epochSnapshots := genesisSnapshots (c.snapshotForAccounts 0 accounts) } with hstarted
  set indexed := started.reindexBlocks P c.iterBlocks with hindexed
  have hunindexed : indexed.unindexed = started.unindexed := reindexBlocks_unindexed _
  have hconfig := congrArg genesisConfig hunindexed
  have hslashed := congrArg slashedValidators hunindexed
  have hsnapshots := congrArg epochSnapshots hunindexed
  change indexed.genesisConfig = c.genesisConfig at hconfig
  change indexed.slashedValidators = c.slashedValidators at hslashed
  change indexed.epochSnapshots = genesisSnapshots (c.snapshotForAccounts 0 accounts) at hsnapshots
  have hcursor : indexed.blocks = c.blocks := congrArg Spine.blocks (spine_congr hunindexed)
  have hindexed' : indexed.Straight := hst.of_spine ((spine_congr hunindexed).trans rfl)
  -- the run over the blocks is the part of the rebuild that can fail
  simp only [Blockchain.rebuildCanonicalState, haccounts] at hrun
  rw [← hstarted, ← hindexed, hst.iterBlocks, hst.blocks_eq] at hrun
  dsimp only at hrun
  split at hrun
  · cases hrun
  next r c₁ hrebuild =>
  have hsame : SameState c' { c₁ with
      accounts := r.state.accounts
      contracts := r.state.contracts
      receipts := r.state.receipts
      tokenRegistry := r.state.tokenRegistry
      governance := r.state.governance
      validatorMissedEpochs := r.missed } := by
    cases hrun
    exact SameState.of_unindexed rebuildReceiptIndexes_unindexed
  have hreplay : c'.replayState = r := by
    simp only [replayState, execState, hsame.accounts, hsame.contracts, hsame.receipts,
      hsame.tokenRegistry, hsame.governance, hsame.validatorMissedEpochs]
  have hzero : c.genesis.header.height = 0 := by
    have hhead := hst.head
    rw [List.head?_eq_getElem?] at hhead
    exact hst.heights hhead
  have hheight : c.genesis.header.height + c.blocks.tail.length = c'.height := by
    rw [hzero, List.length_tail, Nat.zero_add, ← hblocks']
    rfl
  have hepoch : ∀ k, indexed.epochForHeight k = c'.epochForHeight k :=
    epochForHeight_congr (hconfig.trans hconfig'.symm)
  have hinformed : ∀ {d : Blockchain}, Agrees d c' → Informed d indexed c.blocks.tail := by
    intro d hd
    rw [← hcursor]
    exact hd.informed hst' hindexed' (hcursor.trans hblocks'.symm) (hconfig.trans hconfig'.symm)
      (hslashed.trans hslashed'.symm)
  refine ⟨hst', ?_, ?_, ?_⟩
  · have hknown := known_rebuildBlocks hrebuild (by
      intro e he
      rw [hzero] at he
      have hfirst : e = 0 := by simpa [epochForHeight] using he
      rw [hsnapshots, hfirst]
      exact Std.ExtTreeMap.mem_insert_self)
    rw [hheight] at hknown
    intro e he
    rw [hsame.epochSnapshots]
    exact hknown e (by rw [hepoch]; exact he)
  · intro d later hlater hagree hsnaps
    rw [hgenesis', hblocks', hreplay]
    apply replayBlocks_again hrebuild hlater (hinformed hagree)
    intro e he
    rw [hheight, hepoch] at he
    rw [hsnaps e he, hsame.epochSnapshots]
  · intro d later hlater hagree hsnaps
    have hfirst : c'.snapshotForAccounts 0 accounts = c.snapshotForAccounts 0 accounts := by
      simp only [snapshotForAccounts, hconfig', hslashed']
    rw [hfirst, ← hsnapshots] at hsnaps
    have hagain := rebuildBlocks_again hrebuild hlater (hinformed hagree)
    rw [← hsnaps] at hagain
    rw [hgenesis', hblocks', hreplay, hsame.epochSnapshots]
    exact hagain

end Blockchain

end Curs3d
