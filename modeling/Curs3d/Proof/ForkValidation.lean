import Curs3d.Proof.CatchUp
import Curs3d.Proof.Convergence
import Curs3d.Proof.ForkErrors
import Curs3d.Proof.PrunedRestart
import Curs3d.Proof.Pruning
import Curs3d.Proof.Unanimity

/-!
# Validating a block on a fork

A node takes a block off its tip after a replay of the branch below it. The replay runs on what the
node holds: its own epoch snapshots, and the producers on its own canonical chain. A node that added
the branch block by block has the branch's. And where `add_block` settles an epoch before it
validates, the replay stops at the parent and the block is validated on a state that nobody settled.

So the two accept the same blocks when each slot of the branch has the validators the branch gives
it, each epoch of the branch is settled as the branch settles it, and the block itself ends no epoch
that moves an account (`Blockchain.fork_validation_agrees`).
-/

set_option autoImplicit false

namespace Curs3d

open Outcome Ancestry

/-! ## Who leads a slot -/

section SlotLeaders

variable {P : Primitives} {s s' : EpochSnapshot} {height : Nat} {parentHash : Bytes}

theorem slotLeaderWalk_congr (h : s'.validators = s.validators) (k n : Nat)
    (excluded : List Bytes) (last : Option Bytes) :
    slotLeaderWalk P s' height parentHash k n excluded last =
      slotLeaderWalk P s height parentHash k n excluded last := by
  induction n generalizing k excluded last with
  | zero => rfl
  | succ n ih =>
    have hleader : slotLeaderExcluding P s' height parentHash k excluded =
        slotLeaderExcluding P s height parentHash k excluded := by
      simp only [slotLeaderExcluding, h]
    simp only [slotLeaderWalk, hleader, ih]

/-- Only the validators of a snapshot decide who leads. -/
theorem slotLeaderAtRank_congr (h : s'.validators = s.validators) (rank : Nat) :
    slotLeaderAtRank P s' height parentHash rank = slotLeaderAtRank P s height parentHash rank := by
  simp only [slotLeaderAtRank, h, slotLeaderWalk_congr h]

end SlotLeaders

/-! ## A branch of the tree -/

namespace BlockTree

variable {t t' : BlockTree} {genesis top : Block} {blocks below : List Block} {fuel : Nat} {d : Bytes}

/-- The tree holds `blocks`, from the genesis up, each on top of the one before. -/
structure HasBranch (t : BlockTree) (genesis : Block) (blocks : List Block) : Prop where
  filed : ∀ b ∈ blocks, t.get b.hash = some b
  head : blocks.head? = some genesis
  linked : blocks.IsChain fun p b =>
    b.header.prevHash = p.hash ∧ b.header.height = p.header.height + 1

theorem HasBranch.init {p : Block} (h : t.HasBranch genesis (below ++ [p] ++ [top])) :
    t.HasBranch genesis (below ++ [p]) ∧ top.header.prevHash = p.hash ∧
      top.header.height = p.header.height + 1 := by
  obtain ⟨hinit, -, hlast⟩ := List.isChain_append.mp h.linked
  obtain ⟨hprev, hheight⟩ := hlast p (by simp) top (by simp)
  refine ⟨⟨fun b hb => h.filed b (List.mem_append_left _ hb), ?_, hinit⟩, hprev, hheight⟩
  rw [← h.head]
  exact (List.head?_append_of_ne_nil _ (by simp)).symm

theorem HasBranch.append (h : t.HasBranch genesis blocks) (hgrows : t.Grows t') {last : Block}
    (hlast : blocks.getLast? = some last) (htop : t'.get top.hash = some top)
    (hprev : top.header.prevHash = last.hash)
    (hheight : top.header.height = last.header.height + 1) :
    t'.HasBranch genesis (blocks ++ [top]) := by
  refine ⟨?_, ?_, ?_⟩
  · intro b hb
    rcases List.mem_append.mp hb with hb | hb
    · exact hgrows _ _ (h.filed b hb)
    · rw [List.mem_singleton.mp hb]
      exact htop
  · rw [List.head?_append, h.head]
    rfl
  · rw [List.isChain_append]
    refine ⟨h.linked, List.IsChain.singleton _, ?_⟩
    intro p hp b hb
    cases hlast.symm.trans hp
    cases hb
    exact ⟨hprev, hheight⟩

/-- The walk down a branch finds the branch. -/
theorem HasBranch.lineageFrom (h : t.HasBranch genesis (below ++ [top]))
    (hzero : genesis.header.height = 0) (hfuel : top.header.height < fuel) :
    (t.lineageFrom fuel top.hash).map Prod.snd = (below ++ [top]).reverse := by
  induction below using List.reverseRecOn generalizing top fuel with
  | nil =>
    obtain ⟨fuel, rfl⟩ := Nat.exists_eq_succ_of_ne_zero (Nat.ne_of_gt (Nat.zero_lt_of_lt hfuel))
    have htop : top = genesis := Option.some.inj h.head
    rw [BlockTree.lineageFrom, h.filed top (by simp)]
    dsimp only
    rw [if_pos (htop ▸ hzero)]
    rfl
  | append_singleton below p ih =>
    obtain ⟨fuel, rfl⟩ := Nat.exists_eq_succ_of_ne_zero (Nat.ne_of_gt (Nat.zero_lt_of_lt hfuel))
    obtain ⟨hinit, hprev, hheight⟩ := h.init
    have hrest : (t.lineageFrom fuel p.hash).map Prod.snd = (below ++ [p]).reverse :=
      ih hinit (by omega)
    rw [BlockTree.lineageFrom, h.filed top (by simp)]
    dsimp only
    rw [if_neg (by omega), hprev, List.map_cons, hrest]
    simp

theorem HasBranch.canonicalChain (h : t.HasBranch genesis (below ++ [top]))
    (hzero : genesis.header.height = 0) (htip : t.canonicalTip = top.hash) :
    t.canonicalChain = below ++ [top] := by
  have hget := h.filed top (by simp)
  have hwalk := h.lineageFrom hzero (Nat.lt_succ_self _)
  simp only [BlockTree.canonicalChain, lineage, htip, hget]
  rw [hwalk, List.reverse_reverse]

/-- A child of a block above the finalized one goes in. -/
theorem insert_above (hs : t.Sound genesis) {block parent : Block} {stake : Nat}
    (hparent : t.get block.header.prevHash = some parent)
    (hheight : block.header.height = parent.header.height + 1)
    (hfinal : Reaches t.ParentOf block.header.prevHash t.finalizedHash) :
    ∃ staged, t.insert block stake = .ok staged := by
  have hdesc := (isDescendantOf_iff hs.toLinked hparent).mpr hfinal
  have hlow : t.finalizedHeight < block.header.height := by
    obtain ⟨f, hf, hfheight⟩ := hs.finalized
    have hle := hfinal.rank_le hs.ranked
    rw [heightOf_eq hf, heightOf_eq hparent] at hle
    omega
  obtain ⟨entry, hentry, rfl⟩ := Option.map_eq_some_iff.mp hparent
  simp only [insert]
  split
  · exact ⟨_, rfl⟩
  · rw [if_neg (by omega), hentry]
    dsimp only
    rw [if_neg (not_not.mpr hheight), if_neg (by simp [hdesc])]
    exact ⟨_, rfl⟩

end BlockTree

namespace Blockchain

variable {P : Primitives} {g : GenesisConfig} {c c' d : Blockchain} {now later t : Int}
  {block : Block} {height : Nat} {calls : List (Int × Block)} {ops : List ForkOp}

/-- Both chains give the slot at `height` the same validators, on the same accounts. -/
def ElectsAs (d c : Blockchain) (accounts : ByteMap AccountState) (height : Nat) : Prop :=
  (d.snapshotForHeight accounts height).map EpochSnapshot.validators =
    (c.snapshotForHeight accounts height).map EpochSnapshot.validators

instance (d c : Blockchain) (accounts : ByteMap AccountState) (height : Nat) :
    Decidable (d.ElectsAs c accounts height) :=
  inferInstanceAs (Decidable (_ = _))

theorem ElectsAs.authorizeProposer {accounts : ByteMap AccountState}
    (h : d.ElectsAs c accounts height) (hg : d.genesisConfig = c.genesisConfig)
    (hs : d.slashedValidators = c.slashedValidators) (publicKey prevHash : Bytes)
    (parentTimestamp timestamp : Int) :
    d.authorizeProposer P accounts publicKey height prevHash parentTimestamp timestamp =
      c.authorizeProposer P accounts publicKey height prevHash parentTimestamp timestamp := by
  simp only [Blockchain.authorizeProposer, ensureValidatorIsAuthorizedAtRank, hg, hs]
  simp only [ElectsAs] at h
  cases hd : d.snapshotForHeight accounts height with
  | none =>
    rw [hd] at h
    cases hc : c.snapshotForHeight accounts height with
    | none => rfl
    | some s => simp [hc] at h
  | some s' =>
    rw [hd] at h
    cases hc : c.snapshotForHeight accounts height with
    | none => simp [hc] at h
    | some s =>
      have hvalidators : s'.validators = s.validators := by simpa [hc] using h
      simp only [Option.map_some, Option.getD_some, hvalidators,
        slotLeaderAtRank_congr hvalidators]

/-- Chains that elect the same validators validate alike. -/
theorem ElectsAs.validate {s : ExecState} (h : d.ElectsAs c s.accounts block.header.height)
    (hg : d.genesisConfig = c.genesisConfig) (hs : d.slashedValidators = c.slashedValidators)
    (parent : Block) :
    d.validateBlockAgainstState P now block parent s =
      c.validateBlockAgainstState P now block parent s := by
  simp only [validateBlockAgainstState, checkHeader_congr hg, txContext_congr hg,
    finishBlock_congr hg hs, hg, h.authorizeProposer hg hs]

/-! ## Replaying the branch -/

/-- The node settles the epoch that `height` ends as the branch does: it stores the validators of
the branch for it, and they produced alike on both chains. -/
def SettlesAs (P : Primitives) (d c : Blockchain) (height : Nat) : Prop :=
  ∀ epoch ∈ settlingEpoch c.genesisConfig height,
    (d.epochSnapshots[epoch]?).map EpochSnapshot.validators =
        (c.epochSnapshots[epoch]?).map EpochSnapshot.validators ∧
      ∀ snapshot ∈ c.epochSnapshots[epoch]?, ∀ v ∈ snapshot.validators,
        SettledAlike (d.proposerAddressesForSettlingEpoch P height)
          (c.proposerAddressesForSettlingEpoch P height) v

instance (d c : Blockchain) (height : Nat) : Decidable (d.SettlesAs P c height) :=
  inferInstanceAs (Decidable (∀ epoch ∈ settlingEpoch c.genesisConfig height, _ ∧
    ∀ snapshot ∈ c.epochSnapshots[epoch]?, ∀ v ∈ snapshot.validators, SettledAlike _ _ v))

theorem SettlesAs.settlement (h : d.SettlesAs P c height) (hg : d.genesisConfig = c.genesisConfig) :
    applyEpochSettlementForBlock d.genesisConfig height d.epochSnapshots
        (d.proposerAddressesForSettlingEpoch P height) c.accounts c.validatorMissedEpochs =
      c.settledAt P height := by
  have hproducers : applyEpochSettlementForBlock c.genesisConfig height c.epochSnapshots
      (d.proposerAddressesForSettlingEpoch P height) c.accounts c.validatorMissedEpochs =
        c.settledAt P height :=
    settlement_alike fun epoch he snapshot hs v hv => (h epoch he).2 snapshot hs v hv
  rw [hg, ← hproducers]
  simp only [applyEpochSettlementForBlock]
  cases he : settlingEpoch c.genesisConfig height with
  | none => rfl
  | some epoch =>
    have hvalidators := (h epoch he).1
    dsimp only
    cases hc : c.epochSnapshots[epoch]? with
    | none =>
      cases hd : d.epochSnapshots[epoch]? with
      | none => rfl
      | some s => simp [hc, hd] at hvalidators
    | some s =>
      cases hd : d.epochSnapshots[epoch]? with
      | none => simp [hc, hd] at hvalidators
      | some s' =>
        have hsame : s'.validators = s.validators := by simpa [hc, hd] using hvalidators
        simp only [computeEpochSettlement, hsame]

/-- What a replay on `d` of the block of the branch at `height` needs. -/
structure ReplaysAs (P : Primitives) (d c : Blockchain) (height : Nat) : Prop where
  settles : d.SettlesAs P c height
  elects : d.ElectsAs (c.ensureEpochSnapshot height) (c.settledAt P height).1 height

instance (d c : Blockchain) (height : Nat) : Decidable (d.ReplaysAs P c height) :=
  decidable_of_iff (d.SettlesAs P c height ∧
      d.ElectsAs (c.ensureEpochSnapshot height) (c.settledAt P height).1 height)
    ⟨fun h => ⟨h.1, h.2⟩, fun h => ⟨h.settles, h.elects⟩⟩

theorem ensureEpochSnapshot_fields : (c.ensureEpochSnapshot height).genesisConfig = c.genesisConfig ∧
    (c.ensureEpochSnapshot height).slashedValidators = c.slashedValidators := by
  simp only [ensureEpochSnapshot]
  split
  · exact ⟨rfl, rfl⟩
  · exact ⟨rfl, rfl⟩

/-- What `add_block` settles before it validates does not reach the snapshots. -/
theorem snapshotForHeight_prepared (accounts : ByteMap AccountState) :
    (c.prepareEpoch P height).snapshotForHeight accounts height =
      (c.ensureEpochSnapshot height).snapshotForHeight accounts height := by
  obtain ⟨hconfig, hslashed⟩ := @ensureEpochSnapshot_fields c height
  apply snapshotForHeight_congr
  · rw [prepareEpoch_genesisConfig, hconfig]
  · rw [prepareEpoch_eq, hslashed]
  · rw [prepareEpoch_eq]

/-- **One block of the replay is one `add_block` of the branch.** -/
theorem ReplaysAs.replayBlock (h : d.ReplaysAs P c block.header.height)
    (hok : (c.addBlock P t block).1 = .ok ()) (hle : t ≤ now)
    (hg : d.genesisConfig = c.genesisConfig) (hs : d.slashedValidators = c.slashedValidators) :
    d.replayBlock P now c.latestBlock block c.replayState =
      .ok (c.addBlock P t block).2.replayState := by
  obtain ⟨s, ha⟩ := accepted_of_addBlock hok
  have hsettled := h.settles.settlement hg
  have hvalid : d.validateBlockAgainstState P now block c.latestBlock
      { c.execState with accounts := (c.settledAt P block.header.height).1 } = .ok s := by
    refine validate_later hle ?_
    rw [← ha.valid]
    apply ElectsAs.validate
    · simp only [ElectsAs, snapshotForHeight_prepared]
      exact h.elects
    · rw [hg, prepareEpoch_genesisConfig]
    · rw [hs, prepareEpoch_eq]
  simp only [Blockchain.replayBlock, replayState]
  rw [show c.execState.accounts = c.accounts from rfl, hsettled, hvalid, ha.execState, ha.missed]
  rfl

/-- The node replays every block of the branch as the branch added it. -/
def ReplaysBranch (P : Primitives) (d : Blockchain) : Blockchain → List (Int × Block) → Prop
  | _, [] => True
  | c, call :: rest => d.ReplaysAs P c call.2.header.height ∧
      ReplaysBranch P d (c.addBlock P call.1 call.2).2 rest

instance decidableReplaysBranch (d : Blockchain) :
    ∀ (c : Blockchain) (calls : List (Int × Block)), Decidable (d.ReplaysBranch P c calls)
  | _, [] => inferInstanceAs (Decidable True)
  | c, call :: rest =>
    have := decidableReplaysBranch d (c.addBlock P call.1 call.2).2 rest
    inferInstanceAs (Decidable (d.ReplaysAs P c call.2.header.height ∧
      ReplaysBranch P d (c.addBlock P call.1 call.2).2 rest))

/-- A replay on `d` ends where the branch is. -/
def ReplaysTo (P : Primitives) (d : Blockchain) (now : Int)
    (genesisAccounts : ByteMap AccountState) (c : Blockchain) : Prop :=
  d.replayBlocks P now c.genesis c.blocks.tail (genesisReplay genesisAccounts) = .ok c.replayState

/-- **The replay of a branch ends in the state the branch has.** -/
theorem ReplaysTo.offer {genesisAccounts : ByteMap AccountState}
    (h : d.ReplaysTo P now genesisAccounts c) (hst : c.Straight) (hok : c.Accepts P calls)
    (hclock : ∀ call ∈ calls, call.1 ≤ now) (hg : d.genesisConfig = c.genesisConfig)
    (hs : d.slashedValidators = c.slashedValidators) (hreplays : d.ReplaysBranch P c calls) :
    d.ReplaysTo P now genesisAccounts (offer P c calls) := by
  induction calls generalizing c with
  | nil => exact h
  | cons call rest ih =>
    obtain ⟨hfirst, hrest⟩ := hok
    obtain ⟨hstep, hsteps⟩ := hreplays
    obtain ⟨s, ha⟩ := accepted_of_addBlock hfirst
    obtain ⟨hst', hblocks, hgenesis, -, -⟩ := hst.addBlock hfirst
    refine ih ?_ hst' hrest (fun call' hcall => hclock call' (List.mem_cons_of_mem _ hcall))
      (hg.trans ha.config.symm) (hs.trans ha.slashed.symm) hsteps
    have htail : (c.addBlock P call.1 call.2).2.blocks.tail = c.blocks.tail ++ [call.2] := by
      rw [hblocks, hst.blocks_eq]
      rfl
    rw [ReplaysTo, hgenesis, htail, replayBlocks_concat h, hst.getLast]
    exact hstep.replayBlock hfirst (hclock call List.mem_cons_self) hg hs

/-- The replay walks as the tree does. -/
theorem lineageToGenesis_eq (hl : c.blockTree.Linked c.genesis) {fuel : Nat} {hash : Bytes}
    {b : Block} (hget : c.blockTree.get hash = some b) (hfuel : b.header.height < fuel) :
    c.lineageToGenesis fuel hash = .ok ((c.blockTree.lineageFrom fuel hash).map Prod.snd) := by
  induction fuel generalizing hash b with
  | zero => exact absurd hfuel (Nat.not_lt_zero _)
  | succ fuel ih =>
    rw [lineageToGenesis, BlockTree.lineageFrom, hget]
    dsimp only
    by_cases hzero : b.header.height = 0
    · rw [if_pos (hl.root hget hzero), if_pos hzero]
      rfl
    · -- only the genesis is filed under its hash
      have hne : hash ≠ c.genesis.hash := by
        rintro rfl
        cases hget.symm.trans hl.genesis.1
        exact hzero hl.genesis.2
      obtain ⟨parent, hparent, hheight⟩ := hl.parent hget (Nat.pos_of_ne_zero hzero)
      rw [if_neg hne, if_neg hzero, ih hparent (by omega)]
      rfl

/-- **`replay_state_to_tip` at the tip of a branch** gives the state of the branch. -/
theorem ReplaysTo.replayStateToTip {genesisAccounts : ByteMap AccountState}
    (h : d.ReplaysTo P now genesisAccounts c) (hst : c.Straight)
    (haccounts : accountsFromGenesis P d.genesisConfig = .ok genesisAccounts)
    (hl : d.blockTree.Linked d.genesis) (hbranch : d.blockTree.HasBranch d.genesis c.blocks) :
    d.replayStateToTip P now c.latestBlock.hash = .ok c.execState := by
  obtain ⟨below, hblocks⟩ := List.getLast?_eq_some_iff.mp hst.getLast?
  rw [hblocks] at hbranch
  have hget := hbranch.filed c.latestBlock (by simp)
  have hwalk := hbranch.lineageFrom hl.genesis.2 (Nat.lt_succ_self _)
  simp only [Blockchain.replayStateToTip, hget, Option.map_some, Option.getD_some,
    lineageToGenesis_eq hl hget (Nat.lt_succ_self _), except_bind_eq_ok]
  refine ⟨_, rfl, genesisAccounts, haccounts, ?_⟩
  rw [hwalk, List.reverse_reverse, ← hblocks, hst.blocks_eq]
  simp only [except_bind_eq_ok]
  exact ⟨c.replayState, h, rfl⟩

/-! ## The node -/

theorem slashedValidators_reorg :
    (c.reorgToCanonicalTip P now).2.slashedValidators = c.slashedValidators := by
  simp only [reorgToCanonicalTip]
  split
  · rfl
  · exact slashedValidators_rebuildCanonicalState

theorem slashedValidators_forkChoice :
    (c.addBlockWithForkChoice P now block).2.slashedValidators = c.slashedValidators := by
  obtain h | h | ⟨tree, h | h⟩ := forkChoice_leaves P c now block
  · rw [h]
  · rw [h]
    exact (keeps_addBlock now block).slashed
  · rw [h]
  · rw [h]
    exact slashedValidators_reorg

/-- A chain that blocks and votes led to from `c₀`, whatever of them it took. -/
structure LedFrom (c₀ c : Blockchain) : Prop where
  config : c.genesisConfig = c₀.genesisConfig
  slashed : c.slashedValidators = c₀.slashedValidators
  unpruned : c.Unpruned
  anchored : ∃ history, Anchored c.spine c₀.genesis history

theorem LedFrom.attempt {c₀ : Blockchain} (h : LedFrom c₀ c) (op : ForkOp) :
    LedFrom c₀ (attempt P c op) := by
  obtain ⟨history, ha⟩ := h.anchored
  cases op with
  | addBlock now block =>
    refine ⟨addBlock_genesisConfig.trans h.config, (keeps_addBlock now block).slashed.trans h.slashed,
      ?_, history, anchored_addBlock ha now block⟩
    cases hok : (c.addBlock P now block).1 with
    | error e => exact h.unpruned.congr (addBlock_error_spine hok)
    | ok => exact (h.unpruned.addBlock hok).1
  | addBlockWithForkChoice now block =>
    exact ⟨(poolWithin_forkChoice now block).genesisConfig.trans h.config,
      slashedValidators_forkChoice.trans h.slashed, (h.unpruned.forkChoice now block).1, history,
      anchored_forkChoice ha now block⟩
  | addFinalityVote vote =>
    exact ⟨(poolWithin_addFinalityVote vote).genesisConfig.trans h.config,
      (slashedValidators_addFinalityVote vote).trans h.slashed, (h.unpruned.addFinalityVote vote).1,
      _, anchored_vote ha vote⟩

theorem LedFrom.attemptAll {c₀ : Blockchain} (h : LedFrom c₀ c) (ops : List ForkOp) :
    LedFrom c₀ (attemptAll P c ops) := by
  induction ops generalizing c with
  | nil => exact h
  | cons op rest ih => exact ih (h.attempt op)

/-! ## The block on top of the branch -/

theorem linked_offer (hst : c.Straight) (hok : c.Accepts P calls)
    (hlinked : c.blocks.IsChain fun p b =>
      b.header.prevHash = p.hash ∧ b.header.height = p.header.height + 1) :
    (offer P c calls).blocks.IsChain fun p b =>
      b.header.prevHash = p.hash ∧ b.header.height = p.header.height + 1 := by
  induction calls generalizing c with
  | nil => exact hlinked
  | cons call rest ih =>
    exact ih (hst.addBlock hok.1).1 hok.2 (linked_addBlock hst hok.1 hlinked)

/-- What the validation of a block at `height` on top of the branch `c` needs: the settlement that
the replay leaves out moves no account, and the node elects as the branch does. -/
structure ValidatesAs (P : Primitives) (d c : Blockchain) (height : Nat) : Prop where
  still : c.MovesNoAccount P height
  elects : d.ElectsAs (c.ensureEpochSnapshot height) c.accounts height

/-- On the state at the tip of the branch the node validates what `add_block` validates there. -/
theorem ValidatesAs.validate (h : d.ValidatesAs P c block.header.height)
    (hg : d.genesisConfig = c.genesisConfig) (hs : d.slashedValidators = c.slashedValidators) :
    (∃ s, d.validateBlockAgainstState P now block c.latestBlock c.execState = .ok s) ↔
      (c.addBlock P now block).1 = .ok () := by
  have hsettled : ({ c.execState with accounts := (c.settledAt P block.header.height).1 } : ExecState) =
      c.execState := by
    rw [settledAt_accounts_iff.mpr h.still]
    rfl
  rw [addBlock_ok_iff, hsettled]
  have hsame : d.validateBlockAgainstState P now block c.latestBlock c.execState =
      (c.prepareEpoch P block.header.height).validateBlockAgainstState P now block c.latestBlock
        c.execState := by
    apply ElectsAs.validate
    · simp only [ElectsAs, snapshotForHeight_prepared]
      exact h.elects
    · rw [hg, prepareEpoch_genesisConfig]
    · rw [hs, prepareEpoch_eq]
  rw [hsame]

/-- Finality is not past the point where the branch of `tip` leaves the chain: both descend from
the finalized block. -/
def FinalBelow (d : Blockchain) (tip : Bytes) : Prop :=
  0 < d.finalityTracker.finalizedHeight →
    d.blockTree.isDescendantOf tip d.finalityTracker.finalizedHash = true ∧
      d.blockTree.isDescendantOf d.latestBlock.hash d.finalityTracker.finalizedHash = true

instance (d : Blockchain) (tip : Bytes) : Decidable (d.FinalBelow tip) :=
  inferInstanceAs (Decidable (_ → _))

/-- The node `d` holds the branch `c` in its tree, above finality, and replays it. -/
structure HoldsBranch (P : Primitives) (now : Int) (genesisAccounts : ByteMap AccountState)
    (c₀ d c : Blockchain) : Prop where
  led : LedFrom c₀ d
  config : c.genesisConfig = c₀.genesisConfig
  slashed : c.slashedValidators = c₀.slashedValidators
  accounts : accountsFromGenesis P c₀.genesisConfig = .ok genesisAccounts
  branch : d.blockTree.HasBranch c₀.genesis c.blocks
  recomputed : Recomputes P genesisAccounts now c
  replays : d.ReplaysTo P now genesisAccounts c
  final : d.FinalBelow c.latestBlock.hash

namespace HoldsBranch

variable {c₀ : Blockchain} {genesisAccounts : ByteMap AccountState}

theorem filed (h : HoldsBranch P now genesisAccounts c₀ d c) :
    d.blockTree.get c.latestBlock.hash = some c.latestBlock :=
  h.branch.filed _ (List.mem_of_getElem? h.recomputed.straight.latestBlock)

theorem reaches_final (h : HoldsBranch P now genesisAccounts c₀ d c) :
    Reaches d.blockTree.ParentOf c.latestBlock.hash d.blockTree.finalizedHash := by
  obtain ⟨history, ha⟩ := h.led.anchored
  rcases Nat.eq_zero_or_pos d.finalityTracker.finalizedHeight with hzero | hpos
  · rw [show d.blockTree.finalizedHash = c₀.genesis.hash from ha.finalizedHash_of_zero hzero]
    exact ha.sound.reaches_genesis h.filed
  · rw [show d.blockTree.finalizedHash = d.finalityTracker.finalizedHash from ha.hash hpos]
    exact (BlockTree.isDescendantOf_iff ha.sound.toLinked h.filed).mp (h.final hpos).1

/-- **Staging.** The node stages what the branch accepts. -/
theorem stage_iff (h : HoldsBranch P now genesisAccounts c₀ d c)
    (hvalid : d.ValidatesAs P c block.header.height)
    (hprev : block.header.prevHash = c.latestBlock.hash) :
    (∃ staged, d.stageForkBlock P now block = .ok staged) ↔ (c.addBlock P now block).1 = .ok () := by
  obtain ⟨history, ha⟩ := h.led.anchored
  have hl : d.blockTree.Linked d.genesis := by
    rw [show d.genesis = c₀.genesis from ha.genesis]
    exact ha.sound.toLinked
  have hbranch : d.blockTree.HasBranch d.genesis c.blocks := by
    rw [show d.genesis = c₀.genesis from ha.genesis]
    exact h.branch
  have hreplay := h.replays.replayStateToTip h.recomputed.straight
    (by rw [h.led.config]; exact h.accounts) hl hbranch
  rw [← hvalid.validate (h.led.config.trans h.config.symm) (h.led.slashed.trans h.slashed.symm)]
  simp only [stageForkBlock, hprev, h.filed, hreplay, except_bind_eq_ok]
  constructor
  · rintro ⟨staged, _, hstate, s, hs, -⟩
    cases hstate
    exact ⟨s, hs⟩
  · rintro ⟨s, hs⟩
    obtain ⟨staged, hinsert⟩ : ∃ staged, d.blockTree.insert block (proposerStake P s block) = .ok staged := by
      refine BlockTree.insert_above ha.sound (hprev ▸ h.filed) (follows_of_validate hs).height ?_
      rw [hprev]
      exact h.reaches_final
    exact ⟨staged, _, rfl, s, hs, by rw [hinsert]⟩

/-- The guards of a reorganisation to a block on top of the branch let it pass. -/
theorem checkReorg (h : HoldsBranch P now genesisAccounts c₀ d c) {tree : BlockTree} {switched : Bool}
    (hstage : d.stageForkBlock P now block = .ok (tree, switched)) :
    { d with blockTree := tree }.checkReorg tree.canonicalChain = .ok () := by
  obtain ⟨stake, hinsert⟩ := insert_of_stage hstage
  obtain ⟨history, ha⟩ := h.led.anchored
  have hgrows := BlockTree.insert_grows hinsert
  rcases Nat.eq_zero_or_pos d.finalityTracker.finalizedHeight with hzero | hpos
  · simp only [Blockchain.checkReorg, hzero]
    rfl
  · have hdesc := (h.final hpos).2
    obtain ⟨old, hold⟩ := BlockTree.get_of_isDescendantOf hdesc
    apply checkReorg_of_sound (ha.insert hinsert) (hgrows _ _ hold)
    rw [(BlockTree.insert_finalized hinsert).1,
      show d.blockTree.finalizedHash = d.finalityTracker.finalizedHash from ha.hash hpos]
    exact hgrows.reaches ((BlockTree.isDescendantOf_iff ha.sound.toLinked hold).mp hdesc)

/-- **Switching.** The rebuild over the new branch recomputes what the branch has. -/
theorem reorg (h : HoldsBranch P now genesisAccounts c₀ d c)
    (hok : (c.addBlock P now block).1 = .ok ()) {tree : BlockTree}
    (hstage : d.stageForkBlock P now block = .ok (tree, true)) :
    ({ d with blockTree := tree }.reorgToCanonicalTip P now).1 = .ok () := by
  obtain ⟨stake, hinsert⟩ := insert_of_stage hstage
  obtain ⟨htip, hget⟩ := BlockTree.canonicalTip_of_switched hinsert
  obtain ⟨history, ha⟩ := h.led.anchored
  obtain ⟨hfollows, -⟩ := addBlock_ok_spine hok
  have hl : tree.Linked c₀.genesis := (ha.sound.insert hinsert).toLinked
  have hst := h.recomputed.straight
  have hbranch : tree.HasBranch c₀.genesis (c.blocks ++ [block]) :=
    h.branch.append (BlockTree.insert_grows hinsert) hst.getLast? hget hfollows.prevHash
      hfollows.height
  have hcanonical : tree.canonicalChain = c.blocks ++ [block] :=
    hbranch.canonicalChain hl.genesis.2 htip
  set moved := ({ d with blockTree := tree } : Blockchain).replaceAllBlocks tree.canonicalChain
    with hmoved
  have hroot : moved.genesis = c₀.genesis := by
    show tree.canonicalChain.head?.getD d.genesis = c₀.genesis
    rw [BlockTree.head?_canonicalChain hl (htip ▸ hget)]
    rfl
  have hstraight : moved.Straight := by
    refine straight_canonicalChain hl (htip ▸ hget) ?_ rfl hroot
    rw [show moved.baseHeight = d.baseHeight from rfl, h.led.unpruned.base]
    exact Nat.zero_le 1
  obtain ⟨s, hadded⟩ := accepted_of_addBlock hok
  have hrebuilt := (h.recomputed.addBlock le_rfl hok).rebuildCanonicalState (d := moved) le_rfl
    (by rw [hadded.config, h.config]; exact h.accounts)
    (h.led.config.trans (hadded.config.trans h.config).symm)
    (h.led.slashed.trans (hadded.slashed.trans h.slashed).symm) hstraight
    (hcanonical.trans (hst.addBlock hok).2.1.symm)
  simp only [reorgToCanonicalTip, h.checkReorg hstage]
  exact hrebuilt.1

/-- **The fork path accepts what the branch accepts.** -/
theorem forkChoice_iff (h : HoldsBranch P now genesisAccounts c₀ d c)
    (hvalid : d.ValidatesAs P c block.header.height)
    (hprev : block.header.prevHash = c.latestBlock.hash)
    (hother : block.header.prevHash ≠ d.latestBlock.hash) (hold : d.tooOld block = false) :
    (∃ switched, (d.addBlockWithForkChoice P now block).1 = .ok switched) ↔
      (c.addBlock P now block).1 = .ok () := by
  rw [← h.stage_iff hvalid hprev]
  simp only [addBlockWithForkChoice, hold, if_neg hother]
  cases hstage : d.stageForkBlock P now block with
  | error e => simp
  | ok staged =>
    obtain ⟨tree, switched⟩ := staged
    cases switched with
    | false => simp
    | true =>
      have hmoved := h.reorg ((h.stage_iff hvalid hprev).mp ⟨_, hstage⟩) hstage
      cases hres : { d with blockTree := tree }.reorgToCanonicalTip P now with
      | mk result left =>
        rw [hres] at hmoved
        cases hmoved
        refine iff_of_true ⟨true, ?_⟩ ⟨_, rfl⟩
        dsimp only
        rw [hres]
        rfl

end HoldsBranch

theorem holdsBranch_offer {c₀ : Blockchain} (hstart : fromGenesis P g = .ok c₀)
    (hok : c₀.Accepts P calls) (hclock : (calls.map Prod.fst ++ [now]).Pairwise (· ≤ ·))
    (hbranch : ∀ b ∈ (offer P c₀ calls).blocks, (attemptAll P c₀ ops).blockTree.get b.hash = some b)
    (hfinal : (attemptAll P c₀ ops).FinalBelow (offer P c₀ calls).latestBlock.hash)
    (hreplays : (attemptAll P c₀ ops).ReplaysBranch P c₀ calls) :
    ∃ accounts, HoldsBranch P now accounts c₀ (attemptAll P c₀ ops) (offer P c₀ calls) := by
  obtain ⟨accounts, haccounts, hgenesis⟩ :=
    recomputes_genesis hstart ((calls.map Prod.fst ++ [now]).head (by simp))
  obtain ⟨hblocks, hconfig⟩ := blocks_of_genesis hstart
  have hst := hgenesis.straight
  have hcont := continues_offer hst hok
  have hled : LedFrom c₀ c₀ :=
    ⟨rfl, rfl, (inStep_genesis hstart).unpruned, (inStep_genesis hstart).anchored⟩
  have hkept := hled.attemptAll (P := P) ops
  refine ⟨accounts, hkept, hcont.config, hcont.slashed, hconfig ▸ haccounts, ⟨hbranch, ?_, ?_⟩, ?_, ?_,
    hfinal⟩
  · rw [(hst.offer hok).2, hblocks]
    rfl
  · apply linked_offer hst hok
    rw [hblocks]
    exact List.IsChain.singleton _
  · exact hgenesis.offer hok (pairwise_head_cons hclock (by simp))
  · refine ReplaysTo.offer ?_ hst hok ?_ hkept.config hkept.slashed hreplays
    · have hnothing := hgenesis.replay le_rfl ⟨rfl, rfl, fun _ _ => rfl⟩ fun _ _ => rfl
      rw [hblocks] at hnothing
      rw [ReplaysTo, hblocks]
      exact hnothing
    · intro call hcall
      exact (List.pairwise_append.mp hclock).2.2 _ (List.mem_map_of_mem hcall) now (by simp)

end Blockchain

open Blockchain in
/-- **Fork validation agrees with linear validation.** A node took any blocks and votes; its tree
holds a branch that another chain accepted block by block, finality is not past the fork point, and
the fork is not too deep. It replays the branch as the branch was added, and the new block settles
nothing that moves an account. Then it accepts the block exactly if the other chain does. -/
theorem fork_validation_agrees {P : Primitives} {g : GenesisConfig} {c₀ : Blockchain} {now : Int}
    {calls : List (Int × Block)} {ops : List ForkOp} {block : Block}
    (hstart : fromGenesis P g = .ok c₀) (hok : c₀.Accepts P calls)
    (hclock : (calls.map Prod.fst ++ [now]).Pairwise (· ≤ ·))
    (hbranch : ∀ b ∈ (offer P c₀ calls).blocks, (attemptAll P c₀ ops).blockTree.get b.hash = some b)
    (hprev : block.header.prevHash = (offer P c₀ calls).latestBlock.hash)
    (hother : block.header.prevHash ≠ (attemptAll P c₀ ops).latestBlock.hash)
    (hold : (attemptAll P c₀ ops).tooOld block = false)
    (hfinal : (attemptAll P c₀ ops).FinalBelow (offer P c₀ calls).latestBlock.hash)
    (hreplays : (attemptAll P c₀ ops).ReplaysBranch P c₀ calls)
    (hvalid : (attemptAll P c₀ ops).ValidatesAs P (offer P c₀ calls) block.header.height) :
    (∃ switched, ((attemptAll P c₀ ops).addBlockWithForkChoice P now block).1 = .ok switched) ↔
      ((offer P c₀ calls).addBlock P now block).1 = .ok () := by
  obtain ⟨accounts, hholds⟩ := holdsBranch_offer hstart hok hclock hbranch hfinal hreplays
  exact hholds.forkChoice_iff hvalid hprev hother hold

namespace ForkValidationSample

open Scenario Blockchain

def added (calls : List (Int × Block)) : List ForkOp :=
  calls.map fun call => .addBlock call.1 call.2

/-- The blocks of a chain, and a rival of the last of them. -/
def rival (c₀ : Blockchain) (steps : List (Int × UInt8)) : Option (List (Int × Block) × Block) := do
  let calls ← script c₀ steps
  let (block, _) ← extend (offer Reference.primitives c₀ calls.dropLast) (clock 5) 1
  return (calls, block)

theorem accepts_rival {c₀ : Blockchain} {steps : List (Int × UInt8)} {calls : List (Int × Block)}
    {block : Block} (h : rival c₀ steps = some (calls, block)) :
    c₀.Accepts Reference.primitives calls.dropLast := by
  simp only [rival, Option.bind_eq_bind, Option.bind_eq_some_iff] at h
  obtain ⟨all, hscript, _, -, hpair⟩ := h
  cases hpair
  obtain ⟨last, hsplit⟩ := List.dropLast_prefix calls
  have hok := (accepts_script hscript).1
  rw [← hsplit] at hok
  exact (accepts_append.mp hok).1

end ForkValidationSample

open ForkValidationSample LinearSample Scenario Blockchain in
/-- A rival of block 3: the replay crosses a boundary, the rival is none, and both chains take it. -/
theorem fork_validation_agrees_sample : ∃ c₀ calls block,
    fromGenesis Reference.primitives genesis = .ok c₀ ∧
      rival c₀ (steps.take 3) = some (calls, block) ∧
      ((offer Reference.primitives c₀ calls.dropLast).addBlock Reference.primitives (clock 9) block).1 =
        .ok () ∧
      ∃ switched, ((attemptAll Reference.primitives c₀ (added calls)).addBlockWithForkChoice
        Reference.primitives (clock 9) block).1 = .ok switched := by
  have hrun : (fromGenesis Reference.primitives genesis).toOption.any (fun c₀ =>
      (rival c₀ (steps.take 3)).any fun e =>
        let node := attemptAll Reference.primitives c₀ (added e.1)
        let branch := offer Reference.primitives c₀ e.1.dropLast
        decide ((e.1.dropLast.map Prod.fst ++ [clock 9]).Pairwise (· ≤ ·) ∧
          (∀ b ∈ branch.blocks, node.blockTree.get b.hash = some b) ∧
          e.2.header.prevHash = branch.latestBlock.hash ∧
          e.2.header.prevHash ≠ node.latestBlock.hash ∧ node.tooOld e.2 = false ∧
          node.FinalBelow branch.latestBlock.hash ∧
          node.ReplaysBranch Reference.primitives c₀ e.1.dropLast ∧
          e.2.header.height % branch.genesisConfig.epochLen ≠ 0 ∧
          node.ElectsAs (branch.ensureEpochSnapshot e.2.header.height) branch.accounts
            e.2.header.height ∧
          (branch.addBlock Reference.primitives (clock 9) e.2).1 = .ok ())) = true := by
    decide +kernel
  obtain ⟨c₀, hstart, hrest⟩ := Outcome.ok_of_any hrun
  obtain ⟨⟨calls, block⟩, hrival, hrest⟩ := (Option.any_eq_true _ _).mp hrest
  rw [decide_eq_true_eq] at hrest
  obtain ⟨hclock, hbranch, hprev, hother, hold, hfinal, hreplays, hinside, helects, hadded⟩ := hrest
  refine ⟨c₀, calls, block, hstart, hrival, hadded, ?_⟩
  refine (fork_validation_agrees hstart (accepts_rival hrival) hclock hbranch hprev hother hold hfinal hreplays
    ⟨?_, helects⟩).mpr hadded
  intro epoch snapshot hs
  rw [settlingEpoch_of_not_boundary (.inr hinside)] at hs
  exact absurd hs (by simp)

open ForkValidationSample LinearSample Scenario Blockchain in
/-- A rival of block 4, which ends an epoch that pays a reward: the chain at block 3 takes it, and
the node at block 4 finds its state root wrong. -/
theorem fork_boundary_refused : ∃ c₀ calls block,
    fromGenesis Reference.primitives genesis = .ok c₀ ∧ rival c₀ steps = some (calls, block) ∧
      c₀.Accepts Reference.primitives calls.dropLast ∧
      (calls.dropLast.map Prod.fst ++ [clock 9]).Pairwise (· ≤ ·) ∧
      (∀ b ∈ (offer Reference.primitives c₀ calls.dropLast).blocks,
        (attemptAll Reference.primitives c₀ (added calls)).blockTree.get b.hash = some b) ∧
      block.header.prevHash = (offer Reference.primitives c₀ calls.dropLast).latestBlock.hash ∧
      block.header.prevHash ≠ (attemptAll Reference.primitives c₀ (added calls)).latestBlock.hash ∧
      (attemptAll Reference.primitives c₀ (added calls)).tooOld block = false ∧
      (attemptAll Reference.primitives c₀ (added calls)).FinalBelow
        (offer Reference.primitives c₀ calls.dropLast).latestBlock.hash ∧
      ((offer Reference.primitives c₀ calls.dropLast).addBlock Reference.primitives (clock 9) block).1 =
        .ok () ∧
      ((attemptAll Reference.primitives c₀ (added calls)).addBlockWithForkChoice
        Reference.primitives (clock 9) block).1 = .error .invalidStateRoot := by
  have hrun : (fromGenesis Reference.primitives genesis).toOption.any (fun c₀ =>
      (rival c₀ steps).any fun e =>
        let node := attemptAll Reference.primitives c₀ (added e.1)
        let branch := offer Reference.primitives c₀ e.1.dropLast
        decide ((e.1.dropLast.map Prod.fst ++ [clock 9]).Pairwise (· ≤ ·) ∧
          (∀ b ∈ branch.blocks, node.blockTree.get b.hash = some b) ∧
          e.2.header.prevHash = branch.latestBlock.hash ∧
          e.2.header.prevHash ≠ node.latestBlock.hash ∧ node.tooOld e.2 = false ∧
          node.FinalBelow branch.latestBlock.hash ∧
          (branch.addBlock Reference.primitives (clock 9) e.2).1 = .ok () ∧
          (node.addBlockWithForkChoice Reference.primitives (clock 9) e.2).1 =
            .error .invalidStateRoot)) = true := by
    decide +kernel
  obtain ⟨c₀, hstart, hrest⟩ := Outcome.ok_of_any hrun
  obtain ⟨⟨calls, block⟩, hrival, hrest⟩ := (Option.any_eq_true _ _).mp hrest
  rw [decide_eq_true_eq] at hrest
  exact ⟨c₀, calls, block, hstart, hrival, accepts_rival hrival, hrest⟩

end Curs3d
