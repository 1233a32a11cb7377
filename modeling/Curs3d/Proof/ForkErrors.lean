import Curs3d.Chain.Mempool
import Curs3d.Proof.Rejected
import Curs3d.Proof.Tree
import Curs3d.Proof.Validate
import Curs3d.Proof.FinalityChain
import Curs3d.Proof.Pool

/-!
# What an error of the fork path leaves behind

`add_block_with_fork_choice` can fail in four places: before it looks at anything, inside
`add_block` for a child of the tip, while staging a block off the tip, and in the reorganisation
that a staged block sets off. The first and the third leave the chain as it was. The second leaves
what `add_block` had prepared. The fourth comes after the tree has taken the new tip, so it always
leaves a trace.
-/

set_option autoImplicit false

namespace Curs3d

open U64 Outcome

/-! ## Settlements that move no account -/

section Accounts

variable {accounts : ByteMap AccountState} {penalty : ValidatorPenalty}

/-- The entry a penalty cannot move. -/
def Unstaked (a : Option AccountState) : Prop := a.map AccountState.stakedBalance = some 0

theorem getElem?_deductPenalty (accounts : ByteMap AccountState) (penalty : ValidatorPenalty)
    (addr : Bytes) :
    (deductPenalty accounts penalty)[addr]? =
      if penalty.address = addr then
        some { accounts[penalty.address]?.getD {} with
          stakedBalance := (accounts[penalty.address]?.getD {}).stakedBalance - penalty.amount }
      else accounts[addr]? :=
  KeyMap.getElem?_upsert accounts penalty.address addr {} _

theorem deductPenalty_of_unstaked (h : Unstaked accounts[penalty.address]?) :
    deductPenalty accounts penalty = accounts := by
  obtain ⟨a, ha, hstake⟩ := Option.map_eq_some_iff.mp h
  refine KeyMap.insert_eq_self ?_
  dsimp only
  rw [ha, Option.getD_some, hstake, Nat.zero_sub, ← hstake]

/-- A penalty makes an entry or leaves its balance. -/
theorem balanceRank_le_deduct (addr : Bytes) :
    balanceRank accounts[addr]? ≤ balanceRank (deductPenalty accounts penalty)[addr]? := by
  rw [getElem?_deductPenalty]
  split
  · next haddr =>
    subst haddr
    cases accounts[penalty.address]? with
    | none => exact Nat.zero_le _
    | some a => exact le_rfl
  · exact le_rfl

theorem balanceRank_le_penalties (penalties : List ValidatorPenalty) (addr : Bytes) :
    balanceRank accounts[addr]? ≤ balanceRank (penalties.foldl deductPenalty accounts)[addr]? := by
  induction penalties generalizing accounts with
  | nil => exact le_rfl
  | cons p ps ih => exact (balanceRank_le_deduct addr).trans ih

/-- How far a penalty can still push an entry down: an absent one further than any stake. -/
def stakeRank (a : Option AccountState) : WithTop Nat :=
  a.elim ⊤ fun a => WithTop.some a.stakedBalance

theorem stakeRank_deduct_le (addr : Bytes) :
    stakeRank (deductPenalty accounts penalty)[addr]? ≤ stakeRank accounts[addr]? := by
  rw [getElem?_deductPenalty]
  split
  · next haddr =>
    subst haddr
    cases accounts[penalty.address]? with
    | none => exact le_top
    | some a => exact WithTop.coe_le_coe.mpr (Nat.sub_le _ _)
  · exact le_rfl

theorem stakeRank_penalties_le (penalties : List ValidatorPenalty) (addr : Bytes) :
    stakeRank (penalties.foldl deductPenalty accounts)[addr]? ≤ stakeRank accounts[addr]? := by
  induction penalties generalizing accounts with
  | nil => exact le_rfl
  | cons p ps ih => exact ih.trans (stakeRank_deduct_le addr)

/-- A positive penalty lowers the entry unless nothing is staked there. -/
theorem stakeRank_deduct_lt (hpos : 0 < penalty.amount)
    (h : ¬ Unstaked accounts[penalty.address]?) :
    stakeRank (deductPenalty accounts penalty)[penalty.address]? <
      stakeRank accounts[penalty.address]? := by
  rw [getElem?_deductPenalty, if_pos rfl]
  unfold Unstaked at h
  cases ha : accounts[penalty.address]? with
  | none => exact WithTop.coe_lt_top _
  | some a =>
    rw [ha] at h
    have hstake : a.stakedBalance ≠ 0 := by simpa using h
    refine WithTop.coe_lt_coe.mpr ?_
    dsimp only [Option.getD_some]
    omega

theorem penalties_eq_self_iff {penalties : List ValidatorPenalty}
    (hpos : ∀ p ∈ penalties, 0 < p.amount) :
    penalties.foldl deductPenalty accounts = accounts ↔
      ∀ p ∈ penalties, Unstaked accounts[p.address]? := by
  induction penalties generalizing accounts with
  | nil => simp
  | cons p ps ih =>
    have hps : ∀ p' ∈ ps, 0 < p'.amount := fun p' hp' => hpos p' (by simp [hp'])
    rw [List.foldl_cons, List.forall_mem_cons]
    by_cases hun : Unstaked accounts[p.address]?
    · rw [deductPenalty_of_unstaked hun, ih hps]
      simp [hun]
    · refine iff_of_false ?_ fun h => hun h.1
      intro heq
      have hlt := stakeRank_deduct_lt (hpos p (by simp)) hun
      have hle : stakeRank (ps.foldl deductPenalty (deductPenalty accounts p))[p.address]? ≤
          stakeRank (deductPenalty accounts p)[p.address]? := stakeRank_penalties_le ps p.address
      rw [heq] at hle
      exact absurd (lt_of_le_of_lt hle hlt) (lt_irrefl _)

/-- Rewards that leave every balance rank alone were all saturated. -/
theorem saturated_of_balanceRank_le {rewards : List ValidatorReward}
    (hpos : ∀ r ∈ rewards, 0 < r.amount)
    (h : ∀ addr : Bytes, balanceRank (rewards.foldl creditReward accounts)[addr]? ≤
      balanceRank accounts[addr]?) :
    ∀ r ∈ rewards, Saturated accounts[r.address]? := by
  induction rewards with
  | nil => simp
  | cons r rs ih =>
    have hrs : ∀ r' ∈ rs, 0 < r'.amount := fun r' hr' => hpos r' (by simp [hr'])
    have hsat : Saturated accounts[r.address]? := by
      by_contra hsat
      have hlt := balanceRank_lt_credit (hpos r (by simp)) hsat
      have hle : balanceRank (creditReward accounts r)[r.address]? ≤
          balanceRank (rs.foldl creditReward (creditReward accounts r))[r.address]? :=
        balanceRank_le_rewards hrs r.address
      have hback := h r.address
      rw [List.foldl_cons] at hback
      omega
    rw [List.forall_mem_cons]
    refine ⟨hsat, ih hrs ?_⟩
    intro addr
    have hback := h addr
    rwa [List.foldl_cons, creditReward_of_saturated hsat] at hback

/-- **A settlement leaves the accounts** when each reward finds a full balance and each penalty an
empty stake. Penalties never lower a balance rank, so they cannot hide a reward. -/
theorem settlementAccounts_eq_self_iff {settlement : EpochSettlement}
    (hr : ∀ r ∈ settlement.rewards, 0 < r.amount) (hp : ∀ p ∈ settlement.penalties, 0 < p.amount) :
    applyEpochSettlement accounts settlement = accounts ↔
      (∀ r ∈ settlement.rewards, Saturated accounts[r.address]?) ∧
        ∀ p ∈ settlement.penalties, Unstaked accounts[p.address]? := by
  unfold applyEpochSettlement
  constructor
  · intro heq
    have hsat : ∀ r ∈ settlement.rewards, Saturated accounts[r.address]? := by
      refine saturated_of_balanceRank_le hr ?_
      intro addr
      have hle : balanceRank (settlement.rewards.foldl creditReward accounts)[addr]? ≤
          balanceRank (settlement.penalties.foldl deductPenalty
            (settlement.rewards.foldl creditReward accounts))[addr]? :=
        balanceRank_le_penalties settlement.penalties addr
      rwa [heq] at hle
    rw [(rewards_eq_self_iff hr).mpr hsat] at heq
    exact ⟨hsat, (penalties_eq_self_iff hp).mp heq⟩
  · rintro ⟨hsat, hun⟩
    rw [(rewards_eq_self_iff hr).mpr hsat]
    exact (penalties_eq_self_iff hp).mpr hun

end Accounts

namespace Blockchain

variable {P : Primitives} {g : GenesisConfig} {c c' : Blockchain} {now : Int} {block : Block}

/-- The settlement at `height` moves no account: whoever earns a reward has a full balance, and
whoever is penalised has nothing staked. -/
def MovesNoAccount (P : Primitives) (c : Blockchain) (height : Nat) : Prop :=
  ∀ epoch snapshot, settlingEpoch c.genesisConfig height = some epoch →
    c.epochSnapshots[epoch]? = some snapshot →
    ∀ v ∈ snapshot.validators,
      ((rewardFor (blockProducers (c.proposerAddressesForSettlingEpoch P height)) v).isSome →
        Saturated c.accounts[v.address]?) ∧
      ((penaltyFor (blockProducers (c.proposerAddressesForSettlingEpoch P height))
          c.validatorMissedEpochs v).isSome → Unstaked c.accounts[v.address]?)

/-- A header height at which `add_block` touches neither snapshots nor accounts. -/
def LeavesAccounts (P : Primitives) (c : Blockchain) (height : Nat) : Prop :=
  height = 0 ∨ height % c.genesisConfig.epochLen ≠ 0 ∨
    (c.epochForHeight height ∈ c.epochSnapshots ∧ c.MovesNoAccount P height)

theorem penaltyFor_eq_some {producers missed : ByteMap Nat} {v : Validator} {p : ValidatorPenalty}
    (h : penaltyFor producers missed v = some p) : p.address = v.address ∧ 0 < p.amount := by
  unfold penaltyFor at h
  dsimp only at h
  split at h
  · next hpos => cases h; exact ⟨rfl, hpos.2.2⟩
  · exact absurd h (by simp)

theorem settledAt_accounts_iff {height : Nat} :
    (c.settledAt P height).1 = c.accounts ↔ c.MovesNoAccount P height := by
  unfold settledAt applyEpochSettlementForBlock MovesNoAccount
  cases hs : settlingEpoch c.genesisConfig height with
  | none => simp
  | some epoch =>
    cases he : c.epochSnapshots[epoch]? with
    | none =>
      refine iff_of_true (by simp [he]) ?_
      rintro _ snapshot h hsnap
      cases h
      exact absurd (he.symm.trans hsnap) (by simp)
    | some snapshot =>
      dsimp only
      rw [he]
      dsimp only
      rw [settlementAccounts_eq_self_iff]
      · constructor
        · rintro ⟨hrewards, hpenalties⟩ _ _ hepoch hsnap v hv
          cases hepoch
          cases he.symm.trans hsnap
          refine ⟨fun h => ?_, fun h => ?_⟩
          · obtain ⟨r, hr⟩ := Option.isSome_iff_exists.mp h
            rw [← (rewardFor_eq_some hr).1]
            exact hrewards r (List.mem_filterMap.mpr ⟨v, hv, hr⟩)
          · obtain ⟨p, hp⟩ := Option.isSome_iff_exists.mp h
            rw [← (penaltyFor_eq_some hp).1]
            exact hpenalties p (List.mem_filterMap.mpr ⟨v, hv, hp⟩)
        · intro hall
          have hv := hall epoch snapshot rfl he
          constructor
          · intro r hr
            obtain ⟨v, hmem, hr⟩ := List.mem_filterMap.mp hr
            rw [(rewardFor_eq_some hr).1]
            exact (hv v hmem).1 (by rw [hr]; rfl)
          · intro p hp
            obtain ⟨v, hmem, hp⟩ := List.mem_filterMap.mp hp
            rw [(penaltyFor_eq_some hp).1]
            exact (hv v hmem).2 (by rw [hp]; rfl)
      · intro r hr
        obtain ⟨v, -, hr⟩ := List.mem_filterMap.mp hr
        exact (rewardFor_eq_some hr).2
      · intro p hp
        obtain ⟨v, -, hp⟩ := List.mem_filterMap.mp hp
        exact (penaltyFor_eq_some hp).2

theorem ensureEpochSnapshot_eq_iff {height : Nat} :
    (c.ensureEpochSnapshot height).epochSnapshots = c.epochSnapshots ↔
      height = 0 ∨ height % c.genesisConfig.epochLen ≠ 0 ∨
        c.epochForHeight height ∈ c.epochSnapshots := by
  unfold ensureEpochSnapshot
  split
  · next h =>
    obtain ⟨hpos, hb, hnew⟩ := h
    refine iff_of_false ?_ ?_
    · intro heq
      refine hnew ?_
      rw [← heq]
      exact Std.ExtTreeMap.mem_insert_self
    · rintro (h | h | h)
      · omega
      · exact h hb
      · exact hnew h
  · next h =>
    refine iff_of_true rfl ?_
    by_contra hnot
    rw [not_or, not_or, not_not] at hnot
    exact h ⟨Nat.pos_of_ne_zero hnot.1, hnot.2.1, hnot.2.2⟩

theorem leavesAccounts_iff {height : Nat} :
    c.LeavesAccounts P height ↔
      (c.ensureEpochSnapshot height).epochSnapshots = c.epochSnapshots ∧
        (c.settledAt P height).1 = c.accounts := by
  rw [ensureEpochSnapshot_eq_iff, settledAt_accounts_iff]
  unfold LeavesAccounts
  constructor
  · intro h
    rcases h with h | h | ⟨hmem, hmoves⟩
    · refine ⟨.inl h, ?_⟩
      intro epoch snapshot hs
      rw [settlingEpoch_of_not_boundary (.inl h)] at hs
      exact absurd hs (by simp)
    · refine ⟨.inr (.inl h), ?_⟩
      intro epoch snapshot hs
      rw [settlingEpoch_of_not_boundary (.inr h)] at hs
      exact absurd hs (by simp)
    · exact ⟨.inr (.inr hmem), hmoves⟩
  · rintro ⟨h | h | h, hmoves⟩
    · exact .inl h
    · exact .inr (.inl h)
    · exact .inr (.inr ⟨h, hmoves⟩)

/-! ## The four places -/

/-- What a failed call is to leave alone. -/
structure Untouched (c' c : Blockchain) : Prop where
  canonicalTip : c'.blockTree.canonicalTip = c.blockTree.canonicalTip
  blocks : c'.blocks = c.blocks
  genesis : c'.genesis = c.genesis
  baseHeight : c'.baseHeight = c.baseHeight
  accounts : c'.accounts = c.accounts
  contracts : c'.contracts = c.contracts
  tokenRegistry : c'.tokenRegistry = c.tokenRegistry
  governance : c'.governance = c.governance
  epochSnapshots : c'.epochSnapshots = c.epochSnapshots
  blockHashToHeight : c'.blockHashToHeight = c.blockHashToHeight
  txHashIndex : c'.txHashIndex = c.txHashIndex
  evmTxHashIndex : c'.evmTxHashIndex = c.evmTxHashIndex
  receiptLocations : c'.receiptLocations = c.receiptLocations
  logIndex : c'.logIndex = c.logIndex

theorem Untouched.refl (c : Blockchain) : Untouched c c :=
  ⟨rfl, rfl, rfl, rfl, rfl, rfl, rfl, rfl, rfl, rfl, rfl, rfl, rfl, rfl⟩

theorem untouched_prepareEpoch_iff {height : Nat} :
    Untouched (c.prepareEpoch P height) c ↔ c.LeavesAccounts P height := by
  rw [leavesAccounts_iff, prepareEpoch_eq]
  constructor
  · intro h
    exact ⟨h.epochSnapshots, h.accounts⟩
  · rintro ⟨hsnaps, haccounts⟩
    exact ⟨rfl, rfl, rfl, rfl, haccounts, rfl, rfl, rfl, hsnaps, rfl, rfl, rfl, rfl, rfl⟩

/-- A block that the fork path can fail on without a trace: it is too old, or a child of the tip
at a height that touches nothing, or off the tip and not taken as the new one. -/
def FailsQuietly (P : Primitives) (c : Blockchain) (now : Int) (block : Block) : Prop :=
  c.tooOld block = true ∨
    (block.header.prevHash = c.latestBlock.hash ∧ c.LeavesAccounts P block.header.height) ∨
    (block.header.prevHash ≠ c.latestBlock.hash ∧
      ∀ tree, c.stageForkBlock P now block ≠ .ok (tree, true))

/-- Where an error can come from, and what it leaves. -/
theorem forkChoice_of_error {e : ChainError}
    (h : (c.addBlockWithForkChoice P now block).1 = .error e) :
    (c.tooOld block = true ∧ (c.addBlockWithForkChoice P now block).2 = c) ∨
    (c.tooOld block = false ∧ block.header.prevHash = c.latestBlock.hash ∧
      (c.addBlockWithForkChoice P now block).2 = c.prepareEpoch P block.header.height) ∨
    (c.tooOld block = false ∧ block.header.prevHash ≠ c.latestBlock.hash ∧
      ((∀ staged, c.stageForkBlock P now block ≠ .ok staged) ∧
          (c.addBlockWithForkChoice P now block).2 = c ∨
        ∃ tree, c.stageForkBlock P now block = .ok (tree, true) ∧
          (c.addBlockWithForkChoice P now block).2.blockTree = tree)) := by
  unfold addBlockWithForkChoice at h ⊢
  split
  -- Three sources: too old, a child of the tip, or a fork block (staged or reorganised to).
  · next hold => exact .inl ⟨hold, rfl⟩
  next hold =>
  have hold' : c.tooOld block = false := by simpa using hold
  rw [if_neg hold] at h
  split
  · next hprev =>
    rw [if_pos hprev] at h
    refine .inr (.inl ⟨hold', hprev, ?_⟩)
    split
    · next e' c'' hadd =>
      have herr : (c.addBlock P now block).1 = .error e' := by rw [hadd]
      have hleft := addBlock_of_error herr
      rw [hadd] at hleft
      exact hleft
    · next c'' hadd =>
      rw [hadd] at h
      exact absurd h (by simp)
  next hprev =>
  rw [if_neg hprev] at h
  refine .inr (.inr ⟨hold', hprev, ?_⟩)
  cases hstage : c.stageForkBlock P now block with
  | error e' =>
    left
    refine ⟨fun staged hs => absurd hs (by simp), rfl⟩
  | ok staged =>
    obtain ⟨tree, switched⟩ := staged
    cases switched with
    | false =>
      rw [hstage] at h
      exact absurd h (by simp)
    | true =>
      right
      refine ⟨tree, rfl, ?_⟩
      have hspine := @reorgToCanonicalTip_spine P { c with blockTree := tree } now
      have htree : (reorgToCanonicalTip P { c with blockTree := tree } now).2.blockTree = tree := by
        rcases hspine with ⟨hsame, -⟩ | ⟨-, hspine⟩
        · rw [hsame]
        · exact congrArg Spine.blockTree hspine
      dsimp only
      split
      · next hr => rw [hr] at htree; exact htree
      · next hr => rw [hr] at htree; exact htree

end Blockchain

/-! ## The tip is in the tree -/

namespace BlockTree

variable {t t' : BlockTree} {block : Block} {stake : Nat} {switched : Bool}

/-- The tree holds the block it names as its tip. -/
def KnowsTip (t : BlockTree) : Prop := ∃ b, t.get t.canonicalTip = some b

theorem KnowsTip.insert (hk : t.KnowsTip) (h : t.insert block stake = .ok (t', switched)) :
    t'.KnowsTip := by
  have hgrows := insert_grows h
  obtain ⟨b, hb⟩ := hk
  rcases insert_cases h with ⟨rfl, -, -⟩ | ⟨-, parent, weight, hparent, -, -, ⟨rfl, -⟩ | ⟨rfl, -⟩⟩
  · exact ⟨b, hb⟩
  · exact ⟨b, hgrows _ b hb⟩
  · refine ⟨block, ?_⟩
    show (t.attach block parent weight).get block.hash = some block
    rw [get_attach hparent, if_pos rfl]

/-- Ancestry is a matter of the entries alone. -/
theorem lineageFrom_congr (h : t'.entries = t.entries) (fuel : Nat) (hash : Bytes) :
    t'.lineageFrom fuel hash = t.lineageFrom fuel hash := by
  induction fuel generalizing hash with
  | zero => rfl
  | succ fuel ih =>
    unfold lineageFrom get
    rw [h]
    split
    · rfl
    · rw [ih]

theorem isDescendantOf_congr (h : t'.entries = t.entries) (descendant ancestor : Bytes) :
    t'.isDescendantOf descendant ancestor = t.isDescendantOf descendant ancestor := by
  unfold isDescendantOf lineage get
  rw [h]
  split
  · rfl
  · rw [lineageFrom_congr h]

/-- Finalizing a block of the canonical chain keeps the tip. -/
theorem KnowsTip.setFinalized (hk : t.KnowsTip) {hash : Bytes}
    (h : t.isOnCanonicalChain hash = true) {height : Nat} (hpos : 0 < height) :
    (t.setFinalized hash height).KnowsTip := by
  obtain ⟨b, hb⟩ := hk
  obtain ⟨-, -, htip⟩ := @setFinalized_fields t hash height
  refine ⟨b, ?_⟩
  rw [htip, get_setFinalized hpos, if_pos, hb]
  have hdesc : ({ t with finalizedHash := hash, finalizedHeight := height } :
      BlockTree).isDescendantOf t.canonicalTip hash = true := by
    refine Eq.trans (isDescendantOf_congr ?_ t.canonicalTip hash) h
    rfl
  unfold keeps
  rw [decide_eq_true_eq]
  exact .inr (.inl hdesc)

theorem knowsTip_fromGenesis (genesis : Block) : (fromGenesis genesis).KnowsTip :=
  ⟨genesis, (get_fromGenesis genesis genesis.hash).trans (if_pos rfl)⟩

end BlockTree

namespace Blockchain

variable {P : Primitives} {g : GenesisConfig} {c c' : Blockchain} {now : Int} {block : Block}

/-- The chains a node can come to hold, from its genesis, by the calls that add transactions,
blocks, votes and evidence, whether these succeed or not, by restarts and by choosing how much
history to keep. -/
inductive Reached (P : Primitives) (g : GenesisConfig) : Blockchain → Prop where
  | fromGenesis {c : Blockchain} (h : fromGenesis P g = .ok c) : Reached P g c
  | addTransaction {c : Blockchain} (now : Int) (tx : Transaction) (h : Reached P g c) :
    Reached P g (c.addTransaction P now tx).2
  | addBlock {c : Blockchain} (now : Int) (block : Block) (h : Reached P g c) :
    Reached P g (c.addBlock P now block).2
  | addBlockWithForkChoice {c : Blockchain} (now : Int) (block : Block) (h : Reached P g c) :
    Reached P g (c.addBlockWithForkChoice P now block).2
  | addFinalityVote {c : Blockchain} (vote : FinalityVote) (h : Reached P g c) :
    Reached P g (c.addFinalityVote P vote).2
  | processEquivocation {c : Blockchain} (evidence : EquivocationEvidence) (h : Reached P g c) :
    Reached P g (c.processEquivocation P evidence).2
  | setPruneKeepBlocks {c : Blockchain} (keep : Option Nat) (h : Reached P g c) :
    Reached P g { c with pruneKeepBlocks := keep }
  | restart {c c' : Blockchain} (now : Int) (h : Reached P g c) (hok : c.restart P now = .ok c') :
    Reached P g c'

theorem addTransaction_blockTree (tx : Transaction) :
    (c.addTransaction P now tx).2.blockTree = c.blockTree := by
  obtain ⟨pool, hpool⟩ := @addTransaction_pool P c now tx
  rw [hpool]

theorem knowsTip_insertIgnoringErrors {t : BlockTree} (h : t.KnowsTip) (block : Block)
    (stake : Nat) : (insertIgnoringErrors t block stake).KnowsTip := by
  unfold insertIgnoringErrors
  split
  · next hinsert => exact h.insert hinsert
  · exact h

theorem knowsTip_treeFromBlocks (accounts : ByteMap AccountState) (genesis : Block)
    (blocks : List Block) : (treeFromBlocks P accounts genesis blocks).KnowsTip := by
  unfold treeFromBlocks
  refine List.foldlRecOn (motive := BlockTree.KnowsTip) _ _
    (BlockTree.knowsTip_fromGenesis genesis) ?_
  intro t ht b _
  exact knowsTip_insertIgnoringErrors ht b _

theorem knowsTip_addBlock (h : c.blockTree.KnowsTip) :
    (c.addBlock P now block).2.blockTree.KnowsTip := by
  cases hres : (c.addBlock P now block).1 with
  | error e =>
    have hspine := addBlock_error_spine hres
    rw [show (c.addBlock P now block).2.blockTree = c.blockTree from
      congrArg Spine.blockTree hspine]
    exact h
  | ok u =>
    obtain ⟨-, stake, hspine⟩ := addBlock_ok_spine hres
    rw [show (c.addBlock P now block).2.blockTree = insertIgnoringErrors c.blockTree block stake from
      congrArg Spine.blockTree hspine]
    exact knowsTip_insertIgnoringErrors h block stake

theorem knowsTip_forkChoice (h : c.blockTree.KnowsTip) :
    (c.addBlockWithForkChoice P now block).2.blockTree.KnowsTip := by
  rcases addBlockWithForkChoice_cases P c now block with hs | ⟨-, -, hs⟩ |
    ⟨tree, switched, -, -, hstage, hs | ⟨-, -, hs⟩⟩
  · rw [show (c.addBlockWithForkChoice P now block).2.blockTree = c.blockTree from
      congrArg Spine.blockTree hs]
    exact h
  · rw [hs]
    exact knowsTip_addBlock h
  all_goals
    obtain ⟨stake, hinsert⟩ := insert_of_stage hstage
    rw [show (c.addBlockWithForkChoice P now block).2.blockTree = tree from
      congrArg Spine.blockTree hs]
    exact h.insert hinsert

theorem knowsTip_addFinalityVote (h : c.blockTree.KnowsTip) (vote : FinalityVote) :
    (c.addFinalityVote P vote).2.blockTree.KnowsTip := by
  rcases addFinalityVote_spine_cases P c vote with ⟨-, hs⟩ | ⟨snapshot, hsnap,
    ⟨tracker, -, -, hs⟩ | ⟨tracker, finalized, base, hvote, -, hs⟩⟩
  · rw [show (c.addFinalityVote P vote).2.blockTree = c.blockTree from
      congrArg Spine.blockTree hs]
    exact h
  · rw [show (c.addFinalityVote P vote).2.blockTree = c.blockTree from
      congrArg Spine.blockTree hs]
    exact h
  · rw [show (c.addFinalityVote P vote).2.blockTree =
      c.blockTree.setFinalized finalized.hash finalized.height from congrArg Spine.blockTree hs]
    obtain ⟨hlt, -, -, rfl⟩ := FinalityTracker.finalized_of_addVote_some hvote
    -- the vote was counted because its block is on the canonical chain
    obtain ⟨-, -, -, -, hcanon, -⟩ := votable_of_snapshot hsnap
    exact h.setFinalized hcanon (Nat.zero_lt_of_lt hlt)

theorem Reached.knowsTip (h : Reached P g c) : c.blockTree.KnowsTip := by
  induction h with
  | fromGenesis h =>
    unfold Curs3d.fromGenesis at h
    simp only [except_bind_eq_ok] at h
    obtain ⟨accounts, -, hc⟩ := h
    cases hc
    exact BlockTree.knowsTip_fromGenesis _
  | addTransaction now tx _ ih =>
    rw [addTransaction_blockTree]
    exact ih
  | addBlock now block _ ih => exact knowsTip_addBlock ih
  | addBlockWithForkChoice now block _ ih => exact knowsTip_forkChoice ih
  | addFinalityVote vote _ ih => exact knowsTip_addFinalityVote ih vote
  | @processEquivocation c evidence _ ih =>
    rw [show (c.processEquivocation P evidence).2.blockTree = c.blockTree from
      congrArg Spine.blockTree (processEquivocation_spine evidence)]
    exact ih
  | setPruneKeepBlocks keep _ ih => exact ih
  | @restart c c' now _ hok ih =>
    obtain ⟨base, -, hspine⟩ := restart_spine hok
    rw [show c'.blockTree = treeFromBlocks P c.accounts c.genesis c.storedBlocks from
      congrArg Spine.blockTree hspine]
    exact knowsTip_treeFromBlocks _ _ _

/-- **An error of the fork path leaves no trace exactly when** the block is too old, or a child of
the tip at a height that touches nothing, or off the tip and not taken as the new one. The first
half needs nothing of the chain. -/
theorem failed_fork_traceless_iff {e : ChainError}
    (h : (c.addBlockWithForkChoice P now block).1 = .error e) :
    (c.FailsQuietly P now block → Untouched (c.addBlockWithForkChoice P now block).2 c) ∧
      (Reached P g c → Untouched (c.addBlockWithForkChoice P now block).2 c →
        c.FailsQuietly P now block) := by
  rcases forkChoice_of_error h with ⟨hold, hleft⟩ | ⟨hold, hprev, hleft⟩ |
    ⟨hold, hprev, ⟨hstage, hleft⟩ | ⟨tree, hstage, htree⟩⟩
  · rw [hleft]
    exact ⟨fun _ => Untouched.refl c, fun _ _ => .inl hold⟩
  · rw [hleft, untouched_prepareEpoch_iff]
    constructor
    · rintro (hq | ⟨-, hq⟩ | ⟨hq, -⟩)
      · exact absurd (hold.symm.trans hq) (by simp)
      · exact hq
      · exact absurd hprev hq
    · intro _ hq
      exact .inr (.inl ⟨hprev, hq⟩)
  · rw [hleft]
    exact ⟨fun _ => Untouched.refl c, fun _ _ => .inr (.inr ⟨hprev, fun tree => hstage _⟩)⟩
  · constructor
    · rintro (hq | ⟨hq, -⟩ | ⟨-, hq⟩)
      · exact absurd (hold.symm.trans hq) (by simp)
      · exact absurd hq hprev
      · exact absurd hstage (hq tree)
    · -- the tree took the new block as its tip, and it had not held it before
      intro hreached hsame
      obtain ⟨stake, hinsert⟩ := insert_of_stage hstage
      obtain ⟨htip, -⟩ := BlockTree.canonicalTip_of_switched hinsert
      have hmoved := hsame.canonicalTip
      rw [htree, htip] at hmoved
      rcases BlockTree.insert_cases hinsert with ⟨-, hs, -⟩ | ⟨hnew, -⟩
      · exact absurd hs (by simp)
      · obtain ⟨b, hb⟩ := hreached.knowsTip
        rw [hmoved] at hnew
        exact absurd (hb.symm.trans (BlockTree.get_eq_none hnew)) (by simp)

end Blockchain

namespace ForkErrorSample

open Scenario

/-- Validator 2 outweighs validator 1; epochs of two blocks. -/
def genesis : GenesisConfig where
  chainId := [1]
  minimumStake := 1
  epochLength := 2
  allocations := [allocation 1 0 1000000, allocation 2 0 5000000]

/-- Four blocks of validator 1: the chain after the third and after the fourth. -/
def chains (c : Blockchain) : Option (Blockchain × Blockchain) := do
  let (_, c₁) ← extend c (clock 1) 1
  let (_, c₂) ← extend c₁ (clock 2) 1
  let (_, c₃) ← extend c₂ (clock 3) 1
  let (_, c₄) ← extend c₃ (clock 4) 1
  return (c₃, c₄)

/-- A fourth block of validator 2 whose state root leaves the settlement of epoch 1 out. -/
def rival (c : Blockchain) : Option Block :=
  ({ c with epochSnapshots := c.epochSnapshots.erase 1 }.createBlock Reference.primitives (clock 4)
    (key 2)).toOption

theorem reached_extend {c c' : Blockchain} {now : Int} {producer : UInt8} {block : Block}
    {g : GenesisConfig} (hc : c.Reached Reference.primitives g)
    (h : extend c now producer = some (block, c')) : c'.Reached Reference.primitives g := by
  unfold extend at h
  split at h
  · exact absurd h (by simp)
  · split at h
    · next hadd =>
      cases h
      have hnext := hc.addBlock now block
      rwa [hadd] at hnext
    · exact absurd h (by simp)

theorem reached_chains {c c₃ c₄ : Blockchain} {g : GenesisConfig}
    (hc : c.Reached Reference.primitives g) (h : chains c = some (c₃, c₄)) :
    c₄.Reached Reference.primitives g := by
  simp only [chains, Option.bind_eq_bind, Option.bind_eq_some_iff] at h
  obtain ⟨⟨_, c₁⟩, h₁, ⟨_, c₂⟩, h₂, ⟨_, d₃⟩, h₃, ⟨_, d₄⟩, h₄, hr⟩ := h
  cases hr
  exact reached_extend (reached_extend (reached_extend (reached_extend hc h₁) h₂) h₃) h₄

/-- A block whose parent nobody has. -/
def orphan : Block where
  header :=
    { version := 0, height := 7, timestamp := 0, prevHash := [1], merkleRoot := [], stateRoot := []
      gasUsed := 0, baseFeePerGas := 0, validatorPublicKey := [], nonce := 0 }
  transactions := []
  hash := [7]
  signature := none

end ForkErrorSample

open ForkErrorSample Scenario Blockchain in
/-- A fresh chain refuses the orphan and stays as it is. -/
theorem failed_fork_traceless_orphan : ∃ c₀,
    fromGenesis Reference.primitives genesis = .ok c₀ ∧
      (c₀.addBlockWithForkChoice Reference.primitives (clock 9) orphan).1 =
        .error (.blockTree .orphanBlock) ∧
      Untouched (c₀.addBlockWithForkChoice Reference.primitives (clock 9) orphan).2 c₀ := by
  have hrun : (fromGenesis Reference.primitives genesis).toOption.any (fun c₀ =>
      decide ((c₀.addBlockWithForkChoice Reference.primitives (clock 9) orphan).1 =
        .error (.blockTree .orphanBlock) ∧ orphan.header.prevHash ≠ c₀.latestBlock.hash ∧
          c₀.blockTree.get orphan.header.prevHash = none)) = true := by
    decide +kernel
  obtain ⟨c₀, hstart, hrest⟩ := Outcome.ok_of_any hrun
  rw [decide_eq_true_eq] at hrest
  obtain ⟨herr, hprev, hget⟩ := hrest
  refine ⟨c₀, hstart, herr, (failed_fork_traceless_iff (g := genesis) herr).1 ?_⟩
  refine .inr (.inr ⟨hprev, ?_⟩)
  intro tree hstage
  unfold stageForkBlock at hstage
  rw [hget] at hstage
  exact absurd hstage (by simp)

open ForkErrorSample Scenario Blockchain in
/-- The rival is staged, outweighs the tip, and the rebuild finds its state root wrong: an error,
with the rival on the cursor and at the tip of the tree. -/
theorem failed_reorg_keeps_rival : ∃ c block,
    c.Reached Reference.primitives genesis ∧
      (c.addBlockWithForkChoice Reference.primitives (clock 9) block).1 = .error .invalidStateRoot ∧
      (c.addBlockWithForkChoice Reference.primitives (clock 9) block).2.blockTree.canonicalTip ≠
        c.blockTree.canonicalTip ∧
      (c.addBlockWithForkChoice Reference.primitives (clock 9) block).2.blocks ≠ c.blocks ∧
      ¬ Untouched (c.addBlockWithForkChoice Reference.primitives (clock 9) block).2 c := by
  have hrun : (fromGenesis Reference.primitives genesis).toOption.any (fun c₀ =>
      (chains c₀).any fun cs => (rival cs.1).any fun block =>
        let r := cs.2.addBlockWithForkChoice Reference.primitives (clock 9) block
        decide (r.1 = .error .invalidStateRoot ∧
          r.2.blockTree.canonicalTip ≠ cs.2.blockTree.canonicalTip ∧ r.2.blocks ≠ cs.2.blocks)) =
      true := by
    decide +kernel
  obtain ⟨c₀, hstart, hrest⟩ := Outcome.ok_of_any hrun
  obtain ⟨⟨c₃, c₄⟩, hchains, hrest⟩ := (Option.any_eq_true _ _).mp hrest
  obtain ⟨block, -, hrest⟩ := (Option.any_eq_true _ _).mp hrest
  rw [decide_eq_true_eq] at hrest
  obtain ⟨herr, htip, hblocks⟩ := hrest
  exact ⟨c₄, block, reached_chains (.fromGenesis hstart) hchains, herr, htip, hblocks,
    fun h => htip h.canonicalTip⟩

end Curs3d
