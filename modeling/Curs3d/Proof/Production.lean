import Curs3d.Chain.Mempool
import Curs3d.Chain.Produce
import Curs3d.Proof.Decisions
import Curs3d.Proof.EvmRun
import Curs3d.Proof.Pool
import Curs3d.Proof.Rejected
import Curs3d.Proof.Validate
import Curs3d.Proof.Voting

/-!
# A produced block is a valid block

`create_block` and `validate_block_against_state` execute a block in two separately written
loops. The producing one tries every pending transaction on one projected state and goes on from
whatever that transaction left; the validating one only ever sees the transactions that were
kept. They agree as long as nothing that was passed over left a mark: `SkipsCleanly`.

Before the loops the two differ in the order of unlocks and settlement, which commute, and in the
accounts the slot leader is drawn from: the producer reads them before the settlement of an
epoch, the validator after. `ProducesCleanly` collects what is needed for the two to meet.
-/

set_option autoImplicit false

namespace Curs3d

open U64 Outcome

/-! ## Unlocks and settlement commute -/

theorem unlockAccount_default (height : Nat) : unlockAccount height {} = {} := rfl

/-- Unlocking everything after one entry was changed is changing that entry unlocked. -/
theorem unlocks_upsert {accounts : ByteMap AccountState} {addr : Bytes} {height : Nat}
    {f : AccountState → AccountState}
    (hf : ∀ a, unlockAccount height (f a) = f (unlockAccount height a)) :
    applyUnstakeUnlocks (KeyMap.upsert accounts addr {} f) height =
      KeyMap.upsert (applyUnstakeUnlocks accounts height) addr {} f := by
  refine Std.ExtTreeMap.ext_getElem? fun k => ?_
  unfold applyUnstakeUnlocks
  rw [Std.ExtTreeMap.getElem?_map, KeyMap.getElem?_upsert, KeyMap.getElem?_upsert]
  simp only [Std.ExtTreeMap.getElem?_map]
  split
  · cases accounts[addr]? with
    | none => simp [hf, unlockAccount_default]
    | some a => simp [hf]
  · rfl

theorem unlocks_creditReward (accounts : ByteMap AccountState) (reward : ValidatorReward)
    (height : Nat) :
    applyUnstakeUnlocks (creditReward accounts reward) height =
      creditReward (applyUnstakeUnlocks accounts height) reward := by
  refine unlocks_upsert fun a => ?_
  simp only [unlockAccount]
  rw [satAdd_right_comm]

theorem unlocks_deductPenalty (accounts : ByteMap AccountState) (penalty : ValidatorPenalty)
    (height : Nat) :
    applyUnstakeUnlocks (deductPenalty accounts penalty) height =
      deductPenalty (applyUnstakeUnlocks accounts height) penalty :=
  unlocks_upsert fun _ => rfl

/-- **Settling first or unlocking first makes no difference.** -/
theorem unlocks_settlement (accounts : ByteMap AccountState) (settlement : EpochSettlement)
    (height : Nat) :
    applyUnstakeUnlocks (applyEpochSettlement accounts settlement) height =
      applyEpochSettlement (applyUnstakeUnlocks accounts height) settlement := by
  unfold applyEpochSettlement
  have hpenalties : ∀ m, settlement.penalties.foldl deductPenalty (applyUnstakeUnlocks m height) =
      applyUnstakeUnlocks (settlement.penalties.foldl deductPenalty m) height := fun m =>
    List.foldl_hom (fun m => applyUnstakeUnlocks m height) fun m penalty =>
      (unlocks_deductPenalty m penalty height).symm
  have hrewards : ∀ m, settlement.rewards.foldl creditReward (applyUnstakeUnlocks m height) =
      applyUnstakeUnlocks (settlement.rewards.foldl creditReward m) height := fun m =>
    List.foldl_hom (fun m => applyUnstakeUnlocks m height) fun m reward =>
      (unlocks_creditReward m reward height).symm
  rw [hrewards, hpenalties]

/-! ## A settlement makes nobody a validator -/

namespace ProofOfStake

variable {pos : ProofOfStake} {accounts : ByteMap AccountState}

theorem activeValidators_eq_nil_iff :
    pos.activeValidators accounts = [] ↔
      ∀ (addr : Bytes) (a : AccountState), accounts[addr]? = some a →
        pos.validatorOf addr a = none := by
  unfold activeValidators
  rw [List.filterMap_eq_nil_iff]
  constructor
  · intro h addr a ha
    exact h (addr, a) (Std.ExtTreeMap.mem_toList_iff_getElem?_eq_some.mpr ha)
  · rintro h ⟨addr, a⟩ hmem
    exact h addr a (Std.ExtTreeMap.mem_toList_iff_getElem?_eq_some.mp hmem)

/-- A change that keeps the key and the heights and does not add stake. -/
def Dims (f : AccountState → AccountState) : Prop :=
  ∀ a, (f a).publicKey = a.publicKey ∧ (f a).stakedBalance ≤ a.stakedBalance ∧
    (f a).validatorActiveFromHeight = a.validatorActiveFromHeight ∧
    (f a).jailedUntilHeight = a.jailedUntilHeight

theorem validatorOf_of_dims {f : AccountState → AccountState} (hf : Dims f) {addr : Bytes}
    {a : AccountState} (h : pos.validatorOf addr a = none) : pos.validatorOf addr (f a) = none := by
  obtain ⟨hkey, hstake, hactive, hjailed⟩ := hf a
  unfold validatorOf at *
  rw [hkey, hactive, hjailed]
  cases hpk : a.publicKey with
  | none => rfl
  | some publicKey =>
    rw [hpk] at h
    dsimp only at *
    split_ifs at * <;> first | rfl | omega

theorem activeValidators_upsert {f : AccountState → AccountState} (hf : Dims f) {addr : Bytes}
    (h : pos.activeValidators accounts = []) :
    pos.activeValidators (KeyMap.upsert accounts addr {} f) = [] := by
  rw [activeValidators_eq_nil_iff] at *
  intro k a ha
  rw [KeyMap.getElem?_upsert] at ha
  split at ha
  · next hk =>
    cases ha
    refine validatorOf_of_dims hf ?_
    subst hk
    cases hold : accounts[addr]? with
    | none => rfl
    | some old => exact h addr old hold
  · exact h k a ha

theorem activeValidators_settlement {settlement : EpochSettlement}
    (h : pos.activeValidators accounts = []) :
    pos.activeValidators (applyEpochSettlement accounts settlement) = [] := by
  unfold applyEpochSettlement
  refine List.foldlRecOn (motive := fun m => pos.activeValidators m = []) _ _ ?_ ?_
  · refine List.foldlRecOn (motive := fun m => pos.activeValidators m = []) _ _ h ?_
    intro m hm reward _
    refine activeValidators_upsert ?_ hm
    exact fun a => ⟨rfl, le_rfl, rfl, rfl⟩
  · intro m hm penalty _
    refine activeValidators_upsert ?_ hm
    exact fun a => ⟨rfl, Nat.sub_le _ _, rfl, rfl⟩

end ProofOfStake

/-! ## The two loops -/

variable {P : Primitives} {g : GenesisConfig} {ctx : TxContext}

/-- What the production loop does with `tx` when it comes to it: it has seen it before, it keeps
it, or it passes it over with the state untouched. -/
def SkipCleanly (P : Primitives) (g : GenesisConfig) (ctx : TxContext) (p : ProductionProgress)
    (tx : Transaction) : Prop :=
  tx.hash P ∈ p.seenHashes ∨
    match applyUserTransaction P ctx tx p.state with
    | .ok gasUsed _ => satAdd p.totalGasUsed gasUsed ≤ g.blockGasLimit
    | .error _ state => state = p.state

/-- Every transaction the loop passes over leaves the projected state as it was. -/
def SkipsCleanly (P : Primitives) (g : GenesisConfig) (ctx : TxContext) :
    ProductionProgress → List Transaction → Prop
  | _, [] => True
  | p, tx :: rest => SkipCleanly P g ctx p tx ∧ SkipsCleanly P g ctx (stepPending P g ctx p tx) rest

instance (p : ProductionProgress) (tx : Transaction) : Decidable (SkipCleanly P g ctx p tx) := by
  unfold SkipCleanly
  cases applyUserTransaction P ctx tx p.state <;> infer_instance

instance decidableSkipsCleanly : (p : ProductionProgress) → (pending : List Transaction) →
    Decidable (SkipsCleanly P g ctx p pending)
  | _, [] => .isTrue trivial
  | p, tx :: rest =>
    have := decidableSkipsCleanly (stepPending P g ctx p tx) rest
    inferInstanceAs (Decidable (_ ∧ _))

/-- A clean turn of the loop marks the transaction as seen, or keeps it. -/
theorem stepPending_cases {p : ProductionProgress} {tx : Transaction}
    (h : SkipCleanly P g ctx p tx) :
    (∃ seen, p.seenHashes ⊆ seen ∧ stepPending P g ctx p tx = { p with seenHashes := seen }) ∨
    (∃ gasUsed state, tx.hash P ∉ p.seenHashes ∧
      applyUserTransaction P ctx tx p.state = .ok gasUsed state ∧
      satAdd p.totalGasUsed gasUsed ≤ g.blockGasLimit ∧
      stepPending P g ctx p tx =
        { state
          seenHashes := insert (tx.hash P) p.seenHashes
          totalGasUsed := satAdd p.totalGasUsed gasUsed
          totalPriorityFees := satAdd p.totalPriorityFees
            (priorityFeeForTransaction tx gasUsed ctx.baseFeePerGas)
          blockTxs := p.blockTxs ++ [tx] }) := by
  unfold stepPending
  by_cases hseen : tx.hash P ∈ p.seenHashes
  · exact .inl ⟨p.seenHashes, subset_rfl, if_pos hseen⟩
  · have hrun := h.resolve_left hseen
    rw [if_neg hseen]
    dsimp only
    cases happly : applyUserTransaction P ctx tx p.state with
    | ok gasUsed state =>
      rw [happly] at hrun
      exact .inr ⟨gasUsed, state, hseen, rfl, hrun, if_pos hrun⟩
    | error e state =>
      rw [happly] at hrun
      dsimp only at hrun
      subst hrun
      exact .inl ⟨insert (tx.hash P) p.seenHashes, Finset.subset_insert _ _, rfl⟩

/-- The validating loop stands where the producing loop stands: it ran what was kept. -/
structure Mirrors (P : Primitives) (coinbase : Transaction) (p : ProductionProgress)
    (q : BlockProgress) : Prop where
  state : q.state = p.state
  priorityFees : q.priorityFees = p.totalPriorityFees
  totalGasUsed : q.totalGasUsed = p.totalGasUsed
  txHashes : q.txHashes ⊆ insert (coinbase.hash P) p.seenHashes
  coinbase : q.coinbase = some coinbase

/-- Two runs of the producing loop at the same point, the second having seen no more. -/
structure Shadows (p p' : ProductionProgress) : Prop where
  state : p'.state = p.state
  priorityFees : p'.totalPriorityFees = p.totalPriorityFees
  totalGasUsed : p'.totalGasUsed = p.totalGasUsed
  blockTxs : p'.blockTxs = p.blockTxs
  seenHashes : p'.seenHashes ⊆ p.seenHashes

/-- No user transaction executes under the coinbase kind. -/
theorem not_coinbase_of_apply {tx : Transaction} {s s' : ExecState} {gasUsed : Nat}
    (h : applyUserTransaction P ctx tx s = .ok gasUsed s') : tx.isCoinbase = false := by
  obtain ⟨-, -, s₁, receipt, s₂, -, hexec, -⟩ := apply_eq_ok.mp h
  cases hkind : tx.isCoinbase with
  | false => rfl
  | true =>
    have hk : tx.kind = .coinbase := by simpa [Transaction.isCoinbase] using hkind
    unfold executeKind at hexec
    rw [hk] at hexec
    exact absurd hexec (by simp [throw, throwThe, MonadExceptOf.throw, EStateM.throw])

/-- A kept transaction passes the validating loop. -/
theorem stepBlockTransaction_of_kept {coinbase tx : Transaction} {p : ProductionProgress}
    {q : BlockProgress} {index gasUsed : Nat} {state : ExecState} (hq : Mirrors P coinbase p q)
    (hchain : tx.chainId = g.chainId) (hcb : tx.hash P ≠ coinbase.hash P)
    (hseen : tx.hash P ∉ p.seenHashes)
    (happly : applyUserTransaction P ctx tx p.state = .ok gasUsed state)
    (hfits : satAdd p.totalGasUsed gasUsed ≤ g.blockGasLimit) :
    stepBlockTransaction P g ctx index tx q = .ok
      { state
        txHashes := insert (tx.hash P) q.txHashes
        priorityFees := satAdd p.totalPriorityFees
          (priorityFeeForTransaction tx gasUsed ctx.baseFeePerGas)
        totalGasUsed := satAdd p.totalGasUsed gasUsed
        coinbase := some coinbase } := by
  have hfresh : tx.hash P ∉ q.txHashes := by
    intro hmem
    rcases Finset.mem_insert.mp (hq.txHashes hmem) with h | h
    · exact hcb h
    · exact hseen h
  have hkind := not_coinbase_of_apply happly
  unfold stepBlockTransaction
  rw [if_neg (not_not.mpr hchain), if_neg hfresh]
  dsimp only
  rw [hkind, hq.state, happly]
  simp only [Bool.false_eq_true, ↓reduceIte]
  rw [hq.totalGasUsed, hq.priorityFees, hq.coinbase, if_neg (Nat.not_lt.mpr hfits)]

/-- **What the producing loop keeps, the validating loop executes to the same state**; and so
does a producing loop that is given nothing else. -/
theorem runPending_kept {coinbase : Transaction} {pending : List Transaction}
    {p : ProductionProgress} (hclean : SkipsCleanly P g ctx p pending)
    (hchain : ∀ tx ∈ pending, tx.chainId = g.chainId)
    (hcb : ∀ tx ∈ pending, tx.isCoinbase = false → tx.hash P ≠ coinbase.hash P) :
    ∃ kept, (pending.foldl (stepPending P g ctx) p).blockTxs = p.blockTxs ++ kept ∧
      (∀ index q, Mirrors P coinbase p q → ∃ q',
        runBlockTransactions P g ctx index kept q = .ok q' ∧
          Mirrors P coinbase (pending.foldl (stepPending P g ctx) p) q') ∧
      (∀ p', Shadows p p' → Shadows (pending.foldl (stepPending P g ctx) p)
        (kept.foldl (stepPending P g ctx) p')) := by
  induction pending generalizing p with
  | nil => exact ⟨[], by simp, fun index q hq => ⟨q, rfl, hq⟩, fun p' hp' => hp'⟩
  | cons tx rest ih =>
    obtain ⟨hone, hrest⟩ := hclean
    obtain ⟨kept, htxs, hvalid, hshadow⟩ := ih hrest
      (fun tx' h => hchain tx' (List.mem_cons_of_mem _ h))
      (fun tx' h => hcb tx' (List.mem_cons_of_mem _ h))
    rw [List.foldl_cons]
    rcases stepPending_cases hone with ⟨seen, hsub, hstep⟩ | ⟨gasUsed, state, hseen, happly, hfits,
      hstep⟩
    -- Skipped: only the hashes seen grow, and both loops ask for a subset of them.
    · rw [hstep] at htxs hvalid hshadow ⊢
      refine ⟨kept, htxs, ?_, ?_⟩
      · intro index q hq
        exact hvalid index q ⟨hq.state, hq.priorityFees, hq.totalGasUsed,
          hq.txHashes.trans (Finset.insert_subset_insert _ hsub), hq.coinbase⟩
      · intro p' hp'
        exact hshadow p' ⟨hp'.state, hp'.priorityFees, hp'.totalGasUsed, hp'.blockTxs,
          hp'.seenHashes.trans hsub⟩
    -- Kept: the three loops take the same step.
    · rw [hstep] at htxs hvalid hshadow ⊢
      have hmem : tx ∈ tx :: rest := List.mem_cons_self
      refine ⟨tx :: kept, by simpa using htxs, ?_, ?_⟩
      · intro index q hq
        unfold runBlockTransactions
        rw [stepBlockTransaction_of_kept hq (hchain tx hmem)
          (hcb tx hmem (not_coinbase_of_apply happly)) hseen happly hfits]
        refine hvalid (index + 1) _ ⟨rfl, rfl, rfl, ?_, rfl⟩
        rw [Finset.insert_comm]
        exact Finset.insert_subset_insert _ hq.txHashes
      · intro p' hp'
        rw [List.foldl_cons]
        refine hshadow _ ?_
        have hseen' : tx.hash P ∉ p'.seenHashes := fun h => hseen (hp'.seenHashes h)
        have hstep' : stepPending P g ctx p' tx =
            { state
              seenHashes := insert (tx.hash P) p'.seenHashes
              totalGasUsed := satAdd p.totalGasUsed gasUsed
              totalPriorityFees := satAdd p.totalPriorityFees
                (priorityFeeForTransaction tx gasUsed ctx.baseFeePerGas)
              blockTxs := p.blockTxs ++ [tx] } := by
          unfold stepPending
          rw [if_neg hseen']
          dsimp only
          rw [hp'.state, happly]
          dsimp only
          rw [hp'.totalGasUsed, hp'.priorityFees, hp'.blockTxs, if_pos hfits]
        rw [hstep']
        exact ⟨rfl, rfl, rfl, rfl, Finset.insert_subset_insert _ hp'.seenHashes⟩

/-! ## Governance does not stop a block

`process_block` panics when it passes a proposal under epoch length `0`. Which proposals are past
their deadline and approved is settled before the block: a vote on them comes too late. -/

namespace GovernanceState

variable {gov gov' : GovernanceState} {height : Nat}

/-- No proposal past its deadline is about to pass. -/
def NoneDue (gov : GovernanceState) (height : Nat) : Prop :=
  ∀ (id : Bytes) (proposal : Proposal), gov.proposals[id]? = some proposal →
    proposal.status = .active → proposal.votingDeadlineHeight < height → approved proposal = false

theorem NoneDue.insert {id : Bytes} {proposal : Proposal} (h : gov.NoneDue height)
    (hnew : proposal.status = .active → proposal.votingDeadlineHeight < height →
      approved proposal = false) :
    NoneDue { gov with proposals := gov.proposals.insert id proposal } height := by
  intro k p hp
  rw [KeyMap.getElem?_insert_eq] at hp
  split at hp
  · cases hp
    exact hnew
  · exact h k p hp

theorem NoneDue.submitProposal {proposer : Bytes} {params : SubmitProposalParams}
    {currentHeight epochLength : Nat} {stakes : ByteMap Nat} (h : gov.NoneDue height)
    (hsubmit : gov.submitProposal P proposer params currentHeight epochLength stakes = .ok gov') :
    gov'.NoneDue height := by
  unfold GovernanceState.submitProposal at hsubmit
  split at hsubmit
  · exact absurd hsubmit (by simp)
  · cases hsubmit
    refine h.insert ?_
    intro _ _
    rfl

theorem NoneDue.vote {voter id : Bytes} {choice : VoteChoice} (h : gov.NoneDue height)
    (hvote : gov.vote voter id choice height = .ok gov') : gov'.NoneDue height := by
  unfold GovernanceState.vote at hvote
  cases hp : gov.proposals[id]? with
  | none => rw [hp] at hvote; exact absurd hvote (by simp)
  | some proposal =>
    rw [hp] at hvote
    dsimp only at hvote
    split_ifs at hvote with hstatus hdeadline hvoted hstake
    cases hvote
    refine h.insert ?_
    intro _ hdue
    -- a vote past the deadline was refused above
    cases choice with
    | «for» => exact absurd hdue hdeadline
    | against => exact absurd hdue hdeadline

theorem processProposal_isSome {totalStake epochLength : Nat} {proposal : Proposal}
    (h : epochLength = 0 → proposal.status = .active → proposal.votingDeadlineHeight < height →
      approved proposal = false) :
    (processProposal height totalStake epochLength proposal).isSome = true := by
  by_cases hdue : proposal.Due height
  · unfold processProposal
    rw [hdue.1]
    dsimp only
    rw [if_pos hdue.2]
    split_ifs with hpass hzero
    · rw [h hzero hdue.1 hdue.2, Bool.and_false] at hpass
      exact absurd hpass (by simp)
    · rfl
    · rfl
  · exact processProposal_isSome_of_not_due hdue

theorem processBlock_isSome {totalStake epochLength : Nat}
    (h : epochLength = 0 → gov.NoneDue height) :
    ∃ gov', gov.processBlock height totalStake epochLength = some gov' :=
  processBlock_total fun id p hp => processProposal_isSome fun hzero => h hzero id p hp

end GovernanceState

/-- The governance state after a kind was executed: as before, or after one submission or vote. -/
theorem executeKind_governance {tx : Transaction} {s s' : ExecState} {r : Nat × Option Receipt}
    (h : executeKind P ctx tx s = .ok r s') :
    s'.governance = s.governance ∨ applySubmitProposal P ctx tx s = .ok s'.governance ∨
      applyGovernanceVote P ctx tx s = .ok s'.governance := by
  obtain ⟨gasUsed, receipt⟩ := r
  by_cases hevm : tx.isEvm = true
  · obtain ⟨_, _, _, -, -, -, rfl⟩ := executeKind_evm hevm h
    exact .inl rfl
  · cases nativeRun_of_ok (by simpa using hevm) h with
    | transfer | idle | token => exact .inl rfl
    | deploy _ hdeploy =>
      obtain ⟨-, contract, rfl⟩ := executeDeploy_eq_ok hdeploy
      exact .inl rfl
    | call _ hcall =>
      obtain ⟨-, contract, contract', -, rfl⟩ := executeCall_eq_ok hcall
      exact .inl rfl
    | governance _ hg => exact .inr hg

theorem governanceResult_eq_ok {r : Except GovernanceError GovernanceState}
    {gov : GovernanceState} (h : governanceResult r = .ok gov) : r = .ok gov := by
  cases r with
  | error e => exact absurd h (by simp [governanceResult])
  | ok gov' => cases h; rfl

theorem noneDue_apply {tx : Transaction} {s s' : ExecState} {gasUsed : Nat}
    (hdue : s.governance.NoneDue ctx.currentHeight)
    (h : applyUserTransaction P ctx tx s = .ok gasUsed s') :
    s'.governance.NoneDue ctx.currentHeight := by
  obtain ⟨-, -, s₁, receipt, s₂, hdebit, hexec, hsettle⟩ := apply_eq_ok.mp h
  obtain ⟨sender, -, rfl⟩ := debitSender_eq_ok.mp hdebit
  obtain ⟨-, price, -, rfl⟩ := settleFees_eq_ok.mp hsettle
  rcases executeKind_governance hexec with hsame | hsubmit | hvote
  · show s₂.governance.NoneDue ctx.currentHeight
    rw [hsame]
    exact hdue
  · unfold applySubmitProposal at hsubmit
    simp only [except_bind_eq_ok] at hsubmit
    obtain ⟨params, -, _, -, hsubmit⟩ := hsubmit
    exact hdue.submitProposal (governanceResult_eq_ok hsubmit)
  · unfold applyGovernanceVote at hvote
    simp only [except_bind_eq_ok] at hvote
    obtain ⟨params, -, _, -, hvote⟩ := hvote
    exact hdue.vote (governanceResult_eq_ok hvote)

theorem noneDue_runPending {pending : List Transaction} {p : ProductionProgress}
    (hclean : SkipsCleanly P g ctx p pending) (hdue : p.state.governance.NoneDue ctx.currentHeight) :
    (pending.foldl (stepPending P g ctx) p).state.governance.NoneDue ctx.currentHeight := by
  induction pending generalizing p with
  | nil => exact hdue
  | cons tx rest ih =>
    rw [List.foldl_cons]
    apply ih hclean.2
    rcases stepPending_cases hclean.1 with ⟨seen, -, hstep⟩ | ⟨gasUsed, state, -, happly, -, hstep⟩
    · rw [hstep]
      exact hdue
    · rw [hstep]
      exact noneDue_apply hdue happly

/-! ## Before the loops -/

namespace Blockchain

variable {c : Blockchain} {height : Nat}

/-- Settling the old epoch and unlocking commute, whatever the boundary. -/
theorem unlocks_settlementForBlock {snapshots : HeightMap EpochSnapshot} {producers : List Bytes}
    {accounts : ByteMap AccountState} {missed : ByteMap Nat} :
    applyUnstakeUnlocks
        (applyEpochSettlementForBlock g height snapshots producers accounts missed).1 height =
      (applyEpochSettlementForBlock g height snapshots producers
        (applyUnstakeUnlocks accounts height) missed).1 := by
  unfold applyEpochSettlementForBlock
  cases settlingEpoch g height with
  | none => rfl
  | some prevEpoch =>
    dsimp only
    cases snapshots[prevEpoch]? with
    | none => rfl
    | some snapshot => exact unlocks_settlement accounts _ height

/-- **Unlocking and then settling, as production does, is settling and then unlocking, as validation
and replay do**: the same accounts and the same missed epochs. -/
theorem settlement_commutes_with_unlocks (g : GenesisConfig) (height : Nat)
    (snapshots : HeightMap EpochSnapshot) (producers : List Bytes) (accounts : ByteMap AccountState)
    (missed : ByteMap Nat) :
    applyEpochSettlementForBlock g height snapshots producers (applyUnstakeUnlocks accounts height)
        missed =
      (applyUnstakeUnlocks
          (applyEpochSettlementForBlock g height snapshots producers accounts missed).1 height,
        (applyEpochSettlementForBlock g height snapshots producers accounts missed).2) := by
  refine Prod.ext unlocks_settlementForBlock.symm ?_
  -- the missed epochs are counted from the producers alone
  unfold applyEpochSettlementForBlock
  split
  · rfl
  · split <;> rfl

/-- **Both loops start from the same state.** -/
theorem startState_prepareEpoch :
    startState (c.prepareEpoch P height).execState height = c.productionStart P height := by
  rw [prepareEpoch_eq]
  unfold startState productionStart settledAt execState
  dsimp only
  rw [unlocks_settlementForBlock]

/-! ## The slot check -/

theorem selectValidator_of_nil {pos : ProofOfStake} {accounts : ByteMap AccountState}
    {blockHeight : Nat} {prevHash : Bytes} (h : pos.activeValidators accounts = []) :
    pos.selectValidator P accounts blockHeight prevHash = none := by
  unfold ProofOfStake.selectValidator
  dsimp only
  rw [h]
  rfl

/-- The slot check reads the snapshot, and the accounts only where there is none. -/
theorem authorizeProposer_congr {c' : Blockchain} {accounts accounts' : ByteMap AccountState}
    (hg : c'.genesisConfig = c.genesisConfig)
    (hs : c'.slashedValidators = c.slashedValidators)
    (hsnap : c'.snapshotForHeight accounts' height = c.snapshotForHeight accounts height)
    (hempty : c.snapshotForHeight accounts height = none →
      (c.genesisConfig.pos c.slashedValidators height).activeValidators accounts = [] ∧
      (c.genesisConfig.pos c.slashedValidators height).activeValidators accounts' = [])
    (publicKey prevHash : Bytes) (parentTimestamp timestamp : Int) :
    c'.authorizeProposer P accounts' publicKey height prevHash parentTimestamp timestamp =
      c.authorizeProposer P accounts publicKey height prevHash parentTimestamp timestamp := by
  unfold authorizeProposer ensureValidatorIsAuthorizedAtRank
  rw [hsnap, hg, hs]
  cases hc : c.snapshotForHeight accounts height with
  | some snapshot => rfl
  | none =>
    obtain ⟨hold, hnew⟩ := hempty hc
    rw [selectValidator_of_nil hold, selectValidator_of_nil hnew]

/-- The validators an account map has at `height`. -/
def validatorsAt (c : Blockchain) (accounts : ByteMap AccountState) (height : Nat) :
    List Validator :=
  (c.genesisConfig.pos c.slashedValidators height).activeValidators accounts

/-- Where the stored snapshot of the new epoch is empty, so that the leader is drawn from the
accounts, the settlement of the old epoch moves no validator. -/
def SettlementKeepsLeaders (P : Primitives) (c : Blockchain) (height : Nat) : Prop :=
  ∀ snapshot : EpochSnapshot, c.epochSnapshots[c.epochForHeight height]? = some snapshot →
    snapshot.validators = [] →
    c.validatorsAt (c.settledAt P height).1 height = c.validatorsAt c.accounts height

theorem liveSnapshot_eq_none {accounts : ByteMap AccountState} (hpos : 0 < height) :
    c.liveSnapshot accounts height = none ↔ c.validatorsAt accounts height = [] := by
  unfold liveSnapshot validatorsAt
  dsimp only
  split
  · next h => simpa using h.2
  · next h => simpa [hpos] using h

theorem liveSnapshot_congr {accounts accounts' : ByteMap AccountState}
    (h : c.validatorsAt accounts' height = c.validatorsAt accounts height) :
    c.liveSnapshot accounts' height = c.liveSnapshot accounts height := by
  unfold validatorsAt at h
  unfold liveSnapshot
  rw [h]

/-- No validators before the settlement, none after it. -/
theorem validatorsAt_settledAt (h : c.validatorsAt c.accounts height = []) :
    c.validatorsAt (c.settledAt P height).1 height = [] := by
  unfold settledAt applyEpochSettlementForBlock
  cases settlingEpoch c.genesisConfig height with
  | none => exact h
  | some epoch =>
    dsimp only
    cases c.epochSnapshots[epoch]? with
    | none => exact h
    | some snapshot => exact ProofOfStake.activeValidators_settlement h

theorem settledAt_of_not_boundary (h : height % c.genesisConfig.epochLen ≠ 0) :
    c.settledAt P height = (c.accounts, c.validatorMissedEpochs) := by
  unfold settledAt applyEpochSettlementForBlock
  rw [settlingEpoch_of_not_boundary (.inr h)]

/-- The snapshot a boundary stores is the live one, where that exists. -/
theorem snapshotForAccounts_boundary (hb : height % c.genesisConfig.epochLen = 0) :
    c.snapshotForAccounts (c.epochForHeight height) c.accounts =
      { epoch := c.epochForHeight height, startHeight := height
        validators := c.validatorsAt c.accounts height
        totalStake := totalStakeOf (c.validatorsAt c.accounts height) } := by
  have hstart : c.epochForHeight height * c.genesisConfig.epochLen = height :=
    Nat.div_mul_cancel (Nat.dvd_of_mod_eq_zero hb)
  unfold snapshotForAccounts buildEpochSnapshotForAccounts validatorsAt
  dsimp only
  rw [hstart]

theorem snapshotForHeight_prepareEpoch (hpos : 0 < height)
    (hkeep : c.SettlementKeepsLeaders P height) :
    (c.prepareEpoch P height).snapshotForHeight (c.settledAt P height).1 height =
      c.snapshotForHeight c.accounts height := by
  have hlive : ∀ accounts, (c.prepareEpoch P height).liveSnapshot accounts height =
      c.liveSnapshot accounts height := by
    intro accounts
    rw [prepareEpoch_eq]
    rfl
  have hepoch : (c.prepareEpoch P height).epochForHeight height = c.epochForHeight height := by
    rw [prepareEpoch_eq]
    rfl
  have hsnaps : (c.prepareEpoch P height).epochSnapshots =
      (c.ensureEpochSnapshot height).epochSnapshots := by rw [prepareEpoch_eq]
  unfold snapshotForHeight
  rw [hepoch, hsnaps, hlive]
  unfold ensureEpochSnapshot
  -- Preparing stores a snapshot only at a boundary whose epoch has none.
  cases hstored : c.epochSnapshots[c.epochForHeight height]? with
  | some snapshot =>
    have hmem : c.epochForHeight height ∈ c.epochSnapshots := by
      rw [Std.ExtTreeMap.mem_iff_isSome_getElem?, hstored]
      rfl
    rw [if_neg fun h => h.2.2 hmem, hstored]
    dsimp only
    split
    · next hnil => exact liveSnapshot_congr (hkeep snapshot hstored (by simpa using hnil))
    · rfl
  | none =>
    have hmem : c.epochForHeight height ∉ c.epochSnapshots := by
      rw [Std.ExtTreeMap.mem_iff_isSome_getElem?, hstored]
      simp
    by_cases hb : height % c.genesisConfig.epochLen = 0
    · rw [if_pos ⟨hpos, hb, hmem⟩]
      unfold createEpochSnapshotFromAccounts
      dsimp only
      rw [KeyMap.getElem?_insert_eq, if_pos rfl, snapshotForAccounts_boundary hb]
      dsimp only
      cases hnil : c.validatorsAt c.accounts height with
      | nil =>
        rw [if_pos List.isEmpty_nil, (liveSnapshot_eq_none hpos).mpr hnil]
        exact (liveSnapshot_eq_none hpos).mpr (validatorsAt_settledAt hnil)
      | cons v vs =>
        rw [if_neg (by simp)]
        unfold validatorsAt at hnil
        unfold liveSnapshot
        dsimp only
        rw [hnil, if_pos ⟨hpos, by simp⟩]
    · rw [if_neg fun h => hb h.2.1, hstored, settledAt_of_not_boundary hb]

/-- **Producer and validator make the same slot check.** -/
theorem authorizeProposer_prepareEpoch (hpos : 0 < height)
    (hkeep : c.SettlementKeepsLeaders P height) (publicKey prevHash : Bytes)
    (parentTimestamp timestamp : Int) :
    (c.prepareEpoch P height).authorizeProposer P (c.prepareEpoch P height).accounts publicKey height
        prevHash parentTimestamp timestamp =
      c.authorizeProposer P c.accounts publicKey height prevHash parentTimestamp timestamp := by
  have hacc : (c.prepareEpoch P height).accounts = (c.settledAt P height).1 := by
    rw [prepareEpoch_eq]
  rw [hacc]
  apply authorizeProposer_congr
  · rw [prepareEpoch_eq]
  · rw [prepareEpoch_eq]
  · exact snapshotForHeight_prepareEpoch hpos hkeep
  · intro hnone
    have hnil : c.validatorsAt c.accounts height = [] := by
      unfold snapshotForHeight at hnone
      split at hnone
      · split at hnone
        · exact (liveSnapshot_eq_none hpos).mp hnone
        · exact absurd hnone (by simp)
      · exact (liveSnapshot_eq_none hpos).mp hnone
    exact ⟨hnil, validatorsAt_settledAt hnil⟩

end Blockchain

/-! ## The coinbase is nobody's transaction -/

theorem transactionKind_coinbase {kind : TransactionKind}
    (h : Bincode.transactionKind kind = Bincode.transactionKind .coinbase) : kind = .coinbase := by
  cases kind <;> first | rfl | exact absurd h (by decide)

theorem length_transactionKind (kind : TransactionKind) :
    (Bincode.transactionKind kind).length = 4 := by
  cases kind <;> rfl

/-- The kind is in the signed bytes, right after the chain id. -/
theorem signableBytes_ne_coinbase {tx coinbase : Transaction}
    (hchain : tx.chainId = coinbase.chainId) (hcb : coinbase.kind = .coinbase)
    (hkind : tx.isCoinbase = false) : tx.signableBytes ≠ coinbase.signableBytes := by
  intro h
  unfold Transaction.signableBytes at h
  rw [hchain, hcb] at h
  simp only [List.append_assoc, List.append_cancel_left_eq] at h
  have hlen := (length_transactionKind tx.kind).trans (length_transactionKind .coinbase).symm
  have hk := transactionKind_coinbase (List.append_inj_left h hlen)
  exact absurd hkind (by simp [Transaction.isCoinbase, hk])

/-- The hash tells these two messages apart. -/
def NoCollision (P : Primitives) (a b : Bytes) : Prop := P.sha3 a = P.sha3 b → a = b

namespace Blockchain

variable {c : Blockchain} {now : Int} {keypair : KeyPair} {block : Block}

/-! ## Produced blocks -/

/-- The height the next block gets, and its base fee. -/
def nextHeight (c : Blockchain) : Nat := c.latestBlock.header.height + 1

def nextBaseFee (c : Blockchain) : Nat := c.nextBaseFeePerGas c.latestBlock

/-- Where the production loop starts and where it ends. -/
def productionInit (P : Primitives) (c : Blockchain) : ProductionProgress :=
  { state := c.productionStart P c.nextHeight, seenHashes := ∅, totalPriorityFees := 0
    totalGasUsed := 0, blockTxs := [] }

def produced (P : Primitives) (c : Blockchain) : ProductionProgress :=
  c.runPending P c.nextHeight c.nextBaseFee

def producedCoinbase (P : Primitives) (c : Blockchain) (now : Int) (keypair : KeyPair) :
    Transaction :=
  c.coinbaseFor P now keypair.publicKey (c.produced P).totalPriorityFees

theorem createBlock_eq_ok :
    c.createBlock P now keypair = .ok block ↔
      c.authorizeProposer P c.accounts keypair.publicKey c.nextHeight c.latestBlock.hash
          c.latestBlock.header.timestamp now = .ok () ∧
        ∃ accounts, applyCoinbaseTransaction (c.produced P).state.accounts
            (c.producedCoinbase P now keypair) = .ok accounts ∧
          block = Block.new P (c.protocolVersionAtHeight c.nextHeight) c.nextHeight
            c.latestBlock.hash
            (StateRoot.computeAtProtocol P accounts (c.produced P).state.contracts
              (c.protocolVersionAtHeight c.nextHeight))
            (c.produced P).totalGasUsed c.nextBaseFee
            (c.producedCoinbase P now keypair :: (c.produced P).blockTxs) keypair now := by
  unfold createBlock
  simp only [except_bind_eq_ok]
  constructor
  · rintro ⟨_, hauth, accounts, hcb, hblock⟩
    cases hblock
    exact ⟨hauth, accounts, hcb, rfl⟩
  · rintro ⟨hauth, accounts, hcb, rfl⟩
    exact ⟨(), hauth, accounts, hcb, rfl⟩

/-- What it takes for the producer's block to be the validator's: a clock that has not gone back,
skipped transactions without a mark, a settlement that does not move the leader of an epoch
without a snapshot, and no proposal that passes under epoch length zero. -/
structure ProducesCleanly (P : Primitives) (c : Blockchain) (now : Int) : Prop where
  clock : c.latestBlock.header.timestamp ≤ now
  skips : SkipsCleanly P c.genesisConfig (c.txContext c.nextHeight c.nextBaseFee)
    (c.productionInit P) c.pendingTransactions
  leaders : c.SettlementKeepsLeaders P c.nextHeight
  governance : c.genesisConfig.epochLength = 0 → c.governance.NoneDue c.nextHeight

/-- The header of a new block passes. -/
theorem checkHeader_new {gasUsed : Nat} {stateRoot : Bytes} {transactions : List Transaction}
    (hsign : ∀ m, P.dilithiumVerify m (keypair.sign P m) keypair.publicKey = true)
    (hclock : c.latestBlock.header.timestamp ≤ now) :
    c.checkHeader P now
      (Block.new P (c.protocolVersionAtHeight c.nextHeight) c.nextHeight c.latestBlock.hash stateRoot
        gasUsed c.nextBaseFee transactions keypair now) c.latestBlock = .ok () := by
  unfold checkHeader
  simp only [except_bind_eq_ok, ensure_eq_ok, decide_eq_true_eq]
  refine ⟨(), rfl, (), rfl, (), ?_, (), ?_, (), ?_, (), ⟨hclock, ?_⟩, (), rfl, rfl⟩
  · simp [Block.new, Block.verifyHash]
  · simp [Block.new, Block.verifyMerkleRoot]
  · unfold Block.verifySignature
    split
    · next hzero => exact absurd hzero (Nat.succ_ne_zero _)
    · exact hsign _
  · show now ≤ now + MAX_FUTURE_BLOCK_TIME_SECS
    unfold MAX_FUTURE_BLOCK_TIME_SECS
    omega

/-- The coinbase opens the validating loop. -/
theorem stepBlockTransaction_coinbase {coinbase : Transaction} {state : ExecState}
    {ctx : TxContext} (hchain : coinbase.chainId = g.chainId) (hkind : coinbase.isCoinbase = true) :
    stepBlockTransaction P g ctx 0 coinbase
        { state, txHashes := ∅, priorityFees := 0, totalGasUsed := 0, coinbase := none } =
      .ok { state, txHashes := {coinbase.hash P}, priorityFees := 0, totalGasUsed := 0
            coinbase := some coinbase } := by
  unfold stepBlockTransaction
  rw [if_neg (not_not.mpr hchain), if_neg (Finset.notMem_empty _)]
  dsimp only
  rw [if_pos hkind, if_neg (by simp), if_neg (by simp)]
  rfl

/-- What is left to check once the validating loop stands where the producing loop stands. -/
theorem finishBlock_of_mirrors {coinbase : Transaction} {p : ProductionProgress}
    {q : BlockProgress} {accounts : ByteMap AccountState} (hq : Mirrors P coinbase p q)
    (hdue : c.genesisConfig.epochLength = 0 → p.state.governance.NoneDue block.header.height)
    (hgas : block.header.gasUsed = p.totalGasUsed)
    (hto : coinbase.to = addressBytesFromPublicKey P block.header.validatorPublicKey)
    (hamount : coinbase.amount = satAdd c.genesisConfig.blockReward p.totalPriorityFees)
    (happly : applyCoinbaseTransaction p.state.accounts coinbase = .ok accounts)
    (hroot : block.header.stateRoot = StateRoot.computeAtProtocol P accounts p.state.contracts
      (c.protocolVersionAtHeight block.header.height)) :
    ∃ s, c.finishBlock P block q = .ok s := by
  obtain ⟨gov, hgov⟩ := @GovernanceState.processBlock_isSome p.state.governance block.header.height
    (c.activeValidatorTotalStake p.state.accounts block.header.height)
    c.genesisConfig.epochLength hdue
  have hprocess : c.processGovernance q.state block.header.height =
      .ok { p.state with governance := gov } := by
    unfold processGovernance
    rw [hq.state, hgov]
  refine ⟨{ p.state with governance := gov, accounts }, ?_⟩
  unfold finishBlock
  simp only [except_bind_eq_ok, ensure_eq_ok]
  refine ⟨_, hprocess, (), ?_, ?_⟩
  · rw [hq.totalGasUsed]
    exact decide_eq_true hgas
  · rw [hq.coinbase]
    simp only [except_bind_eq_ok, ensure_eq_ok, decide_eq_true_eq]
    refine ⟨(), hto, (), ?_, accounts, happly, (), hroot, rfl⟩
    rw [hq.priorityFees]
    exact hamount

end Blockchain

open Blockchain in
/-- **A produced block is accepted.** On every reachable chain that produces cleanly, the block
`create_block` returns is accepted by `add_block` at the same clock reading; and it is the block
the chain would have produced had the transactions it passed over not been pending. -/
theorem produced_block_accepted {c : Blockchain} {now : Int} {keypair : KeyPair} {block : Block}
    (hreach : c.Reachable P)
    (hsign : ∀ m, P.dilithiumVerify m (keypair.sign P m) keypair.publicKey = true)
    (hhash : ∀ tx ∈ c.pendingTransactions, ∀ coinbase ∈ block.transactions.head?,
      NoCollision P tx.signableBytes coinbase.signableBytes)
    (hclean : c.ProducesCleanly P now) (h : c.createBlock P now keypair = .ok block) :
    (c.addBlock P now block).1 = .ok () ∧
      { c with pendingTransactions := block.transactions.tail }.createBlock P now keypair =
        .ok block := by
  obtain ⟨hauth, accounts, hcoinbase, hblock⟩ := createBlock_eq_ok.mp h
  set coinbase := c.producedCoinbase P now keypair with hcb
  have hchain : coinbase.chainId = c.genesisConfig.chainId := rfl
  have hdistinct : ∀ tx ∈ c.pendingTransactions, tx.isCoinbase = false →
      tx.hash P ≠ coinbase.hash P := by
    intro tx htx hkind heq
    refine signableBytes_ne_coinbase ((hreach.poolOfChain tx htx).trans hchain.symm) rfl hkind ?_
    exact hhash tx htx coinbase (by rw [hblock]; rfl) heq
  obtain ⟨kept, hkept, hvalid, hshadow⟩ :=
    runPending_kept hclean.skips hreach.poolOfChain hdistinct
  have hend : c.pendingTransactions.foldl (stepPending P c.genesisConfig
      (c.txContext c.nextHeight c.nextBaseFee)) (c.productionInit P) = c.produced P := rfl
  rw [hend] at hkept hvalid hshadow
  have hkept : (c.produced P).blockTxs = kept := hkept
  constructor
  · -- the header, the slot and the loop pass on the prepared chain
    set prepared := c.prepareEpoch P c.nextHeight with hprepared
    have hg : prepared.genesisConfig = c.genesisConfig := prepareEpoch_genesisConfig _
    have hlatest : prepared.latestBlock = c.latestBlock := latestBlock_congr (prepareEpoch_spine _)
    have hheight : block.header.height = c.nextHeight := by rw [hblock]; rfl
    have hslashed : prepared.slashedValidators = c.slashedValidators := by
      rw [hprepared, prepareEpoch_eq]
    have hheader : prepared.checkHeader P now block prepared.latestBlock = .ok () := by
      rw [hlatest, checkHeader_congr hg, hblock]
      exact checkHeader_new hsign hclean.clock
    have hslot : prepared.authorizeProposer P prepared.execState.accounts
        block.header.validatorPublicKey block.header.height block.header.prevHash
        prepared.latestBlock.header.timestamp block.header.timestamp = .ok () := by
      rw [hlatest, hblock]
      exact (authorizeProposer_prepareEpoch (Nat.succ_pos _) hclean.leaders _ _ _ _).trans hauth
    obtain ⟨q, hrun, hq⟩ := hvalid 1
      { state := c.productionStart P c.nextHeight, txHashes := {coinbase.hash P}
        priorityFees := 0, totalGasUsed := 0, coinbase := some coinbase }
      ⟨rfl, rfl, rfl, by simp [productionInit], rfl⟩
    have hloop : runBlockTransactions P prepared.genesisConfig
        (prepared.txContext block.header.height block.header.baseFeePerGas) 0 block.transactions
        { state := startState prepared.execState block.header.height, txHashes := ∅
          priorityFees := 0, totalGasUsed := 0, coinbase := none } = .ok q := by
      rw [hheight, startState_prepareEpoch, txContext_congr hg, hg, hblock]
      show runBlockTransactions P c.genesisConfig (c.txContext c.nextHeight c.nextBaseFee) 0
        (coinbase :: (c.produced P).blockTxs) _ = .ok q
      rw [hkept, runBlockTransactions, stepBlockTransaction_coinbase hchain rfl]
      exact hrun
    have hdue : c.genesisConfig.epochLength = 0 →
        (c.produced P).state.governance.NoneDue block.header.height := by
      intro hzero
      rw [hheight]
      exact noneDue_runPending hclean.skips (hclean.governance hzero)
    obtain ⟨s, hfinish⟩ : ∃ s, c.finishBlock P block q = .ok s :=
      finishBlock_of_mirrors hq hdue (by rw [hblock]; rfl) (by rw [hblock]; rfl) rfl hcoinbase
        (by rw [hblock]; rfl)
    have hvalidated : prepared.validateBlockAgainstState P now block prepared.latestBlock
        prepared.execState = .ok s := by
      rw [validate_eq_ok]
      exact ⟨hheader, hslot, q, hloop, by rw [finishBlock_congr hg hslashed]; exact hfinish⟩
    unfold addBlock
    rw [hheight]
    dsimp only
    rw [hvalidated]
    rfl
  · -- the kept transactions alone take the loop to the same point
    have htail : block.transactions.tail = kept := by
      rw [hblock, ← hkept]
      rfl
    rw [htail]
    set alone : Blockchain := { c with pendingTransactions := kept } with halone
    have hsame : Shadows (c.produced P) (alone.produced P) :=
      hshadow _ ⟨rfl, rfl, rfl, rfl, subset_rfl⟩
    have hcoinbase' : alone.producedCoinbase P now keypair = coinbase := by
      unfold producedCoinbase
      rw [hsame.priorityFees]
      rfl
    rw [createBlock_eq_ok]
    refine ⟨hauth, accounts, ?_, ?_⟩
    · rw [hsame.state, hcoinbase']
      exact hcoinbase
    · rw [hsame.state, hcoinbase', hsame.totalGasUsed, hsame.blockTxs]
      exact hblock

namespace PoolSample

open Scenario

/-- Two funded accounts, nobody at stake, and room for one transfer in a block. -/
def genesis : GenesisConfig where
  chainId := [1]
  blockGasLimit := 30000
  allocations := [allocation 1 1000000 0, allocation 2 1000000 0]

def addressOf (n : UInt8) : Bytes := addressBytesFromPublicKey Reference.primitives (key n).publicKey

/-- Five units from `sender` to `recipient`, signed. -/
def payment (sender recipient : UInt8) : Transaction :=
  Transaction.sign Reference.primitives
    { chainId := [1]
      kind := .transfer
      «from» := addressOf sender
      senderPublicKey := (key sender).publicKey
      «to» := addressOf recipient
      amount := 5
      fee := 1
      maxFeePerGas := 0
      maxPriorityFeePerGas := 0
      nonce := 0
      timestamp := clock 1
      signature := none
      gasLimit := 0
      data := []
      evmRawTx := [] }
    (key sender)

def pooled (c : Blockchain) (txs : List Transaction) : Blockchain :=
  txs.foldl (fun c tx => (c.addTransaction Reference.primitives (clock 1) tx).2) c

theorem reachable_pooled {c : Blockchain} (h : c.Reachable Reference.primitives)
    (txs : List Transaction) : (pooled c txs).Reachable Reference.primitives := by
  induction txs generalizing c with
  | nil => exact h
  | cons tx rest ih => exact ih (.addTransaction (clock 1) tx h)

/-- The parts of a clean production that are computed here; nothing is at a boundary. -/
def cleanHere (c : Blockchain) (block : Block) : Bool :=
  c.latestBlock.header.timestamp ≤ clock 1 ∧ c.genesisConfig.epochLength ≠ 0 ∧
    c.nextHeight % c.genesisConfig.epochLen ≠ 0 ∧
    SkipsCleanly Reference.primitives c.genesisConfig (c.txContext c.nextHeight c.nextBaseFee)
      (c.productionInit Reference.primitives) c.pendingTransactions ∧
    c.pendingTransactions.all fun tx => block.transactions.head?.all fun coinbase =>
      tx.hash Reference.primitives ≠ coinbase.hash Reference.primitives

end PoolSample

open PoolSample Scenario Blockchain in
/-- One pending transfer: the block of account 1 holds it and is accepted. -/
theorem produced_block_accepted_transfer : ∃ (c : Blockchain) (block : Block),
    c.createBlock Reference.primitives (clock 1) (key 1) = .ok block ∧
      block.transactions.tail = [payment 1 2] ∧
      (c.addBlock Reference.primitives (clock 1) block).1 = .ok () ∧
      { c with pendingTransactions := block.transactions.tail }.createBlock Reference.primitives
        (clock 1) (key 1) = .ok block := by
  have hrun : (fromGenesis Reference.primitives genesis).toOption.any (fun c =>
      ((pooled c [payment 1 2]).createBlock Reference.primitives (clock 1) (key 1)).toOption.any
        fun block => cleanHere (pooled c [payment 1 2]) block &&
          decide (block.transactions.tail = [payment 1 2])) = true := by
    decide +kernel
  obtain ⟨c₀, hc₀, hblock⟩ := Outcome.ok_of_any hrun
  obtain ⟨block, hcreate, hall⟩ := Outcome.ok_of_any hblock
  rw [Bool.and_eq_true, decide_eq_true_eq] at hall
  obtain ⟨hclean, htail⟩ := hall
  unfold cleanHere at hclean
  simp only [decide_eq_true_eq] at hclean
  obtain ⟨hclock, hlength, hboundary, hskips, hhash⟩ := hclean
  refine ⟨_, block, hcreate, htail, ?_⟩
  have hsign : ∀ m, Reference.primitives.dilithiumVerify m ((key 1).sign Reference.primitives m)
      (key 1).publicKey = true := Reference.verify_sign [1]
  apply produced_block_accepted (reachable_pooled (Reachable.fromGenesis hc₀) [payment 1 2]) hsign
  · intro tx htx coinbase hcb heq
    have hne := List.all_eq_true.mp hhash tx htx
    rw [Option.mem_def.mp hcb, Option.all_some, decide_eq_true_eq] at hne
    exact absurd heq hne
  · refine ⟨hclock, hskips, ?_, fun hzero => absurd hzero hlength⟩
    intro snapshot _ _
    rw [settledAt_of_not_boundary hboundary]
  · exact hcreate

open PoolSample Scenario in
/-- Two pending transfers of 21000 gas under a limit of 30000: the second is left out, but its
debit and credit stay in the state the producer puts its root on, and the block is rejected. -/
theorem left_out_transfer_spoils_root :
    ¬ ∀ (P : Primitives) (g : GenesisConfig) (c₀ : Blockchain), fromGenesis P g = .ok c₀ →
        ∀ (now : Int) (txs : List Transaction) (keypair : KeyPair) (c : Blockchain) (block : Block),
          (∀ m, P.dilithiumVerify m (keypair.sign P m) keypair.publicKey = true) →
          c = txs.foldl (fun c tx => (c.addTransaction P now tx).2) c₀ →
          c.createBlock P now keypair = .ok block → (c.addBlock P now block).1 = .ok () := by
  intro h
  have hrun : (fromGenesis Reference.primitives genesis).toOption.any (fun c₀ =>
      let c := pooled c₀ [payment 1 2, payment 2 1]
      (c.createBlock Reference.primitives (clock 1) (key 1)).toOption.any fun block =>
        decide (c.pendingTransactions.length = 2) &&
          (c.addBlock Reference.primitives (clock 1) block).1.toOption.isNone) = true := by
    decide +kernel
  obtain ⟨c₀, hc₀, hblock⟩ := Outcome.ok_of_any hrun
  obtain ⟨block, hcreate, hall⟩ := Outcome.ok_of_any hblock
  have hok := h Reference.primitives genesis c₀ hc₀ (clock 1) [payment 1 2, payment 2 1] (key 1) _
    block (Reference.verify_sign _) rfl hcreate
  have hrej := (Bool.and_eq_true _ _ |>.mp hall).2
  rw [show (Blockchain.addBlock Reference.primitives (pooled c₀ [payment 1 2, payment 2 1])
    (clock 1) block).1 = .ok () from hok] at hrej
  exact absurd hrej (by simp [Except.toOption])

end Curs3d
