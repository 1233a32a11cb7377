import Curs3d.Proof.Spine

/-!
# What validation reads of the chain

`validateBlockAgainstState` takes the parent block and the parent state as arguments; of the chain
it is called on it reads the configuration, the slashed set and one epoch snapshot, the one of the
block's own epoch. Two chains that agree on these three accept the same blocks with the same
outcome (`validate_congr`), whatever else they hold.
-/

set_option autoImplicit false

namespace Curs3d

open Outcome

namespace Blockchain

variable {P : Primitives} {c c' : Blockchain}

theorem protocolVersionAtHeight_congr (hg : c'.genesisConfig = c.genesisConfig) (height : Nat) :
    c'.protocolVersionAtHeight height = c.protocolVersionAtHeight height := by
  unfold protocolVersionAtHeight
  rw [hg]

theorem nextBaseFeePerGas_congr (hg : c'.genesisConfig = c.genesisConfig) (parent : Block) :
    c'.nextBaseFeePerGas parent = c.nextBaseFeePerGas parent := by
  unfold nextBaseFeePerGas targetBlockGasUsage
  rw [hg]

theorem epochForHeight_congr (hg : c'.genesisConfig = c.genesisConfig) (height : Nat) :
    c'.epochForHeight height = c.epochForHeight height := by
  unfold epochForHeight
  rw [hg]

theorem checkHeader_congr (hg : c'.genesisConfig = c.genesisConfig) (now : Int)
    (block parent : Block) :
    c'.checkHeader P now block parent = c.checkHeader P now block parent := by
  unfold checkHeader
  simp only [protocolVersionAtHeight_congr hg, nextBaseFeePerGas_congr hg]

theorem txContext_congr (hg : c'.genesisConfig = c.genesisConfig) (height baseFee : Nat) :
    c'.txContext height baseFee = c.txContext height baseFee := by
  unfold txContext
  rw [hg]

theorem finishBlock_congr (hg : c'.genesisConfig = c.genesisConfig)
    (hs : c'.slashedValidators = c.slashedValidators) (block : Block) (q : BlockProgress) :
    c'.finishBlock P block q = c.finishBlock P block q := by
  unfold finishBlock processGovernance activeValidatorTotalStake
  simp only [protocolVersionAtHeight_congr hg, hg, hs]

theorem snapshotForHeight_congr (hg : c'.genesisConfig = c.genesisConfig)
    (hs : c'.slashedValidators = c.slashedValidators) {height : Nat}
    (hsnap : c'.epochSnapshots[c.epochForHeight height]? = c.epochSnapshots[c.epochForHeight height]?)
    (accounts : ByteMap AccountState) :
    c'.snapshotForHeight accounts height = c.snapshotForHeight accounts height := by
  unfold snapshotForHeight
  rw [epochForHeight_congr hg, hsnap]
  unfold liveSnapshot
  simp only [epochForHeight_congr hg, hg, hs]

theorem authorizeProposer_eq (hg : c'.genesisConfig = c.genesisConfig)
    (hs : c'.slashedValidators = c.slashedValidators) {height : Nat}
    (hsnap : c'.epochSnapshots[c.epochForHeight height]? = c.epochSnapshots[c.epochForHeight height]?)
    (accounts : ByteMap AccountState) (publicKey prevHash : Bytes)
    (parentTimestamp timestamp : Int) :
    c'.authorizeProposer P accounts publicKey height prevHash parentTimestamp timestamp =
      c.authorizeProposer P accounts publicKey height prevHash parentTimestamp timestamp := by
  unfold authorizeProposer ensureValidatorIsAuthorizedAtRank
  simp only [snapshotForHeight_congr hg hs hsnap, hg, hs]

/-- **Validation reads the configuration, the slashed set and one snapshot of the chain.** -/
theorem validate_congr {block : Block} (hg : c'.genesisConfig = c.genesisConfig)
    (hs : c'.slashedValidators = c.slashedValidators)
    (hsnap : c'.epochSnapshots[c.epochForHeight block.header.height]? =
      c.epochSnapshots[c.epochForHeight block.header.height]?)
    (now : Int) (parent : Block) (parentState : ExecState) :
    c'.validateBlockAgainstState P now block parent parentState =
      c.validateBlockAgainstState P now block parent parentState := by
  unfold validateBlockAgainstState
  simp only [checkHeader_congr hg, authorizeProposer_eq hg hs hsnap, txContext_congr hg,
    finishBlock_congr hg hs, hg]

/-! ## The four parts of a validation -/

theorem validate_eq_ok {now : Int} {block parent : Block} {parentState s : ExecState} :
    c.validateBlockAgainstState P now block parent parentState = .ok s ↔
      c.checkHeader P now block parent = .ok () ∧
      c.authorizeProposer P parentState.accounts block.header.validatorPublicKey
        block.header.height block.header.prevHash parent.header.timestamp
        block.header.timestamp = .ok () ∧
      ∃ q, runBlockTransactions P c.genesisConfig
          (c.txContext block.header.height block.header.baseFeePerGas) 0 block.transactions
          { state := startState parentState block.header.height, txHashes := ∅, priorityFees := 0
            totalGasUsed := 0, coinbase := none } = .ok q ∧
        c.finishBlock P block q = .ok s := by
  unfold validateBlockAgainstState
  simp only [except_bind_eq_ok]
  constructor
  · rintro ⟨_, hheader, _, hauth, q, hrun, hfinish⟩
    exact ⟨hheader, hauth, q, hrun, hfinish⟩
  · rintro ⟨hheader, hauth, q, hrun, hfinish⟩
    exact ⟨(), hheader, (), hauth, q, hrun, hfinish⟩

/-- A block that is valid at one reading of the clock is valid at every later one. -/
theorem validate_later {now later : Int} (hle : now ≤ later) {block parent : Block}
    {parentState s : ExecState}
    (h : c.validateBlockAgainstState P now block parent parentState = .ok s) :
    c.validateBlockAgainstState P later block parent parentState = .ok s := by
  rw [validate_eq_ok] at h ⊢
  refine ⟨?_, h.2⟩
  have hheader := h.1
  unfold checkHeader at hheader ⊢
  simp only [except_bind_eq_ok, ensure_eq_ok, decide_eq_true_eq] at hheader ⊢
  obtain ⟨u₁, h₁, u₂, h₂, u₃, h₃, u₄, h₄, u₅, h₅, u₆, ⟨hmin, hmax⟩, hrest⟩ := hheader
  exact ⟨u₁, h₁, u₂, h₂, u₃, h₃, u₄, h₄, u₅, h₅, u₆, ⟨hmin, by omega⟩, hrest⟩

/-! ## What `add_block` does before it validates -/

variable {height : Nat}

theorem settlingEpoch_ne {g : GenesisConfig} {epoch : Nat} (h : settlingEpoch g height = some epoch) :
    epoch ≠ height / g.epochLen := by
  unfold settlingEpoch at h
  dsimp only at h
  split at h
  · exact absurd h (by simp)
  · next hcond =>
    cases h
    omega

/-- The snapshot a boundary stores is not the one it settles. -/
theorem settlement_ensureEpochSnapshot {producers : List Bytes} {accounts : ByteMap AccountState}
    {missed : ByteMap Nat} :
    applyEpochSettlementForBlock c.genesisConfig height (c.ensureEpochSnapshot height).epochSnapshots
        producers accounts missed =
      applyEpochSettlementForBlock c.genesisConfig height c.epochSnapshots producers accounts
        missed := by
  unfold applyEpochSettlementForBlock
  cases hs : settlingEpoch c.genesisConfig height with
  | none => rfl
  | some epoch =>
    have hlookup : (c.ensureEpochSnapshot height).epochSnapshots[epoch]? =
        c.epochSnapshots[epoch]? := by
      unfold ensureEpochSnapshot
      split
      · exact KeyMap.getElem?_insert_ne _ _ (Ne.symm (settlingEpoch_ne hs))
      · rfl
    dsimp only
    rw [hlookup]

/-- The accounts and counters after the settlement of the epoch that ends before `height`. -/
def settledAt (P : Primitives) (c : Blockchain) (height : Nat) :
    ByteMap AccountState × ByteMap Nat :=
  applyEpochSettlementForBlock c.genesisConfig height c.epochSnapshots
    (c.proposerAddressesForSettlingEpoch P height) c.accounts c.validatorMissedEpochs

/-- Everything `add_block` does before it validates, field by field. -/
theorem prepareEpoch_eq : c.prepareEpoch P height =
    { c with
      epochSnapshots := (c.ensureEpochSnapshot height).epochSnapshots
      accounts := (c.settledAt P height).1
      validatorMissedEpochs := (c.settledAt P height).2 } := by
  obtain ⟨snapshots, hs⟩ : ∃ snapshots,
      c.ensureEpochSnapshot height = { c with epochSnapshots := snapshots } := by
    unfold ensureEpochSnapshot
    split
    · exact ⟨_, rfl⟩
    · exact ⟨_, rfl⟩
  have hsettled := @settlement_ensureEpochSnapshot c height
    (c.proposerAddressesForSettlingEpoch P height) c.accounts c.validatorMissedEpochs
  unfold prepareEpoch settledAt
  rw [← hsettled, hs]
  rfl

end Blockchain

end Curs3d
