import Curs3d.Chain.State
import Curs3d.Crypto.Reference

/-!
# The base fee rule

`next_base_fee_per_gas` moves the parent's fee by `feeChange`, up when the parent used more gas than the
target and down when it used less. The change grows with the distance from the target and with the fee,
but never faster than the fee itself (`feeChange_le_add`), which is why a higher parent fee never leads to a
lower fee (`base_fee_rule`).
-/

set_option autoImplicit false

namespace Curs3d

open U64

/-! ## The change -/

/-- What the fee moves by when the gas used is `delta` away from the target. -/
def feeChange (fee delta divisor : Nat) : Nat := max (satMul (max fee 1) delta / divisor) 1

section Change

variable {fee fee' delta delta' divisor : Nat}

theorem one_le_feeChange : 1 ≤ feeChange fee delta divisor := Nat.le_max_right _ _

theorem feeChange_mono_delta (h : delta ≤ delta') :
    feeChange fee delta divisor ≤ feeChange fee delta' divisor := by
  have hproduct : satMul (max fee 1) delta ≤ satMul (max fee 1) delta' :=
    min_le_min_right _ (Nat.mul_le_mul_left _ h)
  exact max_le_max_right _ (Nat.div_le_div_right hproduct)

theorem feeChange_mono_fee (h : fee ≤ fee') :
    feeChange fee delta divisor ≤ feeChange fee' delta divisor := by
  have hproduct : satMul (max fee 1) delta ≤ satMul (max fee' 1) delta :=
    min_le_min_right _ (Nat.mul_le_mul_right _ (max_le_max_right _ h))
  exact max_le_max_right _ (Nat.div_le_div_right hproduct)

/-- The change grows no faster than the fee, as long as the distance is within the divisor. -/
theorem feeChange_le_add (hpos : 0 < divisor) (hdelta : delta ≤ divisor) (hfee : 0 < fee)
    (h : fee ≤ fee') : feeChange fee' delta divisor ≤ feeChange fee delta divisor + (fee' - fee) := by
  have hmax : max fee 1 = fee := Nat.max_eq_left hfee
  have hmax' : max fee' 1 = fee' := Nat.max_eq_left (by omega)
  have hsum : fee' * delta = fee * delta + (fee' - fee) * delta := by
    rw [← Nat.add_mul]
    congr 1
    omega
  have hstep : (fee' - fee) * delta ≤ (fee' - fee) * divisor := Nat.mul_le_mul_left _ hdelta
  have hproduct : satMul fee' delta ≤ satMul fee delta + (fee' - fee) * divisor := by
    unfold satMul
    omega
  have hquotient : satMul fee' delta / divisor ≤ satMul fee delta / divisor + (fee' - fee) := by
    rw [← Nat.add_mul_div_right _ _ hpos]
    exact Nat.div_le_div_right hproduct
  unfold feeChange
  rw [hmax, hmax']
  omega

/-- With the divisor the target times the denominator, or saturated, a distance within the target moves
the fee by at most its share. -/
theorem feeChange_le_share {target denominator : Nat} (htarget : 0 < target) (hfee : 0 < fee)
    (hdelta : delta ≤ target) :
    feeChange fee delta (satMul target denominator) ≤ max 1 (fee / denominator) := by
  unfold feeChange
  rw [Nat.max_eq_left hfee, Nat.max_comm 1]
  by_cases hfits : target * denominator ≤ u64Max
  · rw [satMul_eq_mul_of_le hfits]
    have hproduct : satMul fee delta ≤ target * fee := by
      rw [Nat.mul_comm target]
      exact (satMul_le_mul _ _).trans (Nat.mul_le_mul_left _ hdelta)
    have hshare : satMul fee delta / (target * denominator) ≤ fee / denominator := by
      rw [← Nat.mul_div_mul_left fee denominator htarget]
      exact Nat.div_le_div_right hproduct
    exact max_le_max_right _ hshare
  · -- the divisor is the top of the range, and the product cannot exceed it
    have hdivisor : satMul target denominator = u64Max := Nat.min_eq_right (Nat.le_of_not_le hfits)
    have hone : satMul fee delta / u64Max ≤ 1 :=
      Nat.div_le_of_le_mul (by simpa using satMul_le_u64Max fee delta)
    rw [hdivisor]
    exact max_le (hone.trans (Nat.le_max_right _ _)) (Nat.le_max_right _ _)

end Change

namespace Blockchain

variable {c : Blockchain} {parent : Block}

/-- The fee the rule starts from: the parent's, or at the genesis the initial one if that is higher. -/
def parentBaseFee (c : Blockchain) (parent : Block) : Nat :=
  if parent.header.height = 0 then
    max parent.header.baseFeePerGas c.genesisConfig.initialBaseFeePerGas
  else parent.header.baseFeePerGas

def baseFeeDivisor (c : Blockchain) : Nat :=
  satMul c.targetBlockGasUsage (max c.genesisConfig.baseFeeChangeDenominator 1)

/-- The rule on a fee and a gas usage. -/
def movedFee (c : Blockchain) (fee gasUsed : Nat) : Nat :=
  if fee = 0 then 1
  else if gasUsed = c.targetBlockGasUsage then fee
  else if c.targetBlockGasUsage < gasUsed then
    satAdd fee (feeChange fee (gasUsed - c.targetBlockGasUsage) c.baseFeeDivisor)
  else max (fee - feeChange fee (c.targetBlockGasUsage - gasUsed) c.baseFeeDivisor) 1

theorem nextBaseFeePerGas_eq :
    c.nextBaseFeePerGas parent = c.movedFee (c.parentBaseFee parent) parent.header.gasUsed := by
  have hrule : c.nextBaseFeePerGas parent =
      if c.parentBaseFee parent = 0 then 1
      else if parent.header.gasUsed = c.targetBlockGasUsage then c.parentBaseFee parent
      else
        let delta := if parent.header.gasUsed < c.targetBlockGasUsage then
            c.targetBlockGasUsage - parent.header.gasUsed
          else parent.header.gasUsed - c.targetBlockGasUsage
        if c.targetBlockGasUsage < parent.header.gasUsed then
          satAdd (c.parentBaseFee parent)
            (feeChange (c.parentBaseFee parent) delta c.baseFeeDivisor)
        else max (c.parentBaseFee parent -
          feeChange (c.parentBaseFee parent) delta c.baseFeeDivisor) 1 := rfl
  rw [hrule, movedFee]
  dsimp only
  rcases Nat.lt_trichotomy parent.header.gasUsed c.targetBlockGasUsage with hlt | heq | hgt
  · simp only [if_pos hlt, if_neg (Nat.lt_asymm hlt)]
  · simp only [if_pos heq]
  · simp only [if_pos hgt, if_neg (Nat.lt_asymm hgt)]

/-! ## Bounds -/

theorem targetBlockGasUsage_pos : 0 < c.targetBlockGasUsage := Nat.le_max_right _ _

theorem baseFeeDivisor_pos : 0 < c.baseFeeDivisor := by
  refine Nat.pos_of_ne_zero fun hzero => ?_
  rcases satMul_eq_zero_iff.mp hzero with h | h
  · exact absurd h (Nat.ne_of_gt targetBlockGasUsage_pos)
  · omega

theorem target_le_divisor (hlimit : c.genesisConfig.blockGasLimit ≤ u64Max) :
    c.targetBlockGasUsage ≤ c.baseFeeDivisor := by
  have hproduct : c.targetBlockGasUsage * 1 ≤
      c.targetBlockGasUsage * max c.genesisConfig.baseFeeChangeDenominator 1 :=
    Nat.mul_le_mul_left _ (Nat.le_max_right _ _)
  have htarget : c.targetBlockGasUsage ≤ u64Max := by
    unfold targetBlockGasUsage u64Max at *
    omega
  unfold baseFeeDivisor satMul
  omega

/-- Under an even limit a block has room for as much again above the target. -/
theorem gas_above_target {gasUsed : Nat} (heven : c.genesisConfig.blockGasLimit % 2 = 0)
    (hgas : gasUsed ≤ c.genesisConfig.blockGasLimit) :
    gasUsed - c.targetBlockGasUsage ≤ c.targetBlockGasUsage := by
  unfold targetBlockGasUsage
  omega

/-! ## The rule -/

section Rule

variable {fee fee' gasUsed gasUsed' : Nat}

theorem one_le_movedFee : 1 ≤ c.movedFee fee gasUsed := by
  unfold movedFee
  split
  · exact Nat.le_refl _
  next hfee =>
  split
  · omega
  split
  · unfold satAdd u64Max
    omega
  · exact Nat.le_max_right _ _

theorem movedFee_mono_gas (hfee : fee ≤ u64Max) (h : gasUsed ≤ gasUsed') :
    c.movedFee fee gasUsed ≤ c.movedFee fee gasUsed' := by
  by_cases hzero : fee = 0
  · simp [movedFee, hzero]
  unfold movedFee
  rw [if_neg hzero, if_neg hzero]
  have hraise : ∀ change, fee ≤ satAdd fee change := by
    intro change
    unfold satAdd
    omega
  have hlower : ∀ change, 1 ≤ change → max (fee - change) 1 ≤ fee := by
    intro change hchange
    omega
  -- below, at or above the target, and the larger usage never lower than the smaller
  rcases Nat.lt_trichotomy gasUsed c.targetBlockGasUsage with hlt | heq | hgt
  · rw [if_neg (Nat.ne_of_lt hlt), if_neg (Nat.lt_asymm hlt)]
    rcases Nat.lt_trichotomy gasUsed' c.targetBlockGasUsage with hlt' | heq' | hgt'
    · rw [if_neg (Nat.ne_of_lt hlt'), if_neg (Nat.lt_asymm hlt')]
      have hchange := @feeChange_mono_delta fee _ _ c.baseFeeDivisor
        (Nat.sub_le_sub_left h c.targetBlockGasUsage)
      omega
    · rw [if_pos heq']
      exact hlower _ one_le_feeChange
    · rw [if_neg (Nat.ne_of_gt hgt'), if_pos hgt']
      exact (hlower _ one_le_feeChange).trans (hraise _)
  · rw [if_pos heq]
    by_cases heq' : gasUsed' = c.targetBlockGasUsage
    · rw [if_pos heq']
    · rw [if_neg heq', if_pos (by omega)]
      exact hraise _
  · rw [if_neg (Nat.ne_of_gt hgt), if_pos hgt, if_neg (by omega), if_pos (by omega)]
    have hchange := @feeChange_mono_delta fee _ _ c.baseFeeDivisor
      (Nat.sub_le_sub_right h c.targetBlockGasUsage)
    unfold satAdd
    omega

theorem movedFee_mono_fee (hlimit : c.genesisConfig.blockGasLimit ≤ u64Max) (h : fee ≤ fee') :
    c.movedFee fee gasUsed ≤ c.movedFee fee' gasUsed := by
  by_cases hzero : fee = 0
  · have hone : c.movedFee fee gasUsed = 1 := by simp [movedFee, hzero]
    rw [hone]
    exact one_le_movedFee
  unfold movedFee
  rw [if_neg hzero, if_neg (show ¬ fee' = 0 by omega)]
  split
  · exact h
  split
  · have hchange := @feeChange_mono_fee _ _ (gasUsed - c.targetBlockGasUsage) c.baseFeeDivisor h
    unfold satAdd
    omega
  · have hdelta : c.targetBlockGasUsage - gasUsed ≤ c.baseFeeDivisor :=
      (Nat.sub_le _ _).trans (target_le_divisor hlimit)
    have hchange := feeChange_le_add baseFeeDivisor_pos hdelta (Nat.pos_of_ne_zero hzero) h
    omega

theorem movedFee_at_target (hfee : 0 < fee) : c.movedFee fee c.targetBlockGasUsage = fee := by
  unfold movedFee
  rw [if_neg (Nat.ne_of_gt hfee), if_pos rfl]

/-- A fee moves by at most its share. -/
theorem movedFee_near (heven : c.genesisConfig.blockGasLimit % 2 = 0)
    (hgas : gasUsed ≤ c.genesisConfig.blockGasLimit) (hpos : 0 < fee) (hfee : fee ≤ u64Max) :
    c.movedFee fee gasUsed ≤
        fee + max 1 (fee / max 1 c.genesisConfig.baseFeeChangeDenominator) ∧
      fee ≤ c.movedFee fee gasUsed +
        max 1 (fee / max 1 c.genesisConfig.baseFeeChangeDenominator) := by
  have hshare : ∀ delta ≤ c.targetBlockGasUsage, feeChange fee delta c.baseFeeDivisor ≤
      max 1 (fee / max 1 c.genesisConfig.baseFeeChangeDenominator) := by
    intro delta hdelta
    unfold baseFeeDivisor
    rw [Nat.max_comm c.genesisConfig.baseFeeChangeDenominator]
    exact feeChange_le_share targetBlockGasUsage_pos hpos hdelta
  unfold movedFee
  rw [if_neg (Nat.ne_of_gt hpos)]
  split
  · omega
  split
  · have hchange := hshare _ (gas_above_target heven hgas)
    unfold satAdd
    omega
  · have hchange := hshare _ (Nat.sub_le c.targetBlockGasUsage gasUsed)
    omega

end Rule

/-- **The base fee rule**, for 64-bit gas limits and fees. Where the parent is above the genesis, or its
fee is at least the initial one, the fee the rule starts from is the parent's. -/
theorem base_fee_rule (c : Blockchain) (parent : Block)
    (hlimit : c.genesisConfig.blockGasLimit ≤ u64Max)
    (hinitial : c.genesisConfig.initialBaseFeePerGas ≤ u64Max)
    (hfee : parent.header.baseFeePerGas ≤ u64Max)
    (hgas : parent.header.gasUsed ≤ c.genesisConfig.blockGasLimit) :
    0 < c.baseFeeDivisor ∧ 1 ≤ c.nextBaseFeePerGas parent ∧
      (∀ gasUsed, parent.header.gasUsed ≤ gasUsed → gasUsed ≤ c.genesisConfig.blockGasLimit →
        c.nextBaseFeePerGas parent ≤
          c.nextBaseFeePerGas { parent with header := { parent.header with gasUsed } }) ∧
      (∀ baseFeePerGas, parent.header.baseFeePerGas ≤ baseFeePerGas →
        c.nextBaseFeePerGas parent ≤
          c.nextBaseFeePerGas { parent with header := { parent.header with baseFeePerGas } }) ∧
      (0 < c.parentBaseFee parent → parent.header.gasUsed = c.targetBlockGasUsage →
        c.nextBaseFeePerGas parent = c.parentBaseFee parent) ∧
      (0 < c.parentBaseFee parent → c.genesisConfig.blockGasLimit % 2 = 0 →
        c.nextBaseFeePerGas parent ≤ c.parentBaseFee parent +
            max 1 (c.parentBaseFee parent / max 1 c.genesisConfig.baseFeeChangeDenominator) ∧
          c.parentBaseFee parent ≤ c.nextBaseFeePerGas parent +
            max 1 (c.parentBaseFee parent / max 1 c.genesisConfig.baseFeeChangeDenominator)) ∧
      (parent.header.height ≠ 0 ∨
          c.genesisConfig.initialBaseFeePerGas ≤ parent.header.baseFeePerGas →
        c.parentBaseFee parent = parent.header.baseFeePerGas) := by
  have hstart : c.parentBaseFee parent ≤ u64Max := by
    unfold parentBaseFee
    split
    · exact max_le hfee hinitial
    · exact hfee
  refine ⟨baseFeeDivisor_pos, ?_, ?_, ?_, ?_, ?_, ?_⟩
  · rw [nextBaseFeePerGas_eq]
    exact one_le_movedFee
  · intro gasUsed hle _
    rw [nextBaseFeePerGas_eq, nextBaseFeePerGas_eq]
    exact movedFee_mono_gas hstart hle
  · intro baseFeePerGas hle
    have hraised : c.parentBaseFee parent ≤ c.parentBaseFee
        { parent with header := { parent.header with baseFeePerGas } } := by
      unfold parentBaseFee
      dsimp only
      split
      · exact max_le_max_right _ hle
      · exact hle
    rw [nextBaseFeePerGas_eq, nextBaseFeePerGas_eq]
    exact movedFee_mono_fee hlimit hraised
  · intro hpos htarget
    rw [nextBaseFeePerGas_eq, htarget]
    exact movedFee_at_target hpos
  · intro hpos heven
    rw [nextBaseFeePerGas_eq]
    exact movedFee_near heven hgas hpos hstart
  · intro hown
    unfold parentBaseFee
    split
    · next hzero =>
      exact Nat.max_eq_left (hown.resolve_left (not_not_intro hzero))
    · rfl

/-- On the genesis of an empty chain the fee starts at the floor. -/
theorem base_fee_rule_sample : ∃ c, fromGenesis Reference.primitives { chainId := [1] } = .ok c ∧
    1 ≤ c.nextBaseFeePerGas c.latestBlock := by
  have hrun : ((fromGenesis Reference.primitives { chainId := [1] }).toOption.any fun c =>
      decide (c.genesisConfig.blockGasLimit ≤ u64Max) &&
        decide (c.genesisConfig.initialBaseFeePerGas ≤ u64Max) &&
        decide (c.latestBlock.header.baseFeePerGas ≤ u64Max) &&
        decide (c.latestBlock.header.gasUsed ≤ c.genesisConfig.blockGasLimit)) = true := by
    decide +kernel
  obtain ⟨c, hc, hrun⟩ := Outcome.ok_of_any hrun
  simp only [Bool.and_eq_true, decide_eq_true_eq] at hrun
  obtain ⟨⟨⟨hlimit, hinitial⟩, hfee⟩, hgas⟩ := hrun
  exact ⟨c, hc, (base_fee_rule c c.latestBlock hlimit hinitial hfee hgas).2.1⟩

end Blockchain

end Curs3d
