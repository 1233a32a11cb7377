import Curs3d.Chain.Estimate
import Curs3d.Proof.EvmCharge

/-!
# How a fee is split

`apply_user_transaction` charges `gas_used` at the effective price out of the fee cap: the base fee is burned,
what is above it goes to the proposer, the rest is refunded. The gas is within the limit for every kind, a VM's
included, so the three parts add up to the cap. `estimate_transaction` computes them once more, from the same
functions.
-/

set_option autoImplicit false

namespace Curs3d

open U64 Outcome

/-- What revm charges: its intrinsic cost at the least, the gas limit at the most. -/
structure RevmGas (P : Primitives) : Prop where
  intrinsic : ∀ {view env result post}, P.revmTransact view env = some (result, post) →
    GAS_BASE_TX ≤ Evm.resultGas result
  limit : ∀ {view env result post}, P.revmTransact view env = some (result, post) →
    Evm.resultGas result ≤ env.gasLimit

/-- The values a receipt and an estimate report. -/
structure Fees where
  gasUsed : Nat
  effectiveGasPrice : Nat
  priorityFeePaid : Nat
  baseFeeBurned : Nat
  gasRefunded : Nat
deriving DecidableEq, Repr

/-- What `apply_user_transaction` makes of `gasUsed` at `price`. -/
def Transaction.fees (tx : Transaction) (baseFeePerGas gasUsed price : Nat) : Fees where
  gasUsed := gasUsed
  effectiveGasPrice := price
  priorityFeePaid := priorityFeeForTransaction tx gasUsed baseFeePerGas
  baseFeeBurned := satMul gasUsed baseFeePerGas
  gasRefunded := gasRefund tx gasUsed price

def Receipt.fees (r : Receipt) : Fees where
  gasUsed := r.gasUsed
  effectiveGasPrice := r.effectiveGasPrice
  priorityFeePaid := r.priorityFeePaid
  baseFeeBurned := r.baseFeeBurned
  gasRefunded := r.gasRefunded

def TransactionEstimate.fees (e : TransactionEstimate) : Fees where
  gasUsed := e.gasUsed
  effectiveGasPrice := e.effectiveGasPrice
  priorityFeePaid := e.priorityFeePaid
  baseFeeBurned := e.baseFeeBurned
  gasRefunded := e.gasRefunded

/-- The fees split the cap of `tx` over `baseFeePerGas`. The products are those of the integers: nothing
saturated. -/
structure Fees.Split (f : Fees) (tx : Transaction) (baseFeePerGas : Nat) : Prop where
  gas_le : f.gasUsed ≤ tx.effectiveGasLimit
  base_le : baseFeePerGas ≤ f.effectiveGasPrice
  price_le : f.effectiveGasPrice ≤ tx.maxFeePerGas'
  priority : f.priorityFeePaid = (f.effectiveGasPrice - baseFeePerGas) * f.gasUsed
  burned : f.baseFeeBurned = f.gasUsed * baseFeePerGas
  cap : tx.totalFeeCap = tx.effectiveGasLimit * tx.maxFeePerGas'
  total : f.priorityFeePaid + f.baseFeeBurned + f.gasRefunded = tx.totalFeeCap

variable {P : Primitives} {ctx : TxContext} {tx : Transaction} {s s' : ExecState}

/-! ## Gas -/

theorem executeDeploy_receipt {gasUsed : Nat} {receipt : Receipt}
    (h : executeDeploy P ctx tx s = .ok (gasUsed, receipt) s') : receipt.gasUsed = gasUsed := by
  simp only [executeDeploy, bind_eq_ok] at h
  obtain ⟨_, _, -, _, _, -, hret⟩ := h
  cases hret
  rfl

theorem executeCall_receipt {gasUsed : Nat} {receipt : Receipt}
    (h : executeCall P tx s = .ok (gasUsed, receipt) s') : receipt.gasUsed = gasUsed := by
  simp only [executeCall] at h
  obtain ⟨st, s₀, hget, h⟩ := bind_eq_ok.mp h
  cases hc : st.contracts[tx.to]? with
  | none =>
    rw [hc] at h
    cases h
  | some contract =>
    rw [hc] at h
    simp only [bind_eq_ok] at h
    obtain ⟨_, _, -, _, _, -, hret⟩ := h
    cases hret
    rfl

/-- The receipt of a kind says the gas that is charged. -/
theorem executeKind_receipt {gasUsed : Nat} {receipt : Receipt} (hnative : tx.isEvm = false)
    (h : executeKind P ctx tx s = .ok (gasUsed, some receipt) s') : receipt.gasUsed = gasUsed := by
  cases nativeRun_of_ok hnative h with
  | deploy _ hdeploy => exact executeDeploy_receipt hdeploy
  | call _ hcall => exact executeCall_receipt hcall

/-- **Every kind stays within its gas limit**, and its receipt says so. -/
theorem executeKind_gas {gasUsed : Nat} {receipt : Option Receipt} (hrevm : RevmGas P)
    (h : executeKind P ctx tx s = .ok (gasUsed, receipt) s') :
    gasUsed ≤ tx.effectiveGasLimit ∧ ∀ r : Receipt, receipt = some r → r.gasUsed = gasUsed := by
  by_cases hevm : tx.isEvm = true
  · obtain ⟨result, post, outcome, hrun, hfinish, hreceipt, -⟩ := executeKind_evm hevm h
    obtain ⟨hgas, -⟩ := finishExecution_eq_ok hfinish
    -- the floor of `GAS_BASE_TX` is below what revm charges
    have hfloor : max outcome.gasUsed GAS_BASE_TX = outcome.gasUsed := by
      rw [hgas]
      exact max_eq_left (hrevm.intrinsic hrun)
    simp only [evmReceipt, Prod.mk.injEq] at hreceipt
    obtain ⟨rfl, rfl⟩ := hreceipt
    constructor
    · apply evm_gas_le hevm
      rw [hgas]
      exact hrevm.limit hrun
    · intro r hr
      cases hr
      exact hfloor.symm
  · have hnative : tx.isEvm = false := by simpa using hevm
    refine ⟨(executeKind_native hnative h).1, ?_⟩
    intro r hr
    subst hr
    exact executeKind_receipt hnative h

/-- No kind writes a receipt itself. -/
theorem executeKind_receipts {gasUsed : Nat} {receipt : Option Receipt}
    (h : executeKind P ctx tx s = .ok (gasUsed, receipt) s') : s'.receipts = s.receipts := by
  by_cases hevm : tx.isEvm = true
  · obtain ⟨_, _, _, -, -, -, rfl⟩ := executeKind_evm hevm h
    rfl
  · cases nativeRun_of_ok (by simpa using hevm) h with
    | transfer | idle | governance | token => rfl
    | deploy _ hdeploy =>
      obtain ⟨-, contract, rfl⟩ := executeDeploy_eq_ok hdeploy
      rfl
    | call _ hcall =>
      obtain ⟨-, contract, contract', -, rfl⟩ := executeCall_eq_ok hcall
      rfl

/-! ## The split -/

/-- A price within the fee per gas is the base fee and something on top. -/
theorem effectiveGasPrice_bounds {baseFee price : Nat} (hmax : tx.maxFeePerGas' ≤ u64Max)
    (h : tx.effectiveGasPrice baseFee = some price) : baseFee ≤ price ∧ price ≤ tx.maxFeePerGas' := by
  refine ⟨?_, effectiveGasPrice_le h⟩
  simp only [Transaction.effectiveGasPrice] at h
  split at h
  · cases h
  · cases h
    simp only [satAdd]
    omega

theorem fees_split {baseFee gasUsed price : Nat} (hcap : tx.effectiveGasLimit * tx.maxFeePerGas' ≤ u64Max)
    (hgas : gasUsed ≤ tx.effectiveGasLimit) (hprice : tx.effectiveGasPrice baseFee = some price) :
    (tx.fees baseFee gasUsed price).Split tx baseFee := by
  have hmax : tx.maxFeePerGas' ≤ u64Max := by
    have hpos : 0 < tx.effectiveGasLimit := lt_of_lt_of_le (by decide) (gasBase_le_effectiveGasLimit tx)
    exact le_trans (Nat.le_mul_of_pos_left _ hpos) hcap
  obtain ⟨hbase, hle⟩ := effectiveGasPrice_bounds hmax hprice
  have hcharged : gasUsed * price ≤ tx.effectiveGasLimit * tx.maxFeePerGas' := Nat.mul_le_mul hgas hle
  have hsum : (price - baseFee) * gasUsed + gasUsed * baseFee = gasUsed * price := by
    rw [Nat.mul_comm, ← Nat.mul_add, Nat.sub_add_cancel hbase]
  have hpriority : priorityFeeForTransaction tx gasUsed baseFee = (price - baseFee) * gasUsed := by
    simp only [priorityFeeForTransaction, Transaction.priorityFeePerGas, hprice, Option.map_some,
      Option.getD_some]
    exact satMul_eq_mul_of_le (by omega)
  have hburned : satMul gasUsed baseFee = gasUsed * baseFee := satMul_eq_mul_of_le (by omega)
  have hcapEq : tx.totalFeeCap = tx.effectiveGasLimit * tx.maxFeePerGas' := satMul_eq_mul_of_le hcap
  have hrefund := gasRefund_eq hgas hle hcap
  refine ⟨hgas, hbase, hle, hpriority, hburned, hcapEq, ?_⟩
  simp only [Transaction.fees]
  omega

/-- An estimate reports the fees of the gas it reports. -/
theorem estimate_fees {c : Blockchain} {e : TransactionEstimate} (h : c.estimateTransaction P tx = .ok e) :
    ∃ price, tx.effectiveGasPrice e.baseFeePerGas = some price ∧
      e.fees = tx.fees e.baseFeePerGas e.gasUsed price ∧
      e.totalFeeCharged = satMul e.gasUsed price ∧ e.maxTotalFee = tx.totalFeeCap := by
  simp only [Blockchain.estimateTransaction, except_bind_eq_ok] at h
  obtain ⟨-, -, -, -, projected, -, h⟩ := h
  split at h
  · cases h
  · obtain ⟨price, hprice, hret⟩ := except_bind_eq_ok.mp h
    cases hret
    exact ⟨price, effectivePrice_eq_ok.mp hprice, rfl, rfl, rfl⟩

/-- **The fee of an applied transaction is split exactly**, its receipt carries the split, and an estimate that
comes to the same gas over the same base fee reports it. -/
theorem fee_split {gasUsed : Nat} (hrevm : RevmGas P) (hcap : tx.effectiveGasLimit * tx.maxFeePerGas' < 2 ^ 64)
    (h : applyUserTransaction P ctx tx s = .ok gasUsed s') :
    ∃ price, tx.effectiveGasPrice ctx.baseFeePerGas = some price ∧
      (tx.fees ctx.baseFeePerGas gasUsed price).Split tx ctx.baseFeePerGas ∧
      (s'.receipts = s.receipts ∨
        ∃ r : Receipt, s'.receipts = s.receipts.insert (tx.hash P) r ∧
          r.fees = tx.fees ctx.baseFeePerGas gasUsed price) ∧
      ∀ (c : Blockchain) (e : TransactionEstimate), c.estimateTransaction P tx = .ok e →
        e.baseFeePerGas = ctx.baseFeePerGas → e.gasUsed = gasUsed →
          e.fees = tx.fees ctx.baseFeePerGas gasUsed price ∧ e.totalFeeCharged = gasUsed * price ∧
            e.maxTotalFee = tx.totalFeeCap := by
  obtain ⟨-, -, s₁, receipt, s₂, hdebit, hexec, hsettle⟩ := apply_eq_ok.mp h
  obtain ⟨hgas, hreceipt⟩ := executeKind_gas hrevm hexec
  obtain ⟨-, price, hprice, rfl⟩ := settleFees_eq_ok.mp hsettle
  have hcapMax : tx.effectiveGasLimit * tx.maxFeePerGas' ≤ u64Max := by
    simp only [u64Max]
    omega
  have hsplit := fees_split hcapMax hgas hprice
  have hkept : s₂.receipts = s.receipts := by
    obtain ⟨sender, -, rfl⟩ := debitSender_eq_ok.mp hdebit
    have hexecuted := executeKind_receipts hexec
    exact hexecuted
  refine ⟨price, hprice, hsplit, ?_, ?_⟩
  · cases hr : receipt with
    | none => exact Or.inl hkept
    | some r =>
      right
      rw [hkept]
      refine ⟨_, rfl, ?_⟩
      simp only [Receipt.fees, Transaction.fees, hreceipt r hr]
  · intro c e he hbase hsame
    obtain ⟨price', hprice', hfees, hcharged, hmax⟩ := estimate_fees he
    rw [hbase, hprice] at hprice'
    cases hprice'
    rw [hbase, hsame] at hfees
    refine ⟨hfees, ?_, hmax⟩
    rw [hcharged, hsame]
    apply satMul_eq_mul_of_le
    exact le_trans (Nat.mul_le_mul hsplit.gas_le hsplit.price_le) hcapMax

namespace NonceSample

open SignedSample

theorem revmGas : RevmGas primitives := by
  have hpay : ∀ {view env result post}, primitives.revmTransact view env = some (result, post) →
      Evm.resultGas result = GAS_BASE_TX ∧ GAS_BASE_TX ≤ env.gasLimit := by
    intro view env result post h
    simp only [primitives, transact] at h
    split at h
    · simp only [pay] at h
      split at h
      · cases h
      split at h
      · cases h
      · next hguard =>
        cases h
        refine ⟨rfl, ?_⟩
        exact Nat.le_of_not_lt fun hlt => hguard (Or.inr (Or.inr hlt))
    · cases h
  constructor
  · intro view env result post h
    exact (hpay h).1.ge
  · intro view env result post h
    obtain ⟨hgas, hlimit⟩ := hpay h
    exact hgas.trans_le hlimit

def feeContext : TxContext := { ConservationSample.context with baseFeePerGas := 1 }

def charged : ExecState := stateOf (applyUserTransaction primitives feeContext call before)

theorem applies_charged : applyUserTransaction primitives feeContext call before = .ok GAS_BASE_TX charged :=
  eq_ok_of_valueOf (by decide +kernel)

end NonceSample

open NonceSample in
/-- A payment through revm at base fee 1: 21000 units are burned, 21000 go to the proposer, and what the intrinsic
gas of the call leaves of the cap comes back. -/
theorem fee_split_call : (call.fees 1 GAS_BASE_TX 2).Split call 1 ∧
    ∃ r : Receipt, charged.receipts = before.receipts.insert (call.hash primitives) r ∧
      r.fees = call.fees 1 GAS_BASE_TX 2 := by
  obtain ⟨price, hprice, hsplit, hreceipt, -⟩ := fee_split revmGas (by decide) applies_charged
  have hsome : call.effectiveGasPrice feeContext.baseFeePerGas = some 2 := by decide
  rw [hsome] at hprice
  cases hprice
  refine ⟨hsplit, hreceipt.resolve_left ?_⟩
  intro hsame
  have hfiled : charged.receipts[call.hash primitives]?.isSome = true := by decide +kernel
  rw [hsame] at hfiled
  exact absurd hfiled (by decide +kernel)

end Curs3d
