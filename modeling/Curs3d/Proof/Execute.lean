import Curs3d.Chain.Execute

/-!
# What one transaction can do

Inversion lemmas for the stages of `applyUserTransaction`: each says what a successful stage
checked and what it left. `apply_eq_ok` takes a successful execution apart into its stages; the
proofs about executions start from it and never unfold the function again.
-/

set_option autoImplicit false

namespace Curs3d

open U64 Outcome

theorem ensure_eq_ok {cond : Bool} {err : ChainError} {u : Unit} :
    ensure cond err = .ok u ↔ cond = true := by
  cases cond <;> simp [ensure]

variable {P : Primitives} {ctx : TxContext} {tx : Transaction} {s s' : ExecState}

/-! ## The stages -/

/-- A successful execution, stage by stage. -/
theorem apply_eq_ok {gasUsed : Nat} :
    applyUserTransaction P ctx tx s = .ok gasUsed s' ↔
      validateTransactionShape tx = .ok () ∧ authenticate P tx = .ok () ∧
        ∃ s₁ receipt s₂, debitSender ctx tx s = .ok () s₁ ∧
          executeKind P ctx tx s₁ = .ok (gasUsed, receipt) s₂ ∧
          settleFees P ctx tx gasUsed receipt s₂ = .ok () s' := by
  unfold applyUserTransaction
  simp only [bind_eq_ok, check_eq_ok]
  constructor
  · rintro ⟨_, _, ⟨hshape, rfl⟩, _, _, ⟨hauth, rfl⟩, _, s₁, hdebit, ⟨gas, receipt⟩, s₂, hexec, _, s₃,
      hsettle, hret⟩
    cases hret
    exact ⟨hshape, hauth, s₁, receipt, s₂, hdebit, hexec, hsettle⟩
  · rintro ⟨hshape, hauth, s₁, receipt, s₂, hdebit, hexec, hsettle⟩
    exact ⟨(), s, ⟨hshape, rfl⟩, (), s, ⟨hauth, rfl⟩, (), s₁, hdebit, (gasUsed, receipt), s₂, hexec,
      (), s', hsettle, rfl⟩

theorem authenticate_eq_ok :
    authenticate P tx = .ok () ↔ tx.verifySignature P = true ∧
      (tx.isEvm = true ∨ tx.from = addressBytesFromPublicKey P tx.senderPublicKey) := by
  unfold authenticate
  simp only [except_bind_eq_ok, ensure_eq_ok, decide_eq_true_eq]
  simp

/-! ## The sender's entry -/

/-- The entry the debit starts from. -/
def senderBefore (tx : Transaction) (s : ExecState) : AccountState := s.accounts[tx.from]?.getD {}

theorem debitSender_eq_ok :
    debitSender ctx tx s = .ok () s' ↔ ∃ sender,
      senderEntry ctx tx (senderBefore tx s) = .ok () sender ∧
        s' = { s with accounts := s.accounts.insert tx.from sender } := by
  unfold debitSender senderBefore
  cases senderEntry ctx tx (s.accounts[tx.from]?.getD {}) with
  | ok u sender => simp [eq_comm]
  | error e sender => simp

/-- What binding the public key can change. -/
theorem bindPublicKey_ok {a a' : AccountState} (h : bindPublicKey tx a = .ok () a') :
    a' = { a with publicKey := a'.publicKey } := by
  unfold bindPublicKey at h
  split at h
  · cases h; rfl
  · split at h
    · split at h
      · exact absurd h (by simp)
      · cases h; rfl
    · cases h; rfl

theorem takeUpFront_eq_ok {a a' : AccountState} :
    takeUpFront tx a = .ok () a' ↔ tx.needed ≤ a.balance ∧ tx.nonce = a.nonce ∧
      a' = { a with balance := a.balance - tx.needed, nonce := wrapAdd a.nonce 1 } := by
  unfold takeUpFront
  split
  · next hlt => simp; omega
  · next hle =>
    split
    · next hne => simp [hne]
    · next heq =>
      have hn : tx.nonce = a.nonce := by simpa using heq
      simp [hn, eq_comm]
      omega

theorem moveStake_eq_ok {a a' : AccountState} :
    moveStake ctx tx a = .ok () a' ↔
      (tx.kind = .stake ∧ a' = addStake ctx tx a) ∨
      (tx.kind = .unstake ∧ tx.amount ≤ a.stakedBalance ∧
        a' = { a with
          stakedBalance := a.stakedBalance - tx.amount
          pendingUnstakes := a.pendingUnstakes ++
            [{ amount := tx.amount
               unlockHeight := satAdd ctx.currentHeight ctx.unstakeDelayBlocks }] }) ∨
      (tx.kind ≠ .stake ∧ tx.kind ≠ .unstake ∧ a' = a) := by
  unfold moveStake Transaction.isStake Transaction.isUnstake
  by_cases hs : tx.kind = .stake
  · simp [hs, eq_comm]
  · by_cases hu : tx.kind = .unstake
    · by_cases hlt : a.stakedBalance < tx.amount
      · simp [hu, hlt]
      · simp [hu, hlt, eq_comm]
        omega
    · simp [hs, hu, eq_comm]

/-- The entry of the sender, taken apart: the key bound, the up-front payment, the stake move. -/
theorem senderEntry_eq_ok {a a' : AccountState} :
    senderEntry ctx tx a = .ok () a' ↔ ∃ a₁ a₂, bindPublicKey tx a = .ok () a₁ ∧
      takeUpFront tx a₁ = .ok () a₂ ∧ moveStake ctx tx a₂ = .ok () a' := by
  unfold senderEntry
  simp only [bind_eq_ok]
  constructor
  · rintro ⟨_, a₁, h₁, _, a₂, h₂, h₃⟩
    exact ⟨a₁, a₂, h₁, h₂, h₃⟩
  · rintro ⟨a₁, a₂, h₁, h₂, h₃⟩
    exact ⟨(), a₁, h₁, (), a₂, h₂, h₃⟩

/-! ## Fees -/

theorem effectivePrice_eq_ok {baseFee price : Nat} :
    effectivePrice tx baseFee = .ok price ↔ tx.effectiveGasPrice baseFee = some price := by
  unfold effectivePrice
  cases tx.effectiveGasPrice baseFee with
  | none => simp
  | some p => simp

theorem ensureTransactionFeeCoversBase_eq_ok {gasUsed baseFee : Nat} :
    ensureTransactionFeeCoversBase tx gasUsed baseFee = .ok () ↔
      baseFee ≤ tx.maxFeePerGas' ∧ satMul gasUsed baseFee ≤ tx.totalFeeCap := by
  unfold ensureTransactionFeeCoversBase
  split
  · next h => simp; omega
  · next h => simp; omega

theorem settleFees_eq_ok {gasUsed : Nat} {receipt : Option Receipt} :
    settleFees P ctx tx gasUsed receipt s = .ok () s' ↔
      ensureTransactionFeeCoversBase tx gasUsed ctx.baseFeePerGas = .ok () ∧
        ∃ price, tx.effectiveGasPrice ctx.baseFeePerGas = some price ∧
          s' = { s with
            accounts := credit s.accounts tx.from (gasRefund tx gasUsed price)
            receipts := match receipt with
              | some r => s.receipts.insert (tx.hash P) { r with
                  effectiveGasPrice := price
                  priorityFeePaid := priorityFeeForTransaction tx gasUsed ctx.baseFeePerGas
                  baseFeeBurned := satMul gasUsed ctx.baseFeePerGas
                  gasRefunded := gasRefund tx gasUsed price }
              | none => s.receipts } := by
  unfold settleFees
  simp only [bind_eq_ok, check_eq_ok, effectivePrice_eq_ok]
  constructor
  · rintro ⟨_, _, ⟨hcover, rfl⟩, price, _, ⟨hprice, rfl⟩, hmod⟩
    refine ⟨hcover, price, hprice, ?_⟩
    cases hmod
    rfl
  · rintro ⟨hcover, price, hprice, rfl⟩
    exact ⟨(), s, ⟨hcover, rfl⟩, price, s, ⟨hprice, rfl⟩, rfl⟩

/-- The price paid is never above the cap per gas. -/
theorem effectiveGasPrice_le {baseFee price : Nat}
    (h : tx.effectiveGasPrice baseFee = some price) : price ≤ tx.maxFeePerGas' := by
  unfold Transaction.effectiveGasPrice at h
  split at h
  · exact absurd h (by simp)
  · next hle =>
    cases h
    unfold satAdd
    omega

theorem satAdd_ge_left {a b : Nat} (h : a ≤ u64Max) : a ≤ satAdd a b := by
  unfold satAdd
  omega

theorem kindGas_le_intrinsicGas (tx : Transaction) : tx.kindGas ≤ tx.intrinsicGas := by
  refine satAdd_ge_left ?_
  unfold Transaction.kindGas
  cases tx.kind <;> decide

theorem intrinsicGas_le_effectiveGasLimit (tx : Transaction) :
    tx.intrinsicGas ≤ tx.effectiveGasLimit := by
  unfold Transaction.effectiveGasLimit Transaction.estimatedGasForAdmission
  split <;> first | exact le_max_right _ _ | exact le_rfl

/-- Every kind pays at least the base gas. -/
theorem gasBase_le_effectiveGasLimit (tx : Transaction) : GAS_BASE_TX ≤ tx.effectiveGasLimit := by
  have hkind : GAS_BASE_TX ≤ tx.kindGas := by
    unfold Transaction.kindGas
    cases tx.kind <;> decide
  exact (hkind.trans (kindGas_le_intrinsicGas tx)).trans (intrinsicGas_le_effectiveGasLimit tx)

end Curs3d
