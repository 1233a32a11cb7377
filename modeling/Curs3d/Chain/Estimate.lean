import Curs3d.Chain.Mempool

/-!
# Estimating a transaction (`src/core/chain/estimate.rs`)

`estimate_transaction` projects the pending transactions in their stored order and applies the new one after
them. Unlike the dry run of `add_transaction` it passes over a hash it has met before.
-/

set_option autoImplicit false

namespace Curs3d

open U64

structure TransactionEstimate where
  nextBlockHeight : Nat
  baseFeePerGas : Nat
  gasUsed : Nat
  effectiveGasPrice : Nat
  priorityFeePaid : Nat
  baseFeeBurned : Nat
  totalFeeCharged : Nat
  gasRefunded : Nat
  maxTotalFee : Nat
  wouldReplacePending : Bool
deriving DecidableEq, Repr

namespace Blockchain

variable (P : Primitives) (c : Blockchain)

/-- One turn of the loop over the pending transactions, for the entry at position `e.2`. -/
def projectStep (replacementIndex : Option Nat) (acc : ExecState × List Bytes) (e : Transaction × Nat) :
    Except ChainError (ExecState × List Bytes) :=
  if replacementIndex = some e.2 then .ok acc
  else if e.1.hash P ∈ acc.2 then .ok acc
  else match applyUserTransaction P (c.txContext (c.height + 1) c.pendingBaseFee) e.1 acc.1 with
    | .error e _ => .error e
    | .ok _ s => .ok (s, e.1.hash P :: acc.2)

/-- The state `tx` is estimated on. -/
def projectedState (tx : Transaction) : Except ChainError ExecState := do
  let acc ← c.pendingTransactions.zipIdx.foldlM (c.projectStep P (c.replacementIndex tx))
    ({ c.execState with receipts := ∅ }, [])
  return acc.1

/-- `estimate_transaction`. -/
def estimateTransaction (tx : Transaction) : Except ChainError TransactionEstimate := do
  ensure (!tx.isCoinbase)
    (.invalidTransactionFormat "coinbase transactions cannot be estimated")
  ensure (tx.chainId = c.genesisConfig.chainId)
    (.invalidChainId c.genesisConfig.chainId tx.chainId)
  let projected ← c.projectedState P tx
  match applyUserTransaction P (c.txContext (c.height + 1) c.pendingBaseFee) tx projected with
  | .error e _ => .error e
  | .ok gasUsed _ =>
    let price ← effectivePrice tx c.pendingBaseFee
    return {
      nextBlockHeight := c.height + 1
      baseFeePerGas := c.pendingBaseFee
      gasUsed
      effectiveGasPrice := price
      priorityFeePaid := priorityFeeForTransaction tx gasUsed c.pendingBaseFee
      baseFeeBurned := satMul gasUsed c.pendingBaseFee
      totalFeeCharged := satMul gasUsed price
      gasRefunded := gasRefund tx gasUsed price
      maxTotalFee := tx.totalFeeCap
      wouldReplacePending := (c.replacementIndex tx).isSome }

end Blockchain

end Curs3d
