import Curs3d.Chain.Apply

/-!
# The mempool (`src/core/chain/mempool.rs`)

`add_transaction` prunes the pool, runs the admission checks in the source's order, dry-runs the
whole pool with the new transaction on a projection of the chain state, inserts, evicts down to
the limits and sorts. Eviction runs on fuel: each turn removes at least one transaction.

`sort_by` is an insertion sort under the same comparator: both are stable, and for a comparator
that is a total preorder there is only one stable result.
-/

set_option autoImplicit false

namespace Curs3d

open U64

def MAX_FUTURE_TX_TIME_SECS : Int := 30
def MAX_PENDING_TX_AGE_SECS : Int := 900
def MAX_PENDING_TRANSACTIONS : Nat := 10000
def RESERVED_SYSTEM_SLOTS : Nat := 500
def MAX_PENDING_TRANSACTIONS_USER : Nat := MAX_PENDING_TRANSACTIONS - RESERVED_SYSTEM_SLOTS
def MAX_PENDING_TRANSACTIONS_PER_ACCOUNT : Nat := 64
def MAX_PENDING_GAS_BUDGET_MULTIPLIER : Nat := 8
def MAX_PENDING_GAS_PER_ACCOUNT_MULTIPLIER : Nat := 2
def MAX_PENDING_NONCE_GAP : Nat := 32
def MIN_REPLACEMENT_FEE_BUMP_PCT : Nat := 10
def MIN_REPLACEMENT_PRIORITY_BUMP_PCT : Nat := 25
def MAX_CONTRACT_CODE_BYTES : Nat := 262144

/-- `u128::MAX`. -/
def u128Max : Nat := 340282366920938463463374607431768211455

/-! ## Order -/

/-- `priority_fee_per_gas(base_fee).unwrap_or_default()`. -/
def Transaction.priorityFee (tx : Transaction) (baseFeePerGas : Nat) : Nat :=
  (tx.priorityFeePerGas baseFeePerGas).getD 0

def compareFeePriority (a b : Transaction) (baseFeePerGas : Nat) : Ordering :=
  let aGas := max a.estimatedGasForAdmission 1
  let bGas := max b.estimatedGasForAdmission 1
  (compare (min (b.priorityFee baseFeePerGas * aGas) u128Max)
      (min (a.priorityFee baseFeePerGas * bGas) u128Max)).then
    (compare b.maxFeePerGas' a.maxFeePerGas')

/-- The comparator of `sort_pending_transactions`. -/
def comparePending (baseFeePerGas : Nat) (a b : Transaction) : Ordering :=
  if a.from = b.from then
    (compare a.nonce b.nonce).then (compare b.maxFeePerGas' a.maxFeePerGas')
  else match a.mempoolClass, b.mempoolClass with
    | .system, .user => .lt
    | .user, .system => .gt
    | _, _ =>
      ((compareFeePriority a b baseFeePerGas).then (compare a.timestamp b.timestamp)).then
        (compare b.maxFeePerGas' a.maxFeePerGas')

/-- The comparator of `worst_pending_transaction_index_in_class`. -/
def compareWorst (baseFeePerGas : Nat) (a b : Transaction) : Ordering :=
  if a.from = b.from then
    (compare b.nonce a.nonce).then (compare a.maxFeePerGas' b.maxFeePerGas')
  else (compareFeePriority a b baseFeePerGas).swap

/-! ## Fee floors -/

def congestionFloor (occupancyPct : Nat) : Nat :=
  if 95 ≤ occupancyPct then 12
  else if 85 ≤ occupancyPct then 8
  else if 70 ≤ occupancyPct then 4
  else if 50 ≤ occupancyPct then 2
  else 0

def minimumPriorityFeePerGasForUsage (tx : Transaction) (usage budget : Nat) : Nat :=
  satMul (congestionFloor (satMul usage 100 / budget))
    (max (satAdd tx.estimatedGasForAdmission 249999 / 250000) 1)

def admissionSurcharge (occupancyPct : Nat) : Nat :=
  if 95 ≤ occupancyPct then 8
  else if 85 ≤ occupancyPct then 4
  else if 70 ≤ occupancyPct then 2
  else if 50 ≤ occupancyPct then 1
  else 0

/-- `existing + existing * pct / 100`, and at least one more than `existing`. -/
def bumped (existing pct : Nat) : Nat :=
  max (satAdd existing (satMul existing pct / 100)) (satAdd existing 1)

namespace Blockchain

variable (P : Primitives) (c : Blockchain)

def pendingBaseFee : Nat := c.nextBaseFeePerGas c.latestBlock

def pendingGasBudget : Nat := satMul c.genesisConfig.blockGasLimit MAX_PENDING_GAS_BUDGET_MULTIPLIER

def pendingGasUsage : Nat :=
  wrapSum (c.pendingTransactions.map Transaction.estimatedGasForAdmission)

def minimumPriorityFeePerGas (tx : Transaction) : Nat :=
  minimumPriorityFeePerGasForUsage tx c.pendingGasUsage (max c.pendingGasBudget 1)

def minimumAdmissionFee (tx : Transaction) (baseFeePerGas : Nat) : Nat :=
  let requiredBase := satMul tx.effectiveGasLimit baseFeePerGas
  let requiredPriority := satMul tx.effectiveGasLimit (c.minimumPriorityFeePerGas tx)
  let surcharge :=
    admissionSurcharge (satMul c.pendingGasUsage 100 / max c.pendingGasBudget 1)
  if surcharge = 0 then satAdd requiredBase requiredPriority
  else
    let units := satAdd tx.estimatedGasForAdmission 99999 / 100000
    satAdd (satAdd requiredBase requiredPriority) (satMul (max units 1) surcharge)

/-! ## Sorting, pruning, eviction -/

def sortPendingTransactions : Blockchain :=
  { c with pendingTransactions := c.pendingTransactions.insertionSort fun a b =>
      comparePending c.pendingBaseFee a b ≠ .gt }

def prunePendingTransactions (now : Int) : Blockchain :=
  let baseFee := c.pendingBaseFee
  let usage := c.pendingGasUsage
  let budget := max c.pendingGasBudget 1
  { c with pendingTransactions := c.pendingTransactions.filter fun tx =>
      now - MAX_PENDING_TX_AGE_SECS ≤ tx.timestamp ∧ baseFee ≤ tx.maxFeePerGas' ∧
        minimumPriorityFeePerGasForUsage tx usage budget ≤ tx.priorityFee baseFee
  }.sortPendingTransactions

def countPendingInClass (cls : MempoolClass) : Nat :=
  (c.pendingTransactions.filter fun tx => tx.mempoolClass = cls).length

/-- `min_by`, keeping the first of equal candidates. -/
def worstPendingTransactionIndexInClass (cls : MempoolClass) : Option Nat :=
  ((c.pendingTransactions.zipIdx.filter fun e => e.1.mempoolClass = cls).foldl
    (fun (best : Option (Transaction × Nat)) e =>
      match best with
      | none => some e
      | some b => if compareWorst c.pendingBaseFee b.1 e.1 = .gt then some e else some b)
    none).map Prod.snd

def evictTransactionAndDependents (index : Nat) : Blockchain :=
  match c.pendingTransactions[index]? with
  | none => c
  | some evicted =>
    { c with pendingTransactions := (c.pendingTransactions.eraseIdx index).filter fun tx =>
        !(tx.from = evicted.from ∧ evicted.nonce < tx.nonce) }

def enforceMempoolLimits (protectedHash : Bytes) :
    Nat → Blockchain → Except ChainError Unit × Blockchain
  | 0, c => (.ok (), c)
  | fuel + 1, c =>
    let overUser := MAX_PENDING_TRANSACTIONS_USER < c.countPendingInClass .user
    let overSystem := RESERVED_SYSTEM_SLOTS < c.countPendingInClass .system
    let overGas := c.pendingGasBudget < c.pendingGasUsage
    if ¬overUser ∧ ¬overSystem ∧ ¬overGas then (.ok (), c)
    else match (c.worstPendingTransactionIndexInClass .user).or
        (c.worstPendingTransactionIndexInClass .system) with
      | none => (.ok (), c)
      | some index =>
        if (c.pendingTransactions[index]?.map fun tx => tx.hash P) = some protectedHash then
          (.error (if overGas then .feeTooLow else .mempoolFull), c)
        else enforceMempoolLimits protectedHash fuel (c.evictTransactionAndDependents index)

/-! ## Admission -/

/-- Every check on the transaction and the pool before the dry run. -/
def checkAdmission (now : Int) (tx : Transaction) : Except ChainError Unit := do
  ensure (!tx.isCoinbase)
    (.invalidTransactionFormat "coinbase transactions cannot enter the mempool")
  ensure (tx.chainId = c.genesisConfig.chainId)
    (.invalidChainId c.genesisConfig.chainId tx.chainId)
  ensure (tx.timestamp ≤ now + MAX_FUTURE_TX_TIME_SECS)
    (.invalidTransactionFormat "transaction timestamp too far in the future")
  ensure (tx.estimatedGasForAdmission ≤ c.genesisConfig.blockGasLimit)
    (.invalidTransactionFormat "transaction gas limit exceeds block gas limit")
  ensure (!(tx.kind = .deployContract ∧ MAX_CONTRACT_CODE_BYTES < tx.to.length))
    (.invalidTransactionFormat "deploy contract: wasm code exceeds 256 KB limit")
  ensure (c.pendingBaseFee ≤ tx.maxFeePerGas') .feeTooLow
  ensure (c.minimumPriorityFeePerGas tx ≤ tx.priorityFee c.pendingBaseFee) .feeTooLow
  ensure (c.minimumAdmissionFee tx c.pendingBaseFee ≤ tx.totalFeeCap) .feeTooLow
  let nonceFloor := (c.accounts[tx.from]?.map AccountState.nonce).getD 0
  ensure (nonceFloor ≤ tx.nonce) (.invalidTransactionFormat
    "transaction nonce below account nonce (stale transaction)")
  ensure (tx.nonce ≤ satAdd nonceFloor MAX_PENDING_NONCE_GAP)
    (.invalidTransactionFormat "transaction nonce gap too large for mempool admission")

def replacementIndex (tx : Transaction) : Option Nat :=
  c.pendingTransactions.findIdx? fun p => p.from = tx.from ∧ p.nonce = tx.nonce

/-- The per-class and per-sender caps; a replacement passes them. -/
def checkCapacity (tx : Transaction) : Except ChainError Unit := do
  let cap := match tx.mempoolClass with
    | .system => RESERVED_SYSTEM_SLOTS
    | .user => MAX_PENDING_TRANSACTIONS_USER
  ensure (c.countPendingInClass tx.mempoolClass < cap) .mempoolFull
  let fromSender := c.pendingTransactions.filter fun p => p.from = tx.from
  ensure (fromSender.length < MAX_PENDING_TRANSACTIONS_PER_ACCOUNT) .mempoolFull
  ensure (satAdd (wrapSum (fromSender.map Transaction.estimatedGasForAdmission))
      tx.estimatedGasForAdmission ≤
      satMul c.genesisConfig.blockGasLimit MAX_PENDING_GAS_PER_ACCOUNT_MULTIPLIER) .mempoolFull

/-- The three fee bumps a replacement needs. -/
def checkReplacement (existing tx : Transaction) : Except ChainError Unit :=
  let baseFee := c.pendingBaseFee
  ensure (bumped existing.totalFeeCap MIN_REPLACEMENT_FEE_BUMP_PCT ≤ tx.totalFeeCap ∧
      bumped existing.maxFeePerGas' MIN_REPLACEMENT_FEE_BUMP_PCT ≤ tx.maxFeePerGas' ∧
      bumped (existing.priorityFee baseFee) MIN_REPLACEMENT_PRIORITY_BUMP_PCT ≤
        tx.priorityFee baseFee)
    .replacementFeeTooLow

/-- The dry run of the pool (less the replaced entry) followed by `tx`. -/
def dryRun (others : List Transaction) (tx : Transaction) : Except ChainError Unit :=
  let ctx := c.txContext (c.height + 1) c.pendingBaseFee
  let start : ExecState := { c.execState with receipts := ∅ }
  let result := others.foldlM
    (fun (acc : ExecState × List Bytes) pending => do
      ensure (pending.hash P ∉ acc.2) .duplicateTransaction
      match applyUserTransaction P ctx pending acc.1 with
      | .error e _ => .error e
      | .ok _ s => .ok (s, pending.hash P :: acc.2))
    (start, [])
  match result with
  | .error e => .error e
  | .ok acc =>
    match applyUserTransaction P ctx tx acc.1 with
    | .error e _ => .error e
    | .ok _ _ => .ok ()

/-- All the checks, in order. -/
def admission (now : Int) (tx : Transaction) : Except ChainError Unit := do
  c.checkAdmission now tx
  match c.replacementIndex tx with
  | none =>
    c.checkCapacity tx
    ensure (c.pendingTransactions.all fun p => p.hash P ≠ tx.hash P) .duplicateTransaction
    c.dryRun P c.pendingTransactions tx
  | some index =>
    ensure (c.pendingTransactions.all fun p => p.hash P ≠ tx.hash P) .duplicateTransaction
    match c.pendingTransactions[index]? with
    | none => c.dryRun P c.pendingTransactions tx
    | some existing =>
      c.checkReplacement existing tx
      c.dryRun P (c.pendingTransactions.eraseIdx index) tx

def insertPending (tx : Transaction) : Blockchain :=
  { c with pendingTransactions := match c.replacementIndex tx with
      | none => c.pendingTransactions ++ [tx]
      | some index => c.pendingTransactions.set index tx }

/-- `add_transaction` at clock reading `now`: its result and the chain it leaves. -/
def addTransaction (now : Int) (tx : Transaction) : Except ChainError Unit × Blockchain :=
  let pruned := c.prunePendingTransactions now
  match pruned.admission P now tx with
  | .error e => (.error e, pruned)
  | .ok () =>
    let inserted := pruned.insertPending tx
    -- the entry just written is found again by sender and nonce; it is `tx` itself
    match enforceMempoolLimits P (tx.hash P) (inserted.pendingTransactions.length + 1) inserted with
    | (.error e, c') => (.error e, c')
    | (.ok (), c') => (.ok (), c'.sortPendingTransactions)

end Blockchain

end Curs3d
