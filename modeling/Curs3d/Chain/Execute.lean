import Curs3d.Token
import Curs3d.Governance
import Curs3d.Vm.Wasm
import Curs3d.Vm.Evm
import Curs3d.Lib.Outcome

/-!
# Executing one transaction (`src/core/chain/apply.rs`)

`apply_user_transaction` mutates five maps through `&mut` and returns early on errors, leaving
what it wrote so far. It is modelled in `Exec`, whose errors keep the state, as five stages:

1. `validateTransactionShape`, per-kind checks on the transaction alone;
2. `authenticate`, the signature and the sender address;
3. `debitSender`, which creates the sender's entry, takes `amount + fee cap` and moves stake;
4. `executeKind`, which credits, deploys or calls and says how much gas that used;
5. `settleFees`, which refunds the unused part of the fee cap and files the receipt.
-/

set_option autoImplicit false

namespace Curs3d

open U64 Outcome

/-- The state a block executes on; also what `validate_block_against_state` returns. -/
structure ExecState where
  accounts : ByteMap AccountState
  contracts : ByteMap ContractState
  receipts : ByteMap Receipt
  tokenRegistry : TokenRegistry
  governance : GovernanceState
deriving DecidableEq

/-- The scalar arguments of `apply_user_transaction`. -/
structure TxContext where
  currentHeight : Nat
  unstakeDelayBlocks : Nat
  epochLength : Nat
  minimumStake : Nat
  baseFeePerGas : Nat
deriving DecidableEq, Repr

abbrev Exec := EStateM ChainError ExecState

def ensure (cond : Bool) (err : ChainError) : Except ChainError Unit :=
  if cond then .ok () else .error err

/-! ## Shape -/

def missingChainId : ChainError := .invalidTransactionFormat "missing transaction chain id"

/-- The checks every native kind but a transfer starts with. -/
def ensureChainIdAndSender (tx : Transaction) : Except ChainError Unit := do
  ensure (!tx.chainId.isEmpty) missingChainId
  ensure (tx.from.length = ADDRESS_LEN) .invalidSender

/-- The token and governance kinds also need a payload. -/
def ensurePayload (tx : Transaction) (reason : String) : Except ChainError Unit := do
  ensureChainIdAndSender tx
  ensure (!tx.data.isEmpty) (.invalidTransactionFormat reason)

def validateCoinbaseShape (tx : Transaction) : Except ChainError Unit := do
  ensure (!tx.chainId.isEmpty) .invalidCoinbase
  ensure (tx.from = List.replicate ADDRESS_LEN 0) .invalidCoinbase
  ensure tx.senderPublicKey.isEmpty .invalidCoinbase
  ensure (tx.to.length = ADDRESS_LEN) .invalidCoinbase
  ensure (tx.fee = 0 ∧ tx.maxFeePerGas' = 0 ∧ tx.maxPriorityFeePerGas' = 0 ∧ tx.nonce = 0 ∧
    tx.signature.isNone) .invalidCoinbase

def validateTransactionShape (tx : Transaction) : Except ChainError Unit := do
  ensure (tx.isCoinbase ∨ tx.maxPriorityFeePerGas' ≤ tx.maxFeePerGas')
    (.invalidTransactionFormat "max_priority_fee_per_gas cannot exceed max_fee_per_gas")
  match tx.kind with
  | .coinbase => validateCoinbaseShape tx
  | .transfer =>
    ensure (!tx.chainId.isEmpty) missingChainId
    ensure (tx.from.length = ADDRESS_LEN ∧ tx.to.length = ADDRESS_LEN) .invalidRecipient
    ensure (tx.amount ≠ 0) (.invalidTransactionFormat "transfer amount must be positive")
  | .stake | .unstake =>
    ensureChainIdAndSender tx
    ensure tx.to.isEmpty
      (.invalidTransactionFormat "stake/unstake transactions cannot have a recipient")
    ensure (tx.amount ≠ 0) (.invalidTransactionFormat "stake/unstake amount must be positive")
  | .deployContract =>
    ensureChainIdAndSender tx
    ensure (!tx.to.isEmpty) (.invalidTransactionFormat "deploy contract must include bytecode")
    ensure (tx.gasLimit ≠ 0) (.invalidTransactionFormat "deploy contract must specify gas_limit")
  | .callContract =>
    ensureChainIdAndSender tx
    ensure (tx.to.length = ADDRESS_LEN)
      (.invalidTransactionFormat "call contract must specify a valid contract address")
    ensure (tx.gasLimit ≠ 0) (.invalidTransactionFormat "call contract must specify gas_limit")
  | .deployToken => ensurePayload tx "deploy token must include token parameters in data"
  | .tokenTransfer => ensurePayload tx "token transfer must include transfer parameters in data"
  | .tokenApprove => ensurePayload tx "token approve must include approve parameters in data"
  | .tokenTransferFrom => ensurePayload tx "token transferFrom must include parameters in data"
  | .submitProposal => ensurePayload tx "submit proposal must include proposal parameters in data"
  | .governanceVote => ensurePayload tx "governance vote must include vote parameters in data"
  | .deployEvmContract =>
    ensurePayload tx "evm deploy must include init bytecode in data"
    ensure (tx.gasLimit ≠ 0) (.invalidTransactionFormat "evm deploy must specify gas_limit")
    ensure (!tx.evmRawTx.isEmpty)
      (.invalidTransactionFormat "evm deploy missing raw tx for signature recovery")
  | .callEvmContract =>
    ensureChainIdAndSender tx
    ensure (tx.to.length = ADDRESS_LEN)
      (.invalidTransactionFormat "evm call must specify a valid contract address")
    ensure (tx.gasLimit ≠ 0) (.invalidTransactionFormat "evm call must specify gas_limit")
    ensure (!tx.evmRawTx.isEmpty)
      (.invalidTransactionFormat "evm call missing raw tx for signature recovery")

def authenticate (P : Primitives) (tx : Transaction) : Except ChainError Unit := do
  ensure (tx.verifySignature P) .invalidSignature
  ensure (tx.isEvm ∨ tx.from = addressBytesFromPublicKey P tx.senderPublicKey) .invalidSender

/-! ## The sender's entry -/

def nextEpochStartHeightFor (currentHeight epochLength : Nat) : Nat :=
  satMul (satAdd (currentHeight / max epochLength 1) 1) (max epochLength 1)

/-- A native sender's public key is stored on its first transaction and must match later. -/
def bindPublicKey (tx : Transaction) : EStateM ChainError AccountState Unit := fun sender =>
  if tx.isEvm then .ok () sender
  else match sender.publicKey with
    | some existing =>
      if existing ≠ tx.senderPublicKey then .error .invalidSender sender else .ok () sender
    | none => .ok () { sender with publicKey := some tx.senderPublicKey }

/-- `tx.amount.saturating_add(tx.total_fee_cap())`. -/
def Transaction.needed (tx : Transaction) : Nat := satAdd tx.amount tx.totalFeeCap

def takeUpFront (tx : Transaction) : EStateM ChainError AccountState Unit := fun sender =>
  if sender.balance < tx.needed then
    .error (.insufficientBalance tx.from sender.balance tx.needed) sender
  else if tx.nonce ≠ sender.nonce then .error (.invalidNonce sender.nonce tx.nonce) sender
  else .ok () { sender with
    balance := sender.balance - tx.needed
    nonce := wrapAdd sender.nonce 1 }

def addStake (ctx : TxContext) (tx : Transaction) (sender : AccountState) : AccountState :=
  let staked := satAdd sender.stakedBalance tx.amount
  { sender with
    stakedBalance := staked
    validatorActiveFromHeight :=
      if sender.stakedBalance < ctx.minimumStake ∧ ctx.minimumStake ≤ staked then
        nextEpochStartHeightFor ctx.currentHeight ctx.epochLength
      else sender.validatorActiveFromHeight }

def moveStake (ctx : TxContext) (tx : Transaction) : EStateM ChainError AccountState Unit :=
  fun sender =>
    if tx.isStake then .ok () (addStake ctx tx sender)
    else if tx.isUnstake then
      if sender.stakedBalance < tx.amount then
        .error (.insufficientBalance tx.from sender.stakedBalance tx.amount) sender
      else .ok () { sender with
        stakedBalance := sender.stakedBalance - tx.amount
        pendingUnstakes := sender.pendingUnstakes ++
          [{ amount := tx.amount
             unlockHeight := satAdd ctx.currentHeight ctx.unstakeDelayBlocks }] }
    else .ok () sender

def senderEntry (ctx : TxContext) (tx : Transaction) : EStateM ChainError AccountState Unit := do
  bindPublicKey tx
  takeUpFront tx
  moveStake ctx tx

/-- `accounts.entry(tx.from).or_default()`, changed in place: an error keeps the change. -/
def debitSender (ctx : TxContext) (tx : Transaction) : Exec Unit := fun s =>
  match senderEntry ctx tx (s.accounts[tx.from]?.getD {}) with
  | .ok () sender => .ok () { s with accounts := s.accounts.insert tx.from sender }
  | .error e sender => .error e { s with accounts := s.accounts.insert tx.from sender }

/-! ## EVM transactions -/

def DEFAULT_BLOCK_GAS_LIMIT : Nat := 10000000

/-- Only 20-byte keys enter the view. -/
def evmStateView (accounts : ByteMap AccountState) (contracts : ByteMap ContractState) :
    EvmStateView where
  accounts := (accounts.filter fun addr _ => addr.length = 20).map fun _ a => (a.balance, a.nonce)
  contracts := contracts.filter fun addr _ => addr.length = 20

/-- `[0u8; 20]` unless the address has 20 bytes. -/
def toArray20 (addr : Bytes) : Bytes :=
  if addr.length = 20 then addr else List.replicate 20 (0 : UInt8)

def leakEvmErr : EvmError → String
  | .emptyBytecode => "evm deploy: empty bytecode"
  | .halted => "evm: halted"
  | .internal => "evm: internal error"

def mergeAccounts (accounts : ByteMap AccountState) (outcome : EvmOutcome) :
    ByteMap AccountState :=
  outcome.accountUpdates.toList.foldl
    (fun m (e : Bytes × (Nat × Nat)) =>
      KeyMap.upsert m e.1 {} fun a => { a with balance := e.2.1, nonce := e.2.2 })
    accounts

def mergeContracts (contracts : ByteMap ContractState) (outcome : EvmOutcome) :
    ByteMap ContractState :=
  let created := outcome.contractsCreated.toList.foldl
    (fun m (e : Bytes × ContractState) =>
      m.insert e.1 { e.2 with storage := outcome.storageUpdates[e.1]?.getD e.2.storage })
    contracts
  outcome.storageUpdates.toList.foldl
    (fun m (e : Bytes × ByteMap Bytes) =>
      if e.1 ∈ outcome.contractsCreated then m
      else match m[e.1]? with
        | none => m
        | some contract => m.insert e.1 { contract with
            storage := e.2.toList.foldl (fun st (w : Bytes × Bytes) => st.insert w.1 w.2)
              contract.storage })
    created

/-- `merge_evm_outcome` on success, the mapped error otherwise. -/
def mergeEvm (outcome : Except EvmError EvmOutcome) : Exec EvmOutcome := fun s =>
  match outcome with
  | .error e => .error (.invalidTransactionFormat (leakEvmErr e)) s
  | .ok out => .ok out { s with
      accounts := mergeAccounts s.accounts out
      contracts := mergeContracts s.contracts out }

/-- The caller's nonce in the view is the transaction's own, not the incremented one. -/
def applyEvmDeploy (P : Primitives) (ctx : TxContext) (tx : Transaction) : Exec EvmOutcome :=
  fun s =>
    let view := evmStateView s.accounts s.contracts
    let caller := toArray20 tx.from
    let view := match view.accounts[caller]? with
      | some (balance, _) => { view with accounts := view.accounts.insert caller (balance, tx.nonce) }
      | none => view
    mergeEvm (Evm.deploy P view caller tx.data tx.amount tx.gasLimit (max ctx.baseFeePerGas 1)
      ctx.currentHeight ctx.baseFeePerGas DEFAULT_BLOCK_GAS_LIMIT) s

def applyEvmCall (P : Primitives) (ctx : TxContext) (tx : Transaction) : Exec EvmOutcome :=
  fun s =>
    mergeEvm (Evm.call P (evmStateView s.accounts s.contracts) (toArray20 tx.from)
      (toArray20 tx.to) tx.data tx.amount tx.gasLimit (max ctx.baseFeePerGas 1)
      ctx.currentHeight ctx.baseFeePerGas DEFAULT_BLOCK_GAS_LIMIT) s

/-! ## Token and governance transactions -/

def parsed {α : Type} (r : Option α) (reason : String) : Except ChainError α :=
  match r with
  | some a => .ok a
  | none => .error (.invalidTransactionFormat reason)

def tokenResult (r : Except TokenError TokenRegistry) : Except ChainError TokenRegistry :=
  match r with
  | .ok registry => .ok registry
  | .error _ => .error (.invalidTransactionFormat "token operation failed")

def governanceResult (r : Except GovernanceError GovernanceState) :
    Except ChainError GovernanceState :=
  match r with
  | .ok governance => .ok governance
  | .error _ => .error (.invalidTransactionFormat "governance operation failed")

def applySubmitProposal (P : Primitives) (ctx : TxContext) (tx : Transaction) (s : ExecState) :
    Except ChainError GovernanceState := do
  let params ← parsed (P.parseSubmitProposal tx.data) "invalid SubmitProposal JSON in data"
  ensure (match s.accounts[tx.from]? with
    | some a => ctx.minimumStake ≤ a.stakedBalance
    | none => false) .unauthorizedValidator
  let stakeSnapshot : ByteMap Nat :=
    (s.accounts.filter fun _ a => ctx.minimumStake ≤ a.stakedBalance).map fun _ a => a.stakedBalance
  governanceResult (s.governance.submitProposal P tx.from params ctx.currentHeight
    ctx.epochLength stakeSnapshot)

def applyGovernanceVote (P : Primitives) (ctx : TxContext) (tx : Transaction) (s : ExecState) :
    Except ChainError GovernanceState := do
  let params ← parsed (P.parseGovernanceVote tx.data) "invalid GovernanceVote JSON in data"
  let voterStake := (s.accounts[tx.from]?.map AccountState.stakedBalance).getD 0
  ensure (ctx.minimumStake ≤ voterStake) .unauthorizedValidator
  governanceResult (s.governance.vote tx.from params.proposalId params.vote ctx.currentHeight)

/-- The four token kinds; the others leave the registry as it is. -/
def applyTokenTx (P : Primitives) (ctx : TxContext) (tx : Transaction) (r : TokenRegistry) :
    Except ChainError TokenRegistry :=
  match tx.kind with
  | .deployToken => do
    let params ← parsed (P.parseDeployToken tx.data) "invalid DeployToken JSON in data"
    tokenResult (r.deployToken P tx.from (tx.nonce - 1) params ctx.currentHeight)
  | .tokenTransfer => do
    let params ← parsed (P.parseTokenTransfer tx.data) "invalid TokenTransfer JSON in data"
    tokenResult (r.transfer params.tokenAddress tx.from params.recipient params.amount)
  | .tokenApprove => do
    let params ← parsed (P.parseTokenApprove tx.data) "invalid TokenApprove JSON in data"
    tokenResult (r.approve params.tokenAddress tx.from params.spender params.amount)
  | .tokenTransferFrom => do
    let params ← parsed (P.parseTokenTransferFrom tx.data) "invalid TokenTransferFrom JSON in data"
    tokenResult (r.transferFrom params.tokenAddress tx.from params.from params.recipient
      params.amount)
  | _ => .ok r

/-- `apply_token_or_governance_tx`: nothing is written before an error. -/
def applyTokenOrGovernanceTx (P : Primitives) (ctx : TxContext) (tx : Transaction) : Exec Unit :=
  fun s =>
    let result : Except ChainError ExecState :=
      match tx.kind with
      | .submitProposal =>
        (applySubmitProposal P ctx tx s).map fun g => { s with governance := g }
      | .governanceVote =>
        (applyGovernanceVote P ctx tx s).map fun g => { s with governance := g }
      | _ => (applyTokenTx P ctx tx s.tokenRegistry).map fun r => { s with tokenRegistry := r }
    match result with
    | .ok s' => .ok () s'
    | .error e => .error e s

/-! ## The kinds -/

/-- `accounts.entry(addr).or_default()` with `amount` added to its balance. -/
def credit (accounts : ByteMap AccountState) (addr : Bytes) (amount : Nat) :
    ByteMap AccountState :=
  KeyMap.upsert accounts addr {} fun a => { a with balance := satAdd a.balance amount }

def vmResult {α : Type} (r : Except VmError α) : Exec α := fun s =>
  match r with
  | .ok a => .ok a s
  | .error e => .error (.vmError e) s

def executeDeploy (P : Primitives) (ctx : TxContext) (tx : Transaction) : Exec (Nat × Receipt) := do
  let (contract, receipt) ←
    vmResult (Vm.deploy P tx.to tx.from (tx.nonce - 1) tx.gasLimit ctx.currentHeight)
  modify fun s => match receipt.contractAddress with
    | some addr => { s with contracts := s.contracts.insert addr contract }
    | none => s
  return (receipt.gasUsed, { receipt with txHash := tx.hash P })

def executeCall (P : Primitives) (tx : Transaction) : Exec (Nat × Receipt) := do
  match (← get).contracts[tx.to]? with
  | none => throw (.contractNotFound tx.to)
  | some contract =>
    let (contract', receipt) ←
      vmResult (Vm.call P contract tx.to tx.data tx.from tx.gasLimit)
    modify fun s => { s with
      contracts := s.contracts.insert tx.to contract'
      accounts := if 0 < tx.amount then credit s.accounts tx.to tx.amount else s.accounts }
    return (receipt.gasUsed, { receipt with txHash := tx.hash P })

def evmReceipt (P : Primitives) (ctx : TxContext) (tx : Transaction) (outcome : EvmOutcome) :
    Nat × Option Receipt :=
  (max outcome.gasUsed GAS_BASE_TX,
    some (Evm.receiptFromOutcome outcome (tx.hash P) (max ctx.baseFeePerGas 1)))

/-- The `match tx.kind` of `apply_user_transaction`: the gas used and the receipt, if any. -/
def executeKind (P : Primitives) (ctx : TxContext) (tx : Transaction) :
    Exec (Nat × Option Receipt) :=
  match tx.kind with
  | .transfer => do
    modify fun s => { s with accounts := credit s.accounts tx.to tx.amount }
    return (GAS_BASE_TX, none)
  | .stake | .unstake => return (GAS_BASE_TX, none)
  | .coinbase =>
    throw (.invalidTransactionFormat "coinbase not allowed in user transaction flow")
  | .deployContract => do
    let (gasUsed, receipt) ← executeDeploy P ctx tx
    return (gasUsed, some receipt)
  | .callContract => do
    let (gasUsed, receipt) ← executeCall P tx
    return (gasUsed, some receipt)
  | .deployToken | .tokenTransfer | .tokenApprove | .tokenTransferFrom | .submitProposal
  | .governanceVote => do
    applyTokenOrGovernanceTx P ctx tx
    return (GAS_BASE_TX, none)
  | .deployEvmContract => do
    return evmReceipt P ctx tx (← applyEvmDeploy P ctx tx)
  | .callEvmContract => do
    return evmReceipt P ctx tx (← applyEvmCall P ctx tx)

/-! ## Fees -/

def ensureTransactionFeeCoversBase (tx : Transaction) (gasUsed baseFeePerGas : Nat) :
    Except ChainError Unit :=
  if tx.maxFeePerGas' < baseFeePerGas ∨ tx.totalFeeCap < satMul gasUsed baseFeePerGas then
    .error .feeTooLow
  else .ok ()

def priorityFeeForTransaction (tx : Transaction) (gasUsed baseFeePerGas : Nat) : Nat :=
  satMul ((tx.priorityFeePerGas baseFeePerGas).getD 0) gasUsed

def effectivePrice (tx : Transaction) (baseFeePerGas : Nat) : Except ChainError Nat :=
  match tx.effectiveGasPrice baseFeePerGas with
  | some price => .ok price
  | none => .error .feeTooLow

/-- `gas_refunded`. -/
def gasRefund (tx : Transaction) (gasUsed price : Nat) : Nat :=
  tx.totalFeeCap - satMul gasUsed price

def settleFees (P : Primitives) (ctx : TxContext) (tx : Transaction) (gasUsed : Nat)
    (receipt : Option Receipt) : Exec Unit := do
  check (ensureTransactionFeeCoversBase tx gasUsed ctx.baseFeePerGas)
  let price ← check (effectivePrice tx ctx.baseFeePerGas)
  let refund := gasRefund tx gasUsed price
  modify fun s => { s with
    accounts := credit s.accounts tx.from refund
    receipts := match receipt with
      | some r => s.receipts.insert (tx.hash P) { r with
          effectiveGasPrice := price
          priorityFeePaid := priorityFeeForTransaction tx gasUsed ctx.baseFeePerGas
          baseFeeBurned := satMul gasUsed ctx.baseFeePerGas
          gasRefunded := refund }
      | none => s.receipts }

/-- `apply_user_transaction`: the gas used, or an error that keeps what was written. -/
def applyUserTransaction (P : Primitives) (ctx : TxContext) (tx : Transaction) : Exec Nat := do
  check (validateTransactionShape tx)
  check (authenticate P tx)
  debitSender ctx tx
  let (gasUsed, receipt) ← executeKind P ctx tx
  settleFees P ctx tx gasUsed receipt
  return gasUsed

/-! ## Coinbase and unlocks -/

def applyCoinbaseTransaction (accounts : ByteMap AccountState) (tx : Transaction) :
    Except ChainError (ByteMap AccountState) := do
  validateTransactionShape tx
  ensure tx.isCoinbase .invalidCoinbase
  return credit accounts tx.to tx.amount

/-- What `retain` drops, summed up. -/
def releasedAmount (pending : List PendingUnstake) (blockHeight : Nat) : Nat :=
  (pending.filter fun p => p.unlockHeight ≤ blockHeight).foldl
    (fun released p => satAdd released p.amount) 0

def unlockAccount (blockHeight : Nat) (a : AccountState) : AccountState :=
  { a with
    pendingUnstakes := a.pendingUnstakes.filter fun p => blockHeight < p.unlockHeight
    balance := satAdd a.balance (releasedAmount a.pendingUnstakes blockHeight) }

def applyUnstakeUnlocks (accounts : ByteMap AccountState) (blockHeight : Nat) :
    ByteMap AccountState :=
  accounts.map fun _ a => unlockAccount blockHeight a

end Curs3d
