import Curs3d.Chain.State

/-!
# Validating and adding a block (`src/core/chain/apply.rs`)

`validateBlockAgainstState` checks a block on a parent block and a parent state and returns the
state after it; it writes nothing. `addBlock` is the live path: it first stores the snapshot of
a new epoch and settles the old one *on the live accounts*, then validates, then commits.
`add_block` returns `Err` from the middle, so the model returns the chain it leaves in either
case.
-/

set_option autoImplicit false

namespace Curs3d

open U64

/-! ## The per-transaction loop of a block -/

structure BlockProgress where
  state : ExecState
  txHashes : Finset Bytes
  priorityFees : Nat
  totalGasUsed : Nat
  coinbase : Option Transaction

/-- One turn of the loop, for the transaction at position `index`. -/
def stepBlockTransaction (P : Primitives) (g : GenesisConfig) (ctx : TxContext) (index : Nat)
    (tx : Transaction) (p : BlockProgress) : Except ChainError BlockProgress :=
  if tx.chainId ≠ g.chainId then .error (.invalidChainId g.chainId tx.chainId)
  else if tx.hash P ∈ p.txHashes then .error .duplicateTransaction
  else
    let p := { p with txHashes := insert (tx.hash P) p.txHashes }
    if tx.isCoinbase then
      if index ≠ 0 then .error .invalidCoinbase
      else if p.coinbase.isSome then .error .multipleCoinbase
      else .ok { p with coinbase := some tx }
    else match applyUserTransaction P ctx tx p.state with
      | .error e _ => .error e
      | .ok gasUsed state =>
        let totalGasUsed := satAdd p.totalGasUsed gasUsed
        if g.blockGasLimit < totalGasUsed then
          .error (.invalidTransactionFormat "block gas limit exceeded")
        else .ok { p with
          state, totalGasUsed
          priorityFees := satAdd p.priorityFees
            (priorityFeeForTransaction tx gasUsed ctx.baseFeePerGas) }

def runBlockTransactions (P : Primitives) (g : GenesisConfig) (ctx : TxContext) :
    Nat → List Transaction → BlockProgress → Except ChainError BlockProgress
  | _, [], p => .ok p
  | index, tx :: rest, p =>
    match stepBlockTransaction P g ctx index tx p with
    | .error e => .error e
    | .ok p' => runBlockTransactions P g ctx (index + 1) rest p'

/-- The list of anchors is empty for every chain id of the source. -/
def checkpointsFor (_chainId : Text) : List (Nat × Bytes) := []

def verifyBlockAgainstKnown (chainId : Text) (height : Nat) (blockHash : Bytes) :
    Except ChainError Unit :=
  match (checkpointsFor chainId).find? fun cp => cp.1 = height with
  | none => .ok ()
  | some cp => ensure (blockHash = cp.2) (.checkpointMismatch height cp.2 blockHash "block")

namespace Blockchain

variable (P : Primitives) (c : Blockchain)

/-! ## Validation -/

/-- The header, in the order the source checks it. -/
def checkHeader (now : Int) (block parent : Block) : Except ChainError Unit := do
  ensure (block.header.height = parent.header.height + 1)
    (.invalidHeight (parent.header.height + 1) block.header.height)
  ensure (block.header.prevHash = parent.hash) .invalidPrevHash
  ensure (block.verifyHash P) .invalidBlockHash
  ensure (block.verifyMerkleRoot P) .invalidMerkleRoot
  ensure (block.verifySignature P) .invalidBlockSignature
  ensure (parent.header.timestamp ≤ block.header.timestamp ∧
      block.header.timestamp ≤ now + MAX_FUTURE_BLOCK_TIME_SECS)
    (.invalidBlockTimestamp block.header.timestamp parent.header.timestamp
      (now + MAX_FUTURE_BLOCK_TIME_SECS))
  ensure (block.header.version = c.protocolVersionAtHeight block.header.height)
    (.invalidProtocolVersion (c.protocolVersionAtHeight block.header.height) block.header.version)
  ensure (block.header.baseFeePerGas = c.nextBaseFeePerGas parent)
    (.invalidBaseFee (c.nextBaseFeePerGas parent) block.header.baseFeePerGas)

def txContext (height baseFeePerGas : Nat) : TxContext where
  currentHeight := height
  unstakeDelayBlocks := c.genesisConfig.unstakeDelayBlocks
  epochLength := c.genesisConfig.epochLength
  minimumStake := c.genesisConfig.minimumStake
  baseFeePerGas := baseFeePerGas

/-- The state the transactions of the block at `height` start from. -/
def startState (parent : ExecState) (height : Nat) : ExecState :=
  { parent with accounts := applyUnstakeUnlocks parent.accounts height, receipts := ∅ }

/-- `process_block` on the executed state; `panicked` when it divides by zero. -/
def processGovernance (s : ExecState) (height : Nat) : Except ChainError ExecState :=
  match s.governance.processBlock height (c.activeValidatorTotalStake s.accounts height)
      c.genesisConfig.epochLength with
  | some governance => .ok { s with governance }
  | none => .error .panicked

/-- What is checked after the loop: governance, gas, coinbase and state root. -/
def finishBlock (block : Block) (p : BlockProgress) : Except ChainError ExecState := do
  let s ← c.processGovernance p.state block.header.height
  ensure (block.header.gasUsed = p.totalGasUsed)
    (.invalidTransactionFormat "block gas accounting mismatch")
  match p.coinbase with
  | none => .error .missingCoinbase
  | some coinbase =>
    ensure (coinbase.to = addressBytesFromPublicKey P block.header.validatorPublicKey)
      .invalidCoinbase
    ensure (coinbase.amount = satAdd c.genesisConfig.blockReward p.priorityFees) .invalidCoinbase
    let accounts ← applyCoinbaseTransaction s.accounts coinbase
    ensure (block.header.stateRoot = StateRoot.computeAtProtocol P accounts s.contracts
        (c.protocolVersionAtHeight block.header.height)) .invalidStateRoot
    return { s with accounts }

/-- `validate_block_against_state`. -/
def validateBlockAgainstState (now : Int) (block parent : Block) (parentState : ExecState) :
    Except ChainError ExecState := do
  c.checkHeader P now block parent
  c.authorizeProposer P parentState.accounts block.header.validatorPublicKey block.header.height
    block.header.prevHash parent.header.timestamp block.header.timestamp
  let p ← runBlockTransactions P c.genesisConfig
    (c.txContext block.header.height block.header.baseFeePerGas) 0 block.transactions
    { state := startState parentState block.header.height, txHashes := ∅, priorityFees := 0
      totalGasUsed := 0, coinbase := none }
  c.finishBlock P block p

/-! ## Adding a block to the tip -/

/-- The maps a block executes on, as the chain holds them now. -/
def execState : ExecState where
  accounts := c.accounts
  contracts := c.contracts
  receipts := c.receipts
  tokenRegistry := c.tokenRegistry
  governance := c.governance

/-- The snapshot of a new epoch, taken before anything else. -/
def ensureEpochSnapshot (height : Nat) : Blockchain :=
  if 0 < height ∧ height % c.genesisConfig.epochLen = 0 ∧
      c.epochForHeight height ∉ c.epochSnapshots then
    c.createEpochSnapshotFromAccounts (c.epochForHeight height) c.accounts
  else c

/-- The settlement of the old epoch, on the live accounts. -/
def settleEpoch (height : Nat) : Blockchain :=
  let settled := applyEpochSettlementForBlock c.genesisConfig height c.epochSnapshots
    (c.proposerAddressesForSettlingEpoch P height) c.accounts c.validatorMissedEpochs
  { c with accounts := settled.1, validatorMissedEpochs := settled.2 }

/-- Everything `add_block` does before it validates. -/
def prepareEpoch (height : Nat) : Blockchain := (c.ensureEpochSnapshot height).settleEpoch P height

def proposerStake (s : ExecState) (block : Block) : Nat :=
  (s.accounts[addressBytesFromPublicKey P block.header.validatorPublicKey]?.map
    AccountState.stakedBalance).getD 0

/-- The hash and transaction indexes after one more block. -/
def indexBlock (block : Block) : Blockchain :=
  block.transactions.zipIdx.foldl
    (fun c (e : Transaction × Nat) =>
      let loc := (block.header.height, e.2)
      { c with
        txHashIndex := c.txHashIndex.insert (e.1.hash P) loc
        evmTxHashIndex :=
          if e.1.isEvm then match decodeRawEthTx P e.1.evmRawTx with
            | some decoded => c.evmTxHashIndex.insert decoded.txHash loc
            | none => c.evmTxHashIndex
          else c.evmTxHashIndex })
    { c with blockHashToHeight := c.blockHashToHeight.insert block.hash block.header.height }

def logsOf (block : Block) (txIndex : Nat) (txHash : Bytes) (receipt : Receipt) :
    List IndexedLogEntry :=
  receipt.logs.zipIdx.map fun e =>
    { blockHeight := block.header.height, txIndex, logIndex := e.2, txHash
      contract := e.1.contract, topics := e.1.topics, data := e.1.data }

def indexReceipts (block : Block) (c : Blockchain) : Blockchain :=
  block.transactions.zipIdx.foldl
    (fun c (e : Transaction × Nat) =>
      if e.1.isCoinbase then c
      else match c.receipts[e.1.hash P]? with
        | none => c
        | some receipt => { c with
            receiptLocations := c.receiptLocations.insert (e.1.hash P)
              { blockHeight := block.header.height, txIndex := e.2 }
            logIndex := c.logIndex ++ logsOf block e.2 (e.1.hash P) receipt })
    c

def logEntryLe (a b : IndexedLogEntry) : Bool :=
  a.blockHeight < b.blockHeight ∨ (a.blockHeight = b.blockHeight ∧
    (a.txIndex < b.txIndex ∨ (a.txIndex = b.txIndex ∧ a.logIndex ≤ b.logIndex)))

def rebuildReceiptIndexes : Blockchain :=
  let cleared := { c with receiptLocations := ∅, logIndex := [] }
  let walked := c.iterBlocks.foldl (fun acc block => indexReceipts P block acc) cleared
  { walked with logIndex := walked.logIndex.insertionSort fun a b => logEntryLe a b }

def removeBlockTransactionsFromMempool (block : Block) : Blockchain :=
  let included := ((block.transactions.filter fun tx => !tx.isCoinbase).map fun tx => tx.hash P)
  { c with pendingTransactions := c.pendingTransactions.filter fun tx => tx.hash P ∉ included }

/-- `receipts.extend(..)`. -/
def extendReceipts (old new : ByteMap Receipt) : ByteMap Receipt :=
  new.toList.foldl (fun m (e : Bytes × Receipt) => m.insert e.1 e.2) old

/-- `let _ = self.block_tree.insert(..)`: an insertion error is ignored. -/
def insertIgnoringErrors (t : BlockTree) (block : Block) (stake : Nat) : BlockTree :=
  match t.insert block stake with
  | .ok (t', _) => t'
  | .error _ => t

/-- The part of `add_block` after the last check. -/
def commitBlock (block : Block) (s : ExecState) : Blockchain :=
  let committed := { c with
    blockTree := insertIgnoringErrors c.blockTree block (proposerStake P s block)
    accounts := s.accounts
    contracts := s.contracts
    receipts := extendReceipts c.receipts s.receipts
    tokenRegistry := s.tokenRegistry
    governance := s.governance
    blocks := c.blocks ++ [block] }
  ((committed.indexBlock P block).rebuildReceiptIndexes P).removeBlockTransactionsFromMempool P
    block

/-- `add_block` at clock reading `now`: its result, and the chain it leaves. -/
def addBlock (now : Int) (block : Block) : Except ChainError Unit × Blockchain :=
  let prepared := c.prepareEpoch P block.header.height
  match prepared.validateBlockAgainstState P now block prepared.latestBlock prepared.execState with
  | .error e => (.error e, prepared)
  | .ok s =>
    match verifyBlockAgainstKnown c.genesisConfig.chainId block.header.height block.hash with
    | .error e => (.error e, prepared)
    | .ok () => (.ok (), prepared.commitBlock P block s)

end Blockchain

end Curs3d
