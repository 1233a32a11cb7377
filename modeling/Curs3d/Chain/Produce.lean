import Curs3d.Chain.Apply

/-!
# Producing a block (`src/core/chain/produce.rs`)

`create_block` is a second execution loop, written separately from the validating one: it walks
the pending transactions over one projected state and keeps those that apply and fit. A
transaction that fails, or that applies and does not fit, is passed over, and the loop goes on
with the state as that transaction left it.
-/

set_option autoImplicit false

namespace Curs3d

open U64 Outcome

structure ProductionProgress where
  state : ExecState
  seenHashes : Finset Bytes
  totalPriorityFees : Nat
  totalGasUsed : Nat
  blockTxs : List Transaction

/-- One turn of the production loop. -/
def stepPending (P : Primitives) (g : GenesisConfig) (ctx : TxContext) (p : ProductionProgress)
    (pending : Transaction) : ProductionProgress :=
  if pending.hash P ∈ p.seenHashes then p
  else
    let p := { p with seenHashes := insert (pending.hash P) p.seenHashes }
    match applyUserTransaction P ctx pending p.state with
    | .ok gasUsed state =>
      if satAdd p.totalGasUsed gasUsed ≤ g.blockGasLimit then
        { p with
          state
          totalGasUsed := satAdd p.totalGasUsed gasUsed
          totalPriorityFees := satAdd p.totalPriorityFees
            (priorityFeeForTransaction pending gasUsed ctx.baseFeePerGas)
          blockTxs := p.blockTxs ++ [pending] }
      else { p with state }
    | .error _ state => { p with state }

namespace Blockchain

variable (P : Primitives) (c : Blockchain)

/-- The state production starts from: unlocks first, then the settlement. -/
def productionStart (height : Nat) : ExecState :=
  let unlocked := applyUnstakeUnlocks c.accounts height
  let settled := applyEpochSettlementForBlock c.genesisConfig height c.epochSnapshots
    (c.proposerAddressesForSettlingEpoch P height) unlocked c.validatorMissedEpochs
  { c.execState with accounts := settled.1, receipts := ∅ }

def runPending (height baseFeePerGas : Nat) : ProductionProgress :=
  c.pendingTransactions.foldl (stepPending P c.genesisConfig (c.txContext height baseFeePerGas))
    { state := c.productionStart P height, seenHashes := ∅, totalPriorityFees := 0
      totalGasUsed := 0, blockTxs := [] }

def coinbaseFor (now : Int) (proposerPublicKey : Bytes) (totalPriorityFees : Nat) : Transaction :=
  Transaction.coinbaseWithTimestamp c.genesisConfig.chainId
    (addressBytesFromPublicKey P proposerPublicKey)
    (satAdd c.genesisConfig.blockReward totalPriorityFees) now

/-- `create_block` at clock reading `now`. -/
def createBlock (now : Int) (validatorKeypair : KeyPair) : Except ChainError Block := do
  let prev := c.latestBlock
  let height := prev.header.height + 1
  let version := c.protocolVersionAtHeight height
  let baseFee := c.nextBaseFeePerGas prev
  c.authorizeProposer P c.accounts validatorKeypair.publicKey height prev.hash
    prev.header.timestamp now
  let p := c.runPending P height baseFee
  let coinbase := c.coinbaseFor P now validatorKeypair.publicKey p.totalPriorityFees
  let accounts ← applyCoinbaseTransaction p.state.accounts coinbase
  return Block.new P version height prev.hash
    (StateRoot.computeAtProtocol P accounts p.state.contracts version)
    p.totalGasUsed baseFee (coinbase :: p.blockTxs) validatorKeypair now

end Blockchain

end Curs3d
