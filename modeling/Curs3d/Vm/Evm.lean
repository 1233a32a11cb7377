import Curs3d.Core.Transaction
import Curs3d.Lib.KeyMap

/-!
# The EVM (`src/vm/evm.rs`)

`deploy` and `call` build revm's inputs from a view of the chain state; `finishExecution` turns
its post-state into the maps `merge_evm_outcome` writes back. revm itself is
`Primitives.revmTransact`. A `[u8; 20]` is a `Bytes`: the callers only build them from 20-byte
addresses.
-/

set_option autoImplicit false

namespace Curs3d

open U64

inductive EvmError where
  | emptyBytecode
  | halted
  | internal
deriving DecidableEq, Repr

structure EvmOutcome where
  gasUsed : Nat
  accountUpdates : ByteMap (Nat × Nat)
  storageUpdates : ByteMap (ByteMap Bytes)
  contractsCreated : ByteMap ContractState
  contractAddress : Option Bytes
  logs : List LogEntry
  returnData : Bytes
  success : Bool
deriving DecidableEq

namespace Evm

variable (P : Primitives)

/-- `U256::to_be_bytes`. -/
def wordBytes (n : Nat) : Bytes := (Bincode.leBytes 32 n).reverse

def convertLogs (contractAddr : Bytes) (logs : List EvmLog) : List LogEntry :=
  logs.map fun log =>
    { contract := if log.address = List.replicate 20 (0 : UInt8) then contractAddr else log.address
      topics := log.topics
      data := log.data }

/-- The storage map of one touched account: its slots over those the view already had. -/
def storageUpdateOf (seed : EvmStateView) (addr : Bytes) (account : EvmAccount) : ByteMap Bytes :=
  let touched : ByteMap Bytes := account.storage.toList.foldl
    (fun m (e : Nat × Nat) => m.insert (wordBytes e.1) (wordBytes e.2)) ∅
  match seed.contracts[addr]? with
  | none => touched
  | some existing => existing.storage.toList.foldl
      (fun m (e : Bytes × Bytes) => if e.1 ∈ m then m else m.insert e.1 e.2) touched

def resultGas : ExecutionResult → Nat
  | .success gasUsed _ _ => gasUsed
  | .revert gasUsed _ => gasUsed
  | .halt gasUsed => gasUsed

/-- `finish_execution`: a halt is an error, a revert is an outcome with `success = false`. -/
def finishExecution (result : ExecutionResult) (state : ByteMap EvmAccount)
    (seed : EvmStateView) (expectedCreator : Option Bytes) : Except EvmError EvmOutcome :=
  let finish (success : Bool) (logs : List EvmLog) (returnData : Bytes)
      (contractAddress : Option Bytes) : EvmOutcome :=
    let storageUpdates : ByteMap (ByteMap Bytes) :=
      (state.filter fun _ account => !account.storage.isEmpty).map (storageUpdateOf seed)
    { gasUsed := resultGas result
      accountUpdates := state.map fun _ account => (min account.balance u64Max, account.nonce)
      storageUpdates
      contractsCreated := state.filterMap fun addr account =>
        match account.code, expectedCreator with
        | some code, some creator =>
          if !code.isEmpty ∧ contractAddress = some addr then
            some
              { codeHash := P.sha3 code
                code
                storage := storageUpdates[addr]?.getD ∅
                owner := creator }
          else none
        | _, _ => none
      contractAddress
      logs := convertLogs (contractAddress.getD (List.replicate 20 0)) logs
      returnData
      success }
  match result with
  | .success _ logs (.call data) => .ok (finish true logs data none)
  | .success _ logs (.create data addr) => .ok (finish true logs data addr)
  | .revert _ data => .ok (finish false [] data none)
  | .halt _ => .error .halted

def transact (state : EvmStateView) (env : EvmTxEnv) (expectedCreator : Option Bytes) :
    Except EvmError EvmOutcome :=
  match P.revmTransact state env with
  | none => .error .internal
  | some (result, post) => finishExecution P result post state expectedCreator

def deploy (state : EvmStateView) (callerAddr initCode : Bytes)
    (value gasLimit gasPrice blockHeight baseFeePerGas blockGasLimit : Nat) :
    Except EvmError EvmOutcome :=
  if initCode.isEmpty then .error .emptyBytecode
  else transact P state
    { caller := callerAddr, gasLimit, gasPrice, kind := .create, value, data := initCode
      nonce := (state.accounts[callerAddr]?.map Prod.snd).getD 0
      blockHeight, baseFeePerGas, blockGasLimit } (some callerAddr)

def call (state : EvmStateView) (callerAddr toAddr inputData : Bytes)
    (value gasLimit gasPrice blockHeight baseFeePerGas blockGasLimit : Nat) :
    Except EvmError EvmOutcome :=
  transact P state
    { caller := callerAddr, gasLimit, gasPrice, kind := .call toAddr, value, data := inputData
      nonce := (state.accounts[callerAddr]?.map Prod.snd).getD 0
      blockHeight, baseFeePerGas, blockGasLimit } none

def receiptFromOutcome (outcome : EvmOutcome) (txHash : Bytes) (effectiveGasPrice : Nat) :
    Receipt where
  txHash := txHash
  success := outcome.success
  gasUsed := outcome.gasUsed
  effectiveGasPrice := effectiveGasPrice
  priorityFeePaid := 0
  baseFeeBurned := 0
  gasRefunded := 0
  logs := outcome.logs
  returnData := outcome.returnData
  contractAddress := outcome.contractAddress

end Evm

end Curs3d
