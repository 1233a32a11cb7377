import Curs3d.Core.Transaction

/-!
# The WASM machine (`src/vm/mod.rs`)

`Vm::deploy` and `Vm::call` around the wasmer engine: what is charged before the engine starts,
the address of a new contract, and the receipt. The engine itself, with the host functions it
calls back into, is `Primitives.wasmRun`.
-/

set_option autoImplicit false

namespace Curs3d.Vm

open Bincode U64

variable (P : Primitives)

def GAS_WASM_DEFAULT_OP : Nat := 2
def GAS_WASM_MEMORY_OP : Nat := 8
def GAS_WASM_CONTROL_OP : Nat := 4
def GAS_WASM_CALL_OP : Nat := 12
def GAS_WASM_NUMERIC_OP : Nat := 3

def operatorGasCost : OperatorClass → Nat
  | .control _ => GAS_WASM_CONTROL_OP
  | .call => GAS_WASM_CALL_OP
  | .memory => GAS_WASM_MEMORY_OP
  | .numeric => GAS_WASM_NUMERIC_OP
  | .other => GAS_WASM_DEFAULT_OP

def isWat (code : Bytes) : Bool := (ascii "(module").isPrefixOf code

def estimateWasmGas (code : Bytes) : Except VmError Nat :=
  if isWat code then .ok (satMul code.length GAS_WASM_DEFAULT_OP)
  else match P.wasmOperators code with
    | (_, false) => .error .invalidWasm
    | (ops, true) => .ok (ops.foldl (fun total op => satAdd total (operatorGasCost op)) 0)

def normalizeModuleBytes (code : Bytes) : Except VmError Bytes :=
  if isWat code then
    match P.wat2wasm code with
    | some wasm => .ok wasm
    | none => .error .invalidWasm
  else .ok code

/-- Whether the module imports one of the two metering hooks (`fuel_hook_function_index`). -/
def hasFuelHook (code : Bytes) : Except VmError Bool :=
  match P.wasmFunctionImports code with
  | none => .error .invalidWasm
  | some imports => .ok (imports.any fun i =>
      i = (ascii "curs3d", ascii "loop_tick") ∨ i = (ascii "curs3d", ascii "consume_gas"))

/-- The scan stops at the first loop, before any later parse error. -/
def moduleContainsLoops (code : Bytes) : Except VmError Bool :=
  let (ops, complete) := P.wasmOperators code
  if ops.any fun op => op = .control true then .ok true
  else if complete then .ok false else .error .invalidWasm

/-- `compile_module`: the normalized bytes and whether the module meters itself at run time. -/
def compileModule (code : Bytes) : Except VmError (Bytes × Bool) := do
  let wasmBytes ← normalizeModuleBytes P code
  let hooked ← hasFuelHook P wasmBytes
  if !hooked then
    if ← moduleContainsLoops P wasmBytes then throw .unmeteredLoop
  if P.wasmModuleOk wasmBytes then return (wasmBytes, hooked) else throw .invalidWasm

def checkedMul (a b : Nat) : Except VmError Nat :=
  if a * b ≤ u64Max then .ok (a * b) else .error .gasOverflow

def checkedAdd (a b : Nat) : Except VmError Nat :=
  if a + b ≤ u64Max then .ok (a + b) else .error .gasOverflow

def contractAddressFor (deployer : Bytes) (nonce blockHeight : Nat) : Bytes :=
  (sha3HashDomain P (ascii "curs3d-contract-addr-v2")
    [deployer, u64 nonce, u64 blockHeight]).take ADDRESS_LEN

def deploy (code deployer : Bytes) (nonce gasLimit blockHeight : Nat) :
    Except VmError (ContractState × Receipt) := do
  if code.isEmpty then throw .emptyBytecode
  let (normalizedCode, _) ← compileModule P code
  let codeByteGas ← checkedMul normalizedCode.length GAS_PER_BYTE
  let gasNeeded ← checkedAdd (GAS_BASE_TX + GAS_DEPLOY) codeByteGas
  if gasLimit < gasNeeded then throw (.outOfGas gasLimit gasNeeded)
  return (
    { codeHash := P.sha3 normalizedCode
      code := normalizedCode
      storage := ∅
      owner := deployer },
    { txHash := [], success := true, gasUsed := gasNeeded, effectiveGasPrice := 0
      priorityFeePaid := 0, baseFeeBurned := 0, gasRefunded := 0, logs := [], returnData := []
      contractAddress := some (contractAddressFor P deployer nonce blockHeight) })

/-- `i64::from_le_bytes` of the first eight bytes, `0` when there are fewer. -/
def inputOf (functionData : Bytes) : Int :=
  if functionData.length < 8 then 0
  else
    let n : Nat := (functionData.take 8).foldr (fun b acc => b.toNat + 256 * acc) 0
    if n < 9223372036854775808 then (n : Int) else (n : Int) - 18446744073709551616

/-- The gas charged before the entrypoint runs. -/
def callGasNeeded (staticExecutionGas : Nat) (functionData : Bytes) (runtimeMetered : Bool) :
    Except VmError Nat := do
  let payloadGas ← checkedMul functionData.length GAS_PER_BYTE
  let intrinsic ← checkedAdd (GAS_BASE_TX + GAS_CALL) payloadGas
  if runtimeMetered then return intrinsic else checkedAdd intrinsic staticExecutionGas

/-- `Vm::call`: the contract with its new storage, and the receipt. -/
def call (contract : ContractState) (contractAddress functionData caller : Bytes)
    (gasLimit : Nat) : Except VmError (ContractState × Receipt) := do
  let staticExecutionGas ← estimateWasmGas P contract.code
  let (wasmBytes, runtimeMetered) ← compileModule P contract.code
  let gasNeeded ← callGasNeeded staticExecutionGas functionData runtimeMetered
  if gasLimit < gasNeeded then throw (.outOfGas gasLimit gasNeeded)
  let (ctx, returnData) ← P.wasmRun wasmBytes
    { contractId := contractAddress, storage := contract.storage, logs := [], caller
      input := inputOf functionData, inputData := functionData
      gasRemaining := gasLimit - gasNeeded }
  return (
    { contract with storage := ctx.storage },
    { txHash := [], success := true, gasUsed := gasLimit - ctx.gasRemaining
      effectiveGasPrice := 0, priorityFeePaid := 0, baseFeeBurned := 0, gasRefunded := 0
      logs := if ctx.logs.isEmpty then
          [{ contract := ctx.contractId
             topics := [P.sha3 (ascii "curs3d_call")]
             data := ctx.caller ++ functionData }]
        else ctx.logs
      returnData, contractAddress := none })

end Curs3d.Vm
