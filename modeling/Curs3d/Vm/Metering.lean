import Curs3d.Lib.Wasm
import Curs3d.Vm.Wasm

/-!
# Metering of WASM contracts (`src/vm/mod.rs`)

What the host functions charge, the middleware that puts charges into a module that imports a hook, and the
runs of the module that `compile_module` hands to the engine. The functions of a module are given as trees of
blocks (`Wasm.Code`); the middleware works on the operator stream, and `operators_meterBody` says that the tree
it leads to is `meterBody`.
-/

set_option autoImplicit false

namespace Curs3d.Vm

open U64

def GAS_STORAGE_READ : Nat := 200
def GAS_STORAGE_WRITE : Nat := 5000
def GAS_LOG : Nat := 375
def GAS_MEMORY_READ_BYTE : Nat := 3
def GAS_MEMORY_WRITE_BYTE : Nat := 6
def GAS_HOST_CALL_OVERHEAD : Nat := 40
def GAS_WASM_LOOP_TICK : Nat := 50

/-! ## Host functions -/

/-- A call of a function of `build_imports`, with what its charges depend on. -/
inductive HostCall where
  | storageGet
  | storageSet
  | emitLog
  | input
  | consumeGas (amount : Int)
  | loopTick (amount : Int)
  | storageRead (keyLen valueLen dstCapacity : Nat)
  | storageWriteBytes (keyLen valueLen : Nat)
  | emitLogBytes (topicLen dataLen : Nat)
  | inputLen
  | inputRead (sliceLen : Option Nat)
deriving DecidableEq, Repr

namespace HostCall

def name : HostCall → Text
  | storageGet => ascii "storage_get"
  | storageSet => ascii "storage_set"
  | emitLog => ascii "emit_log"
  | input => ascii "input"
  | consumeGas _ => ascii "consume_gas"
  | loopTick _ => ascii "loop_tick"
  | storageRead _ _ _ => ascii "storage_read"
  | storageWriteBytes _ _ => ascii "storage_write_bytes"
  | emitLogBytes _ _ => ascii "emit_log_bytes"
  | inputLen => ascii "input_len"
  | inputRead _ => ascii "input_read"

def readCharge (len : Nat) : Nat := satAdd GAS_HOST_CALL_OVERHEAD (satMul len GAS_MEMORY_READ_BYTE)

def writeCharge (len : Nat) : Nat := satAdd GAS_HOST_CALL_OVERHEAD (satMul len GAS_MEMORY_WRITE_BYTE)

/-- The amounts it charges, in order; a call that fails in between has charged the first ones. -/
def charges : HostCall → List Nat
  | storageGet => [satAdd GAS_HOST_CALL_OVERHEAD GAS_STORAGE_READ]
  | storageSet => [satAdd GAS_HOST_CALL_OVERHEAD GAS_STORAGE_WRITE]
  | emitLog => [satAdd GAS_HOST_CALL_OVERHEAD GAS_LOG]
  | input => [satAdd GAS_HOST_CALL_OVERHEAD GAS_PER_BYTE]
  | consumeGas amount => [(max amount 0).toNat]
  | loopTick amount => [(max amount 0).toNat]
  | storageRead keyLen valueLen dstCapacity =>
    [readCharge keyLen, satAdd GAS_STORAGE_READ (satMul valueLen GAS_MEMORY_WRITE_BYTE),
      writeCharge (min valueLen dstCapacity)]
  | storageWriteBytes keyLen valueLen =>
    [readCharge keyLen, readCharge valueLen, satAdd GAS_STORAGE_WRITE (satMul valueLen GAS_PER_BYTE)]
  | emitLogBytes topicLen dataLen =>
    [readCharge topicLen, readCharge dataLen, satAdd GAS_LOG (satMul (topicLen + dataLen) GAS_PER_BYTE)]
  | inputLen => [satAdd GAS_HOST_CALL_OVERHEAD GAS_PER_BYTE]
  | inputRead none => []
  | inputRead (some sliceLen) => [writeCharge sliceLen]

end HostCall

/-- `consume_gas` of `Vm`: the gas left. -/
def consumeGas (gasRemaining amount : Nat) : Except VmError Nat :=
  if gasRemaining < amount then .error (.outOfGas gasRemaining amount) else .ok (gasRemaining - amount)

def HostCall.charge (call : HostCall) (gasRemaining : Nat) : Except VmError Nat :=
  call.charges.foldlM Vm.consumeGas gasRemaining

/-! ## The middleware -/

def opClass : Wasm.Op OperatorClass → OperatorClass
  | .simple c => c
  | .i64Const _ => .numeric
  | .br _ | .brIf _ | .brTable _ | .ret => .control false
  | .call _ | .callIndirect | .returnCall _ | .returnCallIndirect => .call

/-- The class `operator_gas_cost` sorts an operator into. -/
def operatorClass : Wasm.Operator OperatorClass → OperatorClass
  | .leaf o => opClass o
  | .loop => .control true
  | .block | .if_ | .else_ | .end_ => .control false

def costs : Wasm.Costs OperatorClass where
  op o := operatorGasCost (opClass o)
  control := GAS_WASM_CONTROL_OP

/-- `I64Const` and `Call` as the middleware pushes them. -/
def pushedCharge (functionIndex value : Nat) : List (Wasm.Operator OperatorClass) :=
  [.leaf (.i64Const value), .leaf (.call functionIndex)]

/-- `FuelMeteringFunction::feed`; `none` is its error. -/
def feed (hookFunctionIndex : Option Nat) (operator : Wasm.Operator OperatorClass) :
    Option (List (Wasm.Operator OperatorClass)) :=
  let meteringCost := operatorGasCost (operatorClass operator)
  match operator, hookFunctionIndex with
  | .loop, none => none
  | .loop, some functionIndex =>
    some (.loop :: pushedCharge functionIndex (satAdd meteringCost GAS_WASM_LOOP_TICK))
  | other, some functionIndex =>
    if 0 < meteringCost then some (pushedCharge functionIndex meteringCost ++ [other]) else some [other]
  | other, none => some [other]

/-- The first import of `loop_tick`, or else the last one of `consume_gas`, from index `i` on. -/
def fuelHookFrom : Nat → Option Nat → List (Text × Text) → Option Nat
  | _, fallback, [] => fallback
  | i, fallback, imported :: rest =>
    if imported = (ascii "curs3d", ascii "loop_tick") then some i
    else fuelHookFrom (i + 1)
      (if imported = (ascii "curs3d", ascii "consume_gas") then some i else fallback) rest

/-- `fuel_hook_function_index`. -/
def fuelHookFunctionIndex (imports : List (Text × Text)) : Option Nat := fuelHookFrom 0 none imports

/-- A function's code with a charge before every operator, and `tail` at its end. -/
def meter (hook : Nat) : Wasm.Code OperatorClass → Wasm.Code OperatorClass → Wasm.Code OperatorClass
  | .nil, tail => tail
  | .op _ o rest, tail =>
    Wasm.charge hook (operatorGasCost (opClass o)) (.op true o (meter hook rest tail))
  | .block body rest, tail =>
    Wasm.charge hook GAS_WASM_CONTROL_OP
      (.block (meter hook body (Wasm.charge hook GAS_WASM_CONTROL_OP .nil)) (meter hook rest tail))
  | .loop body rest, tail =>
    .loop (Wasm.charge hook (satAdd GAS_WASM_CONTROL_OP GAS_WASM_LOOP_TICK)
      (meter hook body (Wasm.charge hook GAS_WASM_CONTROL_OP .nil))) (meter hook rest tail)
  | .ifThen body rest, tail =>
    Wasm.charge hook GAS_WASM_CONTROL_OP
      (.ifThen (meter hook body (Wasm.charge hook GAS_WASM_CONTROL_OP .nil)) (meter hook rest tail))
  | .ifElse body other rest, tail =>
    Wasm.charge hook GAS_WASM_CONTROL_OP
      (.ifElse (meter hook body (Wasm.charge hook GAS_WASM_CONTROL_OP .nil))
        (meter hook other (Wasm.charge hook GAS_WASM_CONTROL_OP .nil)) (meter hook rest tail))

/-- A function's body as the middleware leaves it: also its last `End` has a charge before it. -/
def meterBody (hook : Nat) (body : Wasm.Code OperatorClass) : Wasm.Code OperatorClass :=
  meter hook body (Wasm.charge hook GAS_WASM_CONTROL_OP .nil)

/-! ## A module and its runs -/

/-- What a module declares: imported functions, function bodies, the function that runs on instantiation,
and the one exported as `curs3d_call` or `call`. -/
structure WasmModule where
  imports : List (Text × Text)
  functions : List (Wasm.Code OperatorClass)
  start : Option Nat
  entry : Nat

namespace WasmModule

variable (M : WasmModule)

/-- The operators of all function bodies, each closed by its `End`. -/
def operators : List (Wasm.Operator OperatorClass) :=
  M.functions.flatMap fun body => body.operators ++ [.end_]

/-- The module the engine runs. -/
def compiled : Wasm.Module OperatorClass where
  hosts := M.imports.length
  functions := match fuelHookFunctionIndex M.imports with
    | some hook => M.functions.map (meterBody hook)
    | none => M.functions

/-- `code` is this module for the two parsers; every operator in it is its own. -/
structure Describes (P : Primitives) (code : Bytes) : Prop where
  operators : P.wasmOperators code = (M.operators.map operatorClass, true)
  imports : P.wasmFunctionImports code = some M.imports
  own : ∀ body ∈ M.functions, body.allOwn = true

end WasmModule

/-- What operators and host functions do to the stack, the memory and the globals: all that is said of it is
that a hook is called with the constant just pushed. -/
structure WasmData (σ : Type) where
  const : Int → σ → σ
  host : HostCall → σ → σ → Prop
  consumeGas_const : ∀ v s amount s', host (.consumeGas amount) (const v s) s' → amount = v
  loopTick_const : ∀ v s amount s', host (.loopTick amount) (const v s) s' → amount = v

/-- The machine a module runs on: its data, and the gas of `VmExecutionContext` as the meter. -/
def WasmData.machine {σ : Type} (D : WasmData σ) (imports : List (Text × Text)) : Wasm.Machine σ where
  const := D.const
  host f s gas s' gas' := ∃ call : HostCall, imports[f]? = some (ascii "curs3d", call.name) ∧
    D.host call s s' ∧ call.charge gas = .ok gas'

/-- What a call executes: the cost of the module's operators, each time they execute, and the functions it
enters. -/
structure Executed where
  cost : Nat
  entered : List Nat

/-- Instantiation, which runs the start function, and then the entrypoint, from `gas` to `gas'`. -/
def Executes {σ : Type} (D : WasmData σ) (M : WasmModule) (gas gas' : Nat) (x : Executed) : Prop :=
  ∃ s s₁ s₂ gas₁, ∃ started called : Executed,
    (match M.start with
      | none => started = ⟨0, []⟩ ∧ gas₁ = gas
      | some f => Wasm.Runs (D.machine M.imports) M.compiled costs (.function f) s gas .fall s₁ gas₁
          started.cost started.entered) ∧
    Wasm.Runs (D.machine M.imports) M.compiled costs (.function M.entry) s₁ gas₁ .fall s₂ gas'
      called.cost called.entered ∧
    x = ⟨started.cost + called.cost, started.entered ++ called.entered⟩

/-- What `Vm::call` charges before it starts the engine. -/
def chargedBefore (P : Primitives) (contract : ContractState) (functionData : Bytes) : Except VmError Nat := do
  let staticExecutionGas ← estimateWasmGas P contract.code
  let (_, runtimeMetered) ← compileModule P contract.code
  callGasNeeded staticExecutionGas functionData runtimeMetered

/-- The context `Vm::call` starts the engine with. -/
def startContext (contract : ContractState) (contractAddress functionData caller : Bytes)
    (gasRemaining : Nat) : VmExecutionContext where
  contractId := contractAddress
  storage := contract.storage
  logs := []
  caller := caller
  input := inputOf functionData
  inputData := functionData
  gasRemaining := gasRemaining

end Curs3d.Vm
