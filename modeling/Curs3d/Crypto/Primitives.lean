import Curs3d.Core.Types

/-!
# What the node takes from other crates

Everything `src/` calls and does not contain is a field of `Primitives`: SHA-3, ML-DSA, the
alloy decoder with its signer recovery, wasmer, revm and the JSON parsers of the token and
governance payloads. The model takes a `P : Primitives` wherever the source takes one of these,
and assumes nothing about it; a theorem that needs a documented property of one of them says so
in a hypothesis of its own.
-/

set_option autoImplicit false

namespace Curs3d

/-! ## The signed Ethereum envelope

`alloy_consensus::TxEnvelope` through its `Transaction` trait: the value is a `U256`, the fees
are `u128`. `signer` is the result of `recover_signer` on it. -/

structure TxEnvelope where
  signer : Option Bytes
  «to» : Option Bytes
  value : Nat
  input : Bytes
  gasLimit : Nat
  maxFeePerGas : Nat
  maxPriorityFeePerGas : Option Nat
  nonce : Nat
  chainId : Option Nat
  txHash : Bytes
deriving DecidableEq, Repr

/-! ## revm's side of an execution -/

/-- `EvmStateView`: what revm may read, `(balance, nonce)` and the contract of each address. -/
structure EvmStateView where
  accounts : ByteMap (Nat × Nat) := ∅
  contracts : ByteMap ContractState := ∅
deriving DecidableEq

inductive TxKind where
  | create
  | call (addr : Bytes)
deriving DecidableEq, Repr

/-- The fields of `TxEnv` and `BlockEnv` that `deploy` and `call` fill in; the others are the
constants of `build_evm`. -/
structure EvmTxEnv where
  caller : Bytes
  gasLimit : Nat
  gasPrice : Nat
  kind : TxKind
  value : Nat
  data : Bytes
  nonce : Nat
  blockHeight : Nat
  baseFeePerGas : Nat
  blockGasLimit : Nat
deriving DecidableEq, Repr

structure EvmLog where
  address : Bytes
  topics : List Bytes
  data : Bytes
deriving DecidableEq, Repr

inductive EvmOutput where
  | call (data : Bytes)
  | create (data : Bytes) (addr : Option Bytes)
deriving DecidableEq, Repr

inductive ExecutionResult where
  | success (gasUsed : Nat) (logs : List EvmLog) (output : EvmOutput)
  | revert (gasUsed : Nat) (output : Bytes)
  | halt (gasUsed : Nat)
deriving DecidableEq, Repr

/-- One touched account of revm's post-state; `balance` and the storage words are `U256`. -/
structure EvmAccount where
  balance : Nat
  nonce : Nat
  code : Option Bytes
  storage : HeightMap Nat
deriving DecidableEq

/-! ## wasmer's side of an execution -/

/-- The classes `operator_gas_cost` tells apart; `isLoop` singles out the `Loop` operator. -/
inductive OperatorClass where
  | control (isLoop : Bool)
  | call
  | memory
  | numeric
  | other
deriving DecidableEq, Repr

/-- `VmExecutionContext`, as `Vm::call` sets it up. -/
structure VmExecutionContext where
  contractId : Bytes
  storage : ByteMap Bytes
  logs : List LogEntry
  caller : Bytes
  input : Int
  inputData : Bytes
  gasRemaining : Nat
deriving DecidableEq

structure Primitives where
  /-- `Sha3_256` over one message. -/
  sha3 : Bytes → Bytes
  /-- `MlDsa87::from_seed(seed).verifying_key().encode()`. -/
  publicKeyOf : Bytes → Bytes
  /-- `sign(seed, message)`; ML-DSA signing is deterministic in the crate. -/
  dilithiumSign : Bytes → Bytes → Bytes
  /-- `verify(message, signature, public_key)`. -/
  dilithiumVerify : Bytes → Bytes → Bytes → Bool
  /-- `TxEnvelope::decode_2718`. -/
  decode2718 : Bytes → Option TxEnvelope
  /-- `wat2wasm`. -/
  wat2wasm : Bytes → Option Bytes
  /-- The operators of every function body, in order, up to the end or to the first parse
  error; and whether the parser reached the end. -/
  wasmOperators : Bytes → List OperatorClass × Bool
  /-- The `(module, name)` of every imported function, in order. -/
  wasmFunctionImports : Bytes → Option (List (Text × Text))
  /-- `Module::new` accepts the (possibly metered) module. -/
  wasmModuleOk : Bytes → Bool
  /-- Instantiate, pick the entrypoint and run it: the final context and the returned bytes. -/
  wasmRun : Bytes → VmExecutionContext → Except VmError (VmExecutionContext × Bytes)
  /-- `transact` on the EVM `build_evm` sets up; `none` is an `EVMError`. -/
  revmTransact : EvmStateView → EvmTxEnv → Option (ExecutionResult × ByteMap EvmAccount)
  parseDeployToken : Bytes → Option DeployTokenParams
  parseTokenTransfer : Bytes → Option TokenTransferParams
  parseTokenApprove : Bytes → Option TokenApproveParams
  parseTokenTransferFrom : Bytes → Option TokenTransferFromParams
  parseSubmitProposal : Bytes → Option SubmitProposalParams
  parseGovernanceVote : Bytes → Option GovernanceVoteParams

/-- The text of an ASCII literal of the source. -/
def ascii (s : String) : Bytes := s.toList.map fun c => UInt8.ofNat c.toNat

end Curs3d
