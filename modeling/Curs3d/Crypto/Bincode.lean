import Curs3d.Core.Types

/-!
# bincode 1

`bincode::serialize` with its default options: integers little-endian at their full width,
sequences and strings behind a `u64` length, `Option` behind one byte, an enum variant behind a
`u32`. Hashes and signatures are taken over these bytes, and the database holds them; the decoders are in
`Crypto/Decode.lean`.
-/

set_option autoImplicit false

namespace Curs3d.Bincode

/-- The low `w` bytes of `n`, least significant first. -/
def leBytes : Nat → Nat → Bytes
  | 0, _ => []
  | w + 1, n => UInt8.ofNat n :: leBytes w (n / 256)

def u8 (n : Nat) : Bytes := leBytes 1 n

def u32 (n : Nat) : Bytes := leBytes 4 n

def u64 (n : Nat) : Bytes := leBytes 8 n

/-- Two's complement. -/
def i64 (i : Int) : Bytes := leBytes 8 (i % 18446744073709551616).toNat

def bytes (b : Bytes) : Bytes := u64 b.length ++ b

def option {α : Type} (enc : α → Bytes) : Option α → Bytes
  | none => u8 0
  | some a => u8 1 ++ enc a

def vec {α : Type} (enc : α → Bytes) (l : List α) : Bytes := u64 l.length ++ l.flatMap enc

theorem length_leBytes (w n : Nat) : (leBytes w n).length = w := by
  induction w generalizing n with
  | zero => rfl
  | succ w ih => simp [leBytes, ih]

/-! ## The records that are hashed and stored -/

def transactionKind : TransactionKind → Bytes
  | .transfer => u32 0
  | .stake => u32 1
  | .unstake => u32 2
  | .coinbase => u32 3
  | .deployContract => u32 4
  | .callContract => u32 5
  | .deployToken => u32 6
  | .tokenTransfer => u32 7
  | .tokenApprove => u32 8
  | .tokenTransferFrom => u32 9
  | .submitProposal => u32 10
  | .governanceVote => u32 11
  | .deployEvmContract => u32 12
  | .callEvmContract => u32 13

def blockHeader (h : BlockHeader) : Bytes :=
  u32 h.version ++ u64 h.height ++ i64 h.timestamp ++ bytes h.prevHash ++ bytes h.merkleRoot ++
    bytes h.stateRoot ++ u64 h.gasUsed ++ u64 h.baseFeePerGas ++ bytes h.validatorPublicKey ++
    u64 h.nonce

def transaction (tx : Transaction) : Bytes :=
  bytes tx.chainId ++ transactionKind tx.kind ++ bytes tx.from ++ bytes tx.senderPublicKey ++
    bytes tx.to ++ u64 tx.amount ++ u64 tx.fee ++ u64 tx.maxFeePerGas ++
    u64 tx.maxPriorityFeePerGas ++ u64 tx.nonce ++ i64 tx.timestamp ++ option bytes tx.signature ++
    u64 tx.gasLimit ++ bytes tx.data ++ bytes tx.evmRawTx

def block (b : Block) : Bytes :=
  blockHeader b.header ++ vec transaction b.transactions ++ bytes b.hash ++ option bytes b.signature

def pendingUnstake (p : PendingUnstake) : Bytes := u64 p.amount ++ u64 p.unlockHeight

def accountState (a : AccountState) : Bytes :=
  u64 a.balance ++ u64 a.nonce ++ u64 a.stakedBalance ++ vec pendingUnstake a.pendingUnstakes ++
    u64 a.validatorActiveFromHeight ++ u64 a.jailedUntilHeight ++ option bytes a.publicKey

def proposalKind : ProposalKind → Bytes
  | .protocolUpgrade version description => u32 0 ++ u32 version ++ bytes description
  | .parameterChange parameter newValue => u32 1 ++ bytes parameter ++ u64 newValue

end Curs3d.Bincode
