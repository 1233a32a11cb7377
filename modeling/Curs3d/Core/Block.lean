import Curs3d.Core.Transaction

/-!
# Blocks (`src/core/block.rs`)

A block's hash is the double SHA-3 of its header; its signature is over that hash behind a
domain tag and is not part of it.
-/

set_option autoImplicit false

namespace Curs3d

open Bincode

def GENESIS_TIMESTAMP : Int := 1700000000

def EMPTY_STATE_ROOT_SEED : Bytes := ascii "curs3d-empty-state"

namespace Block

variable (P : Primitives)

def computeHash (header : BlockHeader) : Bytes := doubleHash P (blockHeader header)

/-- Domain-separated block hash for signing. -/
def signableBlockHash (blockHash : Bytes) : Bytes := ascii "curs3d-block-sig-v1:" ++ blockHash

def txMerkleRoot (transactions : List Transaction) : Bytes :=
  merkleRoot P (transactions.map fun tx => tx.hash P)

/-- `Block::new`, called at time `now`. -/
def new (version height : Nat) (prevHash stateRoot : Bytes) (gasUsed baseFeePerGas : Nat)
    (transactions : List Transaction) (validatorKeypair : KeyPair) (now : Int) : Block :=
  let header : BlockHeader :=
    { version, height, timestamp := now, prevHash
      merkleRoot := txMerkleRoot P transactions
      stateRoot, gasUsed, baseFeePerGas
      validatorPublicKey := validatorKeypair.publicKey
      nonce := 0 }
  let hash := computeHash P header
  { header, transactions, hash
    signature := some (validatorKeypair.sign P (signableBlockHash hash)) }

def genesisWithStateRoot (stateRoot : Bytes) (chainId : Text) (initialBaseFeePerGas : Nat) :
    Block :=
  let coinbase :=
    Transaction.coinbaseWithTimestamp chainId (List.replicate ADDRESS_LEN 0) 0 GENESIS_TIMESTAMP
  let header : BlockHeader :=
    { version := 1, height := 0, timestamp := GENESIS_TIMESTAMP
      prevHash := List.replicate 32 0
      merkleRoot := txMerkleRoot P [coinbase]
      stateRoot, gasUsed := 0, baseFeePerGas := initialBaseFeePerGas
      validatorPublicKey := [], nonce := 0 }
  { header, transactions := [coinbase], hash := computeHash P header, signature := none }

variable (b : Block)

def verifyHash : Bool := b.hash = computeHash P b.header

def verifySignature : Bool :=
  if b.header.height = 0 then b.signature.isNone
  else match b.signature with
    | some signature =>
      P.dilithiumVerify (signableBlockHash b.hash) signature b.header.validatorPublicKey
    | none => false

def verifyMerkleRoot : Bool := txMerkleRoot P b.transactions = b.header.merkleRoot

end Block

end Curs3d
