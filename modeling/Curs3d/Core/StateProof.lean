import Curs3d.Chain.State

/-!
# State proofs (`src/core/state_proof.rs`)

Merkle inclusion proofs for an account, and for a storage slot of a contract: the slot under the
contract's storage root, and the contract's leaf under the state root. Both are made against the
Merkle root of version 5, whatever the version of the chain is.
-/

set_option autoImplicit false

namespace Curs3d

open Bincode

structure AccountProof where
  address : Bytes
  state : AccountState
  leafIndex : Nat
  leafHash : Bytes
  proof : List Bytes
  stateRoot : Bytes

structure StorageProof where
  contractAddress : Bytes
  contractCodeHash : Bytes
  contractOwner : Bytes
  key : Bytes
  value : Bytes
  storageLeafIndex : Nat
  storageLeafHash : Bytes
  storageProof : List Bytes
  storageRoot : Bytes
  contractLeafIndex : Nat
  contractLeafHash : Bytes
  contractProof : List Bytes
  stateRoot : Bytes

variable (P : Primitives) (accounts : ByteMap AccountState) (contracts : ByteMap ContractState)

/-- The position of a key among the sorted entries. -/
def entryPosition {β : Type} (entries : ByteMap β) (key : Bytes) : Option Nat :=
  entries.toList.findIdx? fun e => e.1 = key

def generateAccountProof (address : Bytes) : Option AccountProof := do
  let state ← accounts[address]?
  let accountIndex ← entryPosition accounts address
  return {
    address, state
    leafIndex := accountIndex
    leafHash := StateRoot.accountLeafHash P address state
    proof := merkleProof P (StateRoot.stateLeafHashes P accounts contracts) accountIndex
    stateRoot := StateRoot.computeFull P accounts contracts }

def storageLeafHash (key value : Bytes) : Bytes := P.sha3 (bytes key ++ bytes value)

def generateStorageProof (contractAddress key : Bytes) : Option StorageProof := do
  let contract ← contracts[contractAddress]?
  let value ← contract.storage[key]?
  let contractPosition ← entryPosition contracts contractAddress
  let storagePosition ← entryPosition contract.storage key
  let storageLeaves := contract.storage.toList.map fun e => storageLeafHash P e.1 e.2
  let contractLeafIndex := accounts.toList.length + contractPosition
  return {
    contractAddress
    contractCodeHash := if contract.codeHash.isEmpty then P.sha3 contract.code else contract.codeHash
    contractOwner := contract.owner
    key, value
    storageLeafIndex := storagePosition
    storageLeafHash := storageLeaves.getD storagePosition []
    storageProof := merkleProof P storageLeaves storagePosition
    storageRoot := merkleRoot P storageLeaves
    contractLeafIndex
    contractLeafHash := StateRoot.contractLeafHash P contractAddress contract
    contractProof := merkleProof P (StateRoot.stateLeafHashes P accounts contracts) contractLeafIndex
    stateRoot := StateRoot.computeFull P accounts contracts }

/-! ## Checking a proof -/

def verifyAccountProof (proof : AccountProof) : Bool :=
  let expectedLeaf := StateRoot.accountLeafHash P proof.address proof.state
  decide (expectedLeaf = proof.leafHash) &&
    verifyMerkleProof P proof.leafHash proof.proof proof.leafIndex proof.stateRoot

def verifyStorageProof (proof : StorageProof) : Bool :=
  let storageLeaf := storageLeafHash P proof.key proof.value
  if storageLeaf ≠ proof.storageLeafHash then false
  else if !verifyMerkleProof P proof.storageLeafHash proof.storageProof proof.storageLeafIndex
      proof.storageRoot then false
  else
    let contractLeaf := P.sha3 (bytes proof.contractAddress ++ bytes proof.contractCodeHash ++
      bytes proof.contractOwner ++ bytes proof.storageRoot)
    decide (contractLeaf = proof.contractLeafHash) &&
      verifyMerkleProof P proof.contractLeafHash proof.contractProof proof.contractLeafIndex
        proof.stateRoot

namespace Blockchain

variable (c : Blockchain)

def getAccountProof (address : Bytes) : Option AccountProof :=
  generateAccountProof P c.accounts c.contracts address

def getStorageProof (contractAddress key : Bytes) : Option StorageProof :=
  generateStorageProof P c.accounts c.contracts contractAddress key

end Blockchain

end Curs3d
