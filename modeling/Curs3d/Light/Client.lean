import Curs3d.Core.StateProof

/-!
# The light client (`src/light/mod.rs`)

A light client holds headers only. It takes a header when it is the next one, hashes to the hash it
comes with, links to the last one, and carries a signature under the public key in the header
itself; the first header must be the genesis the client was created with. `syncHeaders` keeps what
it took before a header that fails.
-/

set_option autoImplicit false

namespace Curs3d

open Bincode

structure SignedHeader where
  chainId : Text
  header : BlockHeader
  blockHash : Bytes
  signature : Option Bytes
deriving DecidableEq, Repr

structure LightClient where
  chainId : Text
  genesisHash : Bytes
  headers : List SignedHeader
  finalizedHeight : Nat
deriving DecidableEq, Repr

inductive LightClientError where
  | invalidHash
  | invalidChainId
  | invalidPrevHash
  | invalidHeight
  | invalidSignature
  | missingParent
  | invalidProof
  | emptyHeaders
deriving DecidableEq, Repr

/-- A block as the node serves it to light clients. -/
def SignedHeader.ofBlock (chainId : Text) (block : Block) : SignedHeader where
  chainId := chainId
  header := block.header
  blockHash := block.hash
  signature := block.signature

namespace LightClient

variable (P : Primitives) (lc : LightClient)

def new (chainId : Text) (genesisHash : Bytes) : LightClient where
  chainId := chainId
  genesisHash := genesisHash
  headers := []
  finalizedHeight := 0

def height : Nat := (lc.headers.getLast?.map fun h => h.header.height).getD 0

def verifyBlockSignature (header : BlockHeader) (blockHash signature : Bytes) : Bool :=
  P.dilithiumVerify (Block.signableBlockHash blockHash) signature header.validatorPublicKey

/-- One above the last header. -/
def expectedHeight : Nat := (lc.headers.getLast?.map fun h => h.header.height + 1).getD 0

/-- The checks of a header above the genesis: its parent and its signature. -/
def verifyChild (signedHeader : SignedHeader) : Except LightClientError Unit :=
  match lc.headers.getLast? with
  | none => .error .missingParent
  | some prev =>
    if signedHeader.header.prevHash ≠ prev.blockHash then .error .invalidPrevHash
    else match signedHeader.signature with
      | none => .error .invalidSignature
      | some signature =>
        if verifyBlockSignature P signedHeader.header signedHeader.blockHash signature then .ok ()
        else .error .invalidSignature

def verifyHeader (signedHeader : SignedHeader) : Except LightClientError Unit :=
  if signedHeader.chainId ≠ lc.chainId then .error .invalidChainId
  else if signedHeader.header.height ≠ lc.expectedHeight then .error .invalidHeight
  else if Block.computeHash P signedHeader.header ≠ signedHeader.blockHash then .error .invalidHash
  else if signedHeader.header.height = 0 then
    if signedHeader.blockHash ≠ lc.genesisHash ∨ signedHeader.signature.isSome then
      .error .invalidHash
    else .ok ()
  else lc.verifyChild P signedHeader

def push (signedHeader : SignedHeader) : LightClient :=
  { lc with headers := lc.headers ++ [signedHeader] }

def syncLoop (lc : LightClient) : List SignedHeader → Except LightClientError Unit × LightClient
  | [] => (.ok (), lc)
  | signedHeader :: rest =>
    match lc.verifyHeader P signedHeader with
    | .error e => (.error e, lc)
    | .ok () => syncLoop (lc.push signedHeader) rest

/-- `sync_headers`: its result, and the client it leaves. -/
def syncHeaders (headers : List SignedHeader) : Except LightClientError Nat × LightClient :=
  if headers.isEmpty then (.error .emptyHeaders, lc)
  else match lc.syncLoop P headers with
    | (.ok (), synced) => (.ok synced.height, synced)
    | (.error e, synced) => (.error e, synced)

def verifyAccountProof (proof : AccountProof) : Bool :=
  decide (StateRoot.accountLeafHash P proof.address proof.state = proof.leafHash) &&
    verifyMerkleProof P proof.leafHash proof.proof proof.leafIndex proof.stateRoot

def verifyStorageProof (proof : StorageProof) : Bool :=
  if storageLeafHash P proof.key proof.value ≠ proof.storageLeafHash then false
  else
    let storageValid := verifyMerkleProof P proof.storageLeafHash proof.storageProof
      proof.storageLeafIndex proof.storageRoot
    let contractValid := verifyMerkleProof P proof.contractLeafHash proof.contractProof
      proof.contractLeafIndex proof.stateRoot
    let contractLeaf := P.sha3 (bytes proof.contractAddress ++ bytes proof.contractCodeHash ++
      bytes proof.contractOwner ++ bytes proof.storageRoot)
    storageValid && decide (contractLeaf = proof.contractLeafHash) && contractValid

def stateRootAt (height : Nat) : Option Bytes :=
  lc.headers[height]?.map fun signed => signed.header.stateRoot

end LightClient

/-- The headers a node serves from the genesis to its tip. -/
def Blockchain.signedHeaders (c : Blockchain) : List SignedHeader :=
  c.iterBlocks.map (SignedHeader.ofBlock c.genesisConfig.chainId)

end Curs3d
