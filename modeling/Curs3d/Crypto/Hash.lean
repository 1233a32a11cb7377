import Curs3d.Crypto.Primitives
import Curs3d.Crypto.Bincode

/-!
# Hashing (`src/crypto/hash.rs`, `src/crypto/dilithium.rs`)

Addresses, domain separation, the Merkle root and its proofs, over the `sha3` of `Primitives`. The
Merkle loops halve their level until one hash is left; the model runs them on fuel equal to the
number of hashes, which is always enough, so that they compute in the kernel.
-/

set_option autoImplicit false

namespace Curs3d

open Bincode

variable (P : Primitives)

def ADDRESS_LEN : Nat := 20

/-- `SHA3(len(domain) || domain || data_0 || data_1 || ...)`. -/
def sha3HashDomain (domain : Bytes) (parts : List Bytes) : Bytes :=
  P.sha3 (u32 domain.length ++ domain ++ parts.flatten)

def doubleHash (data : Bytes) : Bytes := P.sha3 (P.sha3 data)

def addressBytesFromPublicKey (publicKey : Bytes) : Bytes :=
  (sha3HashDomain P (ascii "curs3d-address") [publicKey]).take ADDRESS_LEN

def addressBytesFromData (data : Bytes) : Bytes :=
  (sha3HashDomain P (ascii "curs3d-derived-address") [data]).take ADDRESS_LEN

/-! ## Merkle root -/

def merkleHashLeaf (leaf : Bytes) : Bytes := P.sha3 (0x00 :: leaf)

def merkleHashNode (left right : Bytes) : Bytes := P.sha3 (0x01 :: (left ++ right))

/-- One pass of the `while` loop: neighbours are paired, an odd last one with itself. -/
def merkleLevel : List Bytes → List Bytes
  | [] => []
  | [a] => [merkleHashNode P a a]
  | a :: b :: rest => merkleHashNode P a b :: merkleLevel rest

def merkleFold : Nat → List Bytes → Bytes
  | _, [] => []
  | _, [a] => a
  | 0, a :: _ => a
  | fuel + 1, level => merkleFold fuel (merkleLevel P level)

def merkleRoot (hashes : List Bytes) : Bytes :=
  if hashes.isEmpty then P.sha3 (ascii "empty")
  else merkleFold P hashes.length (hashes.map (merkleHashLeaf P))

/-! ## Merkle proofs -/

/-- The neighbour a node is paired with; an odd last one is its own. -/
def merkleSibling (level : List Bytes) (index : Nat) : Bytes :=
  (level[if index % 2 = 0 then min (index + 1) (level.length - 1) else index - 1]?).getD []

/-- The siblings on the way up from `index`. -/
def merkleProofFrom : Nat → List Bytes → Nat → List Bytes
  | 0, _, _ => []
  | fuel + 1, level, index =>
    if level.length ≤ 1 then []
    else merkleSibling level index :: merkleProofFrom fuel (merkleLevel P level) (index / 2)

def merkleProof (hashes : List Bytes) (index : Nat) : List Bytes :=
  if hashes.length ≤ index ∨ hashes.length = 1 then []
  else merkleProofFrom P hashes.length (hashes.map (merkleHashLeaf P)) index

/-- The node a proof leads to from `current`. -/
def merkleClimb : Bytes → Nat → List Bytes → Bytes
  | current, _, [] => current
  | current, index, sibling :: rest =>
    merkleClimb
      (if index % 2 = 0 then merkleHashNode P current sibling else merkleHashNode P sibling current)
      (index / 2) rest

def verifyMerkleProof (leafHash : Bytes) (proof : List Bytes) (index : Nat) (root : Bytes) : Bool :=
  if root.isEmpty then false
  else decide (merkleClimb P (merkleHashLeaf P leafHash) index proof = root)

/-! ## Signatures -/

/-- `KeyPair::sign`; the seed length check panics in the source and key pairs have 32 bytes. -/
def KeyPair.sign (kp : KeyPair) (message : Bytes) : Bytes := P.dilithiumSign kp.secretKey message

/-- A key pair as `KeyPair::generate` makes it. -/
def KeyPair.fromSeed (seed : Bytes) : KeyPair :=
  { publicKey := P.publicKeyOf seed, secretKey := seed }

end Curs3d
