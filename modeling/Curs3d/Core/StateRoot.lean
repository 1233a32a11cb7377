import Curs3d.Core.Block

/-!
# State root (`src/core/state_root.rs`, `src/trie/mod.rs`)

Two schemes, chosen by protocol version: up to version 5 one Merkle root over the leaf hashes of
all accounts and then all contracts in address order; from version 6 on the root of a 256-level
sparse Merkle trie over the same leaves, keyed by the hash of the address behind a kind byte.
`ExtTreeMap.toList` is in key order, so it is what the source's `sort_by_key` produces.
-/

set_option autoImplicit false

namespace Curs3d

open Bincode

variable (P : Primitives)

def V6_PROTOCOL_VERSION : Nat := 6

/-! ## Sparse Merkle trie -/

namespace SparseMerkleTrie

def TRIE_DEPTH : Nat := 256

def emptyHash : Bytes := P.sha3 (ascii "curs3d-smt-empty")

def hashChildren (left right : Bytes) : Bytes :=
  sha3HashDomain P (ascii "curs3d-smt-node") [left, right]

def hashLeaf (key value : Bytes) : Bytes :=
  sha3HashDomain P (ascii "curs3d-smt-leaf") [key, value]

def getBit (key : Bytes) (depth : Nat) : Bool :=
  match key[depth / 8]? with
  | some byte => decide (depth < TRIE_DEPTH) && byte.toNat.testBit (7 - depth % 8)
  | none => false

/-- `parent_key[depth / 8] &= !(1 << bit)`. -/
def clearBit (key : Bytes) (depth : Nat) : Bytes :=
  key.modify (depth / 8) fun byte => byte &&& ~~~((1 : UInt8) <<< UInt8.ofNat (7 - depth % 8))

/-- The children found so far of each parent at one level. -/
def groupByParent (level : ByteMap Bytes) (depth : Nat) :
    ByteMap (Option Bytes × Option Bytes) :=
  level.toList.foldl
    (fun parents (e : Bytes × Bytes) =>
      let parentKey := clearBit e.1 depth
      let entry := parents[parentKey]?.getD (none, none)
      parents.insert parentKey
        (if getBit e.1 depth then (entry.1, some e.2) else (some e.2, entry.2)))
    ∅

def parentLevel (level : ByteMap Bytes) (depth : Nat) : ByteMap Bytes :=
  (groupByParent level depth).map fun _ children =>
    hashChildren P (children.1.getD (emptyHash P)) (children.2.getD (emptyHash P))

/-- `root()` on a trie holding `leaves`. -/
def root (leaves : ByteMap Bytes) : Bytes :=
  if leaves.isEmpty then emptyHash P
  else
    let nodes := leaves.map fun key value => hashLeaf P key value
    let top := (List.range TRIE_DEPTH).reverse.foldl (parentLevel P) nodes
    (top.toList.head?.map Prod.snd).getD (emptyHash P)

/-- `insert`: an empty value removes the key. -/
def insert (leaves : ByteMap Bytes) (key value : Bytes) : ByteMap Bytes :=
  if value.isEmpty then leaves.erase key else leaves.insert key value

end SparseMerkleTrie

/-! ## Leaves -/

namespace StateRoot

def accountLeafHash (address : Bytes) (state : AccountState) : Bytes :=
  P.sha3 (bytes address ++ accountState state)

def contractStorageRoot (contract : ContractState) : Bytes :=
  merkleRoot P (contract.storage.toList.map fun e => P.sha3 (bytes e.1 ++ bytes e.2))

def contractLeafHash (address : Bytes) (state : ContractState) : Bytes :=
  let codeHash := if state.codeHash.isEmpty then P.sha3 state.code else state.codeHash
  P.sha3 (bytes address ++ bytes codeHash ++ bytes state.owner ++
    bytes (contractStorageRoot P state))

variable (accounts : ByteMap AccountState) (contracts : ByteMap ContractState)

def stateLeafHashes : List Bytes :=
  accounts.toList.map (fun e => accountLeafHash P e.1 e.2) ++
    contracts.toList.map (fun e => contractLeafHash P e.1 e.2)

def computeV5Merkle : Bytes :=
  if accounts.isEmpty ∧ contracts.isEmpty then P.sha3 EMPTY_STATE_ROOT_SEED
  else merkleRoot P (stateLeafHashes P accounts contracts)

def computeV6Smt : Bytes :=
  let withAccounts := accounts.toList.foldl
    (fun trie (e : Bytes × AccountState) => SparseMerkleTrie.insert trie
      (P.sha3 (0x00 :: e.1)) (accountLeafHash P e.1 e.2)) ∅
  let leaves := contracts.toList.foldl
    (fun trie (e : Bytes × ContractState) => SparseMerkleTrie.insert trie
      (P.sha3 (0x01 :: e.1)) (contractLeafHash P e.1 e.2)) withAccounts
  SparseMerkleTrie.root P leaves

def computeAtProtocol (protocolVersion : Nat) : Bytes :=
  if V6_PROTOCOL_VERSION ≤ protocolVersion then computeV6Smt P accounts contracts
  else computeV5Merkle P accounts contracts

def computeFull : Bytes := computeV5Merkle P accounts contracts

end StateRoot

end Curs3d
