import Curs3d.Core.StateRoot

/-!
# The trie with its cache (`src/trie/mod.rs`)

`Core/StateRoot` has what the trie computes from its leaves. Here is the rest of it: the cached root,
which every change drops and `root` fills again, and the proofs. `insert` panics on a key that is not
32 bytes long and `prove` on one that ends before the bits it looks at; both panics are `none`.
-/

set_option autoImplicit false

namespace Curs3d

/-- `SparseMerkleTrie`. -/
structure CachedTrie where
  leaves : ByteMap Bytes := ∅
  cachedRoot : Option Bytes := none
deriving DecidableEq

structure SmtProof where
  key : Bytes
  value : Option Bytes
  siblings : List Bytes
  root : Bytes
deriving DecidableEq

namespace CachedTrie

open SparseMerkleTrie

variable (P : Primitives) (t : CachedTrie)

def insert (key value : Bytes) : Option CachedTrie :=
  if key.length = 32 then
    some { leaves := SparseMerkleTrie.insert t.leaves key value, cachedRoot := none }
  else none

def remove (key : Bytes) : CachedTrie := { leaves := t.leaves.erase key, cachedRoot := none }

def get (key : Bytes) : Option Bytes := t.leaves[key]?

def root : Bytes × CachedTrie :=
  match t.cachedRoot with
  | some cached => (cached, t)
  | none =>
    let root := SparseMerkleTrie.root P t.leaves
    (root, { t with cachedRoot := some root })

/-! ## Proofs -/

def proofDepth : Nat := min 20 TRIE_DEPTH

/-- `key[depth / 8] |= 1 << bit`. -/
def setBit (key : Bytes) (depth : Nat) : Bytes :=
  key.modify (depth / 8) fun byte => byte ||| ((1 : UInt8) <<< UInt8.ofNat (7 - depth % 8))

/-- The key with the bit at `depth` turned over. -/
def siblingKey (key : Bytes) (depth : Nat) : Bytes :=
  if !getBit key depth then setBit key depth else clearBit key depth

def siblingHash (key : Bytes) (depth : Nat) : Bytes :=
  match t.leaves[siblingKey key depth]? with
  | some siblingValue => hashLeaf P (siblingKey key depth) siblingValue
  | none => emptyHash P

def prove (key : Bytes) : Option (SmtProof × CachedTrie) :=
  if (proofDepth - 1) / 8 < key.length then
    let (root, t') := t.root P
    some ({ key, value := t.leaves[key]?
            siblings := (List.range proofDepth).map (t.siblingHash P key), root }, t')
  else none

end CachedTrie

namespace SmtProof

open SparseMerkleTrie

variable (P : Primitives) (proof : SmtProof)

/-- The hash at the end of the path: the key's bits from the top, applied from the leaf on. -/
def climb : Bytes :=
  let leaf := match proof.value with
    | some value => hashLeaf P proof.key value
    | none => emptyHash P
  proof.siblings.zipIdx.foldl
    (fun current e =>
      if getBit proof.key e.2 then hashChildren P e.1 current else hashChildren P current e.1)
    leaf

def verify (expectedRoot : Bytes) : Bool :=
  if proof.root ≠ expectedRoot then false else !(proof.climb P).isEmpty

end SmtProof

end Curs3d
