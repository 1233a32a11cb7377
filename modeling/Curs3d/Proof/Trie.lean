import Curs3d.Core.Trie
import Curs3d.Crypto.Reference
import Curs3d.Lib.KeyMap
import Curs3d.Lib.SparseTree
import Curs3d.Proof.Encoding

/-!
# The root of the trie

`compute_root` works upwards, in tables keyed by masked keys; what it computes is the recursive hash
of the leaves in a tree of 256 levels (`root_eq_referenceRoot`), so the order in which the leaves came does
not matter, and neither does the cache. Keys have 32 bytes and hashes too, so that the messages of
the tree can be told apart by their bytes, and a root without collisions determines the leaves
(`eq_of_referenceRoot_eq`).

Of the proofs only the root is binding: `verify` compares the roots and climbs the path, and asks no
more of the end of the path than to be a hash. A proof that `prove` made carries the root of the trie
it was made from, and with it the value.
-/

set_option autoImplicit false

namespace Curs3d

open Std SparseTree

namespace SparseMerkleTrie

variable {P : Primitives} {key key' : Bytes} {leaves leaves' level : ByteMap Bytes} {depth i : Nat}

/-! ## Bits -/

theorem testBit_clear (byte : UInt8) {s j : Nat} (hs : s < 8) (hj : j < 8) :
    (byte &&& ~~~((1 : UInt8) <<< UInt8.ofNat s)).toNat.testBit j =
      (byte.toNat.testBit j && j != s) := by
  have hbit : ∀ x : UInt8, x.toNat.testBit j = x.toBitVec.getLsbD j := fun _ => rfl
  have hs256 : s % 256 = s := Nat.mod_eq_of_lt (by omega)
  have hs8 : s % 8 = s := Nat.mod_eq_of_lt hs
  rw [hbit, hbit]
  simp only [UInt8.toBitVec_and, UInt8.toBitVec_not, UInt8.toBitVec_shiftLeft, BitVec.getLsbD_and]
  congr 1
  rw [Bool.eq_iff_iff]
  simp [hj, hs256, hs8]
  omega

theorem byte_ext {a b : UInt8} (h : ∀ j < 8, a.toNat.testBit j = b.toNat.testBit j) : a = b :=
  UInt8.eq_of_toBitVec_eq (BitVec.eq_of_getLsbD_eq fun j hj => h j hj)

theorem getBit_eq (hdepth : depth < TRIE_DEPTH) :
    getBit key depth = (key.getD (depth / 8) 0).toNat.testBit (7 - depth % 8) := by
  unfold getBit
  rw [List.getD_eq_getElem?_getD]
  cases key[depth / 8]? with
  | none => simp
  | some byte => simp [hdepth]

theorem length_clearBit : (clearBit key depth).length = key.length := List.length_modify _ _ _

theorem getD_clearBit (j : Nat) : (clearBit key depth).getD j 0 =
    if depth / 8 = j then
      key.getD j 0 &&& ~~~((1 : UInt8) <<< UInt8.ofNat (7 - depth % 8))
    else key.getD j 0 := by
  unfold clearBit
  rw [List.getD_eq_getElem?_getD, List.getD_eq_getElem?_getD, List.getElem?_modify]
  cases key[j]? with
  | none => split <;> simp
  | some byte => split <;> rfl

/-- 32-byte keys under `clearBit`. -/
theorem clears : Clears getBit clearBit TRIE_DEPTH fun key => key.length = 32 where
  ext := by
    intro k k' hk hk' hbits
    refine List.ext_getElem? fun j => ?_
    by_cases hj : j < 32
    · have hbyte : k.getD j 0 = k'.getD j 0 := by
        refine byte_ext fun s hs => ?_
        have hlt : 8 * j + (7 - s) < TRIE_DEPTH := by unfold TRIE_DEPTH; omega
        have hbit := hbits _ hlt
        rw [getBit_eq hlt, getBit_eq hlt] at hbit
        have hdiv : (8 * j + (7 - s)) / 8 = j := by omega
        have hmod : 7 - (8 * j + (7 - s)) % 8 = s := by omega
        rwa [hdiv, hmod] at hbit
      rw [List.getElem?_eq_getElem (by omega), List.getElem?_eq_getElem (by omega)]
      rwa [List.getD_eq_getElem _ _ (by omega), List.getD_eq_getElem _ _ (by omega),
        ← Option.some_inj] at hbyte
    · rw [List.getElem?_eq_none (by omega), List.getElem?_eq_none (by omega)]
  valid_clear := by
    intro k d hk
    rw [length_clearBit, hk]
  bit_clear := by
    intro k d i hk hd hi
    rw [getBit_eq hi, getBit_eq hi, getD_clearBit]
    by_cases hbyte : d / 8 = i / 8
    · rw [if_pos hbyte, testBit_clear _ (by omega) (by omega)]
      by_cases heq : i = d
      · rw [if_pos heq, heq]
        simp
      · rw [if_neg heq]
        have hne : (7 - i % 8 != 7 - d % 8) = true := by
          rw [bne_iff_ne]
          omega
        rw [hne, Bool.and_true]
    · rw [if_neg hbyte, if_neg]
      rintro rfl
      exact hbyte rfl

/-! ## One level -/

/-- What stands last on one side of a parent. -/
def sideIn (entries : List (Bytes × Bytes)) (depth : Nat) (k : Bytes) (b : Bool) : Option Bytes :=
  ((entries.filter fun e => clearBit e.1 depth = k ∧ getBit e.1 depth = b).getLast?).map Prod.snd

theorem sideIn_concat (entries : List (Bytes × Bytes)) (e : Bytes × Bytes) (k : Bytes) (b : Bool) :
    sideIn (entries ++ [e]) depth k b =
      if clearBit e.1 depth = k ∧ getBit e.1 depth = b then some e.2
      else sideIn entries depth k b := by
  unfold sideIn
  rw [List.filter_append, List.filter_singleton]
  by_cases h : clearBit e.1 depth = k ∧ getBit e.1 depth = b
  · rw [if_pos h, decide_eq_true h, cond_true, List.getLast?_concat]
    rfl
  · rw [if_neg h, decide_eq_false h, cond_false, List.append_nil]

/-- One turn of the loop that groups the nodes. -/
def groupStep (depth : Nat) (parents : ByteMap (Option Bytes × Option Bytes)) (e : Bytes × Bytes) :
    ByteMap (Option Bytes × Option Bytes) :=
  let parentKey := clearBit e.1 depth
  let entry := parents[parentKey]?.getD (none, none)
  parents.insert parentKey
    (if getBit e.1 depth then (entry.1, some e.2) else (some e.2, entry.2))

theorem foldl_groupStep (entries : List (Bytes × Bytes)) (k : Bytes) :
    (entries.foldl (groupStep depth) ∅)[k]? =
      if sideIn entries depth k false = none ∧ sideIn entries depth k true = none then none
      else some (sideIn entries depth k false, sideIn entries depth k true) := by
  induction entries using List.reverseRecOn with
  | nil => simp [sideIn]
  | append_singleton entries e ih =>
    rw [List.foldl_append, List.foldl_cons, List.foldl_nil, groupStep, KeyMap.getElem?_insert_eq,
      sideIn_concat, sideIn_concat]
    by_cases hparent : clearBit e.1 depth = k
    · -- the other side stays as it was
      have hentry : (entries.foldl (groupStep depth) ∅)[k]?.getD (none, none) =
          (sideIn entries depth k false, sideIn entries depth k true) := by
        rw [ih]
        split
        · next hnone => rw [hnone.1, hnone.2, Option.getD_none]
        · rfl
      rw [if_pos hparent, hparent, hentry]
      cases getBit e.1 depth <;> simp
    · have hother : ∀ b, ¬ (clearBit e.1 depth = k ∧ getBit e.1 depth = b) := fun b h => hparent h.1
      rw [if_neg hparent, if_neg (hother false), if_neg (hother true)]
      exact ih

theorem getElem?_parentLevel (k : Bytes) : (parentLevel P level depth)[k]? =
    if sideIn level.toList depth k false = none ∧ sideIn level.toList depth k true = none then none
    else some (hashChildren P ((sideIn level.toList depth k false).getD (emptyHash P))
      ((sideIn level.toList depth k true).getD (emptyHash P))) := by
  have hgroup := @foldl_groupStep depth level.toList k
  unfold parentLevel
  rw [ExtTreeMap.getElem?_map, show (groupByParent level depth)[k]? =
    (level.toList.foldl (groupStep depth) ∅)[k]? from rfl, hgroup]
  split <;> rfl

/-- The two sides of a parent, when all keys have 32 bytes. -/
theorem isSide_sideIn (hvalid : ∀ k h : Bytes, level[k]? = some h → k.length = 32)
    (hdepth : depth < TRIE_DEPTH) :
    IsSide getBit clearBit (fun k => level[k]?) depth (sideIn level.toList depth) := by
  intro k b h
  constructor
  · intro hside
    obtain ⟨e, hlast, rfl⟩ := Option.map_eq_some_iff.mp hside
    have hmem := List.mem_of_getLast? hlast
    rw [List.mem_filter, decide_eq_true_eq, ExtTreeMap.mem_toList_iff_getElem?_eq_some] at hmem
    exact ⟨e.1, hmem.1, hmem.2⟩
  · rintro ⟨k', hk', hclear, hbit⟩
    have hmem : (k', h) ∈ level.toList.filter fun e =>
        clearBit e.1 depth = k ∧ getBit e.1 depth = b := by
      rw [List.mem_filter, decide_eq_true_eq, ExtTreeMap.mem_toList_iff_getElem?_eq_some]
      exact ⟨hk', hclear, hbit⟩
    cases hlast : (level.toList.filter fun e =>
        clearBit e.1 depth = k ∧ getBit e.1 depth = b).getLast? with
    | none =>
      rw [List.getLast?_eq_none_iff.mp hlast] at hmem
      exact absurd hmem (by simp)
    | some e =>
      have he := List.mem_of_getLast? hlast
      rw [List.mem_filter, decide_eq_true_eq, ExtTreeMap.mem_toList_iff_getElem?_eq_some] at he
      have hkey : e.1 = k' := clears.eq_of_clear_eq (hvalid _ _ he.1) (hvalid _ _ hk') hdepth
        (he.2.1.trans hclear.symm) (he.2.2.trans hbit.symm)
      rw [← hkey] at hk'
      rw [sideIn, hlast, Option.map_some]
      exact he.1.symm.trans hk'

/-! ## The tower of levels -/

/-- The bytes that are hashed for a message. -/
def encode : Message Bytes Bytes Bytes → Bytes
  | .empty => ascii "curs3d-smt-empty"
  | .leaf key value =>
    Bincode.u32 (ascii "curs3d-smt-leaf").length ++ ascii "curs3d-smt-leaf" ++
      [key, value].flatten
  | .node left right =>
    Bincode.u32 (ascii "curs3d-smt-node").length ++ ascii "curs3d-smt-node" ++
      [left, right].flatten

/-- The hash of a message: `empty_hash`, `hash_leaf` and `hash_children` in one. -/
def hashMessage (P : Primitives) (m : Message Bytes Bytes Bytes) : Bytes := P.sha3 (encode m)

/-- The root of the leaves, by recursion over the bits of their keys. -/
def referenceRoot (P : Primitives) (leaves : ByteMap Bytes) : Bytes :=
  SparseTree.root getBit (hashMessage P) TRIE_DEPTH 0 leaves.toList

theorem isLevel_parentLevel {l : List (Bytes × Bytes)} {n : Nat} (hvalid : ∀ e ∈ l, e.1.length = 32)
    (hdepth : depth + 1 + n = TRIE_DEPTH)
    (h : IsLevel getBit clearBit (hashMessage P) l n (depth + 1) fun k => level[k]?) :
    IsLevel getBit clearBit (hashMessage P) l (n + 1) depth fun k =>
      (parentLevel P level depth)[k]? := by
  have hkeys : ∀ k h' : Bytes, level[k]? = some h' → k.length = 32 := by
    intro k h' hk
    obtain ⟨e, he, rfl, -⟩ := (h k h').mp hk
    exact valid_cleared clears (hvalid e he)
  exact h.join clears hvalid hdepth (isSide_sideIn hkeys (by omega)) getElem?_parentLevel

/-- From any level up to the top. -/
theorem isLevel_top {l : List (Bytes × Bytes)} {n : Nat} (hvalid : ∀ e ∈ l, e.1.length = 32)
    (hdepth : depth + n = TRIE_DEPTH)
    (h : IsLevel getBit clearBit (hashMessage P) l n depth fun k => level[k]?) :
    IsLevel getBit clearBit (hashMessage P) l TRIE_DEPTH 0 fun k =>
      ((List.range depth).reverse.foldl (parentLevel P) level)[k]? := by
  induction depth generalizing n level with
  | zero =>
    rw [Nat.zero_add] at hdepth
    subst hdepth
    exact h
  | succ depth ih =>
    rw [List.range_succ, List.reverse_append, List.reverse_singleton, List.singleton_append,
      List.foldl_cons]
    exact ih (by omega) (isLevel_parentLevel hvalid hdepth h)

/-- The keys that the trie is made for. -/
def ShortKeys (leaves : ByteMap Bytes) : Prop :=
  ∀ k v : Bytes, leaves[k]? = some v → k.length = 32

theorem ShortKeys.toList (h : ShortKeys leaves) : ∀ e ∈ leaves.toList, e.1.length = 32 :=
  fun e he => h e.1 e.2 (ExtTreeMap.mem_toList_iff_getElem?_eq_some.mp he)

/-- Entries are told apart by the bits of their keys. -/
theorem ShortKeys.separated (h : ShortKeys leaves) :
    Separated getBit TRIE_DEPTH leaves.toList := by
  intro e he e' he' hbits
  have hkey : e.1 = e'.1 := clears.ext (h.toList e he) (h.toList e' he') hbits
  rw [ExtTreeMap.mem_toList_iff_getElem?_eq_some] at he he'
  rw [hkey, he'] at he
  exact Prod.ext hkey (Option.some.inj he).symm

/-- **`compute_root` is the recursive hash.** -/
theorem root_eq_referenceRoot (h : ShortKeys leaves) : root P leaves = referenceRoot P leaves := by
  unfold root
  split
  · next hempty =>
    rw [referenceRoot, ExtTreeMap.isEmpty_iff.mp hempty, ExtTreeMap.toList_eq_nil_iff.mpr rfl,
      root_nil]
    rfl
  · next hne =>
    dsimp only
    have hbase : IsLevel getBit clearBit (hashMessage P) leaves.toList 0 TRIE_DEPTH fun k =>
        (leaves.map fun key value => hashLeaf P key value)[k]? := by
      refine isLevel_leaves h.separated fun k h' => ?_
      rw [ExtTreeMap.getElem?_map, Option.map_eq_some_iff]
      constructor
      · rintro ⟨v, hv, rfl⟩
        exact ⟨(k, v), ExtTreeMap.mem_toList_iff_getElem?_eq_some.mpr hv, rfl, rfl⟩
      · rintro ⟨e, he, rfl, rfl⟩
        exact ⟨e.2, ExtTreeMap.mem_toList_iff_getElem?_eq_some.mp he, rfl⟩
    have htop := isLevel_top h.toList (Nat.add_zero _) hbase
    generalize (List.range TRIE_DEPTH).reverse.foldl (parentLevel P)
      (leaves.map fun key value => hashLeaf P key value) = top at htop
    cases hhead : top.toList.head? with
    | none =>
      -- there is an entry, and with it a root
      have hnil : top.toList = [] := List.head?_eq_none_iff.mp hhead
      have hleaves : leaves.toList ≠ [] := fun hnil => hne (by
        rw [ExtTreeMap.isEmpty_iff]
        exact ExtTreeMap.toList_eq_nil_iff.mp hnil)
      obtain ⟨e, he⟩ := List.exists_mem_of_ne_nil _ hleaves
      have hentry := (htop _ _).mpr ⟨e, he, rfl, rfl⟩
      rw [ExtTreeMap.toList_eq_nil_iff.mp hnil] at hentry
      exact absurd hentry (by simp)
    | some e =>
      have hmem : top[e.1]? = some e.2 :=
        ExtTreeMap.mem_toList_iff_getElem?_eq_some.mp (List.mem_of_mem_head? hhead)
      rw [Option.map_some, Option.getD_some]
      exact htop.eq_root hmem

/-! ## Roots and leaves -/

def leafTag : Bytes := Bincode.u32 (ascii "curs3d-smt-leaf").length ++ ascii "curs3d-smt-leaf"

def nodeTag : Bytes := Bincode.u32 (ascii "curs3d-smt-node").length ++ ascii "curs3d-smt-node"

/-- Keys and child hashes of 32 bytes. -/
def Sized : Message Bytes Bytes Bytes → Prop
  | .empty => True
  | .leaf key _ => key.length = 32
  | .node left right => left.length = 32 ∧ right.length = 32

theorem leafTag_ne_nodeTag (x y : Bytes) : leafTag ++ x ≠ nodeTag ++ y := by
  intro h
  have htags := (List.append_inj h (by decide +kernel)).1
  exact absurd htags (by decide +kernel)

theorem encode_empty_ne {tag : Bytes} (htag : tag = leafTag ∨ tag = nodeTag) (x : Bytes) :
    ascii "curs3d-smt-empty" ≠ tag ++ x := by
  intro h
  have hhead : (ascii "curs3d-smt-empty").head? = tag.head? := by
    rw [h]
    rcases htag with rfl | rfl
    · rfl
    · rfl
  rcases htag with rfl | rfl
  · exact absurd hhead (by decide +kernel)
  · exact absurd hhead (by decide +kernel)

/-- The bytes of a message tell which message it is. -/
theorem encode_injOn : Set.InjOn encode {m | Sized m} := by
  intro m hm m' hm' h
  cases m with
  | empty =>
    cases m' with
    | empty => rfl
    | leaf key value => exact absurd h (encode_empty_ne (.inl rfl) _)
    | node left right => exact absurd h (encode_empty_ne (.inr rfl) _)
  | leaf key value =>
    cases m' with
    | empty => exact absurd h.symm (encode_empty_ne (.inl rfl) _)
    | leaf key' value' =>
      have hparts : key ++ (value ++ []) = key' ++ (value' ++ []) :=
        @List.append_cancel_left _ leafTag _ _ h
      obtain ⟨rfl, hvalue⟩ := List.append_inj hparts (Eq.trans hm (Eq.symm hm'))
      rw [List.append_nil, List.append_nil] at hvalue
      rw [hvalue]
    | node left right => exact absurd h (leafTag_ne_nodeTag _ _)
  | node left right =>
    cases m' with
    | empty => exact absurd h.symm (encode_empty_ne (.inr rfl) _)
    | leaf key value => exact absurd h.symm (leafTag_ne_nodeTag _ _)
    | node left' right' =>
      have hparts : left ++ (right ++ []) = left' ++ (right' ++ []) :=
        @List.append_cancel_left _ nodeTag _ _ h
      obtain ⟨rfl, hright⟩ := List.append_inj hparts (hm.1.trans hm'.1.symm)
      rw [List.append_nil, List.append_nil] at hright
      rw [hright]

theorem length_treeRoot (h32 : ∀ m, (P.sha3 m).length = 32) {n d : Nat}
    {l : List (Bytes × Bytes)} : (SparseTree.root getBit (hashMessage P) n d l).length = 32 := by
  cases n with
  | zero => exact h32 _
  | succ n =>
    unfold SparseTree.root
    split
    · exact h32 _
    · exact h32 _

theorem sized_leafOf {l : List (Bytes × Bytes)} (hl : ∀ e ∈ l, e.1.length = 32) :
    Sized (leafOf l) := by
  cases l with
  | nil => trivial
  | cons e l => exact hl e List.mem_cons_self

theorem sized_messages (h32 : ∀ m, (P.sha3 m).length = 32) {n d : Nat} {l : List (Bytes × Bytes)}
    (hl : ∀ e ∈ l, e.1.length = 32) :
    ∀ m ∈ SparseTree.messages getBit (hashMessage P) n d l, Sized m := by
  induction n generalizing d l with
  | zero =>
    intro m hm
    rw [List.mem_singleton.mp hm]
    exact sized_leafOf hl
  | succ n ih =>
    have hhalf : ∀ b, ∀ e ∈ half getBit d b l, e.1.length = 32 := fun b e he => hl e (half_subset he)
    intro m hm
    unfold SparseTree.messages at hm
    split at hm
    · rw [List.mem_singleton.mp hm]
      trivial
    · rcases List.mem_cons.mp hm with rfl | hm
      · exact ⟨length_treeRoot h32, length_treeRoot h32⟩
      · rcases List.mem_append.mp hm with hm | hm
        · exact ih (hhalf false) m hm
        · exact ih (hhalf true) m hm

/-- Everything that is hashed for the root of these leaves. -/
def treeMessages (P : Primitives) (leaves : ByteMap Bytes) : List Bytes :=
  (SparseTree.messages getBit (hashMessage P) TRIE_DEPTH 0 leaves.toList).map encode

/-- **A root without collisions determines the leaves.** -/
theorem eq_of_referenceRoot_eq (h32 : ∀ m, (P.sha3 m).length = 32) (hkeys : ShortKeys leaves)
    (hkeys' : ShortKeys leaves')
    (hno : CollisionFree P (treeMessages P leaves ++ treeMessages P leaves'))
    (h : referenceRoot P leaves = referenceRoot P leaves') : leaves = leaves' := by
  have hinj : Set.InjOn (hashMessage P)
      {m | m ∈ SparseTree.messages getBit (hashMessage P) TRIE_DEPTH 0 leaves.toList ∨
        m ∈ SparseTree.messages getBit (hashMessage P) TRIE_DEPTH 0 leaves'.toList} := by
    have hsized : ∀ m, (m ∈ SparseTree.messages getBit (hashMessage P) TRIE_DEPTH 0 leaves.toList ∨
        m ∈ SparseTree.messages getBit (hashMessage P) TRIE_DEPTH 0 leaves'.toList) → Sized m := by
      rintro m (hm | hm)
      · exact sized_messages h32 hkeys.toList m hm
      · exact sized_messages h32 hkeys'.toList m hm
    have hhashed : ∀ m, (m ∈ SparseTree.messages getBit (hashMessage P) TRIE_DEPTH 0 leaves.toList ∨
        m ∈ SparseTree.messages getBit (hashMessage P) TRIE_DEPTH 0 leaves'.toList) →
          encode m ∈ treeMessages P leaves ++ treeMessages P leaves' := by
      rintro m (hm | hm)
      · exact List.mem_append_left _ (List.mem_map_of_mem hm)
      · exact List.mem_append_right _ (List.mem_map_of_mem hm)
    intro m hm m' hm' heq
    exact encode_injOn (hsized m hm) (hsized m' hm') (hno (hhashed m hm) (hhashed m' hm') heq)
  have hagreed : ∀ l : List (Bytes × Bytes), Agreed getBit 0 l := by
    intro l e _ e' _ i hi
    exact absurd hi (Nat.not_lt_zero i)
  have hsep := hkeys.separated
  have hsep' := hkeys'.separated
  rw [← Nat.zero_add TRIE_DEPTH] at hsep hsep'
  have hmem : ∀ e, e ∈ leaves.toList ↔ e ∈ leaves'.toList := fun e =>
    mem_iff_of_root_eq hinj hsep (hagreed _) hsep' (hagreed _) h
  refine ExtTreeMap.ext_getElem? fun k => Option.ext fun v => ?_
  rw [← ExtTreeMap.mem_toList_iff_getElem?_eq_some, ← ExtTreeMap.mem_toList_iff_getElem?_eq_some]
  exact hmem (k, v)

end SparseMerkleTrie

/-! ## Runs of a trie -/

inductive TrieOp where
  | insert (key value : Bytes)
  | remove (key : Bytes)
  | root
deriving DecidableEq

namespace TrieOp

/-- An operation that does not panic. -/
def Valid : TrieOp → Prop
  | insert key _ => key.length = 32
  | remove _ => True
  | root => True

/-- What an operation does to the map of keys and values: the empty value stands for none. -/
def effect (m : ByteMap Bytes) : TrieOp → ByteMap Bytes
  | insert key value => if value = [] then m.erase key else m.insert key value
  | remove key => m.erase key
  | root => m

end TrieOp

/-- The map a sequence of operations ends with. -/
def finalMap (ops : List TrieOp) : ByteMap Bytes := ops.foldl TrieOp.effect ∅

namespace CachedTrie

open SparseMerkleTrie

variable {P : Primitives} {t t' : CachedTrie} {op : TrieOp} {ops ops' : List TrieOp} {key : Bytes}

def apply (P : Primitives) (t : CachedTrie) : TrieOp → Option CachedTrie
  | .insert key value => t.insert key value
  | .remove key => some (t.remove key)
  | .root => some (t.root P).2

def run (P : Primitives) (t : CachedTrie) (ops : List TrieOp) : Option CachedTrie :=
  ops.foldlM (apply P) t

/-- Short keys, and a cache that is the root of the leaves if it is there. -/
structure Coherent (P : Primitives) (t : CachedTrie) : Prop where
  keys : ShortKeys t.leaves
  cached : ∀ root, t.cachedRoot = some root → root = SparseMerkleTrie.root P t.leaves

theorem Coherent.root_eq (h : t.Coherent P) : (t.root P).1 = referenceRoot P t.leaves := by
  rw [← root_eq_referenceRoot h.keys, CachedTrie.root]
  cases hcached : t.cachedRoot with
  | none => rfl
  | some root => exact h.cached root hcached

theorem root_leaves : (t.root P).2.leaves = t.leaves := by
  unfold CachedTrie.root
  split <;> rfl

theorem Coherent.root (h : t.Coherent P) : (t.root P).2.Coherent P := by
  unfold CachedTrie.root
  split
  · exact h
  · refine ⟨h.keys, fun root hroot => ?_⟩
    cases hroot
    rfl

theorem shortKeys_erase {leaves : ByteMap Bytes} (h : ShortKeys leaves) :
    ShortKeys (leaves.erase key) := by
  intro k v hk
  rw [KeyMap.getElem?_erase_eq] at hk
  split at hk
  · exact absurd hk (by simp)
  · exact h k v hk

theorem shortKeys_insert {leaves : ByteMap Bytes} (h : ShortKeys leaves) {value : Bytes}
    (hkey : key.length = 32) : ShortKeys (leaves.insert key value) := by
  intro k v hk
  rw [KeyMap.getElem?_insert_eq] at hk
  split at hk
  · next heq => rw [← heq, hkey]
  · exact h k v hk

/-- A valid operation succeeds, does to the leaves what it does to the map, and drops or fills the
cache as it should. -/
theorem Coherent.apply (h : t.Coherent P) (hop : op.Valid) :
    ∃ t', t.apply P op = some t' ∧ t'.Coherent P ∧ t'.leaves = op.effect t.leaves := by
  cases op with
  | insert key value =>
    refine ⟨_, if_pos hop, ⟨?_, fun root hroot => absurd hroot (by simp)⟩, ?_⟩
    · unfold SparseMerkleTrie.insert
      split
      · exact shortKeys_erase h.keys
      · exact shortKeys_insert h.keys hop
    · simp only [SparseMerkleTrie.insert, TrieOp.effect, List.isEmpty_iff]
  | remove key =>
    exact ⟨_, rfl, ⟨shortKeys_erase h.keys, fun root hroot => absurd hroot (by simp [remove])⟩, rfl⟩
  | root => exact ⟨_, rfl, h.root, root_leaves⟩

theorem coherent_new : Coherent P {} where
  keys := fun k v hk => absurd hk (by simp)
  cached := fun root hroot => absurd hroot (by simp)

/-- Operations with 32-byte keys lead to a coherent trie with the final map. -/
theorem Coherent.run (h : t.Coherent P) (hops : ∀ op ∈ ops, op.Valid) :
    ∃ t', t.run P ops = some t' ∧ t'.Coherent P ∧ t'.leaves = ops.foldl TrieOp.effect t.leaves := by
  induction ops generalizing t with
  | nil => exact ⟨t, rfl, h, rfl⟩
  | cons op rest ih =>
    obtain ⟨t₁, happly, h₁, hleaves⟩ := h.apply (hops op List.mem_cons_self)
    obtain ⟨t', hrun, h', hfinal⟩ := ih h₁ fun op' hop' => hops op' (List.mem_cons_of_mem _ hop')
    refine ⟨t', ?_, h', ?_⟩
    · rw [CachedTrie.run, List.foldlM_cons, happly]
      exact hrun
    · rw [List.foldl_cons, ← hleaves, hfinal]

theorem coherent_of_run (hops : ∀ op ∈ ops, op.Valid) (hrun : run P {} ops = some t) :
    t.Coherent P ∧ t.leaves = finalMap ops := by
  obtain ⟨t', hrun', h, hleaves⟩ := coherent_new.run hops
  cases hrun.symm.trans hrun'
  exact ⟨h, hleaves⟩

end CachedTrie

open SparseMerkleTrie CachedTrie in
/-- Whatever was inserted, removed and asked for in between, the root is the recursive hash of the
final map; and a trie with the same root has the same map. -/
theorem trie_root_refines {P : Primitives} (h32 : ∀ m, (P.sha3 m).length = 32) {ops : List TrieOp}
    (hops : ∀ op ∈ ops, op.Valid) :
    ∃ t, run P {} ops = some t ∧ (t.root P).1 = referenceRoot P (finalMap ops) ∧
      (∀ key, t.get key = (finalMap ops)[key]?) ∧
      ∀ ops' : List TrieOp, (∀ op ∈ ops', op.Valid) → ∀ t', run P {} ops' = some t' →
        CollisionFree P (treeMessages P (finalMap ops) ++ treeMessages P (finalMap ops')) →
        (t.root P).1 = (t'.root P).1 → finalMap ops = finalMap ops' := by
  obtain ⟨t, hrun, h, hleaves⟩ := coherent_new.run (P := P) hops
  have hfinal : t.leaves = finalMap ops := hleaves
  refine ⟨t, hrun, ?_, ?_, ?_⟩
  · rw [h.root_eq, hfinal]
  · intro key
    rw [CachedTrie.get, hfinal]
  · intro ops' hops' t' hrun' hno hroots
    obtain ⟨h', hfinal'⟩ := coherent_of_run hops' hrun'
    rw [h.root_eq, h'.root_eq, hfinal, hfinal'] at hroots
    refine eq_of_referenceRoot_eq h32 ?_ ?_ hno hroots
    · rw [← hfinal]
      exact h.keys
    · rw [← hfinal']
      exact h'.keys

namespace TrieSample

open SparseMerkleTrie

def key : Bytes := 0xA5 :: List.replicate 31 7

def other : Bytes := List.replicate 32 0xFF

/-- One key stays, the other comes and goes. -/
def ops : List TrieOp := [.insert key [1, 2], .root, .insert other [3], .root, .remove other]

/-- The same map, by way of another value and of an empty one. -/
def detour : List TrieOp :=
  [.insert other [3], .insert key [9], .root, .insert other [], .insert key [1, 2]]

def stored : ByteMap Bytes := (∅ : ByteMap Bytes).insert key [1, 2]

instance (op : TrieOp) : Decidable op.Valid := by
  cases op <;> unfold TrieOp.Valid <;> infer_instance

/-- The bytes as one number, to compare them quickly. -/
def number (hash : Bytes) : Nat := hash.foldl (fun n byte => n * 256 + byte.toNat) 0

/-- The empty message occurs at every level, the others once. -/
theorem collisionFree : CollisionFree Reference.primitives
    (treeMessages Reference.primitives stored ++ treeMessages Reference.primitives stored) := by
  have hnodup : (((encode .empty :: (treeMessages Reference.primitives stored).filter
      (· ≠ encode .empty)).map Reference.primitives.sha3).map number).Nodup := by
    rw [List.map_map]
    decide +kernel
  refine (collisionFree_of_nodup (List.Nodup.of_map _ hnodup)).mono fun m hm => ?_
  have hmem : m ∈ treeMessages Reference.primitives stored := by simpa using hm
  by_cases hempty : m = encode .empty
  · rw [hempty]
    exact List.mem_cons_self
  · exact List.mem_cons_of_mem _ (List.mem_filter.mpr ⟨hmem, by simpa using hempty⟩)

end TrieSample

open TrieSample SparseMerkleTrie CachedTrie in
theorem trie_root_refines_sample : ∃ t t', run Reference.primitives {} ops = some t ∧
    run Reference.primitives {} detour = some t' ∧
    (t.root Reference.primitives).1 = referenceRoot Reference.primitives stored ∧
    (t.root Reference.primitives).1 = (t'.root Reference.primitives).1 ∧
    finalMap ops = finalMap detour := by
  have hleaves : finalMap ops = stored := by decide
  have hleaves' : finalMap detour = stored := by decide
  have hops : ∀ op ∈ ops, op.Valid := by decide
  have hdetour : ∀ op ∈ detour, op.Valid := by decide
  obtain ⟨t, hrun, hroot, -, hsame⟩ := @trie_root_refines Reference.primitives Reference.length_sha3 ops hops
  obtain ⟨t', hrun', hroot', -, -⟩ := @trie_root_refines Reference.primitives Reference.length_sha3 detour hdetour
  rw [hleaves] at hroot
  rw [hleaves'] at hroot'
  have hroots := hroot.trans hroot'.symm
  refine ⟨t, t', hrun, hrun', hroot, hroots, hsame detour hdetour t' hrun' ?_ hroots⟩
  rw [hleaves, hleaves']
  exact collisionFree

/-! ## Proofs -/

namespace CachedTrie

open SparseMerkleTrie

variable {P : Primitives} {t t' : CachedTrie} {key : Bytes} {proof : SmtProof}

/-- The end of a path is a hash, so the last check never fails. -/
theorem climb_ne_nil (hsha : ∀ m, P.sha3 m ≠ []) : proof.climb P ≠ [] := by
  have hend : ∀ (path : List (Bytes × Nat)) (start : Bytes), start ≠ [] →
      path.foldl (fun current e => if getBit proof.key e.2 then hashChildren P e.1 current
        else hashChildren P current e.1) start ≠ [] := by
    intro path start hstart
    induction path using List.reverseRecOn with
    | nil => exact hstart
    | append_singleton path e _ =>
      rw [List.foldl_append, List.foldl_cons, List.foldl_nil]
      split
      · exact hsha _
      · exact hsha _
  unfold SmtProof.climb
  apply hend
  cases proof.value with
  | none => exact hsha _
  | some value => exact hsha _

/-- What `verify` comes to: the roots are the same. -/
theorem verify_iff (hsha : ∀ m, P.sha3 m ≠ []) {root : Bytes} :
    proof.verify P root = true ↔ proof.root = root := by
  unfold SmtProof.verify
  by_cases hroot : proof.root = root
  · rw [if_neg (not_not_intro hroot)]
    simp [hroot, climb_ne_nil hsha]
  · rw [if_pos hroot]
    simp [hroot]

theorem prove_eq_some (h : t.prove P key = some (proof, t')) :
    proof.key = key ∧ proof.value = t.get key ∧ proof.root = (t.root P).1 ∧ t' = (t.root P).2 := by
  unfold prove at h
  split at h
  · cases h
    exact ⟨rfl, rfl, rfl, rfl⟩
  · exact absurd h (by simp)

theorem prove_isSome (hkey : key.length = 32) :
    ∃ proof t', t.prove P key = some (proof, t') := by
  refine ⟨_, _, if_pos ?_⟩
  rw [hkey]
  decide

end CachedTrie

open SparseMerkleTrie CachedTrie in
/-- What `prove` makes for a key verifies, with the value of the trie, and whatever it made for any
trie has this trie's value if it verifies here. `verify` itself looks at the root alone. -/
theorem trie_proofs {P : Primitives} (h32 : ∀ m, (P.sha3 m).length = 32) {ops : List TrieOp}
    (hops : ∀ op ∈ ops, op.Valid) {t : CachedTrie} (hrun : run P {} ops = some t) :
    (∀ key : Bytes, key.length = 32 → ∃ proof t', t.prove P key = some (proof, t') ∧
      proof.key = key ∧ proof.value = t.get key ∧ proof.verify P (t.root P).1 = true) ∧
    (∀ proof : SmtProof, proof.verify P (t.root P).1 = true ↔ proof.root = (t.root P).1) ∧
    ∀ ops' : List TrieOp, (∀ op ∈ ops', op.Valid) → ∀ t', run P {} ops' = some t' →
      CollisionFree P (treeMessages P t.leaves ++ treeMessages P t'.leaves) →
      ∀ key proof t'', t'.prove P key = some (proof, t'') →
        proof.verify P (t.root P).1 = true → proof.value = t.get proof.key := by
  have hsha : ∀ m, P.sha3 m ≠ [] := by
    intro m hnil
    have hlength := h32 m
    rw [hnil] at hlength
    exact absurd hlength (by simp)
  obtain ⟨h, -⟩ := coherent_of_run hops hrun
  refine ⟨?_, fun proof => verify_iff hsha, ?_⟩
  · intro key hkey
    obtain ⟨proof, t', hprove⟩ := @prove_isSome P t key hkey
    obtain ⟨hk, hvalue, hroot, -⟩ := prove_eq_some hprove
    exact ⟨proof, t', hprove, hk, hvalue, (verify_iff hsha).mpr hroot⟩
  · intro ops' hops' t' hrun' hno key proof t'' hprove hverify
    obtain ⟨h', -⟩ := coherent_of_run hops' hrun'
    obtain ⟨hk, hvalue, hroot, -⟩ := prove_eq_some hprove
    have hroots := hroot.symm.trans ((verify_iff hsha).mp hverify)
    rw [h'.root_eq, h.root_eq] at hroots
    have hleaves := eq_of_referenceRoot_eq h32 h.keys h'.keys hno hroots.symm
    rw [hvalue, hk, CachedTrie.get, CachedTrie.get, hleaves]

open TrieSample SparseMerkleTrie CachedTrie in
/-- A proof made after the detour, for a key that is there and for one that is not. -/
theorem trie_proofs_sample : ∃ t t', run Reference.primitives {} ops = some t ∧
    run Reference.primitives {} detour = some t' ∧
    (∃ proof t'', t'.prove Reference.primitives key = some (proof, t'') ∧
      proof.verify Reference.primitives (t.root Reference.primitives).1 = true ∧
      proof.value = t.get proof.key ∧ proof.value = some [1, 2]) ∧
    ∃ proof t'', t.prove Reference.primitives other = some (proof, t'') ∧
      proof.verify Reference.primitives (t.root Reference.primitives).1 = true ∧
      proof.value = none := by
  have hops : ∀ op ∈ ops, op.Valid := by decide
  have hdetour : ∀ op ∈ detour, op.Valid := by decide
  obtain ⟨t, hrun, h, hleaves⟩ := (@coherent_new Reference.primitives).run hops
  obtain ⟨t', hrun', h', hleaves'⟩ := (@coherent_new Reference.primitives).run hdetour
  have hmap : t.leaves = stored := hleaves.trans (by decide)
  have hmap' : t'.leaves = stored := hleaves'.trans (by decide)
  obtain ⟨hcomplete, hverify, hsound⟩ := @trie_proofs Reference.primitives Reference.length_sha3 ops hops t hrun
  refine ⟨t, t', hrun, hrun', ?_, ?_⟩
  · obtain ⟨proof, t'', hprove⟩ := @prove_isSome Reference.primitives t' key (by decide)
    obtain ⟨hk, hvalue, hroot, -⟩ := prove_eq_some hprove
    have haccepted : proof.verify Reference.primitives (t.root Reference.primitives).1 = true := by
      rw [hverify, hroot, h'.root_eq, h.root_eq, hmap, hmap']
    have hno : CollisionFree Reference.primitives
        (treeMessages Reference.primitives t.leaves ++
          treeMessages Reference.primitives t'.leaves) := by
      rw [hmap, hmap']
      exact collisionFree
    refine ⟨proof, t'', hprove, haccepted,
      hsound detour hdetour t' hrun' hno key proof t'' hprove haccepted, ?_⟩
    rw [hvalue, CachedTrie.get, hmap']
    decide
  · obtain ⟨proof, t'', hprove, -, hvalue, haccepted⟩ := hcomplete other (by decide)
    refine ⟨proof, t'', hprove, haccepted, ?_⟩
    rw [hvalue, CachedTrie.get, hmap]
    decide

open TrieSample SparseMerkleTrie CachedTrie in
/-- A made-up proof with the root of the trie in it: no siblings, and a value the key never had. -/
theorem forged_proof_verifies : ∃ t, run Reference.primitives {} ops = some t ∧
    ∃ forged : SmtProof, forged.key = key ∧ forged.value = some [66] ∧ forged.siblings = [] ∧
      forged.verify Reference.primitives (t.root Reference.primitives).1 = true ∧
      t.get key = some [1, 2] := by
  have hrun : ((run Reference.primitives {} ops).any fun t =>
      decide (SmtProof.verify Reference.primitives
        ⟨key, some [66], [], (t.root Reference.primitives).1⟩
          (t.root Reference.primitives).1 = true ∧ t.get key = some [1, 2])) = true := by
    decide +kernel
  obtain ⟨t, ht, hforged⟩ := (Option.any_eq_true _ _).mp hrun
  exact ⟨t, ht, _, rfl, rfl, rfl, of_decide_eq_true hforged⟩

end Curs3d
