import Curs3d.Core.Block
import Curs3d.Lib.Merkle
import Curs3d.Lib.PrefixFree

/-!
# What a hash determines

bincode's encodings of the hashed records are prefix-free on values that fit their types, so a
transaction's signed bytes determine every field but the signature, the raw Ethereum bytes and the two
raw fee fields (`covered_of_signableBytes`), and a header's bytes determine the header. With hashes that do not
collide on the messages of two blocks, equal block hashes then mean equal headers and, for lists
without duplicates, equal signed transactions one by one (`covered_of_hash_eq`).
-/

set_option autoImplicit false

namespace Curs3d

/-! ## Encodings -/

namespace Bincode

open U64

theorem leBytes_injOn (w : Nat) : Set.InjOn (leBytes w) {n | n < 256 ^ w} := by
  induction w with
  | zero =>
    intro a ha b hb _
    simp only [pow_zero, Set.mem_ofPred_eq, Nat.lt_one_iff] at ha hb
    rw [ha, hb]
  | succ w ih =>
    intro a ha b hb heq
    simp only [leBytes, List.cons.injEq] at heq
    simp only [pow_succ, Set.mem_ofPred_eq] at ha hb
    have hlow : a % 256 = b % 256 := by
      have hnat := congrArg UInt8.toNat heq.1
      simpa using hnat
    have hhigh : a / 256 = b / 256 :=
      ih (Nat.div_lt_of_lt_mul (by omega)) (Nat.div_lt_of_lt_mul (by omega)) heq.2
    omega

theorem prefixFree_leBytes (w : Nat) : PrefixFree (leBytes w) {n | n < 256 ^ w} :=
  .of_length (fun n _ => length_leBytes w n) (leBytes_injOn w)

theorem prefixFree_u32 : PrefixFree u32 {n | n < 4294967296} := prefixFree_leBytes 4

theorem prefixFree_u64 : PrefixFree u64 {n | n < modulus} := prefixFree_leBytes 8

theorem prefixFree_i64 :
    PrefixFree i64 {i | -9223372036854775808 ≤ i ∧ i < 9223372036854775808} := by
  apply (prefixFree_leBytes 8).comp
  · intro a ha b hb heq
    simp only [Set.mem_ofPred_eq] at ha hb heq
    omega
  · intro a ha
    simp only [Set.mem_ofPred_eq] at ha ⊢
    omega

theorem prefixFree_bytes : PrefixFree bytes {b | b.length < modulus} :=
  prefixFree_u64.framed

theorem prefixFree_transactionKind : PrefixFree transactionKind Set.univ := by
  apply PrefixFree.of_length (w := 4)
  · intro k _
    cases k <;> rfl
  · intro a _ b _ heq
    cases a <;> cases b <;> first | rfl | exact absurd heq (by decide)

end Bincode

open Bincode U64

/-- The fields have values of their types. -/
structure Transaction.Fits (tx : Transaction) : Prop where
  chainId : tx.chainId.length < modulus
  «from» : tx.from.length < modulus
  senderPublicKey : tx.senderPublicKey.length < modulus
  «to» : tx.to.length < modulus
  amount : tx.amount < modulus
  fee : tx.fee < modulus
  maxFeePerGas : tx.maxFeePerGas < modulus
  maxPriorityFeePerGas : tx.maxPriorityFeePerGas < modulus
  nonce : tx.nonce < modulus
  timestamp : -9223372036854775808 ≤ tx.timestamp ∧ tx.timestamp < 9223372036854775808
  gasLimit : tx.gasLimit < modulus
  data : tx.data.length < modulus

structure BlockHeader.Fits (h : BlockHeader) : Prop where
  version : h.version < 4294967296
  height : h.height < modulus
  timestamp : -9223372036854775808 ≤ h.timestamp ∧ h.timestamp < 9223372036854775808
  prevHash : h.prevHash.length < modulus
  merkleRoot : h.merkleRoot.length < modulus
  stateRoot : h.stateRoot.length < modulus
  gasUsed : h.gasUsed < modulus
  baseFeePerGas : h.baseFeePerGas < modulus
  validatorPublicKey : h.validatorPublicKey.length < modulus
  nonce : h.nonce < modulus

instance (tx : Transaction) : Decidable tx.Fits :=
  decidable_of_iff (tx.chainId.length < modulus ∧ tx.from.length < modulus ∧
      tx.senderPublicKey.length < modulus ∧ tx.to.length < modulus ∧ tx.amount < modulus ∧
      tx.fee < modulus ∧ tx.maxFeePerGas < modulus ∧ tx.maxPriorityFeePerGas < modulus ∧
      tx.nonce < modulus ∧
      (-9223372036854775808 ≤ tx.timestamp ∧ tx.timestamp < 9223372036854775808) ∧
      tx.gasLimit < modulus ∧ tx.data.length < modulus)
    ⟨fun ⟨h₁, h₂, h₃, h₄, h₅, h₆, h₇, h₈, h₉, h₁₀, h₁₁, h₁₂⟩ =>
        ⟨h₁, h₂, h₃, h₄, h₅, h₆, h₇, h₈, h₉, h₁₀, h₁₁, h₁₂⟩,
      fun ⟨h₁, h₂, h₃, h₄, h₅, h₆, h₇, h₈, h₉, h₁₀, h₁₁, h₁₂⟩ =>
        ⟨h₁, h₂, h₃, h₄, h₅, h₆, h₇, h₈, h₉, h₁₀, h₁₁, h₁₂⟩⟩

instance (h : BlockHeader) : Decidable h.Fits :=
  decidable_of_iff (h.version < 4294967296 ∧ h.height < modulus ∧
      (-9223372036854775808 ≤ h.timestamp ∧ h.timestamp < 9223372036854775808) ∧
      h.prevHash.length < modulus ∧ h.merkleRoot.length < modulus ∧ h.stateRoot.length < modulus ∧
      h.gasUsed < modulus ∧ h.baseFeePerGas < modulus ∧ h.validatorPublicKey.length < modulus ∧
      h.nonce < modulus)
    ⟨fun ⟨h₁, h₂, h₃, h₄, h₅, h₆, h₇, h₈, h₉, h₁₀⟩ => ⟨h₁, h₂, h₃, h₄, h₅, h₆, h₇, h₈, h₉, h₁₀⟩,
      fun ⟨h₁, h₂, h₃, h₄, h₅, h₆, h₇, h₈, h₉, h₁₀⟩ => ⟨h₁, h₂, h₃, h₄, h₅, h₆, h₇, h₈, h₉, h₁₀⟩⟩

structure Block.Fits (b : Block) : Prop where
  header : b.header.Fits
  transactions : ∀ tx ∈ b.transactions, tx.Fits

/-! ## Transactions -/

namespace Transaction

variable {tx tx' : Transaction}

/-- The part of a transaction that its hash covers, as a transaction: the accessors' fees for the raw
ones, no signature and no raw Ethereum bytes. -/
def covered (tx : Transaction) : Transaction :=
  { tx with
    maxFeePerGas := tx.maxFeePerGas'
    maxPriorityFeePerGas := tx.maxPriorityFeePerGas'
    signature := none
    evmRawTx := [] }

@[simp] theorem maxFeePerGas'_covered : tx.covered.maxFeePerGas' = tx.maxFeePerGas' := by
  simp [covered, maxFeePerGas']

@[simp] theorem maxPriorityFeePerGas'_covered :
    tx.covered.maxPriorityFeePerGas' = tx.maxPriorityFeePerGas' := by
  have hfee : tx.fee ≤ tx.maxFeePerGas' := le_max_right _ _
  have hpriority : tx.maxPriorityFeePerGas' ≤ tx.maxFeePerGas' := by
    simp only [maxPriorityFeePerGas']
    split
    · exact min_le_right _ _
    · exact min_le_right _ _
  have hzero : tx.maxPriorityFeePerGas' = 0 → tx.fee = 0 := by
    simp only [maxPriorityFeePerGas'] at hpriority ⊢
    split
    · omega
    · omega
  have hdef : tx.covered.maxPriorityFeePerGas' = if tx.maxPriorityFeePerGas' = 0 then
      min tx.fee tx.maxFeePerGas' else min tx.maxPriorityFeePerGas' tx.maxFeePerGas' := by
    rw [maxPriorityFeePerGas', maxFeePerGas'_covered]
    rfl
  rw [hdef]
  split
  · next hp =>
    rw [hp, hzero hp]
    exact Nat.zero_min _
  · exact min_eq_left hpriority

theorem Fits.maxFeePerGas' (h : tx.Fits) : tx.maxFeePerGas' < modulus :=
  max_lt h.maxFeePerGas h.fee

theorem Fits.maxPriorityFeePerGas' (h : tx.Fits) :
    tx.maxPriorityFeePerGas' < modulus := by
  simp only [Transaction.maxPriorityFeePerGas']
  split
  · exact (min_le_left _ _).trans_lt h.fee
  · exact (min_le_left _ _).trans_lt h.maxPriorityFeePerGas

/-- The signed bytes determine what they cover. -/
theorem covered_of_signableBytes (h : tx.Fits) (h' : tx'.Fits)
    (heq : tx.signableBytes = tx'.signableBytes) : tx.covered = tx'.covered := by
  simp only [signableBytes, List.append_assoc] at heq
  have hfields := List.append_cancel_left heq
  obtain ⟨hchain, hfields⟩ := prefixFree_bytes h.chainId h'.chainId _ _ hfields
  obtain ⟨hkind, hfields⟩ := prefixFree_transactionKind trivial trivial _ _ hfields
  obtain ⟨hfrom, hfields⟩ := prefixFree_bytes h.from h'.from _ _ hfields
  obtain ⟨hkey, hfields⟩ := prefixFree_bytes h.senderPublicKey h'.senderPublicKey _ _ hfields
  obtain ⟨hto, hfields⟩ := prefixFree_bytes h.to h'.to _ _ hfields
  obtain ⟨hamount, hfields⟩ := prefixFree_u64 h.amount h'.amount _ _ hfields
  obtain ⟨hfee, hfields⟩ := prefixFree_u64 h.fee h'.fee _ _ hfields
  obtain ⟨hmax, hfields⟩ := prefixFree_u64 h.maxFeePerGas' h'.maxFeePerGas' _ _ hfields
  obtain ⟨hpriority, hfields⟩ :=
    prefixFree_u64 h.maxPriorityFeePerGas' h'.maxPriorityFeePerGas' _ _ hfields
  obtain ⟨hnonce, hfields⟩ := prefixFree_u64 h.nonce h'.nonce _ _ hfields
  obtain ⟨htime, hfields⟩ := prefixFree_i64 h.timestamp h'.timestamp _ _ hfields
  obtain ⟨hgas, hfields⟩ := prefixFree_u64 h.gasLimit h'.gasLimit _ _ hfields
  have hdata := prefixFree_bytes.injOn h.data h'.data hfields
  simp only [covered, hchain, hkind, hfrom, hkey, hto, hamount, hfee, hmax, hpriority, hnonce, htime,
    hgas, hdata]

end Transaction

theorem blockHeader_injOn {h h' : BlockHeader} (hfits : h.Fits) (hfits' : h'.Fits)
    (heq : blockHeader h = blockHeader h') : h = h' := by
  simp only [blockHeader, List.append_assoc] at heq
  obtain ⟨hversion, heq⟩ := prefixFree_u32 hfits.version hfits'.version _ _ heq
  obtain ⟨hheight, heq⟩ := prefixFree_u64 hfits.height hfits'.height _ _ heq
  obtain ⟨htime, heq⟩ := prefixFree_i64 hfits.timestamp hfits'.timestamp _ _ heq
  obtain ⟨hprev, heq⟩ := prefixFree_bytes hfits.prevHash hfits'.prevHash _ _ heq
  obtain ⟨hmerkle, heq⟩ := prefixFree_bytes hfits.merkleRoot hfits'.merkleRoot _ _ heq
  obtain ⟨hstate, heq⟩ := prefixFree_bytes hfits.stateRoot hfits'.stateRoot _ _ heq
  obtain ⟨hgas, heq⟩ := prefixFree_u64 hfits.gasUsed hfits'.gasUsed _ _ heq
  obtain ⟨hbase, heq⟩ := prefixFree_u64 hfits.baseFeePerGas hfits'.baseFeePerGas _ _ heq
  obtain ⟨hkey, heq⟩ := prefixFree_bytes hfits.validatorPublicKey hfits'.validatorPublicKey _ _ heq
  have hnonce := prefixFree_u64.injOn hfits.nonce hfits'.nonce heq
  cases h
  cases h'
  simp_all

/-! ## Merkle roots -/

section Roots

variable {P : Primitives}

/-- No two of these messages have the same hash. -/
def CollisionFree (P : Primitives) (messages : List Bytes) : Prop :=
  Set.InjOn P.sha3 {m | m ∈ messages}

theorem CollisionFree.mono {messages fewer : List Bytes} (h : CollisionFree P messages)
    (hsub : fewer ⊆ messages) : CollisionFree P fewer :=
  Set.InjOn.mono (fun _ hm => hsub hm) h

theorem collisionFree_of_nodup {messages : List Bytes} (h : (messages.map P.sha3).Nodup) :
    CollisionFree P messages :=
  fun _ hx _ hy heq => List.inj_on_of_nodup_map h hx hy heq

def leafMessage (hash : Bytes) : Bytes := 0x00 :: hash

def nodeMessage (p : Bytes × Bytes) : Bytes := 0x01 :: (p.1 ++ p.2)

/-- The messages hashed on the way from a level to its root. -/
def nodeMessages (P : Primitives) : Nat → List Bytes → List Bytes
  | 0, _ => []
  | fuel + 1, l =>
    if l.length ≤ 1 then []
    else (Merkle.pairs l).map nodeMessage ++ nodeMessages P fuel (merkleLevel P l)

/-- The messages hashed for the root of these. -/
def merkleMessages (P : Primitives) (hashes : List Bytes) : List Bytes :=
  hashes.map leafMessage ++ nodeMessages P hashes.length (hashes.map (merkleHashLeaf P))

theorem merkleLevel_eq (l : List Bytes) : merkleLevel P l = Merkle.level (merkleHashNode P) l := by
  induction l using merkleLevel.induct with
  | case1 => simp [merkleLevel, Merkle.level, Merkle.pairs]
  | case2 a => simp [merkleLevel, Merkle.level, Merkle.pairs]
  | case3 a b rest ih =>
    simp only [Merkle.level] at ih
    simp [merkleLevel, Merkle.level, Merkle.pairs, ih]

theorem merkleFold_eq {fuel : Nat} {l : List Bytes} :
    merkleFold P fuel l = Merkle.root (merkleHashNode P) fuel l := by
  induction fuel generalizing l with
  | zero =>
    match l with
    | [] => rfl
    | [a] => rfl
    | a :: b :: rest => rfl
  | succ fuel ih =>
    match l with
    | [] => rfl
    | [a] => rfl
    | a :: b :: rest =>
      simp only [merkleFold, Merkle.root, ih, merkleLevel_eq]

/-- Pairs of hashes whose messages are among these. -/
def HashedPairs (messages : List Bytes) : Set (Bytes × Bytes) :=
  {p | nodeMessage p ∈ messages ∧ p.1.length = 32 ∧ p.2.length = 32}

theorem covered_hashedPairs (h32 : ∀ m, (P.sha3 m).length = 32) {messages : List Bytes} {fuel : Nat}
    {l : List Bytes} (hfuel : l.length ≤ fuel) (hl : ∀ x ∈ l, x.length = 32)
    (hsub : nodeMessages P fuel l ⊆ messages) :
    Merkle.Covered (merkleHashNode P) (HashedPairs messages) l := by
  induction fuel generalizing l with
  | zero =>
    intro m habove hm
    rcases habove.eq_or_above with rfl | ⟨hlen, -⟩
    · omega
    · omega
  | succ fuel ih =>
    intro m habove hm p hp
    have hlen : 2 ≤ l.length := by
      rcases habove.eq_or_above with rfl | ⟨hlen, -⟩
      · exact hm
      · exact hlen
    simp only [nodeMessages, if_neg (Nat.not_le.mpr hlen), List.append_subset] at hsub
    rcases habove.eq_or_above with rfl | ⟨-, habove⟩
    · obtain ⟨hfst, hsnd⟩ := Merkle.mem_of_mem_pairs hp
      exact ⟨hsub.1 (List.mem_map_of_mem hp), hl _ hfst, hl _ hsnd⟩
    · rw [merkleLevel_eq] at hsub
      refine ih ?_ ?_ hsub.2 m habove hm p hp
      · rw [Merkle.length_level]
        omega
      · intro x hx
        obtain ⟨q, -, rfl⟩ := List.mem_map.mp hx
        exact h32 _

theorem separates_hashedPairs {messages : List Bytes} (hno : CollisionFree P messages) :
    Merkle.Separates (merkleHashNode P) (HashedPairs messages) := by
  rintro ⟨a, b⟩ ⟨hp, ha, -⟩ ⟨c, d⟩ ⟨hq, hc, -⟩ heq
  have hmessages := hno hp hq heq
  simp only [nodeMessage, List.cons.injEq, true_and] at hmessages
  obtain ⟨rfl, rfl⟩ := List.append_inj hmessages (ha.trans hc.symm)
  rfl

/-- **A Merkle root without collisions determines a list without duplicates.** -/
theorem eq_of_merkleRoot_eq (h32 : ∀ m, (P.sha3 m).length = 32) {hs hs' : List Bytes}
    (hno : CollisionFree P (merkleMessages P hs ++ merkleMessages P hs')) (hnodup : hs.Nodup)
    (hnodup' : hs'.Nodup) (hne : hs ≠ []) (hne' : hs' ≠ [])
    (h : merkleRoot P hs = merkleRoot P hs') : hs = hs' := by
  have hleaf : ∀ x, x ∈ hs ∨ x ∈ hs' →
      leafMessage x ∈ merkleMessages P hs ++ merkleMessages P hs' := by
    intro x hx
    rw [List.mem_append]
    rcases hx with hx | hx
    · exact Or.inl (List.mem_append_left _ (List.mem_map_of_mem hx))
    · exact Or.inr (List.mem_append_left _ (List.mem_map_of_mem hx))
  have hinj : Set.InjOn (merkleHashLeaf P) {x | x ∈ hs ∨ x ∈ hs'} := by
    intro x hx y hy heq
    have hmessages := hno (hleaf x hx) (hleaf y hy) heq
    simpa [leafMessage] using hmessages
  have hcovered : ∀ l : List Bytes,
      merkleMessages P l ⊆ merkleMessages P hs ++ merkleMessages P hs' →
      Merkle.Covered (merkleHashNode P) (HashedPairs (merkleMessages P hs ++ merkleMessages P hs'))
        (l.map (merkleHashLeaf P)) := by
    intro l hsub
    apply covered_hashedPairs h32 (le_of_eq (List.length_map _))
    · intro x hx
      obtain ⟨leaf, -, rfl⟩ := List.mem_map.mp hx
      exact h32 _
    · intro m hm
      exact hsub (List.mem_append_right _ hm)
  rw [merkleRoot, merkleRoot, if_neg (by simpa using hne), if_neg (by simpa using hne'), merkleFold_eq,
    merkleFold_eq] at h
  have hleaves : hs.map (merkleHashLeaf P) = hs'.map (merkleHashLeaf P) := by
    apply Merkle.eq_of_root_eq (separates_hashedPairs hno) (n := hs.length) (k := hs'.length)
    · exact hcovered hs (List.subset_append_left _ _)
    · exact hcovered hs' (List.subset_append_right _ _)
    · exact hnodup.map_on fun x hx y hy heq => hinj (Or.inl hx) (Or.inl hy) heq
    · exact hnodup'.map_on fun x hx y hy heq => hinj (Or.inr hx) (Or.inr hy) heq
    · simpa using hne
    · simpa using hne'
    · simp
    · simp
    · -- a leaf and a parent begin with different tags
      intro x hx p hp heq
      obtain ⟨leaf, hmem, rfl⟩ : ∃ leaf, (leaf ∈ hs ∨ leaf ∈ hs') ∧ merkleHashLeaf P leaf = x := by
        rcases hx with hx | hx
        · obtain ⟨leaf, hmem, hx⟩ := List.mem_map.mp hx
          exact ⟨leaf, Or.inl hmem, hx⟩
        · obtain ⟨leaf, hmem, hx⟩ := List.mem_map.mp hx
          exact ⟨leaf, Or.inr hmem, hx⟩
      have hmessages := hno (hleaf leaf hmem) hp.1 heq
      simp [leafMessage, nodeMessage] at hmessages
    · exact h
  exact Merkle.map_inj_of_injOn hinj (fun x hx => Or.inl hx) (fun x hx => Or.inr hx) hleaves

end Roots

/-! ## Blocks -/

section Blocks

variable {P : Primitives} {block block' : Block}

/-- Every message hashed to check a block's hash and Merkle root. -/
def Block.messages (P : Primitives) (b : Block) : List Bytes :=
  [blockHeader b.header, P.sha3 (blockHeader b.header)] ++
    b.transactions.map Transaction.signableBytes ++
    merkleMessages P (b.transactions.map fun tx => tx.hash P)

theorem header_of_hash_eq (hfits : block.Fits) (hfits' : block'.Fits)
    (hno : CollisionFree P (block.messages P ++ block'.messages P))
    (h : Block.computeHash P block.header = Block.computeHash P block'.header) :
    block.header = block'.header := by
  have hinner : P.sha3 (blockHeader block.header) = P.sha3 (blockHeader block'.header) :=
    hno (by simp [Block.messages]) (by simp [Block.messages]) h
  have hbytes : blockHeader block.header = blockHeader block'.header :=
    hno (by simp [Block.messages]) (by simp [Block.messages]) hinner
  exact blockHeader_injOn hfits.header hfits'.header hbytes

theorem map_covered_of_map_hash {txs txs' : List Transaction} (hfits : ∀ tx ∈ txs, tx.Fits)
    (hfits' : ∀ tx ∈ txs', tx.Fits)
    (hno : CollisionFree P (txs.map Transaction.signableBytes ++ txs'.map Transaction.signableBytes))
    (h : txs.map (fun tx => tx.hash P) = txs'.map fun tx => tx.hash P) :
    txs.map Transaction.covered = txs'.map Transaction.covered := by
  induction txs generalizing txs' with
  | nil =>
    cases txs' with
    | nil => rfl
    | cons tx' txs' => exact absurd h (by simp)
  | cons tx txs ih =>
    cases txs' with
    | nil => exact absurd h (by simp)
    | cons tx' txs' =>
      simp only [List.map_cons, List.cons.injEq] at h ⊢
      have hbytes : tx.signableBytes = tx'.signableBytes := hno (by simp) (by simp) h.1
      refine ⟨Transaction.covered_of_signableBytes (hfits tx (by simp)) (hfits' tx' (by simp)) hbytes,
        ?_⟩
      apply ih (fun t ht => hfits t (by simp [ht])) (fun t ht => hfits' t (by simp [ht])) _ h.2
      apply hno.mono
      intro m hm
      simp only [List.mem_append, List.map_cons, List.mem_cons] at hm ⊢
      tauto

/-- **Blocks with one hash have the same header and the same covered transactions.** -/
theorem covered_of_hash_eq (h32 : ∀ m, (P.sha3 m).length = 32) (hfits : block.Fits)
    (hfits' : block'.Fits) (hno : CollisionFree P (block.messages P ++ block'.messages P))
    (hhash : Block.computeHash P block.header = Block.computeHash P block'.header)
    (hroot : block.verifyMerkleRoot P = true) (hroot' : block'.verifyMerkleRoot P = true)
    (hnodup : (block.transactions.map fun tx => tx.hash P).Nodup)
    (hnodup' : (block'.transactions.map fun tx => tx.hash P).Nodup)
    (hne : block.transactions ≠ []) (hne' : block'.transactions ≠ []) :
    block.header = block'.header ∧
      block.transactions.map Transaction.covered = block'.transactions.map Transaction.covered := by
  have hheader := header_of_hash_eq hfits hfits' hno hhash
  have hroots : Block.txMerkleRoot P block.transactions = Block.txMerkleRoot P block'.transactions :=
    (of_decide_eq_true hroot).trans
      ((congrArg BlockHeader.merkleRoot hheader).trans (of_decide_eq_true hroot').symm)
  have hhashes := eq_of_merkleRoot_eq h32
    (hno.mono (by intro m hm; simp only [Block.messages, List.mem_append] at hm ⊢; tauto)) hnodup hnodup'
    (by simpa using hne) (by simpa using hne') hroots
  refine ⟨hheader, map_covered_of_map_hash hfits.transactions hfits'.transactions ?_ hhashes⟩
  apply hno.mono
  intro m hm
  simp only [Block.messages, List.mem_append] at hm ⊢
  tauto

end Blocks

end Curs3d
