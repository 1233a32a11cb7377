import Curs3d.Proof.Encoding
import Curs3d.Proof.RoundTrip

/-!
# Merkle proofs

`merkle_proof` and `verify_merkle_proof` against `merkle_root`. Every leaf has a proof that verifies, and a
proof that verifies, with any siblings and any index, is of one of the leaves, and of the leaf at its index
where there is one (`merkle_proofs_exact`). The siblings need not be hashes: a node hashes its two
children one after the other, and the one that the verifier computed has 32 bytes, so the message of a node of the
tree fixes both (`faithful_climbed`).
-/

set_option autoImplicit false

namespace Curs3d

variable {P : Primitives} {hashes : List Bytes} {leaf : Bytes} {index : Nat} {proof : List Bytes}
  {messages : List Bytes}

theorem merkleClimb_eq {current : Bytes} : merkleClimb P current index proof =
    Merkle.climb (merkleHashNode P) current index proof := by
  induction proof generalizing current index with
  | nil => rfl
  | cons sibling rest ih =>
    have hstep : (if index % 2 = 0 then merkleHashNode P current sibling
        else merkleHashNode P sibling current) =
          Merkle.parent (merkleHashNode P) (Merkle.sides index current sibling) := by
      unfold Merkle.sides
      split <;> rfl
    rw [merkleClimb, ih, hstep]
    rfl

/-- The messages hashed for a Merkle root: that of no leaves is the hash of a text. -/
def rootMessages (P : Primitives) (hashes : List Bytes) : List Bytes :=
  if hashes.isEmpty then [ascii "empty"] else merkleMessages P hashes

/-- The messages hashed to check a proof of `leaf`. -/
def proofMessages (P : Primitives) (leaf : Bytes) (index : Nat) (proof : List Bytes) : List Bytes :=
  leafMessage leaf ::
    (Merkle.climbed (merkleHashNode P) (merkleHashLeaf P leaf) index proof).map nodeMessage

/-- A pair of the tree is fixed by its message, even against a pair with a sibling of any length. -/
theorem faithful_climbed (h32 : ∀ m, (P.sha3 m).length = 32) (hno : CollisionFree P messages)
    {l : List Bytes} (hl : Merkle.Covered (merkleHashNode P) (HashedPairs messages) l)
    {current : Bytes} (hcurrent : current.length = 32)
    (hwalk : ∀ q ∈ Merkle.climbed (merkleHashNode P) current index proof, nodeMessage q ∈ messages) :
    Merkle.Faithful (merkleHashNode P) l
      (Merkle.climbed (merkleHashNode P) current index proof) := by
  rintro m hm hlen ⟨a, b⟩ hp q hq heq
  obtain ⟨hmessage, ha, hb⟩ := hl m hm hlen _ hp
  have hbytes : nodeMessage (a, b) = nodeMessage q := hno hmessage (hwalk q hq) heq
  obtain ⟨i, y, s, rfl, hstands⟩ := Merkle.stands_of_mem_climbed hq
  have hy : y.length = 32 := by
    rcases hstands with rfl | ⟨q', -, rfl⟩
    · exact hcurrent
    · exact h32 _
  unfold Merkle.sides at hbytes ⊢
  split at hbytes
  · simp only [nodeMessage, List.cons.injEq, true_and] at hbytes
    obtain ⟨rfl, rfl⟩ := List.append_inj hbytes (ha.trans hy.symm)
    simp_all
  · simp only [nodeMessage, List.cons.injEq, true_and] at hbytes
    obtain ⟨rfl, rfl⟩ := List.append_inj' hbytes (hb.trans hy.symm)
    simp_all

/-- A leaf is hashed behind another tag than a node. -/
theorem merkleHashLeaf_ne (hno : CollisionFree P messages) {q : Bytes × Bytes}
    (hleaf : leafMessage leaf ∈ messages) (hq : nodeMessage q ∈ messages) :
    merkleHashLeaf P leaf ≠ Merkle.parent (merkleHashNode P) q := by
  intro heq
  have hmessages : leafMessage leaf = nodeMessage q := hno hleaf hq heq
  simp [leafMessage, nodeMessage] at hmessages

/-- A climb ends in the hash of a tagged message. -/
theorem merkleClimb_ne {m : Bytes} (hleaf : m.head? ≠ some 0x00) (hnode : m.head? ≠ some 0x01)
    (hno : CollisionFree P (m :: proofMessages P leaf index proof)) :
    merkleClimb P (merkleHashLeaf P leaf) index proof ≠ P.sha3 m := by
  intro heq
  rw [merkleClimb_eq] at heq
  cases proof with
  | nil =>
    have hmessages : leafMessage leaf = m := hno (by simp [proofMessages]) (by simp) heq
    rw [← hmessages] at hleaf
    exact hleaf rfl
  | cons sibling rest =>
    obtain ⟨q, hq, hparent⟩ := @Merkle.climb_eq_parent _ (merkleHashNode P) (merkleHashLeaf P leaf) index _
      (List.cons_ne_nil sibling rest)
    rw [hparent] at heq
    have hmessages : nodeMessage q = m :=
      hno (List.mem_cons_of_mem _ (List.mem_cons_of_mem _ (List.mem_map_of_mem hq)))
        List.mem_cons_self heq
    rw [← hmessages] at hnode
    exact hnode rfl

theorem merkleClimb_of_verifyMerkleProof {root : Bytes}
    (h : verifyMerkleProof P leaf proof index root = true) :
    merkleClimb P (merkleHashLeaf P leaf) index proof = root := by
  unfold verifyMerkleProof at h
  split at h
  · exact absurd h (by simp)
  · exact of_decide_eq_true h

/-- **A proof that verifies is of one of the leaves**, and of the one at its index. -/
theorem leaf_of_verifyMerkleProof (h32 : ∀ m, (P.sha3 m).length = 32)
    (hno : CollisionFree P (rootMessages P hashes ++ proofMessages P leaf index proof))
    (h : verifyMerkleProof P leaf proof index (merkleRoot P hashes) = true) :
    leaf ∈ hashes ∧ (index < hashes.length → hashes[index]? = some leaf) := by
  have hclimb := merkleClimb_of_verifyMerkleProof h
  cases hhashes : hashes with
  | nil =>
    rw [hhashes] at hno hclimb
    have hempty : (ascii "empty").head? = some 101 := by decide +kernel
    exact absurd hclimb (merkleClimb_ne (by rw [hempty]; decide) (by rw [hempty]; decide) hno)
  | cons first rest =>
    rw [← hhashes]
    have hne : hashes ≠ [] := by simp [hhashes]
    rw [rootMessages, if_neg (by simpa using hne)] at hno
    rw [merkleRoot, if_neg (by simpa using hne), merkleFold_eq, merkleClimb_eq] at hclimb
    have hleaf : leafMessage leaf ∈ merkleMessages P hashes ++ proofMessages P leaf index proof := by
      simp [proofMessages]
    have hwalk : ∀ q ∈ Merkle.climbed (merkleHashNode P) (merkleHashLeaf P leaf) index proof,
        nodeMessage q ∈ merkleMessages P hashes ++ proofMessages P leaf index proof := by
      intro q hq
      exact List.mem_append_right _ (List.mem_cons_of_mem _ (List.mem_map_of_mem hq))
    have hleaves : ∀ x ∈ hashes,
        leafMessage x ∈ merkleMessages P hashes ++ proofMessages P leaf index proof := by
      intro x hx
      exact List.mem_append_left _ (List.mem_append_left _ (List.mem_map_of_mem hx))
    have hcovered : Merkle.Covered (merkleHashNode P)
        (HashedPairs (merkleMessages P hashes ++ proofMessages P leaf index proof))
        (hashes.map (merkleHashLeaf P)) := by
      apply covered_hashedPairs h32 (le_of_eq (List.length_map _))
      · intro x hx
        obtain ⟨y, -, rfl⟩ := List.mem_map.mp hx
        exact h32 _
      · intro m hm
        exact List.mem_append_left _ (List.mem_append_right _ hm)
    obtain ⟨hmem, hat⟩ := Merkle.entry_of_climb_eq_root (n := hashes.length) (by simpa using hne)
      (by simp) (faithful_climbed h32 hno hcovered (h32 _) hwalk)
      (by
        rintro ⟨m, hm, hlen, p, hp, heq⟩
        exact merkleHashLeaf_ne hno hleaf (hcovered m hm hlen p hp).1 heq)
      (by
        intro a ha q hq
        obtain ⟨y, hy, rfl⟩ := List.mem_map.mp ha
        exact merkleHashLeaf_ne hno (hleaves y hy) (hwalk q hq))
      hclimb
    have hinj : ∀ x ∈ hashes, merkleHashLeaf P x = merkleHashLeaf P leaf → x = leaf := by
      intro x hx heq
      have hmessages := hno (hleaves x hx) hleaf heq
      simpa [leafMessage] using hmessages
    constructor
    · obtain ⟨x, hx, heq⟩ := List.mem_map.mp hmem
      rwa [← hinj x hx heq]
    · intro hlt
      have hentry := hat (by simpa using hlt)
      rw [List.getElem?_map, Option.map_eq_some_iff] at hentry
      obtain ⟨x, hx, heq⟩ := hentry
      rw [hx, hinj x (List.mem_of_getElem? hx) heq]

/-- The proof that goes with a leaf hashes nothing that the tree does not. -/
theorem nodeMessages_of_climbed {fuel : Nat} {level : List Bytes} {x : Bytes}
    (h : level[index]? = some x) :
    (Merkle.climbed (merkleHashNode P) x index (merkleProofFrom P fuel level index)).map nodeMessage ⊆
      nodeMessages P fuel level := by
  induction fuel generalizing level index x with
  | zero => exact List.nil_subset _
  | succ fuel ih =>
    unfold merkleProofFrom nodeMessages
    split
    · exact List.nil_subset _
    · rw [Merkle.climbed, List.map_cons]
      have hpair := sides_merkleSibling h
      have hparent : (merkleLevel P level)[index / 2]? =
          some (Merkle.parent (merkleHashNode P)
            (Merkle.sides index x (merkleSibling level index))) := by
        rw [merkleLevel_eq, Merkle.level, List.getElem?_map, hpair]
        rfl
      apply List.cons_subset.mpr
      constructor
      · exact List.mem_append_left _ (List.mem_map_of_mem (List.mem_of_getElem? hpair))
      · exact List.Subset.trans (ih hparent) (List.subset_append_right _ _)

theorem proofMessages_merkleProof (h : hashes[index]? = some leaf) :
    proofMessages P leaf index (merkleProof P hashes index) ⊆ rootMessages P hashes := by
  have hlt := (List.getElem?_eq_some_iff.mp h).1
  have hne : ¬ hashes.isEmpty := by
    rw [List.isEmpty_iff]
    exact List.ne_nil_of_length_pos (by omega)
  rw [rootMessages, if_neg hne, proofMessages]
  apply List.cons_subset.mpr
  constructor
  · exact List.mem_append_left _ (List.mem_map_of_mem (List.mem_of_getElem? h))
  · apply List.Subset.trans _ (List.subset_append_right _ _)
    unfold merkleProof
    split
    · exact List.nil_subset _
    · apply nodeMessages_of_climbed
      rw [List.getElem?_map, h]
      rfl

/-- **Merkle proofs are complete and sound**, whatever the siblings of a proof and its index are. -/
theorem merkle_proofs_exact (P : Primitives) (h32 : ∀ m, (P.sha3 m).length = 32)
    (leaves : List Bytes) :
    (∀ (index : Nat) (hlt : index < leaves.length),
      verifyMerkleProof P leaves[index] (merkleProof P leaves index) index (merkleRoot P leaves) =
        true) ∧
    ∀ (leaf : Bytes) (proof : List Bytes) (index : Nat),
      CollisionFree P (rootMessages P leaves ++ proofMessages P leaf index proof) →
      verifyMerkleProof P leaf proof index (merkleRoot P leaves) = true →
        leaf ∈ leaves ∧ (index < leaves.length → leaves[index]? = some leaf) := by
  have hsha : ∀ data, P.sha3 data ≠ [] := by
    intro data hnil
    have hlength := h32 data
    rw [hnil] at hlength
    exact absurd hlength (by simp)
  constructor
  · intro index hlt
    exact verifyMerkleProof_merkleProof hsha (List.getElem?_eq_getElem hlt)
  · intro leaf proof index hno h
    exact leaf_of_verifyMerkleProof h32 hno h

namespace MerkleProofSample

def leaves : List Bytes := [[1], [2], [3]]

/-- The proof of the last leaf, whose sibling is the leaf itself. -/
def lastProof : List Bytes := merkleProof Reference.primitives leaves 2

end MerkleProofSample

open MerkleProofSample in
/-- Of three leaves the first has a proof, and the third also one for index 3. -/
theorem merkle_proofs_exact_sample :
    verifyMerkleProof Reference.primitives [1] (merkleProof Reference.primitives leaves 0) 0
        (merkleRoot Reference.primitives leaves) = true ∧
      verifyMerkleProof Reference.primitives [3] lastProof 3
        (merkleRoot Reference.primitives leaves) = true ∧ [3] ∈ leaves := by
  obtain ⟨hcomplete, hsound⟩ := merkle_proofs_exact Reference.primitives Reference.length_sha3 leaves
  have hverify : verifyMerkleProof Reference.primitives [3] lastProof 3
      (merkleRoot Reference.primitives leaves) = true := by
    decide +kernel
  have hno : CollisionFree Reference.primitives (rootMessages Reference.primitives leaves ++
      proofMessages Reference.primitives [3] 3 lastProof) := by
    have hroot : CollisionFree Reference.primitives (rootMessages Reference.primitives leaves) :=
      collisionFree_of_nodup (by decide +kernel)
    apply hroot.mono
    decide +kernel
  exact ⟨hcomplete 0 (by decide), hverify, (hsound [3] lastProof 3 hno hverify).1⟩

end Curs3d
