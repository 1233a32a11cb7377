import Curs3d.Proof.Decoding
import Curs3d.Proof.MerkleProofs
import Curs3d.Proof.StateProofs

/-!
# What a state proof proves

Every account and every slot has a proof that both verifiers accept (`state_proofs_complete`). The converse
is not true of all states. Accounts and contracts are leaves of one tree, a leaf is the hash of an untagged
encoding, and the bytes of a contract can read as those of an account, or the other way round. Such a leaf proves
what the state does not hold. It takes no more than that, and no less: proofs are sound on exactly the
states whose leaves have one reading (`state_proofs_sound_iff`).
-/

set_option autoImplicit false

namespace Curs3d

open Std Bincode U64

variable {P : Primitives} {accounts : ByteMap AccountState} {contracts : ByteMap ContractState}

/-! ## Completeness -/

theorem verifyAccountProof_eq (proof : AccountProof) :
    verifyAccountProof P proof = LightClient.verifyAccountProof P proof := rfl

/-- The two verifiers of storage proofs make the same checks, in another order. -/
theorem verifyStorageProof_eq (proof : StorageProof) :
    verifyStorageProof P proof = LightClient.verifyStorageProof P proof := by
  simp only [verifyStorageProof, LightClient.verifyStorageProof]
  cases verifyMerkleProof P proof.storageLeafHash proof.storageProof proof.storageLeafIndex
    proof.storageRoot with
  | true => simp
  | false => simp

theorem entryPosition_of_getElem? {β : Type} {entries : ByteMap β} {key : Bytes} {v : β}
    (h : entries[key]? = some v) : ∃ i, entryPosition entries key = some i := by
  have hmem : (key, v) ∈ entries.toList := ExtTreeMap.mem_toList_iff_getElem?_eq_some.mpr h
  apply Option.isSome_iff_exists.mp
  rw [entryPosition, List.findIdx?_isSome, List.any_eq_true]
  exact ⟨_, hmem, by simp⟩

/-- **Every account and every slot has a proof that both verifiers accept.** -/
theorem state_proofs_complete (P : Primitives) (hsha : ∀ data, P.sha3 data ≠ [])
    (accounts : ByteMap AccountState) (contracts : ByteMap ContractState) :
    (∀ (address : Bytes) (state : AccountState), accounts[address]? = some state →
      ∃ proof, generateAccountProof P accounts contracts address = some proof ∧
        verifyAccountProof P proof = true ∧ LightClient.verifyAccountProof P proof = true ∧
        proof.stateRoot = StateRoot.computeFull P accounts contracts ∧
        proof.address = address ∧ proof.state = state) ∧
    ∀ (contractAddress : Bytes) (contract : ContractState) (key value : Bytes),
      contracts[contractAddress]? = some contract → contract.storage[key]? = some value →
      ∃ proof, generateStorageProof P accounts contracts contractAddress key = some proof ∧
        verifyStorageProof P proof = true ∧ LightClient.verifyStorageProof P proof = true ∧
        proof.stateRoot = StateRoot.computeFull P accounts contracts ∧
        proof.contractAddress = contractAddress ∧ proof.key = key ∧ proof.value = value := by
  constructor
  · intro address state hstate
    obtain ⟨i, hi⟩ := entryPosition_of_getElem? hstate
    have hgenerate : ∃ proof, generateAccountProof P accounts contracts address = some proof ∧
        proof.address = address ∧ proof.state = state := by
      simp [generateAccountProof, hstate, hi]
    obtain ⟨proof, hproof, haddress, hvalue⟩ := hgenerate
    obtain ⟨hverify, hroot, -⟩ := verify_generateAccountProof hsha hproof
    exact ⟨proof, hproof, (verifyAccountProof_eq proof).trans hverify, hverify, hroot, haddress, hvalue⟩
  · intro contractAddress contract key value hcontract hvalue
    obtain ⟨i, hi⟩ := entryPosition_of_getElem? hcontract
    obtain ⟨j, hj⟩ := entryPosition_of_getElem? hvalue
    have hgenerate : ∃ proof, generateStorageProof P accounts contracts contractAddress key = some proof ∧
        proof.contractAddress = contractAddress ∧ proof.key = key ∧ proof.value = value := by
      simp [generateStorageProof, hcontract, hvalue, hi, hj]
    obtain ⟨proof, hproof, hfields⟩ := hgenerate
    obtain ⟨hverify, hroot, -⟩ := verify_generateStorageProof hsha hproof
    exact ⟨proof, hproof, (verifyStorageProof_eq proof).trans hverify, hverify, hroot, hfields⟩

/-- The only account of a state without contracts. -/
theorem state_proofs_complete_sample :
    ∃ proof, generateAccountProof Reference.primitives
        ((∅ : ByteMap AccountState).insert [1] { balance := 5 }) ∅ [1] = some proof ∧
      verifyAccountProof Reference.primitives proof = true ∧
      LightClient.verifyAccountProof Reference.primitives proof = true ∧ proof.state.balance = 5 := by
  obtain ⟨proof, hproof, hverify, hlight, -, -, hstate⟩ :=
    (state_proofs_complete Reference.primitives RoundTripSample.sha3_ne_nil
      ((∅ : ByteMap AccountState).insert [1] { balance := 5 }) ∅).1 [1] { balance := 5 } (by simp)
  exact ⟨proof, hproof, hverify, hlight, by rw [hstate]⟩

/-! ## What is hashed -/

def accountMessage (address : Bytes) (state : AccountState) : Bytes :=
  bytes address ++ accountState state

def contractLeafMessage (address codeHash owner storageRoot : Bytes) : Bytes :=
  bytes address ++ bytes codeHash ++ bytes owner ++ bytes storageRoot

def slotMessage (key value : Bytes) : Bytes := bytes key ++ bytes value

/-- The code hash in a contract's leaf. -/
def leafCodeHash (P : Primitives) (contract : ContractState) : Bytes :=
  if contract.codeHash.isEmpty then P.sha3 contract.code else contract.codeHash

/-- The message of a contract's leaf. -/
def contractLeaf (P : Primitives) (address : Bytes) (contract : ContractState) : Bytes :=
  contractLeafMessage address (leafCodeHash P contract) contract.owner
    (StateRoot.contractStorageRoot P contract)

def slotHashes (P : Primitives) (contract : ContractState) : List Bytes :=
  contract.storage.toList.map fun e => storageLeafHash P e.1 e.2

/-- Every message hashed for the state root. -/
def stateMessages (P : Primitives) (accounts : ByteMap AccountState)
    (contracts : ByteMap ContractState) : List Bytes :=
  [EMPTY_STATE_ROOT_SEED] ++ accounts.toList.map (fun e => accountMessage e.1 e.2) ++
    contracts.toList.flatMap (fun e => contractLeaf P e.1 e.2 ::
      e.2.storage.toList.map (fun s => slotMessage s.1 s.2) ++ rootMessages P (slotHashes P e.2)) ++
    rootMessages P (StateRoot.stateLeafHashes P accounts contracts)

namespace AccountProof

structure Fits (proof : AccountProof) : Prop where
  address : proof.address.length < modulus
  state : proof.state.Fits

def messages (P : Primitives) (proof : AccountProof) : List Bytes :=
  accountMessage proof.address proof.state :: proofMessages P proof.leafHash proof.leafIndex proof.proof

end AccountProof

namespace StorageProof

structure Fits (proof : StorageProof) : Prop where
  contractAddress : proof.contractAddress.length < modulus
  contractCodeHash : proof.contractCodeHash.length < modulus
  contractOwner : proof.contractOwner.length < modulus
  key : proof.key.length < modulus
  value : proof.value.length < modulus
  storageRoot : proof.storageRoot.length < modulus

/-- The messages hashed for the slot. -/
def slotMessages (P : Primitives) (proof : StorageProof) : List Bytes :=
  slotMessage proof.key proof.value ::
    proofMessages P proof.storageLeafHash proof.storageLeafIndex proof.storageProof

def messages (P : Primitives) (proof : StorageProof) : List Bytes :=
  proof.slotMessages P ++ contractLeafMessage proof.contractAddress proof.contractCodeHash
      proof.contractOwner proof.storageRoot ::
    proofMessages P proof.contractLeafHash proof.contractLeafIndex proof.contractProof

end StorageProof

/-- Addresses and owners of 20 bytes, code hashes of 32, and values of their types. -/
structure StateFits (accounts : ByteMap AccountState) (contracts : ByteMap ContractState) : Prop where
  account : ∀ (address : Bytes) (state : AccountState), accounts[address]? = some state →
    address.length = ADDRESS_LEN ∧ state.Fits
  contract : ∀ (address : Bytes) (contract : ContractState), contracts[address]? = some contract →
    address.length = ADDRESS_LEN ∧ contract.owner.length = ADDRESS_LEN ∧
      contract.codeHash.length = 32
  slot : ∀ (address : Bytes) (contract : ContractState), contracts[address]? = some contract →
    ∀ key value : Bytes, contract.storage[key]? = some value →
      key.length < modulus ∧ value.length < modulus

/-- The messages that anyone hashes, `hashed`, have no collision, and the state's are among them. -/
structure Hashing (P : Primitives) (accounts : ByteMap AccountState)
    (contracts : ByteMap ContractState) (hashed : Set Bytes) : Prop where
  length : ∀ m, (P.sha3 m).length = 32
  injOn : Set.InjOn P.sha3 hashed
  state : ∀ m ∈ stateMessages P accounts contracts, m ∈ hashed

/-! ## Soundness -/

/-- An accepted proof against the state root states what the state holds. -/
structure StateProofsSound (P : Primitives) (accounts : ByteMap AccountState)
    (contracts : ByteMap ContractState) (hashed : Set Bytes) : Prop where
  account : ∀ proof : AccountProof, proof.Fits → (∀ m ∈ proof.messages P, m ∈ hashed) →
    verifyAccountProof P proof = true →
    proof.stateRoot = StateRoot.computeFull P accounts contracts →
      accounts[proof.address]? = some proof.state
  storage : ∀ proof : StorageProof, proof.Fits → (∀ m ∈ proof.messages P, m ∈ hashed) →
    verifyStorageProof P proof = true →
    proof.stateRoot = StateRoot.computeFull P accounts contracts →
      ∃ contract, contracts[proof.contractAddress]? = some contract ∧
        contract.storage[proof.key]? = some proof.value

/-- A slot that leads to `root`, through messages that are hashed. -/
def Opens (P : Primitives) (hashed : Set Bytes) (root key value : Bytes) : Prop :=
  key.length < modulus ∧ value.length < modulus ∧ slotMessage key value ∈ hashed ∧
    ∃ (index : Nat) (siblings : List Bytes),
      verifyMerkleProof P (storageLeafHash P key value) siblings index root = true ∧
        ∀ m ∈ proofMessages P (storageLeafHash P key value) index siblings, m ∈ hashed

/-- **Each leaf has one reading**: no contract's bytes are those of an account that is not there, and no
account's are those of a contract with a slot that is not there. -/
structure LeavesApart (P : Primitives) (accounts : ByteMap AccountState)
    (contracts : ByteMap ContractState) (hashed : Set Bytes) : Prop where
  contract : ∀ (address : Bytes) (contract : ContractState), contracts[address]? = some contract →
    ∀ state : AccountState, state.Fits →
      contractLeaf P address contract = accountMessage address state →
        accounts[address]? = some state
  account : ∀ (address : Bytes) (state : AccountState), accounts[address]? = some state →
    ∀ codeHash owner root key value : Bytes, codeHash.length < modulus → owner.length < modulus →
      root.length < modulus → Opens P hashed root key value →
      accountMessage address state = contractLeafMessage address codeHash owner root →
        ∃ contract, contracts[address]? = some contract ∧ contract.storage[key]? = some value

section Soundness

variable {hashed : Set Bytes}

theorem Hashing.collisionFree (h : Hashing P accounts contracts hashed) {messages : List Bytes}
    (hsub : ∀ m ∈ messages, m ∈ hashed) : CollisionFree P messages :=
  h.injOn.mono hsub

theorem Hashing.sha3_ne_nil (h : Hashing P accounts contracts hashed) (data : Bytes) :
    P.sha3 data ≠ [] := by
  intro hnil
  have hlength := h.length data
  rw [hnil] at hlength
  exact absurd hlength (by simp)

theorem Hashing.account (h : Hashing P accounts contracts hashed) {address : Bytes}
    {state : AccountState} (hstate : accounts[address]? = some state) :
    accountMessage address state ∈ hashed := by
  have hmem : (address, state) ∈ accounts.toList := ExtTreeMap.mem_toList_iff_getElem?_eq_some.mpr hstate
  apply h.state
  apply List.mem_append_left
  apply List.mem_append_left
  exact List.mem_append_right _ (List.mem_map.mpr ⟨_, hmem, rfl⟩)

/-- The messages of a contract's leaf and of its slots. -/
theorem Hashing.contract (h : Hashing P accounts contracts hashed) {address : Bytes}
    {contract : ContractState} (hcontract : contracts[address]? = some contract) :
    ∀ m ∈ contractLeaf P address contract ::
      contract.storage.toList.map (fun s => slotMessage s.1 s.2) ++ rootMessages P (slotHashes P contract),
      m ∈ hashed := by
  have hmem : (address, contract) ∈ contracts.toList :=
    ExtTreeMap.mem_toList_iff_getElem?_eq_some.mpr hcontract
  intro m hm
  apply h.state
  apply List.mem_append_left
  apply List.mem_append_right
  exact List.mem_flatMap.mpr ⟨_, hmem, hm⟩

theorem Hashing.root (h : Hashing P accounts contracts hashed) :
    ∀ m ∈ rootMessages P (StateRoot.stateLeafHashes P accounts contracts), m ∈ hashed :=
  fun m hm => h.state m (List.mem_append_right _ hm)

theorem prefixFree_accountMessage {address address' : Bytes} {state state' : AccountState}
    (ha : address.length < modulus) (ha' : address'.length < modulus) (hs : state.Fits)
    (hs' : state'.Fits) (heq : accountMessage address state = accountMessage address' state') :
    address = address' ∧ state = state' := by
  obtain ⟨haddress, hrest⟩ := prefixFree_bytes ha ha' _ _ heq
  exact ⟨haddress, Decode.decodes_accountState.prefixFree.injOn hs hs' hrest⟩

/-- What follows an address does not change the address. -/
theorem address_of_message {address address' rest rest' : Bytes} (ha : address.length < modulus)
    (ha' : address'.length < modulus) (heq : bytes address ++ rest = bytes address' ++ rest') :
    address = address' :=
  (prefixFree_bytes ha ha' _ _ heq).1

/-- A leaf that leads to the state root is that of an account or of a contract. -/
theorem leaf_of_verifyStateProof (h : Hashing P accounts contracts hashed) {leaf : Bytes} {index : Nat}
    {siblings : List Bytes} (hmessages : ∀ m ∈ proofMessages P leaf index siblings, m ∈ hashed)
    (hverify : verifyMerkleProof P leaf siblings index (StateRoot.computeFull P accounts contracts) =
      true) :
    (∃ address state, accounts[address]? = some state ∧
        leaf = P.sha3 (accountMessage address state)) ∨
      ∃ address contract, contracts[address]? = some contract ∧
        leaf = P.sha3 (contractLeaf P address contract) := by
  rw [StateRoot.computeFull, StateRoot.computeV5Merkle] at hverify
  split at hverify
  · -- the root of the empty state is the hash of a text
    have hseed : EMPTY_STATE_ROOT_SEED.head? = some 99 := by decide +kernel
    refine absurd (merkleClimb_of_verifyMerkleProof hverify)
      (merkleClimb_ne (by rw [hseed]; decide) (by rw [hseed]; decide) (h.collisionFree ?_))
    intro m hm
    rcases List.mem_cons.mp hm with rfl | hm
    · exact h.state _ (by simp [stateMessages])
    · exact hmessages m hm
  · have hno : CollisionFree P (rootMessages P (StateRoot.stateLeafHashes P accounts contracts) ++
        proofMessages P leaf index siblings) := by
      apply h.collisionFree
      intro m hm
      rcases List.mem_append.mp hm with hm | hm
      · exact h.root m hm
      · exact hmessages m hm
    obtain ⟨hmem, -⟩ := leaf_of_verifyMerkleProof h.length hno hverify
    rcases List.mem_append.mp hmem with hmem | hmem
    · obtain ⟨e, he, rfl⟩ := List.mem_map.mp hmem
      exact Or.inl ⟨e.1, e.2, ExtTreeMap.mem_toList_iff_getElem?_eq_some.mp he, rfl⟩
    · obtain ⟨e, he, rfl⟩ := List.mem_map.mp hmem
      refine Or.inr ⟨e.1, e.2, ExtTreeMap.mem_toList_iff_getElem?_eq_some.mp he, ?_⟩
      simp [StateRoot.contractLeafHash, contractLeaf, contractLeafMessage, leafCodeHash]

/-- A slot that leads to the storage root of a contract is one of its slots. -/
theorem slot_of_opens (h : Hashing P accounts contracts hashed) (hfits : StateFits accounts contracts)
    {address key value : Bytes} {contract : ContractState} (hcontract : contracts[address]? = some contract)
    (hopens : Opens P hashed (StateRoot.contractStorageRoot P contract) key value) :
    contract.storage[key]? = some value := by
  obtain ⟨hkey, hvalue, hslot, index, siblings, hverify, hmessages⟩ := hopens
  have hhashed := h.contract hcontract
  have hno : CollisionFree P (rootMessages P (slotHashes P contract) ++
      proofMessages P (storageLeafHash P key value) index siblings) := by
    apply h.collisionFree
    intro m hm
    rcases List.mem_append.mp hm with hm | hm
    · exact hhashed m (List.mem_append_right _ hm)
    · exact hmessages m hm
  obtain ⟨hmem, -⟩ := leaf_of_verifyMerkleProof h.length hno hverify
  obtain ⟨e, he, heq⟩ := List.mem_map.mp hmem
  have hentry : contract.storage[e.1]? = some e.2 := ExtTreeMap.mem_toList_iff_getElem?_eq_some.mp he
  have hslot' : slotMessage e.1 e.2 ∈ hashed :=
    hhashed _ (List.mem_append_left _ (List.mem_cons_of_mem _ (List.mem_map.mpr ⟨e, he, rfl⟩)))
  have hmessage : slotMessage e.1 e.2 = slotMessage key value := h.injOn hslot' hslot heq
  obtain ⟨hkey', hvalue'⟩ := hfits.slot _ _ hcontract _ _ hentry
  obtain ⟨hk, hrest⟩ := prefixFree_bytes hkey' hkey _ _ hmessage
  have hv := prefixFree_bytes.injOn hvalue' hvalue hrest
  rwa [hk, hv] at hentry

theorem length_merkleRoot (h32 : ∀ m, (P.sha3 m).length = 32) (hashes : List Bytes) :
    (merkleRoot P hashes).length = 32 := by
  cases hashes with
  | nil => exact h32 _
  | cons first rest =>
    obtain ⟨m, -, hm⟩ := merkleHash_root (P := P) (List.cons_ne_nil first rest)
    rw [hm, h32]

/-- A contract's leaf that is some contract's, is its own. -/
theorem contractLeafMessage_of_contractLeaf (h : Hashing P accounts contracts hashed)
    (hfits : StateFits accounts contracts) {address address' codeHash owner root : Bytes}
    {contract : ContractState} (hcontract : contracts[address]? = some contract)
    (haddress : address'.length < modulus) (hcode : codeHash.length < modulus)
    (howner : owner.length < modulus) (hroot : root.length < modulus)
    (heq : contractLeaf P address contract = contractLeafMessage address' codeHash owner root) :
    address = address' ∧ StateRoot.contractStorageRoot P contract = root := by
  obtain ⟨haddr, hown, hhash⟩ := hfits.contract _ _ hcontract
  have hshort : ADDRESS_LEN < modulus := by decide
  have hcode' : (leafCodeHash P contract).length < modulus := by
    unfold leafCodeHash
    split
    · rw [h.length]
      decide
    · rw [hhash]
      decide
  have hroot' : (StateRoot.contractStorageRoot P contract).length < modulus := by
    show (merkleRoot P (slotHashes P contract)).length < modulus
    rw [length_merkleRoot h.length]
    decide
  simp only [contractLeaf, contractLeafMessage, List.append_assoc] at heq
  obtain ⟨ha, heq⟩ := prefixFree_bytes (haddr.trans_lt hshort) haddress _ _ heq
  obtain ⟨-, heq⟩ := prefixFree_bytes hcode' hcode _ _ heq
  obtain ⟨-, heq⟩ := prefixFree_bytes (hown.trans_lt hshort) howner _ _ heq
  exact ⟨ha, prefixFree_bytes.injOn hroot' hroot heq⟩

/-- **Proofs are sound where each leaf has one reading.** -/
theorem sound_of_leavesApart (h : Hashing P accounts contracts hashed)
    (hfits : StateFits accounts contracts) (hapart : LeavesApart P accounts contracts hashed) :
    StateProofsSound P accounts contracts hashed := by
  have hshort : ADDRESS_LEN < modulus := by decide
  constructor
  · intro proof hproof hmessages hverify hroot
    obtain ⟨hleaf, hmerkle⟩ := Bool.and_eq_true_iff.mp hverify
    have hleaf : P.sha3 (accountMessage proof.address proof.state) = proof.leafHash :=
      of_decide_eq_true hleaf
    have hhashed : accountMessage proof.address proof.state ∈ hashed :=
      hmessages _ List.mem_cons_self
    rw [hroot] at hmerkle
    rcases leaf_of_verifyStateProof h (fun m hm => hmessages m (List.mem_cons_of_mem _ hm)) hmerkle with
      ⟨address, state, hstate, heq⟩ | ⟨address, contract, hcontract, heq⟩
    · have hmessage := h.injOn hhashed (h.account hstate) (hleaf.trans heq)
      obtain ⟨hlength, hstateFits⟩ := hfits.account _ _ hstate
      obtain ⟨ha, hs⟩ := prefixFree_accountMessage hproof.address (hlength.trans_lt hshort)
        hproof.state hstateFits hmessage
      rw [ha, hs]
      exact hstate
    · have hmessage := h.injOn hhashed (h.contract hcontract _ List.mem_cons_self) (hleaf.trans heq)
      have hlength := (hfits.contract _ _ hcontract).1
      have ha : proof.address = address := by
        simp only [accountMessage, contractLeaf, contractLeafMessage, List.append_assoc] at hmessage
        exact address_of_message hproof.address (hlength.trans_lt hshort) hmessage
      rw [ha] at hmessage ⊢
      exact hapart.contract _ _ hcontract _ hproof.state hmessage.symm
  · intro proof hproof hmessages hverify hroot
    rw [verifyStorageProof_eq] at hverify
    simp only [LightClient.verifyStorageProof] at hverify
    split at hverify
    · exact absurd hverify (by simp)
    next hslotLeaf =>
    have hslotLeaf : storageLeafHash P proof.key proof.value = proof.storageLeafHash :=
      not_not.mp hslotLeaf
    simp only [Bool.and_eq_true, decide_eq_true_eq] at hverify
    obtain ⟨⟨hslot, hleaf⟩, hmerkle⟩ := hverify
    have hhashed : contractLeafMessage proof.contractAddress proof.contractCodeHash proof.contractOwner
        proof.storageRoot ∈ hashed :=
      hmessages _ (List.mem_append_right _ List.mem_cons_self)
    have hopens : Opens P hashed proof.storageRoot proof.key proof.value := by
      refine ⟨hproof.key, hproof.value, hmessages _ (List.mem_append_left _ List.mem_cons_self),
        proof.storageLeafIndex, proof.storageProof, ?_, ?_⟩
      · rw [hslotLeaf]
        exact hslot
      · rw [hslotLeaf]
        exact fun m hm => hmessages m (List.mem_append_left _ (List.mem_cons_of_mem _ hm))
    rw [hroot] at hmerkle
    rcases leaf_of_verifyStateProof h
      (fun m hm => hmessages m (List.mem_append_right _ (List.mem_cons_of_mem _ hm))) hmerkle with
      ⟨address, state, hstate, heq⟩ | ⟨address, contract, hcontract, heq⟩
    · have hmessage := h.injOn hhashed (h.account hstate) (hleaf.trans heq)
      have hlength := (hfits.account _ _ hstate).1
      have ha : address = proof.contractAddress := by
        simp only [accountMessage, contractLeafMessage, List.append_assoc] at hmessage
        exact address_of_message (hlength.trans_lt hshort) hproof.contractAddress hmessage.symm
      rw [ha] at hmessage hstate
      exact hapart.account _ _ hstate _ _ _ _ _ hproof.contractCodeHash hproof.contractOwner
        hproof.storageRoot hopens hmessage.symm
    · have hmessage := h.injOn hhashed (h.contract hcontract _ List.mem_cons_self) (hleaf.trans heq)
      obtain ⟨ha, hstorage⟩ := contractLeafMessage_of_contractLeaf h hfits hcontract
        hproof.contractAddress hproof.contractCodeHash hproof.contractOwner hproof.storageRoot
        hmessage.symm
      rw [← hstorage] at hopens
      exact ⟨contract, ha ▸ hcontract, slot_of_opens h hfits hcontract hopens⟩

/-- The leaf of an account or a contract has a proof that hashes only what the state does. -/
theorem merkleProof_of_leaf (h : Hashing P accounts contracts hashed) {index : Nat} {leaf : Bytes}
    (hleaf : (StateRoot.stateLeafHashes P accounts contracts)[index]? = some leaf) :
    verifyMerkleProof P leaf (merkleProof P (StateRoot.stateLeafHashes P accounts contracts) index) index
        (StateRoot.computeFull P accounts contracts) = true ∧
      ∀ m ∈ proofMessages P leaf index
        (merkleProof P (StateRoot.stateLeafHashes P accounts contracts) index), m ∈ hashed := by
  rw [(merkleRooted_of_leaf hleaf).2]
  constructor
  · exact verifyMerkleProof_merkleProof h.sha3_ne_nil hleaf
  · exact fun m hm => h.root m (proofMessages_merkleProof hleaf hm)

/-- **A leaf with two readings has a proof of the other one.** -/
theorem leavesApart_of_sound (h : Hashing P accounts contracts hashed)
    (hfits : StateFits accounts contracts) (hsound : StateProofsSound P accounts contracts hashed) :
    LeavesApart P accounts contracts hashed := by
  have hshort : ADDRESS_LEN < modulus := by decide
  constructor
  · intro address contract hcontract state hstate heq
    have hmem : P.sha3 (contractLeaf P address contract) ∈
        StateRoot.stateLeafHashes P accounts contracts := by
      apply List.mem_append_right
      exact List.mem_map.mpr
        ⟨_, ExtTreeMap.mem_toList_iff_getElem?_eq_some.mpr hcontract, by
          simp [StateRoot.contractLeafHash, contractLeaf, contractLeafMessage, leafCodeHash]⟩
    obtain ⟨index, hleaf⟩ := List.mem_iff_getElem?.mp hmem
    obtain ⟨hverify, hmessages⟩ := merkleProof_of_leaf h hleaf
    let proof : AccountProof := {
      address, state
      leafIndex := index
      leafHash := P.sha3 (contractLeaf P address contract)
      proof := merkleProof P (StateRoot.stateLeafHashes P accounts contracts) index
      stateRoot := StateRoot.computeFull P accounts contracts }
    apply hsound.account proof
    · exact ⟨(hfits.contract _ _ hcontract).1.trans_lt hshort, hstate⟩
    · intro m hm
      rcases List.mem_cons.mp hm with rfl | hm
      · show accountMessage address state ∈ hashed
        rw [← heq]
        exact h.contract hcontract _ List.mem_cons_self
      · exact hmessages m hm
    · show (decide (P.sha3 (accountMessage address state) = P.sha3 (contractLeaf P address contract)) &&
        verifyMerkleProof P _ _ index _) = true
      rw [heq, hverify]
      simp
    · rfl
  · intro address state hstate codeHash owner root key value hcode howner hroot hopens heq
    have hmem : P.sha3 (accountMessage address state) ∈
        StateRoot.stateLeafHashes P accounts contracts := by
      apply List.mem_append_left
      exact List.mem_map.mpr ⟨_, ExtTreeMap.mem_toList_iff_getElem?_eq_some.mpr hstate, rfl⟩
    obtain ⟨index, hleaf⟩ := List.mem_iff_getElem?.mp hmem
    obtain ⟨hverify, hmessages⟩ := merkleProof_of_leaf h hleaf
    obtain ⟨hkey, hvalue, hslot, slotIndex, siblings, hslotVerify, hslotMessages⟩ := hopens
    let proof : StorageProof := {
      contractAddress := address
      contractCodeHash := codeHash
      contractOwner := owner
      key, value
      storageLeafIndex := slotIndex
      storageLeafHash := storageLeafHash P key value
      storageProof := siblings
      storageRoot := root
      contractLeafIndex := index
      contractLeafHash := P.sha3 (accountMessage address state)
      contractProof := merkleProof P (StateRoot.stateLeafHashes P accounts contracts) index
      stateRoot := StateRoot.computeFull P accounts contracts }
    apply hsound.storage proof
    · exact ⟨(hfits.account _ _ hstate).1.trans_lt hshort, hcode, howner, hkey, hvalue, hroot⟩
    · intro m hm
      rcases List.mem_append.mp hm with hm | hm
      · rcases List.mem_cons.mp hm with rfl | hm
        · exact hslot
        · exact hslotMessages m hm
      · rcases List.mem_cons.mp hm with rfl | hm
        · show contractLeafMessage address codeHash owner root ∈ hashed
          rw [← heq]
          exact h.account hstate
        · exact hmessages m hm
    · have hleafHash : P.sha3 (bytes address ++ bytes codeHash ++ bytes owner ++ bytes root) =
          P.sha3 (accountMessage address state) := by
        rw [heq, contractLeafMessage]
      simp only [verifyStorageProof, proof, hslotVerify, hverify, hleafHash]
      simp
    · rfl

/-- **State proofs are sound exactly on the states whose leaves have one reading.** -/
theorem state_proofs_sound_iff (P : Primitives) (accounts : ByteMap AccountState)
    (contracts : ByteMap ContractState) (hashed : Set Bytes)
    (h : Hashing P accounts contracts hashed) (hfits : StateFits accounts contracts) :
    StateProofsSound P accounts contracts hashed ↔ LeavesApart P accounts contracts hashed :=
  ⟨leavesApart_of_sound h hfits, sound_of_leavesApart h hfits⟩

end Soundness

/-! ## A state with an account that is not there, and one without -/

namespace StateSample

def address : Bytes := List.replicate 20 7

/-- Its owner begins with the tag and the length of a public key of 51 bytes. -/
def contract : ContractState where
  codeHash := List.replicate 32 0
  code := []
  storage := ∅
  owner := 1 :: u64 51 ++ List.replicate 11 0

def ambiguousContracts : ByteMap ContractState := (∅ : ByteMap ContractState).insert address contract

/-- The contract's leaf, read as an account: the length of the code hash is its balance. -/
def forgedState : AccountState where
  balance := 32
  jailedUntilHeight := 20
  publicKey := some (List.replicate 11 0 ++
    bytes (StateRoot.contractStorageRoot Reference.primitives contract))

def forgedProof : AccountProof where
  address := address
  state := forgedState
  leafIndex := 0
  leafHash := StateRoot.contractLeafHash Reference.primitives address contract
  proof := []
  stateRoot := StateRoot.computeFull Reference.primitives ∅ ambiguousContracts

def plainAccounts : ByteMap AccountState := (∅ : ByteMap AccountState).insert address {}

theorem hashing {accounts : ByteMap AccountState} {contracts : ByteMap ContractState}
    (hnodup : ((stateMessages Reference.primitives accounts contracts).map
      Reference.primitives.sha3).Nodup) :
    Hashing Reference.primitives accounts contracts
      {m | m ∈ stateMessages Reference.primitives accounts contracts} where
  length := Reference.length_sha3
  injOn := collisionFree_of_nodup hnodup
  state := fun _ hm => hm

theorem eq_of_getElem?_insert {β : Type} {v w : β} {a : Bytes}
    (h : ((∅ : ByteMap β).insert address v)[a]? = some w) : a = address ∧ w = v := by
  rw [KeyMap.getElem?_insert_eq] at h
  split at h
  · next ha =>
    cases h
    exact ⟨ha.symm, rfl⟩
  · exact absurd h (by simp)

theorem fits_ambiguousContracts : StateFits ∅ ambiguousContracts where
  account := fun address state h => absurd h (by simp)
  contract := by
    intro a c hc
    obtain ⟨rfl, rfl⟩ := eq_of_getElem?_insert hc
    decide
  slot := by
    intro a c hc key value hvalue
    obtain ⟨rfl, rfl⟩ := eq_of_getElem?_insert hc
    exact absurd hvalue (by simp [contract])

theorem fits_plainAccounts : StateFits plainAccounts ∅ where
  account := by
    intro a state hstate
    obtain ⟨rfl, rfl⟩ := eq_of_getElem?_insert hstate
    exact ⟨by decide, by decide, by decide, by decide, ⟨by decide, by simp⟩, by decide, by decide,
      by simp⟩
  contract := fun address contract h => absurd h (by simp)
  slot := fun address contract h => absurd h (by simp)

/-- An account with nothing reads as no contract: the lengths it would give are all zero. -/
theorem leavesApart_plainAccounts (hashed : Set Bytes) :
    LeavesApart Reference.primitives plainAccounts ∅ hashed where
  contract := fun address contract h => absurd h (by simp)
  account := by
    intro a state hstate codeHash owner root key value hcode howner hroot hopens heq
    obtain ⟨rfl, rfl⟩ := eq_of_getElem?_insert hstate
    have hzero : 0 < modulus := by decide
    simp only [accountMessage, accountState, contractLeafMessage, List.append_assoc] at heq
    have heq := List.append_cancel_left heq
    simp only [bytes, List.append_assoc] at heq
    obtain ⟨hlength, heq⟩ := prefixFree_u64 hzero hcode _ _ heq
    rw [List.length_eq_zero_iff.mp hlength.symm, List.nil_append] at heq
    obtain ⟨hlength, heq⟩ := prefixFree_u64 hzero howner _ _ heq
    rw [List.length_eq_zero_iff.mp hlength.symm, List.nil_append] at heq
    obtain ⟨hlength, heq⟩ := prefixFree_u64 hzero hroot _ _ heq
    rw [List.length_eq_zero_iff.mp hlength.symm] at heq
    exact absurd heq (by decide)

end StateSample

open StateSample in
/-- A contract proves that there is an account at its address, with the length of its code hash as
balance. -/
theorem state_proofs_unsound :
    StateFits ∅ ambiguousContracts ∧
      Hashing Reference.primitives ∅ ambiguousContracts
        {m | m ∈ stateMessages Reference.primitives ∅ ambiguousContracts} ∧
      verifyAccountProof Reference.primitives forgedProof = true ∧
      forgedProof.stateRoot = StateRoot.computeFull Reference.primitives ∅ ambiguousContracts ∧
      ¬ StateProofsSound Reference.primitives ∅ ambiguousContracts
        {m | m ∈ stateMessages Reference.primitives ∅ ambiguousContracts} := by
  have hverify : verifyAccountProof Reference.primitives forgedProof = true := by decide +kernel
  refine ⟨fits_ambiguousContracts, hashing (by decide +kernel), hverify, rfl, ?_⟩
  intro hsound
  have hmessages : ∀ m ∈ forgedProof.messages Reference.primitives,
      m ∈ stateMessages Reference.primitives ∅ ambiguousContracts := by
    decide +kernel
  have hfits : forgedProof.Fits := by
    refine ⟨by decide, by decide, by decide, by decide, ⟨by decide, ?_⟩, by decide, by decide, ?_⟩
    · intro p hp
      exact absurd hp (by simp [forgedProof, forgedState])
    · intro k hk
      cases hk
      decide +kernel
  have hheld := hsound.account forgedProof hfits hmessages hverify rfl
  exact absurd hheld (by simp)

open StateSample in
theorem state_proofs_sound_iff_sample :
    StateProofsSound Reference.primitives plainAccounts ∅
      {m | m ∈ stateMessages Reference.primitives plainAccounts ∅} :=
  (state_proofs_sound_iff Reference.primitives plainAccounts ∅ _ (hashing (by decide +kernel))
    fits_plainAccounts).mpr (leavesApart_plainAccounts _)

end Curs3d
