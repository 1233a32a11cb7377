import Curs3d.Light.Client
import Curs3d.Proof.Convergence
import Curs3d.Proof.RoundTrip
import Curs3d.Proof.Unanimity

/-!
# State proofs against headers

A proof that a chain gives out is checked against the Merkle root of all accounts and contracts, and
always leads to it (`verify_generateAccountProof`, `verify_generateStorageProof`). Headers name that
root only up to protocol version 5: from version 6 on they name the root of a sparse trie over the
same leaves, and the two are hashes of different messages (`computeV6Smt_ne`). A light client that
follows the headers of a chain, which it always can (`Served`), finds its state roots in the proofs
exactly as long as the version is below 6 (`state_proofs_match_iff`).
-/

set_option autoImplicit false

namespace Curs3d

open Std Outcome Bincode

variable {P : Primitives}

/-! ## Proofs -/

section Proofs

variable {accounts : ByteMap AccountState} {contracts : ByteMap ContractState}
  {address contractAddress key : Bytes}

theorem entryPosition_eq_some {β : Type} {entries : ByteMap β} {i : Nat} {v : β}
    (h : entryPosition entries key = some i) (hv : entries[key]? = some v) :
    entries.toList[i]? = some (key, v) := by
  obtain ⟨hlt, hkey, -⟩ := List.findIdx?_eq_some_iff_getElem.mp h
  have hkey : entries.toList[i].1 = key := by simpa using hkey
  have hmem : entries[entries.toList[i].1]? = some entries.toList[i].2 :=
    ExtTreeMap.mem_toList_iff_getElem?_eq_some.mp (List.getElem_mem hlt)
  rw [hkey, hv] at hmem
  rw [List.getElem?_eq_getElem hlt]
  exact congrArg some (Prod.ext hkey (Option.some.inj hmem).symm)

/-- The state has leaves, and the root of version 5 is the Merkle root over them. -/
def MerkleRooted (P : Primitives) (accounts : ByteMap AccountState)
    (contracts : ByteMap ContractState) : Prop :=
  StateRoot.stateLeafHashes P accounts contracts ≠ [] ∧
    StateRoot.computeFull P accounts contracts =
      merkleRoot P (StateRoot.stateLeafHashes P accounts contracts)

theorem merkleRooted_of_leaf {i : Nat} {leaf : Bytes}
    (h : (StateRoot.stateLeafHashes P accounts contracts)[i]? = some leaf) :
    MerkleRooted P accounts contracts := by
  constructor
  · intro hnil
    rw [hnil] at h
    exact absurd h (by simp)
  simp only [StateRoot.computeFull, StateRoot.computeV5Merkle]
  split
  · next hempty =>
    -- No account and no contract means no leaf.
    obtain ⟨haccounts, hcontracts⟩ := hempty
    rw [ExtTreeMap.isEmpty_iff] at haccounts hcontracts
    subst haccounts hcontracts
    exact absurd h (by simp [StateRoot.stateLeafHashes, ExtTreeMap.toList_eq_nil_iff.mpr])
  · rfl

/-- **An account proof leads to the Merkle root of the state.** -/
theorem verify_generateAccountProof (hsha : ∀ data, P.sha3 data ≠ []) {proof : AccountProof}
    (h : generateAccountProof P accounts contracts address = some proof) :
    LightClient.verifyAccountProof P proof = true ∧
      proof.stateRoot = StateRoot.computeFull P accounts contracts ∧
      MerkleRooted P accounts contracts := by
  simp only [generateAccountProof, Option.bind_eq_bind, Option.bind_eq_some_iff, pure,
    Option.some.injEq] at h
  obtain ⟨state, hstate, i, hi, rfl⟩ := h
  have hentry := entryPosition_eq_some hi hstate
  have hleaf : (StateRoot.stateLeafHashes P accounts contracts)[i]? =
      some (StateRoot.accountLeafHash P address state) := by
    have hlt := (List.getElem?_eq_some_iff.mp hentry).1
    rw [StateRoot.stateLeafHashes, List.getElem?_append_left (by simpa using hlt), List.getElem?_map,
      hentry]
    rfl
  have hroot := merkleRooted_of_leaf hleaf
  refine ⟨?_, rfl, hroot⟩
  simp only [LightClient.verifyAccountProof, hroot.2, verifyMerkleProof_merkleProof hsha hleaf]
  simp

/-- **A storage proof leads to the Merkle root of the state**, through the contract's leaf. -/
theorem verify_generateStorageProof (hsha : ∀ data, P.sha3 data ≠ []) {proof : StorageProof}
    (h : generateStorageProof P accounts contracts contractAddress key = some proof) :
    LightClient.verifyStorageProof P proof = true ∧
      proof.stateRoot = StateRoot.computeFull P accounts contracts ∧
      MerkleRooted P accounts contracts := by
  simp only [generateStorageProof, Option.bind_eq_bind, Option.bind_eq_some_iff, pure,
    Option.some.injEq] at h
  obtain ⟨contract, hcontract, value, hvalue, i, hi, j, hj, rfl⟩ := h
  have hslot := entryPosition_eq_some hj hvalue
  have hentry := entryPosition_eq_some hi hcontract
  have hstorageLeaf : (contract.storage.toList.map fun e => storageLeafHash P e.1 e.2)[j]? =
      some (storageLeafHash P key value) := by
    rw [List.getElem?_map, hslot]
    rfl
  have hleaf : (StateRoot.stateLeafHashes P accounts contracts)[accounts.toList.length + i]? =
      some (StateRoot.contractLeafHash P contractAddress contract) := by
    rw [StateRoot.stateLeafHashes, List.getElem?_append_right (by simp), List.getElem?_map]
    simp [hentry]
  have hroot := merkleRooted_of_leaf hleaf
  refine ⟨?_, rfl, hroot⟩
  have hslotHash : (contract.storage.toList.map fun e => storageLeafHash P e.1 e.2).getD j [] =
      storageLeafHash P key value := by
    rw [List.getD_eq_getElem?_getD, hstorageLeaf]
    rfl
  have hcontractLeaf : P.sha3 (bytes contractAddress ++
      bytes (if contract.codeHash.isEmpty then P.sha3 contract.code else contract.codeHash) ++
      bytes contract.owner ++
      bytes (merkleRoot P (contract.storage.toList.map fun e => storageLeafHash P e.1 e.2))) =
        StateRoot.contractLeafHash P contractAddress contract := rfl
  simp only [LightClient.verifyStorageProof, hroot.2, hslotHash, hcontractLeaf,
    verifyMerkleProof_merkleProof hsha hleaf, verifyMerkleProof_merkleProof hsha hstorageLeaf]
  simp

end Proofs

/-! ## The two roots -/

/-- A hash of a message that begins with the tag of a leaf or a node of the Merkle tree. -/
def MerkleHash (P : Primitives) (x : Bytes) : Prop :=
  ∃ m : Bytes, (m.head? = some 0x00 ∨ m.head? = some 0x01) ∧ x = P.sha3 m

theorem merkleHash_node (a b : Bytes) : MerkleHash P (merkleHashNode P a b) :=
  ⟨_, Or.inr rfl, rfl⟩

theorem merkleHash_level (l : List Bytes) : ∀ x ∈ merkleLevel P l, MerkleHash P x := by
  induction l using merkleLevel.induct with
  | case1 => simp [merkleLevel]
  | case2 a => simp [merkleLevel, merkleHash_node]
  | case3 a b rest ih =>
    simp only [merkleLevel, List.forall_mem_cons]
    exact ⟨merkleHash_node a b, ih⟩

theorem merkleHash_fold {fuel : Nat} {l : List Bytes} (hne : l ≠ [])
    (h : ∀ x ∈ l, MerkleHash P x) : MerkleHash P (merkleFold P fuel l) := by
  induction fuel generalizing l with
  | zero =>
    match l, hne with
    | [a], _ => exact h a (by simp)
    | a :: b :: rest, _ => exact h a (by simp)
  | succ fuel ih =>
    match l, hne with
    | [a], _ => exact h a (by simp)
    | a :: b :: rest, _ => exact ih (by simp [merkleLevel]) (merkleHash_level _)

theorem merkleHash_root {hashes : List Bytes} (hne : hashes ≠ []) :
    MerkleHash P (merkleRoot P hashes) := by
  rw [merkleRoot, if_neg (by simpa using hne)]
  apply merkleHash_fold (by simpa using hne)
  intro x hx
  obtain ⟨leaf, -, rfl⟩ := List.mem_map.mp hx
  exact ⟨_, Or.inl rfl, rfl⟩

namespace SparseMerkleTrie

/-- A trie's root is the hash of a message with a tag of its own: a text, or the length of one. -/
theorem root_message (leaves : ByteMap Bytes) :
    ∃ m : Bytes, (m.head? = some 99 ∨ m.head? = some 15) ∧ root P leaves = P.sha3 m := by
  have hempty : ∃ m : Bytes, (m.head? = some 99 ∨ m.head? = some 15) ∧ emptyHash P = P.sha3 m :=
    ⟨ascii "curs3d-smt-empty", Or.inl (by decide +kernel), rfl⟩
  simp only [root]
  split
  · exact hempty
  · have hrange : (List.range TRIE_DEPTH).reverse = (List.range' 1 255).reverse ++ [0] := by
      decide +kernel
    rw [hrange, List.foldl_append]
    simp only [List.foldl_cons, List.foldl_nil]
    generalize hnodes : (List.range' 1 255).reverse.foldl (parentLevel P) _ = nodes
    cases htop : (parentLevel P nodes 0).toList.head? with
    | none => exact hempty
    | some e =>
      -- The topmost level has parents only.
      have hmem : (parentLevel P nodes 0)[e.1]? = some e.2 :=
        ExtTreeMap.mem_toList_iff_getElem?_eq_some.mp (List.mem_of_mem_head? htop)
      simp only [parentLevel, ExtTreeMap.getElem?_map, Option.map_eq_some_iff] at hmem
      obtain ⟨children, -, hnode⟩ := hmem
      refine ⟨_, Or.inr ?_, hnode.symm⟩
      have hlength : u32 (ascii "curs3d-smt-node").length = [15, 0, 0, 0] := by decide +kernel
      rw [hlength]
      rfl

end SparseMerkleTrie

/-- Messages that begin with different bytes have different hashes. -/
def SeparatesTags (P : Primitives) : Prop :=
  ∀ m m' : Bytes, P.sha3 m = P.sha3 m' → m.head? = m'.head?

/-- **The trie's root is never the Merkle root**, if hashes keep their tags apart. -/
theorem computeV6Smt_ne (htags : SeparatesTags P) {accounts : ByteMap AccountState}
    {contracts : ByteMap ContractState} (h : MerkleRooted P accounts contracts) :
    StateRoot.computeV6Smt P accounts contracts ≠ StateRoot.computeFull P accounts contracts := by
  intro heq
  rw [h.2] at heq
  obtain ⟨m, hm, hmerkle⟩ := merkleHash_root h.1
  simp only [StateRoot.computeV6Smt] at heq
  obtain ⟨m', hm', htrie⟩ := @SparseMerkleTrie.root_message P (contracts.toList.foldl
    (fun trie (e : Bytes × ContractState) => SparseMerkleTrie.insert trie
      (P.sha3 (0x01 :: e.1)) (StateRoot.contractLeafHash P e.1 e.2))
    (accounts.toList.foldl
      (fun trie (e : Bytes × AccountState) => SparseMerkleTrie.insert trie
        (P.sha3 (0x00 :: e.1)) (StateRoot.accountLeafHash P e.1 e.2)) ∅))
  rw [htrie, hmerkle] at heq
  have hsame := htags _ _ heq
  rcases hm with hm | hm <;> rcases hm' with hm' | hm' <;> rw [hm, hm'] at hsame <;>
    exact absurd hsame (by decide)

/-! ## Following a chain -/

namespace LightClient

variable {lc : LightClient} {h : SignedHeader} {headers rest : List SignedHeader}

theorem syncLoop_append : lc.syncLoop P (headers ++ rest) =
    match lc.syncLoop P headers with
    | (.ok (), lc') => lc'.syncLoop P rest
    | (.error e, lc') => (.error e, lc') := by
  induction headers generalizing lc with
  | nil => rfl
  | cons h headers ih =>
    simp only [List.cons_append, syncLoop]
    cases lc.verifyHeader P h with
    | error e => rfl
    | ok u => exact ih

theorem syncLoop_concat {lc' : LightClient} (hsync : lc.syncLoop P headers = (.ok (), lc'))
    (hnext : lc'.verifyHeader P h = .ok ()) :
    lc.syncLoop P (headers ++ [h]) = (.ok (), lc'.push h) := by
  rw [syncLoop_append, hsync]
  simp only [syncLoop, hnext]

/-- What the checks of a header come to, above the genesis. -/
theorem verifyHeader_eq_ok (hheight : h.header.height ≠ 0) : lc.verifyHeader P h = .ok () ↔
    h.chainId = lc.chainId ∧ h.header.height = lc.expectedHeight ∧
      Block.computeHash P h.header = h.blockHash ∧
      ∃ prev signature, lc.headers.getLast? = some prev ∧ h.header.prevHash = prev.blockHash ∧
        h.signature = some signature ∧
        verifyBlockSignature P h.header h.blockHash signature = true := by
  simp only [verifyHeader, verifyChild, hheight, if_false, ne_eq]
  constructor
  · intro hok
    split at hok
    · exact absurd hok (by simp)
    next hchain =>
    split at hok
    · exact absurd hok (by simp)
    next hexpected =>
    split at hok
    · exact absurd hok (by simp)
    next hhash =>
    split at hok
    · exact absurd hok (by simp)
    next prev hprev =>
    split at hok
    · exact absurd hok (by simp)
    next hlink =>
    split at hok
    · exact absurd hok (by simp)
    next signature hsignature =>
    split at hok
    · next hverify =>
      exact ⟨not_not.mp hchain, not_not.mp hexpected, not_not.mp hhash, prev, signature, hprev,
        not_not.mp hlink, hsignature, hverify⟩
    · exact absurd hok (by simp)
  · rintro ⟨hchain, hexpected, hhash, prev, signature, hprev, hlink, hsignature, hverify⟩
    simp [hchain, hexpected, hhash, hprev, hlink, hsignature, hverify]

end LightClient

namespace Blockchain

open LightClient

variable {c : Blockchain} {g : GenesisConfig} {now : Int} {block : Block}

/-- The light client of this chain, before it has any header. -/
def lightClient (c : Blockchain) : LightClient :=
  LightClient.new c.genesisConfig.chainId c.genesis.hash

/-- A light client of the chain takes all its headers. -/
structure Served (P : Primitives) (c : Blockchain) : Prop where
  straight : c.Straight
  synced : c.lightClient.syncLoop P c.signedHeaders =
    (.ok (), { c.lightClient with
      headers := c.signedHeaders })

theorem Straight.signedHeaders (h : c.Straight) :
    c.signedHeaders = c.blocks.map (SignedHeader.ofBlock c.genesisConfig.chainId) := by
  rw [Blockchain.signedHeaders, h.iterBlocks]

theorem served_genesis (h : fromGenesis P g = .ok c) : c.Served P := by
  obtain ⟨hblocks, hconfig⟩ := blocks_of_genesis h
  have hgenesis : ∃ accounts, c.genesis = genesisBlock P g accounts ∧ c.baseHeight = 0 := by
    simp only [fromGenesis, except_bind_eq_ok] at h
    obtain ⟨accounts, -, hc⟩ := h
    cases hc
    exact ⟨accounts, rfl, rfl⟩
  obtain ⟨accounts, hgenesis, hbase⟩ := hgenesis
  have hstraight : c.Straight := by
    refine ⟨hbase.trans_le (Nat.zero_le 1), by rw [hblocks]; rfl, ?_⟩
    intro k b hb
    rw [hblocks, List.getElem?_singleton] at hb
    split at hb
    · next hk =>
      cases hb
      rw [hk, hgenesis]
      rfl
    · exact absurd hb (by simp)
  refine ⟨hstraight, ?_⟩
  rw [hstraight.signedHeaders, hblocks]
  have hverify : c.lightClient.verifyHeader P (SignedHeader.ofBlock c.genesisConfig.chainId c.genesis) =
      .ok () := by
    have hheight : c.genesis.header.height = 0 := by rw [hgenesis]; rfl
    have hhash : Block.computeHash P c.genesis.header = c.genesis.hash := by rw [hgenesis]; rfl
    have hsignature : c.genesis.signature = none := by rw [hgenesis]; rfl
    simp [verifyHeader, SignedHeader.ofBlock, lightClient, LightClient.new, expectedHeight, hheight,
      hhash, hsignature]
  exact @syncLoop_concat P c.lightClient _ [] c.lightClient rfl hverify

theorem signature_of_validate {parent : Block} {s s' : ExecState}
    (h : c.validateBlockAgainstState P now block parent s = .ok s') :
    block.verifySignature P = true := by
  obtain ⟨hheader, -⟩ := validate_eq_ok.mp h
  simp only [checkHeader, except_bind_eq_ok, ensure_eq_ok, decide_eq_true_eq] at hheader
  obtain ⟨-, -, -, -, -, -, -, -, -, hsignature, -⟩ := hheader
  exact hsignature

/-- An accepted block's header is the next one for a client that follows the chain. -/
theorem verifyHeader_of_accepted (h : c.Straight) (hok : (c.addBlock P now block).1 = .ok ()) :
    { c.lightClient with
      headers := c.signedHeaders }.verifyHeader P
        (SignedHeader.ofBlock c.genesisConfig.chainId block) = .ok () := by
  obtain ⟨hfollows, -⟩ := addBlock_ok_spine hok
  obtain ⟨s, ha⟩ := accepted_of_addBlock hok
  have hsignature := signature_of_validate ha.valid
  have hheight : block.header.height ≠ 0 := by
    rw [hfollows.height]
    exact Nat.succ_ne_zero _
  have hlast : c.signedHeaders.getLast? =
      some (SignedHeader.ofBlock c.genesisConfig.chainId c.latestBlock) := by
    have hlatest := h.latestBlock
    have hlen : c.height = c.blocks.length - 1 := rfl
    rw [hlen, ← List.getLast?_eq_getElem?] at hlatest
    rw [h.signedHeaders, List.getLast?_map, hlatest]
    rfl
  rw [verifyHeader_eq_ok hheight]
  simp only [Block.verifySignature, if_neg hheight] at hsignature
  split at hsignature
  · next signature hsome =>
    refine ⟨rfl, ?_, ?_, _, signature, hlast, hfollows.prevHash, hsome, hsignature⟩
    · show block.header.height = _
      simp only [expectedHeight, hlast, hfollows.height]
      rfl
    · exact (of_decide_eq_true hfollows.verifyHash).symm
  · exact absurd hsignature (by simp)

theorem Served.addBlock (h : c.Served P) (now : Int) (block : Block) :
    (c.addBlock P now block).2.Served P := by
  cases hres : (c.addBlock P now block).1 with
  | error e =>
    have hspine := addBlock_error_spine hres
    have hconfig : (c.addBlock P now block).2.genesisConfig = c.genesisConfig :=
      addBlock_genesisConfig
    have hblocks : (c.addBlock P now block).2.blocks = c.blocks := congrArg Spine.blocks hspine
    have hgenesis : (c.addBlock P now block).2.genesis = c.genesis := congrArg Spine.genesis hspine
    have hst := h.straight.of_spine hspine
    have hclient : (c.addBlock P now block).2.lightClient = c.lightClient := by
      simp only [lightClient, hconfig, hgenesis]
    have hheaders : (c.addBlock P now block).2.signedHeaders = c.signedHeaders := by
      rw [hst.signedHeaders, h.straight.signedHeaders, hconfig, hblocks]
    refine ⟨hst, ?_⟩
    rw [hclient, hheaders]
    exact h.synced
  | ok u =>
    obtain ⟨hst, hblocks, hgenesis, -, -⟩ := h.straight.addBlock hres
    obtain ⟨s, ha⟩ := accepted_of_addBlock hres
    have hclient : (c.addBlock P now block).2.lightClient = c.lightClient := by
      simp only [lightClient, ha.config, hgenesis]
    have hheaders : (c.addBlock P now block).2.signedHeaders =
        c.signedHeaders ++ [SignedHeader.ofBlock c.genesisConfig.chainId block] := by
      rw [hst.signedHeaders, h.straight.signedHeaders, ha.config, hblocks, List.map_append]
      rfl
    refine ⟨hst, ?_⟩
    rw [hclient, hheaders]
    exact syncLoop_concat h.synced (verifyHeader_of_accepted h.straight hres)

theorem Served.offer {calls : List (Int × Block)} (h : c.Served P) :
    (Blockchain.offer P c calls).Served P := by
  induction calls generalizing c with
  | nil => exact h
  | cons call rest ih => exact ih (h.addBlock call.1 call.2)

/-! ## Proofs against headers -/

theorem version_of_validate {parent : Block} {s s' : ExecState}
    (h : c.validateBlockAgainstState P now block parent s = .ok s') :
    block.header.version = c.protocolVersionAtHeight block.header.height := by
  obtain ⟨hheader, -⟩ := validate_eq_ok.mp h
  simp only [checkHeader, except_bind_eq_ok, ensure_eq_ok, decide_eq_true_eq] at hheader
  obtain ⟨-, -, -, -, -, -, -, -, -, -, -, -, -, hversion, -⟩ := hheader
  exact hversion

/-- The header of an accepted block names the root of the state the block leaves. -/
theorem stateRoot_of_addBlock (hok : (c.addBlock P now block).1 = .ok ()) :
    block.header.stateRoot = StateRoot.computeAtProtocol P (c.addBlock P now block).2.accounts
      (c.addBlock P now block).2.contracts (c.protocolVersionAtHeight block.header.height) := by
  obtain ⟨s, ha⟩ := accepted_of_addBlock hok
  have hroot := hasRoot_of_validate ha.valid
  have hversion := version_of_validate ha.valid
  rw [protocolVersionAtHeight_congr (prepareEpoch_genesisConfig _)] at hversion
  have haccounts : (c.addBlock P now block).2.accounts = s.accounts :=
    congrArg ExecState.accounts ha.execState
  have hcontracts : (c.addBlock P now block).2.contracts = s.contracts :=
    congrArg ExecState.contracts ha.execState
  rw [haccounts, hcontracts, ← hversion]
  exact hroot.symm

/-- A light client that took all headers has, at the height of the last block, that block's root. -/
theorem Served.stateRootAt (h : c.Served P) (hok : (c.addBlock P now block).1 = .ok ()) :
    let c' := (c.addBlock P now block).2
    (∃ n, (c'.lightClient.syncHeaders P c'.signedHeaders).1 = .ok n) ∧
      (c'.lightClient.syncHeaders P c'.signedHeaders).2.stateRootAt block.header.height =
        some block.header.stateRoot := by
  obtain ⟨hst, hblocks, -, -, hheight⟩ := h.straight.addBlock hok
  have hsynced := (h.addBlock now block).synced
  have hheaders := hst.signedHeaders
  have hne : ((c.addBlock P now block).2.signedHeaders).isEmpty = false := by
    rw [hheaders, hblocks]
    simp
  have hlen : c.blocks.length = block.header.height := by
    have hpos := h.straight.length_pos
    rw [hheight]
    exact (Nat.sub_add_cancel hpos).symm
  simp only [LightClient.syncHeaders, hne, hsynced]
  refine ⟨⟨_, rfl⟩, ?_⟩
  simp only [LightClient.stateRootAt, hheaders, hblocks]
  rw [← hlen]
  simp [SignedHeader.ofBlock]

/-- The proof verifies, and against the state root the client has at this height. -/
def AccountProofMatches (P : Primitives) (client : LightClient) (height : Nat) (proof : AccountProof) :
    Prop :=
  LightClient.verifyAccountProof P proof = true ∧ client.stateRootAt height = some proof.stateRoot

def StorageProofMatches (P : Primitives) (client : LightClient) (height : Nat) (proof : StorageProof) :
    Prop :=
  LightClient.verifyStorageProof P proof = true ∧ client.stateRootAt height = some proof.stateRoot

/-- The root of the headers is the root of the proofs below version 6, and only there. -/
theorem computeAtProtocol_eq_iff {accounts : ByteMap AccountState} {contracts : ByteMap ContractState}
    {version : Nat} (h : MerkleRooted P accounts contracts) :
    (version < V6_PROTOCOL_VERSION → StateRoot.computeAtProtocol P accounts contracts version =
      StateRoot.computeFull P accounts contracts) ∧
    (SeparatesTags P → StateRoot.computeAtProtocol P accounts contracts version =
      StateRoot.computeFull P accounts contracts → version < V6_PROTOCOL_VERSION) := by
  constructor
  · intro hlt
    rw [StateRoot.computeAtProtocol, if_neg (Nat.not_le.mpr hlt)]
    rfl
  · intro htags heq
    by_contra hge
    rw [StateRoot.computeAtProtocol, if_pos (Nat.not_lt.mp hge)] at heq
    exact computeV6Smt_ne htags h heq

/-- **For every genesis and every chain that `add_block` calls make of it: right after a block is
added, a light client can take all headers, and each proof the chain gives out verifies under the
root the client has at that height exactly when the protocol version there is below 6** (the other
direction, if hashes keep tags apart). -/
theorem state_proofs_match_iff (P : Primitives) (hsha : ∀ data, P.sha3 data ≠ []) (g : GenesisConfig)
    (c₀ : Blockchain) (hg : fromGenesis P g = .ok c₀) (calls : List (Int × Block)) (now : Int)
    (block : Block) (hok : ((offer P c₀ calls).addBlock P now block).1 = .ok ()) :
    let c := ((offer P c₀ calls).addBlock P now block).2
    let client := (c.lightClient.syncHeaders P c.signedHeaders).2
    let height := block.header.height
    (∃ n, (c.lightClient.syncHeaders P c.signedHeaders).1 = .ok n) ∧
    (∀ address proof, c.getAccountProof P address = some proof →
      (c₀.protocolVersionAtHeight height < 6 → AccountProofMatches P client height proof) ∧
      (SeparatesTags P → AccountProofMatches P client height proof →
        c₀.protocolVersionAtHeight height < 6)) ∧
    ∀ contractAddress key proof, c.getStorageProof P contractAddress key = some proof →
      (c₀.protocolVersionAtHeight height < 6 → StorageProofMatches P client height proof) ∧
      (SeparatesTags P → StorageProofMatches P client height proof →
        c₀.protocolVersionAtHeight height < 6) := by
  have hserved : (offer P c₀ calls).Served P := (served_genesis hg).offer
  obtain ⟨hsync, hclient⟩ := hserved.stateRootAt hok
  have hversion : (offer P c₀ calls).protocolVersionAtHeight block.header.height =
      c₀.protocolVersionAtHeight block.header.height :=
    protocolVersionAtHeight_congr offer_genesisConfig _
  have hroot := stateRoot_of_addBlock hok
  rw [hversion] at hroot
  refine ⟨hsync, ?_, ?_⟩
  · intro address proof hproof
    obtain ⟨hverify, hfull, hrooted⟩ := verify_generateAccountProof hsha hproof
    obtain ⟨hbelow, honly⟩ := @computeAtProtocol_eq_iff P _ _
      (c₀.protocolVersionAtHeight block.header.height) hrooted
    rw [← hroot, ← hfull] at hbelow honly
    refine ⟨fun hlt => ⟨hverify, by rw [hclient, hbelow hlt]⟩, ?_⟩
    rintro htags ⟨-, hat⟩
    rw [hclient] at hat
    exact honly htags (Option.some.inj hat)
  · intro contractAddress key proof hproof
    obtain ⟨hverify, hfull, hrooted⟩ := verify_generateStorageProof hsha hproof
    obtain ⟨hbelow, honly⟩ := @computeAtProtocol_eq_iff P _ _
      (c₀.protocolVersionAtHeight block.header.height) hrooted
    rw [← hroot, ← hfull] at hbelow honly
    refine ⟨fun hlt => ⟨hverify, by rw [hclient, hbelow hlt]⟩, ?_⟩
    rintro htags ⟨-, hat⟩
    rw [hclient] at hat
    exact honly htags (Option.some.inj hat)

end Blockchain

/-! ## A chain that upgrades to version 6 -/

namespace StateProofSample

open Scenario Blockchain

/-- One validator, and an upgrade to `version` at height 1. -/
def genesis (version : Nat) : GenesisConfig where
  chainId := [1]
  minimumStake := 1
  allocations := [allocation 1 0 1]
  upgrades := [{ height := 1, version }]

/-- The genesis chain, and the block that the validator adds to it. -/
def grown (version : Nat) : Option (Blockchain × Block) :=
  (fromGenesis Reference.primitives (genesis version)).toOption.bind fun c =>
    (extend c (clock 1) 1).map fun e => (c, e.1)

def address : Bytes := addressBytesFromPublicKey Reference.primitives (key 1).publicKey

/-- The proof of the validator's account after the block, and the client's root at its height. -/
def proofAndRoot (c : Blockchain) (block : Block) : Option (AccountProof × Option Bytes) :=
  let c' := (c.addBlock Reference.primitives (clock 1) block).2
  (c'.getAccountProof Reference.primitives address).map fun proof =>
    (proof, (c'.lightClient.syncHeaders Reference.primitives c'.signedHeaders).2.stateRootAt
      block.header.height)

theorem grown_eq_some {version : Nat} {c : Blockchain} {block : Block}
    (h : grown version = some (c, block)) :
    fromGenesis Reference.primitives (genesis version) = .ok c ∧
      (c.addBlock Reference.primitives (clock 1) block).1 = .ok () := by
  simp only [grown, Option.bind_eq_some_iff, Option.map_eq_some_iff] at h
  obtain ⟨c', hgenesis, ⟨block', after⟩, hextend, heq⟩ := h
  cases heq
  refine ⟨?_, ?_⟩
  · cases hres : fromGenesis Reference.primitives (genesis version) with
    | error e =>
      rw [hres] at hgenesis
      exact absurd hgenesis (by simp [Except.toOption])
    | ok c =>
      rw [hres] at hgenesis
      cases hgenesis
      rfl
  · simp only [extend] at hextend
    split at hextend
    · exact absurd hextend (by simp)
    · split at hextend
      · next hadd =>
        cases hextend
        rw [hadd]
      · exact absurd hextend (by simp)

/-- Something a test finds in the sample. -/
theorem grown_of_any {version : Nat} {test : Blockchain → Block → Bool}
    (h : (grown version).any (fun e => test e.1 e.2) = true) :
    ∃ c block, fromGenesis Reference.primitives (genesis version) = .ok c ∧
      (c.addBlock Reference.primitives (clock 1) block).1 = .ok () ∧ test c block = true := by
  cases hgrown : grown version with
  | none =>
    rw [hgrown] at h
    exact absurd h (by simp)
  | some e =>
    rw [hgrown] at h
    obtain ⟨hgenesis, hok⟩ := grown_eq_some hgrown
    exact ⟨e.1, e.2, hgenesis, hok, h⟩

end StateProofSample

open StateProofSample Scenario Blockchain in
theorem state_proofs_match_version_5 : ∃ c block proof,
    fromGenesis Reference.primitives (genesis 5) = .ok c ∧
      (c.addBlock Reference.primitives (clock 1) block).2.getAccountProof Reference.primitives address =
        some proof ∧
      AccountProofMatches Reference.primitives
        ((c.addBlock Reference.primitives (clock 1) block).2.lightClient.syncHeaders Reference.primitives
          (c.addBlock Reference.primitives (clock 1) block).2.signedHeaders).2 block.header.height
        proof := by
  obtain ⟨c, block, hgenesis, hok, htest⟩ := @grown_of_any 5
    (fun c block => ((c.addBlock Reference.primitives (clock 1) block).2.getAccountProof
      Reference.primitives address).isSome && decide (c.protocolVersionAtHeight block.header.height < 6))
    (by decide +kernel)
  simp only [Bool.and_eq_true, decide_eq_true_eq] at htest
  obtain ⟨hsome, hversion⟩ := htest
  obtain ⟨proof, hproof⟩ := Option.isSome_iff_exists.mp hsome
  have hmatch := (state_proofs_match_iff Reference.primitives RoundTripSample.sha3_ne_nil (genesis 5) c
    hgenesis [] (clock 1) block hok).2.1 address proof hproof
  exact ⟨c, block, proof, hgenesis, hproof, hmatch.1 hversion⟩

open StateProofSample Scenario Blockchain in
/-- With version 6 from height 1 on, the proof of an account is against another root than the header's. -/
theorem proof_misses_header_version_6 : ∃ c block proof root,
    fromGenesis Reference.primitives (genesis 6) = .ok c ∧
      (c.addBlock Reference.primitives (clock 1) block).1 = .ok () ∧
      proofAndRoot c block = some (proof, some root) ∧ proof.stateRoot ≠ root := by
  obtain ⟨c, block, hgenesis, hok, htest⟩ := @grown_of_any 6
    (fun c block => (proofAndRoot c block).any fun e =>
      e.2.any fun root => decide (e.1.stateRoot ≠ root))
    (by decide +kernel)
  cases hpair : proofAndRoot c block with
  | none =>
    rw [hpair] at htest
    exact absurd htest (by simp)
  | some e =>
    obtain ⟨proof, root⟩ := e
    rw [hpair] at htest
    cases root with
    | none => exact absurd htest (by simp)
    | some root => exact ⟨c, block, proof, root, hgenesis, hok, hpair, of_decide_eq_true htest⟩

end Curs3d
