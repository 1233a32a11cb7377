import Curs3d.Proof.Encoding
import Curs3d.Proof.SnapshotChecks

/-!
# A snapshot, made and applied

`createSnapshot` cuts its payload into chunks with Merkle proofs and `applySnapshot` checks them;
the first part follows the bytes and shows that what an honest node makes, a node fresh from the
same genesis takes (`applySnapshot_of_createSnapshot`).

The payload lists its parts by hand, and not all of the state is in the list: neither tokens nor
governance nor missed epochs are, and the block and transaction indexes are not rebuilt as a
restart rebuilds them. The second part says on which chains nothing is missed.
-/

set_option autoImplicit false

namespace Curs3d

open Outcome

variable {P : Primitives}

/-! ## Merkle proofs -/

theorem length_merkleLevel (level : List Bytes) :
    (merkleLevel P level).length = (level.length + 1) / 2 := by
  induction level using merkleLevel.induct with
  | case1 => rfl
  | case2 a => simp [merkleLevel]
  | case3 a b rest ih =>
    simp only [merkleLevel, List.length_cons, ih]
    omega

/-- A node and its sibling are a pair of the level. -/
theorem sides_merkleSibling {level : List Bytes} {index : Nat} {x : Bytes}
    (h : level[index]? = some x) :
    (Merkle.pairs level)[index / 2]? =
      some (Merkle.sides index x (merkleSibling level index)) := by
  have hlt := (List.getElem?_eq_some_iff.mp h).1
  rw [Merkle.getElem?_pairs]
  unfold merkleSibling Merkle.sides
  split
  · next heven =>
    have hindex : 2 * (index / 2) = index := by omega
    rw [hindex, h]
    by_cases hlast : index + 1 < level.length
    · rw [min_eq_left (by omega), List.getElem?_eq_getElem hlast]
      rfl
    · rw [min_eq_right (by omega), show level.length - 1 = index by omega, h,
        List.getElem?_eq_none (not_lt.mp hlast)]
      rfl
  · next hodd =>
    have hindex : 2 * (index / 2) + 1 = index := by omega
    have hbelow : 2 * (index / 2) = index - 1 := by omega
    rw [hindex, h, hbelow, List.getElem?_eq_getElem (show index - 1 < level.length by omega)]
    rfl

/-- One step up from a node leads to the node above it. -/
theorem merkleSibling_step {level : List Bytes} {index : Nat} {x : Bytes}
    (h : level[index]? = some x) :
    (merkleLevel P level)[index / 2]? = some (
      if index % 2 = 0 then merkleHashNode P x (merkleSibling level index)
      else merkleHashNode P (merkleSibling level index) x) := by
  rw [merkleLevel_eq, Merkle.level, List.getElem?_map, sides_merkleSibling h]
  unfold Merkle.sides
  split <;> rfl

/-- A level of one node is its own root. -/
theorem merkleFold_of_length_le_one {fuel : Nat} {level : List Bytes} {index : Nat} {x : Bytes}
    (hone : level.length ≤ 1) (h : level[index]? = some x) : merkleFold P fuel level = x := by
  obtain ⟨a, rfl⟩ := List.length_eq_one_iff.mp
    (le_antisymm hone (Nat.zero_lt_of_lt (List.getElem?_eq_some_iff.mp h).1))
  rw [List.getElem?_singleton] at h
  split at h
  · cases h
    cases fuel <;> rfl
  · exact absurd h (by simp)

theorem merkleFold_succ {fuel : Nat} {level : List Bytes} (hmany : ¬ level.length ≤ 1) :
    merkleFold P (fuel + 1) level = merkleFold P fuel (merkleLevel P level) := by
  match level with
  | [] => exact absurd (Nat.zero_le 1) hmany
  | [a] => exact absurd le_rfl hmany
  | a :: b :: rest => rfl

/-- The proof of a node climbs to the root. -/
theorem merkleClimb_merkleProofFrom {fuel : Nat} {level : List Bytes} {index : Nat} {x : Bytes}
    (hfuel : level.length ≤ fuel + 1) (h : level[index]? = some x) :
    merkleClimb P x index (merkleProofFrom P fuel level index) = merkleFold P fuel level := by
  induction fuel generalizing level index x with
  | zero => exact (merkleFold_of_length_le_one hfuel h).symm
  | succ fuel ih =>
    unfold merkleProofFrom
    split
    · next hone => exact (merkleFold_of_length_le_one hone h).symm
    · next hmany =>
      have hlen := @length_merkleLevel P level
      rw [merkleFold_succ hmany, merkleClimb]
      exact ih (by omega) (merkleSibling_step h)

/-- A climb from a hash ends in a hash. -/
theorem merkleClimb_ne_nil (hsha : ∀ data, P.sha3 data ≠ []) {current : Bytes} {index : Nat}
    {proof : List Bytes} (h : current ≠ []) : merkleClimb P current index proof ≠ [] := by
  induction proof generalizing current index with
  | nil => exact h
  | cons sibling rest ih =>
    apply ih
    split
    · exact hsha _
    · exact hsha _

/-- **The proof of every leaf of a tree verifies** against the root. -/
theorem verifyMerkleProof_merkleProof (hsha : ∀ data, P.sha3 data ≠ []) {hashes : List Bytes}
    {index : Nat} {leaf : Bytes} (h : hashes[index]? = some leaf) :
    verifyMerkleProof P leaf (merkleProof P hashes index) index (merkleRoot P hashes) = true := by
  have hlt := (List.getElem?_eq_some_iff.mp h).1
  have hleaf : (hashes.map (merkleHashLeaf P))[index]? = some (merkleHashLeaf P leaf) := by
    rw [List.getElem?_map, h]
    rfl
  have hne : hashes ≠ [] := List.ne_nil_of_length_pos (Nat.zero_lt_of_lt hlt)
  have hclimb : merkleClimb P (merkleHashLeaf P leaf) index (merkleProof P hashes index) =
      merkleRoot P hashes := by
    rw [merkleRoot, if_neg (by simpa using hne), merkleProof]
    split
    · next hone =>
      have hlen : (hashes.map (merkleHashLeaf P)).length ≤ 1 := by
        rw [List.length_map]
        omega
      exact (merkleFold_of_length_le_one hlen hleaf).symm
    · exact merkleClimb_merkleProofFrom (by simp) hleaf
  have hroot : merkleRoot P hashes ≠ [] := hclimb ▸ merkleClimb_ne_nil hsha (hsha _)
  unfold verifyMerkleProof
  rw [if_neg (by simpa using hroot), hclimb]
  exact decide_eq_true rfl

/-! ## Chunks -/

/-- The chunks of some bytes are these bytes. -/
theorem flatten_chunksOf {size fuel : Nat} {l : Bytes} (hsize : 0 < size) (hfuel : l.length ≤ fuel) :
    (chunksOf size fuel l).flatten = l := by
  induction fuel generalizing l with
  | zero => rw [List.length_eq_zero_iff.mp (Nat.le_zero.mp hfuel)]; rfl
  | succ fuel ih =>
    unfold chunksOf
    split
    · next hnil => rw [List.isEmpty_iff.mp hnil]; rfl
    · next hne =>
      have hpos : 0 < l.length := List.length_pos_iff.mpr (by simpa using hne)
      rw [List.flatten_cons, ih (by rw [List.length_drop]; omega), List.take_append_drop]

theorem chunksOf_ne_nil {size fuel : Nat} {l : Bytes} (h : l ≠ []) (hfuel : 0 < fuel) :
    chunksOf size fuel l ≠ [] := by
  obtain ⟨fuel, rfl⟩ := Nat.exists_eq_succ_of_ne_zero (Nat.ne_of_gt hfuel)
  unfold chunksOf
  rw [if_neg (by simpa using h)]
  exact List.cons_ne_nil _ _

/-- The loop over the chunks passes when every turn of it does. -/
theorem checkChunks_eq_ok {manifest : SnapshotManifest} {chunks : List StateChunk} {i : Nat}
    (h : ∀ j chunk, chunks[j]? = some chunk → checkChunk P manifest (i + j) chunk = .ok ()) :
    checkChunks P manifest i chunks = .ok () := by
  induction chunks generalizing i with
  | nil => rfl
  | cons chunk rest ih =>
    have hfirst : checkChunk P manifest i chunk = .ok () := h 0 chunk rfl
    unfold checkChunks
    rw [hfirst]
    refine ih fun j chunk' hj => ?_
    have hnext := h (j + 1) chunk' (by simpa using hj)
    rwa [show i + 1 + j = i + (j + 1) by omega]

/-- Chunks made from some bytes pass the checks against a manifest that lists their hashes, and
carry the bytes. -/
theorem stateChunks_spec (hsha : ∀ data, P.sha3 data ≠ []) {bytes : Bytes} (hbytes : bytes ≠ [])
    {manifest : SnapshotManifest} (hhashes : manifest.chunkHashes = (stateChunks P bytes).2)
    (hroot : manifest.chunkRoot = merkleRoot P (stateChunks P bytes).2) :
    checkChunks P manifest 0 (stateChunks P bytes).1 = .ok () ∧
      (stateChunks P bytes).1.flatMap StateChunk.data = bytes := by
  have hparts := @chunksOf_ne_nil SNAPSHOT_CHUNK_SIZE _ _ hbytes (List.length_pos_iff.mpr hbytes)
  have hflat := @flatten_chunksOf SNAPSHOT_CHUNK_SIZE _ _ (by decide) (le_refl bytes.length)
  unfold stateChunks at hhashes hroot ⊢
  dsimp only at hhashes hroot ⊢
  rw [if_neg (by simpa using hparts)] at hhashes hroot ⊢
  dsimp only at hhashes hroot ⊢
  constructor
  · apply checkChunks_eq_ok
    intro j chunk hj
    rw [List.getElem?_map, Option.map_eq_some_iff] at hj
    obtain ⟨⟨part, i⟩, hzip, rfl⟩ := hj
    obtain ⟨hpart, rfl⟩ : (chunksOf SNAPSHOT_CHUNK_SIZE bytes.length bytes)[j]? = some part ∧
        j = i := by
      simpa [List.getElem?_zipIdx] using hzip
    have hhash : ((chunksOf SNAPSHOT_CHUNK_SIZE bytes.length bytes).map P.sha3)[j]? =
        some (P.sha3 part) := by
      rw [List.getElem?_map, hpart]
      rfl
    unfold checkChunk
    simp only [except_bind_eq_ok, ensureSnapshot_eq_ok, decide_eq_true_eq, zero_add]
    exact ⟨(), trivial, (), by rw [hhashes, hhash],
      by rw [hroot]; exact verifyMerkleProof_merkleProof hsha hhash⟩
  · have hdata : ((chunksOf SNAPSHOT_CHUNK_SIZE bytes.length bytes).zipIdx.map Prod.fst).flatten =
        bytes := by
      rw [List.zipIdx_map_fst, hflat]
    rw [List.flatMap_map]
    exact hdata

theorem serialize_ne_nil (payload : SnapshotState) : payload.serialize ≠ [] := by
  -- the length of the list of blocks comes first, in eight bytes
  have hlength := Bincode.length_leBytes 8 payload.blocks.length
  have hpos : 0 < payload.serialize.length := by
    unfold SnapshotState.serialize Bincode.vec Bincode.u64
    simp only [List.length_append]
    omega
  exact List.ne_nil_of_length_pos hpos

/-! ## Maps sent as lists -/

theorem nodup_keys_toList {α β : Type} {cmp : α → α → Ordering} [Std.TransCmp cmp]
    [Std.LawfulEqCmp cmp] (m : Std.ExtTreeMap α β cmp) : (m.toList.map Prod.fst).Nodup := by
  rw [Std.ExtTreeMap.map_fst_toList_eq_keys]
  exact m.nodup_keys

theorem collectBytes_toList {β : Type} (m : ByteMap β) : collectBytes m.toList = m := by
  refine Std.ExtTreeMap.ext_getElem? fun k => ?_
  unfold collectBytes
  cases hk : m[k]? with
  | none =>
    rw [KeyMap.getElem?_foldl_insert_of_notMem Prod.fst Prod.snd]
    · simp
    · simp [Std.ExtTreeMap.map_fst_toList_eq_keys, Std.ExtTreeMap.mem_iff_isSome_getElem?, hk]
  | some v =>
    have hmem : (k, v) ∈ m.toList := Std.ExtTreeMap.mem_toList_iff_getElem?_eq_some.mpr hk
    exact KeyMap.getElem?_foldl_insert_of_mem Prod.fst Prod.snd _ _ (nodup_keys_toList m) hmem

/-- The entries of a map that were sent. -/
theorem getElem?_collectHeights {β : Type} (m : HeightMap β) (keep : Nat × β → Bool) (k : Nat) :
    (collectHeights (m.toList.filter keep))[k]? = (m[k]?).filter fun v => keep (k, v) := by
  unfold collectHeights
  cases hk : (m[k]?).filter fun v => keep (k, v) with
  | none =>
    rw [KeyMap.getElem?_foldl_insert_of_notMem Prod.fst Prod.snd]
    · simp
    · rw [List.mem_map]
      rintro ⟨⟨k', v⟩, hmem, rfl⟩
      obtain ⟨hin, hkeep⟩ := List.mem_filter.mp hmem
      rw [Std.ExtTreeMap.mem_toList_iff_getElem?_eq_some] at hin
      exact absurd hk (by simp [hin, Option.filter, hkeep])
  | some v =>
    obtain ⟨hv, hkeep⟩ := Option.filter_eq_some_iff.mp hk
    have hmem : (k, v) ∈ m.toList.filter keep :=
      List.mem_filter.mpr ⟨Std.ExtTreeMap.mem_toList_iff_getElem?_eq_some.mpr hv, hkeep⟩
    have hnodup : ((m.toList.filter keep).map Prod.fst).Nodup :=
      (nodup_keys_toList m).sublist (List.filter_sublist.map Prod.fst)
    exact KeyMap.getElem?_foldl_insert_of_mem Prod.fst Prod.snd _ _ hnodup hmem

namespace Blockchain

variable {deserialize : Bytes → Except String SnapshotState} {manifest : SnapshotManifest}
  {chunks : List StateChunk} {payload : SnapshotState} {c d : Blockchain} {now : Int}
  {g : GenesisConfig}

/-! ## From the sender to the receiver -/

/-- `bincode` reads the payload of `c` back. -/
def Decodes (P : Primitives) (deserialize : Bytes → Except String SnapshotState) (now : Int)
    (c : Blockchain) : Prop :=
  ∀ block s, c.blockAtHeight c.snapshotHeight = some block →
    c.replayStateToCanonicalHeight P now c.snapshotHeight = .ok s →
    deserialize (c.snapshotState block.hash s).serialize = .ok (c.snapshotState block.hash s)

theorem snapshotHeight_le : c.snapshotHeight ≤ c.height := by
  unfold snapshotHeight
  split
  · exact min_le_right _ _
  · exact le_rfl

theorem snapshotState_blocks (hst : c.Straight) {hash : Bytes} {s : ExecState} :
    (c.snapshotState hash s).blocks = c.blocks.take (c.snapshotHeight + 1) := by
  unfold snapshotState
  dsimp only
  rw [hst.iterBlocks]

/-- A manifest and chunks made of the block at the snapshot's height and the state there. -/
structure Made (P : Primitives) (now : Int) (c : Blockchain) (block : Block) (s : ExecState)
    (manifest : SnapshotManifest) (chunks : List StateChunk) : Prop where
  top : c.blockAtHeight c.snapshotHeight = some block
  state : c.replayStateToCanonicalHeight P now c.snapshotHeight = .ok s
  height : manifest.height = c.snapshotHeight
  chainId : manifest.chainId = c.genesisConfig.chainId
  genesisHash : manifest.genesisHash = c.genesis.hash
  latestHash : manifest.latestHash = block.hash
  stateRoot : manifest.stateRoot = StateRoot.computeFull P s.accounts s.contracts
  cut : chunks = (stateChunks P (c.snapshotState block.hash s).serialize).1
  chunkHashes : manifest.chunkHashes = (stateChunks P (c.snapshotState block.hash s).serialize).2
  chunkRoot : manifest.chunkRoot = merkleRoot P manifest.chunkHashes
  chunkCount : manifest.chunkCount = chunks.length

theorem made_of_createSnapshot (h : c.createSnapshot P now = .ok (manifest, chunks)) :
    ∃ block s, c.Made P now block s manifest chunks := by
  unfold createSnapshot at h
  cases hblock : c.blockAtHeight c.snapshotHeight with
  | none => exact absurd h (by simp [hblock])
  | some block =>
    simp only [hblock, except_bind_eq_ok] at h
    obtain ⟨s, hs, hmade⟩ := h
    rcases hcut : stateChunks P (c.snapshotState block.hash s).serialize with ⟨cut, hashes⟩
    simp only [hcut] at hmade
    obtain ⟨rfl, rfl⟩ := Prod.mk.inj (Except.ok.inj hmade)
    exact ⟨block, s, hblock, hs, rfl, rfl, rfl, rfl, rfl, by rw [hcut], by rw [hcut], rfl, rfl⟩

/-- A chain that can replay its tip has a snapshot of it. -/
theorem made_of_replay {s : ExecState} (hst : c.Straight) (htop : c.snapshotHeight = c.height)
    (hreplay : c.replayStateToTip P now c.latestBlock.hash = .ok s) :
    ∃ manifest chunks, c.createSnapshot P now = .ok (manifest, chunks) ∧
      c.Made P now c.latestBlock s manifest chunks := by
  have hblock : c.blockAtHeight c.snapshotHeight = some c.latestBlock := by
    rw [hst.blockAtHeight, htop]
    exact hst.latestBlock
  have hstate : c.replayStateToCanonicalHeight P now c.snapshotHeight = .ok s := by
    unfold replayStateToCanonicalHeight
    rw [hblock]
    dsimp only
    rw [hreplay]
  obtain ⟨⟨manifest, chunks⟩, hcreate⟩ : ∃ made, c.createSnapshot P now = .ok made := by
    unfold createSnapshot
    rw [hblock]
    simp only [except_bind_eq_ok]
    exact ⟨_, s, hstate, rfl⟩
  obtain ⟨block, s', hmade⟩ := made_of_createSnapshot hcreate
  cases hmade.top.symm.trans hblock
  cases hmade.state.symm.trans hstate
  exact ⟨manifest, chunks, hcreate, hmade⟩

theorem Made.decoded {block : Block} {s : ExecState} (h : c.Made P now block s manifest chunks)
    (hsha : ∀ data, P.sha3 data ≠ []) (hst : c.Straight) (hcodec : c.Decodes P deserialize now) :
    Decoded P deserialize manifest chunks (c.snapshotState block.hash s) := by
  obtain ⟨hverified, hbytes⟩ := stateChunks_spec hsha (serialize_ne_nil _) h.chunkHashes
    (by rw [h.chunkRoot, h.chunkHashes])
  have htop := h.top
  rw [hst.blockAtHeight] at htop
  refine ⟨h.chunkCount.symm, by rw [h.cut]; exact hverified, ?_, ?_, ?_, ?_⟩
  · rw [h.cut, hbytes]
    exact hcodec block s h.top h.state
  · rw [h.stateRoot]
    show StateRoot.computeFull P (collectBytes s.accounts.toList)
      (collectBytes s.contracts.toList) = _
    rw [collectBytes_toList, collectBytes_toList]
  · rw [snapshotState_blocks hst, h.genesisHash, List.head?_take, if_neg (Nat.succ_ne_zero _),
      hst.head]
    rfl
  · rw [snapshotState_blocks hst, h.latestHash, List.take_add_one, htop]
    simp

/-- **What one node makes, a node without finality takes**, when both have the same genesis. -/
theorem Made.applySnapshot {block : Block} {s : ExecState}
    (h : c.Made P now block s manifest chunks) (hsha : ∀ data, P.sha3 data ≠ [])
    (hst : c.Straight) (hconfig : d.genesisConfig = c.genesisConfig)
    (hgenesis : d.genesis = c.genesis) (hfresh : d.finalityTracker = {})
    (hcodec : c.Decodes P deserialize now) :
    d.applySnapshot P deserialize manifest chunks =
      .ok (d.installSnapshot P manifest (c.snapshotState block.hash s)) := by
  have hprotected : d.protectedHeight manifest = 0 := by
    unfold protectedHeight
    rw [hfresh]
    exact Nat.zero_min _
  have hlocal : d.blockAtHeight 0 = some c.genesis := by
    rw [← hgenesis]
    rfl
  rw [applySnapshot_eq_ok]
  refine ⟨?_, _, h.decoded hsha hst hcodec, ?_, rfl⟩
  · unfold checkManifest
    simp only [except_bind_eq_ok, ensureSnapshot_eq_ok]
    refine ⟨(), by simpa using h.chainId.trans (congrArg GenesisConfig.chainId hconfig.symm), ?_⟩
    have hknown : verifySnapshotAgainstKnown d.genesisConfig.chainId manifest = .ok () := rfl
    rw [hknown]
    simp only [except_bind_eq_ok, ensureSnapshot_eq_ok, hprotected, hfresh, decide_eq_true_eq]
    refine ⟨(), by simp, ?_⟩
    rintro ⟨hother, hzero⟩
    have htop := h.top
    rw [← h.height, Nat.le_zero.mp hzero] at htop
    rw [Nat.le_zero.mp hzero, hlocal] at hother
    cases htop
    exact absurd hother (by simp [h.latestHash])
  · intro b hb
    rw [snapshotState_blocks hst] at hb
    unfold agreesLocally
    simp only [hprotected, decide_eq_true_eq]
    rintro ⟨hother, hzero⟩
    have hheight : b.header.height = 0 := by omega
    obtain ⟨k, hk⟩ := List.mem_iff_getElem?.mp (List.mem_of_mem_take hb)
    rw [← hst.heights hk, hheight, ← List.head?_eq_getElem?, hst.head] at hk
    cases hk
    rw [hheight, hlocal] at hother
    exact absurd hother (by simp)

/-! ## What arrives -/

theorem indexReceipts_eq (block : Block) : ∃ locations logs,
    indexReceipts P block c = { c with receiptLocations := locations, logIndex := logs } := by
  unfold indexReceipts
  refine List.foldlRecOn (motive := fun c' : Blockchain => ∃ locations logs,
    c' = { c with receiptLocations := locations, logIndex := logs }) _ _ ⟨_, _, rfl⟩ ?_
  rintro _ ⟨locations, logs, rfl⟩ e _
  dsimp only
  split
  · exact ⟨_, _, rfl⟩
  · split
    · exact ⟨_, _, rfl⟩
    · exact ⟨_, _, rfl⟩

/-- Rebuilding the receipt indexes writes these two and nothing else. -/
theorem rebuildReceiptIndexes_eq (c : Blockchain) : ∃ locations logs,
    c.rebuildReceiptIndexes P = { c with receiptLocations := locations, logIndex := logs } := by
  have hwalk : ∃ locations logs, c.iterBlocks.foldl (fun acc block => indexReceipts P block acc)
      { c with receiptLocations := ∅, logIndex := [] } =
        { c with receiptLocations := locations, logIndex := logs } := by
    refine List.foldlRecOn (motive := fun c' : Blockchain => ∃ locations logs,
      c' = { c with receiptLocations := locations, logIndex := logs }) _ _ ⟨_, _, rfl⟩ ?_
    rintro _ ⟨locations, logs, rfl⟩ block _
    obtain ⟨locations', logs', h⟩ := @indexReceipts_eq P
      { c with receiptLocations := locations, logIndex := logs } block
    exact ⟨locations', logs', h⟩
  obtain ⟨locations, logs, h⟩ := hwalk
  refine ⟨locations, logs.insertionSort fun a b => logEntryLe a b, ?_⟩
  unfold rebuildReceiptIndexes
  dsimp only
  rw [h]

/-- The parts of the receiver that a snapshot does not touch. -/
theorem installSnapshot_keeps :
    (d.installSnapshot P manifest payload).genesisConfig = d.genesisConfig ∧
    (d.installSnapshot P manifest payload).tokenRegistry = d.tokenRegistry ∧
    (d.installSnapshot P manifest payload).governance = d.governance ∧
    (d.installSnapshot P manifest payload).validatorMissedEpochs = d.validatorMissedEpochs ∧
    (d.installSnapshot P manifest payload).blockHashToHeight = d.blockHashToHeight ∧
    (d.installSnapshot P manifest payload).txHashIndex = d.txHashIndex ∧
    (d.installSnapshot P manifest payload).evmTxHashIndex = d.evmTxHashIndex := by
  obtain ⟨locations, logs, h⟩ := @rebuildReceiptIndexes_eq P
    { d.replaceAllBlocks (appendable 0 payload.blocks) with
      accounts := collectBytes payload.accounts
      contracts := collectBytes payload.contracts
      receipts := collectBytes payload.receipts }
  unfold installSnapshot
  dsimp only
  rw [h]
  exact ⟨rfl, rfl, rfl, rfl, rfl, rfl, rfl⟩

/-- What a sender and a receiver have in common after a snapshot, as far as the next blocks and the
queries go. -/
structure SameLedger (P : Primitives) (d c : Blockchain) : Prop where
  blocks : d.blocks = c.blocks
  accounts : d.accounts = c.accounts
  contracts : d.contracts = c.contracts
  tokenRegistry : d.tokenRegistry = c.tokenRegistry
  governance : d.governance = c.governance
  missed : d.validatorMissedEpochs = c.validatorMissedEpochs
  epochSnapshots : d.epochSnapshots = c.epochSnapshots
  blockIndex : d.blockHashToHeight = c.blockHashToHeight
  txIndex : d.txHashIndex = c.txHashIndex
  evmTxIndex : d.evmTxHashIndex = c.evmTxHashIndex
  receiptIndex : d.receiptLocations = c.receiptLocations
  logIndex : d.logIndex = c.logIndex
  accepts : ∀ (now : Int) (block : Block),
    (d.addBlock P now block).1 = .ok () ↔ (c.addBlock P now block).1 = .ok ()

/-- A snapshot of `c`, made at clock reading `now`, takes the fresh chain `d` to where `c` is. -/
def RoundTrips (P : Primitives) (deserialize : Bytes → Except String SnapshotState) (now : Int)
    (d c : Blockchain) : Prop :=
  ∃ manifest chunks d', c.createSnapshot P now = .ok (manifest, chunks) ∧
    d.applySnapshot P deserialize manifest chunks = .ok d' ∧ SameLedger P d' c

/-! ## The fresh chain itself -/

/-- **Whether a block is accepted** depends on the configuration, the slashed set, the snapshots, the
executed state, the missed epochs and the cursor, and on nothing else. -/
theorem addBlock_ok_congr (hg : d.genesisConfig = c.genesisConfig)
    (hs : d.slashedValidators = c.slashedValidators) (hsnaps : d.epochSnapshots = c.epochSnapshots)
    (haccounts : d.accounts = c.accounts) (hcontracts : d.contracts = c.contracts)
    (hreceipts : d.receipts = c.receipts) (htokens : d.tokenRegistry = c.tokenRegistry)
    (hgovernance : d.governance = c.governance)
    (hmissed : d.validatorMissedEpochs = c.validatorMissedEpochs) (hgenesis : d.genesis = c.genesis)
    (hblocks : d.blocks = c.blocks) (hbase : d.baseHeight = c.baseHeight) (now : Int)
    (block : Block) :
    (d.addBlock P now block).1 = .ok () ↔ (c.addBlock P now block).1 = .ok () := by
  have hexec : d.execState = c.execState := by
    unfold execState
    rw [haccounts, hcontracts, hreceipts, htokens, hgovernance]
  have hread : d.blockAtHeight = c.blockAtHeight := by
    funext k
    unfold blockAtHeight
    rw [hgenesis, hblocks, hbase]
  have hlatest : d.latestBlock = c.latestBlock := by
    unfold latestBlock height blockCount
    rw [hread, hblocks, hgenesis]
  have hensured : (d.ensureEpochSnapshot block.header.height).epochSnapshots =
      (c.ensureEpochSnapshot block.header.height).epochSnapshots := by
    unfold ensureEpochSnapshot createEpochSnapshotFromAccounts snapshotForAccounts epochForHeight
    rw [hg, hs, hsnaps, haccounts]
    split
    · rfl
    · exact hsnaps
  have hsettled : d.settledAt P block.header.height = c.settledAt P block.header.height := by
    unfold settledAt
    rw [hg, hsnaps, haccounts, hmissed, proposers_congr hg fun k _ => congrFun hread k]
  have hvalid : ∀ parent s,
      (d.prepareEpoch P block.header.height).validateBlockAgainstState P now block parent s =
        (c.prepareEpoch P block.header.height).validateBlockAgainstState P now block parent s := by
    intro parent s
    apply validate_congr
    · rw [prepareEpoch_genesisConfig, prepareEpoch_genesisConfig, hg]
    · rw [prepareEpoch_eq, prepareEpoch_eq]
      exact hs
    · rw [prepareEpoch_eq, prepareEpoch_eq]
      exact congrArg (fun m : HeightMap EpochSnapshot => m[_]?) hensured
  rw [addBlock_ok_iff, addBlock_ok_iff, hsettled, hexec, hlatest]
  simp only [hvalid]

theorem appendable_of_heights {blocks : List Block} {n : Nat}
    (h : ∀ (k : Nat) (b : Block), blocks[k]? = some b → b.header.height = n + k) :
    appendable n blocks = blocks := by
  induction blocks generalizing n with
  | nil => rfl
  | cons b rest ih =>
    have hfirst : b.header.height = n := h 0 b rfl
    unfold appendable
    rw [if_pos hfirst, ih]
    intro k b' hk
    rw [h (k + 1) b' (by simpa using hk)]
    omega

/-- Nothing is indexed where there are no receipts. -/
theorem rebuildReceiptIndexes_of_no_receipts (h : c.receipts = ∅) :
    (c.rebuildReceiptIndexes P).receiptLocations = ∅ ∧
      (c.rebuildReceiptIndexes P).logIndex = [] := by
  have hwalk : c.iterBlocks.foldl (fun acc block => indexReceipts P block acc)
      { c with receiptLocations := ∅, logIndex := [] } =
        { c with receiptLocations := ∅, logIndex := [] } := by
    refine List.foldlRecOn (motive := fun c' : Blockchain =>
      c' = { c with receiptLocations := ∅, logIndex := [] }) _ _ rfl ?_
    rintro _ rfl block _
    unfold indexReceipts
    refine List.foldlRecOn (motive := fun c' : Blockchain =>
      c' = { c with receiptLocations := ∅, logIndex := [] }) _ _ rfl ?_
    rintro _ rfl e _
    simp [h]
  unfold rebuildReceiptIndexes
  dsimp only
  rw [hwalk]
  exact ⟨rfl, rfl⟩

/-- The parts of the sender that a snapshot at its tip carries, the epochs after its own apart. -/
theorem installSnapshot_carries (hst : c.Straight) (htop : c.snapshotHeight = c.height)
    {hash : Bytes} :
    (d.installSnapshot P manifest (c.snapshotState hash c.execState)).blocks = c.blocks ∧
    (d.installSnapshot P manifest (c.snapshotState hash c.execState)).genesis = c.genesis ∧
    (d.installSnapshot P manifest (c.snapshotState hash c.execState)).accounts = c.accounts ∧
    (d.installSnapshot P manifest (c.snapshotState hash c.execState)).contracts = c.contracts ∧
    (d.installSnapshot P manifest (c.snapshotState hash c.execState)).receipts = c.receipts ∧
    (d.installSnapshot P manifest (c.snapshotState hash c.execState)).slashedValidators =
      c.slashedValidators ∧
    ∀ e, (d.installSnapshot P manifest (c.snapshotState hash c.execState)).epochSnapshots[e]? =
      (c.epochSnapshots[e]?).filter fun _ => e ≤ c.epochForHeight c.height := by
  have hblocks : appendable 0 (c.snapshotState hash c.execState).blocks = c.blocks := by
    have hall : c.blocks.take (c.snapshotHeight + 1) = c.blocks := by
      refine List.take_of_length_le ?_
      rw [htop]
      unfold height blockCount
      omega
    rw [snapshotState_blocks hst, hall]
    refine appendable_of_heights ?_
    intro k b hb
    rw [hst.heights hb, zero_add]
  refine ⟨?_, ?_, ?_, ?_, ?_, ?_, ?_⟩
  · rw [installSnapshot_blocks, hblocks]
  · rw [installSnapshot_genesis, hblocks, hst.head]
    rfl
  · rw [installSnapshot_accounts]
    exact collectBytes_toList _
  · rw [installSnapshot_contracts]
    exact collectBytes_toList _
  · refine (congrArg receipts rebuildReceiptIndexes_unindexed).trans ?_
    exact collectBytes_toList _
  · show (c.slashedValidators.sort (· ≤ ·)).toFinset = _
    exact Finset.sort_toFinset _ _
  · intro e
    rw [← htop]
    exact getElem?_collectHeights _ _ e

/-! ## The fresh chain -/

/-- What a chain holds before its first block. -/
theorem fresh_of_genesis (h : fromGenesis P g = .ok c) :
    c.finalityTracker = {} ∧ c.receipts = ∅ ∧ c.receiptLocations = ∅ ∧ c.logIndex = [] ∧
      c.blockHashToHeight = ∅ ∧ c.pruneKeepBlocks = none ∧
      c.blockTree = BlockTree.fromGenesis c.genesis ∧ c.genesis.header.height = 0 ∧
      ∀ e ∈ c.epochSnapshots, e = 0 := by
  unfold fromGenesis at h
  simp only [except_bind_eq_ok] at h
  obtain ⟨accounts, -, hc⟩ := h
  cases hc
  refine ⟨rfl, rfl, rfl, rfl, rfl, rfl, rfl, rfl, ?_⟩
  intro e he
  by_contra hne
  rw [Std.ExtTreeMap.mem_iff_isSome_getElem?, KeyMap.getElem?_insert_ne _ _ (Ne.symm hne)] at he
  exact absurd he (by simp)

/-- A node that has seen no block yet can start another one. -/
theorem roundTrips_genesis (hstart : fromGenesis P g = .ok c) (hsha : ∀ data, P.sha3 data ≠ [])
    (hcodec : c.Decodes P deserialize now) : RoundTrips P deserialize now c c := by
  obtain ⟨accounts, haccounts, hrec⟩ := recomputes_genesis hstart now
  obtain ⟨hblocks, hconfig⟩ := blocks_of_genesis hstart
  obtain ⟨htracker, hreceipts, hlocations, hlogs, -, -, -, -, hepochs⟩ := fresh_of_genesis hstart
  have hst := hrec.straight
  have htop : c.snapshotHeight = c.height := by
    unfold snapshotHeight
    rw [htracker]
    rfl
  have hreplay : c.replayStateToTip P now c.latestBlock.hash = .ok c.execState := by
    refine Continues.replayStateToTip ⟨rfl, rfl, List.prefix_rfl, fun _ _ => rfl⟩ hrec le_rfl
      (hconfig ▸ haccounts) hst (filed_genesis hstart) ?_
    rw [hblocks]
    exact List.nodup_singleton _
  obtain ⟨manifest, chunks, hcreate, hmade⟩ := made_of_replay hst htop hreplay
  refine ⟨manifest, chunks, _, hcreate, hmade.applySnapshot hsha hst rfl rfl htracker hcodec, ?_⟩
  obtain ⟨hcfg, htokens, hgov, hmissed, hindex, htx, hevm⟩ :=
    @installSnapshot_keeps P manifest (c.snapshotState c.latestBlock.hash c.execState) c
  obtain ⟨hb, hgen, hacc, hcontracts, hrec', hslashed, hfiltered⟩ :=
    @installSnapshot_carries P manifest c c hst htop c.latestBlock.hash
  have hsnaps : (c.installSnapshot P manifest
      (c.snapshotState c.latestBlock.hash c.execState)).epochSnapshots = c.epochSnapshots := by
    refine Std.ExtTreeMap.ext_getElem? fun e => ?_
    rw [hfiltered e]
    cases he : c.epochSnapshots[e]? with
    | none => rfl
    | some snapshot =>
      have hzero : e = 0 := hepochs e (Std.ExtTreeMap.mem_iff_isSome_getElem?.mpr (by simp [he]))
      simp [hzero]
  have hindexed : (c.installSnapshot P manifest
        (c.snapshotState c.latestBlock.hash c.execState)).receiptLocations = ∅ ∧
      (c.installSnapshot P manifest
        (c.snapshotState c.latestBlock.hash c.execState)).logIndex = [] :=
    rebuildReceiptIndexes_of_no_receipts ((collectBytes_toList c.receipts).trans hreceipts)
  refine ⟨hb, hacc, hcontracts, htokens, hgov, hmissed, hsnaps, hindex, htx, hevm,
    hindexed.1.trans hlocations.symm, hindexed.2.trans hlogs.symm, ?_⟩
  exact addBlock_ok_congr hcfg hslashed hsnaps hacc hcontracts hrec' htokens hgov hmissed hgen hb
    (installSnapshot_baseHeight ..)

/-! ## Runs -/

/-- The index of block hashes has every block that was added. -/
theorem blockHashToHeight_commitBlock (block : Block) (s : ExecState) :
    block.hash ∈ (c.commitBlock P block s).blockHashToHeight := by
  have hindex : ∀ c' : Blockchain, block.hash ∈ (c'.indexBlock P block).blockHashToHeight := by
    intro c'
    unfold indexBlock
    refine List.foldlRecOn (motive := fun c'' : Blockchain => block.hash ∈ c''.blockHashToHeight)
      _ _ Std.ExtTreeMap.mem_insert_self ?_
    intro c'' h e _
    exact h
  unfold commitBlock
  dsimp only
  obtain ⟨locations, logs, h⟩ := @rebuildReceiptIndexes_eq P ({ c with
    blockTree := insertIgnoringErrors c.blockTree block (proposerStake P s block)
    accounts := s.accounts
    contracts := s.contracts
    receipts := extendReceipts c.receipts s.receipts
    tokenRegistry := s.tokenRegistry
    governance := s.governance
    blocks := c.blocks ++ [block] }.indexBlock P block)
  rw [h]
  exact hindex _

/-- What every call keeps of the chain `c₀` it started from: the genesis at the bottom of an
unpruned cursor; a block that was added is in the index; and a chain that has no block and no
snapshot but those it started with was not changed at all. -/
structure Grown (c₀ c : Blockchain) : Prop where
  config : c.genesisConfig = c₀.genesisConfig
  genesis : c.genesis = c₀.genesis
  keep : c.pruneKeepBlocks = none
  straight : c.Straight
  indexed : 0 < c.height → c.blockHashToHeight ≠ ∅
  idle : c.height = 0 → (∀ e ∈ c.epochSnapshots, e = 0) → c = c₀

variable {c₀ : Blockchain}

/-- A refused block that stores no snapshot has changed nothing. -/
theorem prepareEpoch_idle {height : Nat}
    (h : ∀ e ∈ (c.prepareEpoch P height).epochSnapshots, e = 0) : c.prepareEpoch P height = c := by
  rw [prepareEpoch_eq_self_iff]
  by_contra hloud
  have hcond : 0 < height ∧ height % c.genesisConfig.epochLen = 0 := by
    unfold Quiet at hloud
    omega
  -- a boundary leaves the snapshot of its own epoch, which is not the first
  have hstored : c.epochForHeight height ∈ (c.prepareEpoch P height).epochSnapshots := by
    rw [prepareEpoch_eq]
    dsimp only
    unfold ensureEpochSnapshot
    split
    · exact Std.ExtTreeMap.mem_insert_self
    · next hno =>
      by_contra hnot
      exact hno ⟨hcond.1, hcond.2, hnot⟩
  have hzero := h _ hstored
  have hpos : 0 < c.epochForHeight height :=
    Nat.div_pos (Nat.le_of_dvd hcond.1 (Nat.dvd_of_mod_eq_zero hcond.2)) (epochLen_pos _)
  omega

theorem Grown.addBlock (h : Grown c₀ c) (now : Int) (block : Block) :
    Grown c₀ (c.addBlock P now block).2 := by
  rcases addBlock_cases P c now block with ⟨e, he⟩ | ⟨s, -, hok⟩
  · rw [he]
    have hspine := @prepareEpoch_spine P c block.header.height
    have hindex : (c.prepareEpoch P block.header.height).blockHashToHeight =
        c.blockHashToHeight := by
      rw [prepareEpoch_eq]
    have hblocks : (c.prepareEpoch P block.header.height).blocks = c.blocks :=
      congrArg Spine.blocks hspine
    have hgenesis : (c.prepareEpoch P block.header.height).genesis = c.genesis :=
      congrArg Spine.genesis hspine
    refine ⟨(prepareEpoch_genesisConfig ..).trans h.config, hgenesis.trans h.genesis,
      (congrArg Spine.pruneKeepBlocks hspine).trans h.keep, ?_, ?_, ?_⟩
    · refine ⟨(congrArg Spine.baseHeight hspine).trans_le h.straight.base, ?_, ?_⟩
      · rw [hblocks, hgenesis]
        exact h.straight.head
      · rw [hblocks]
        exact h.straight.heights
    · unfold height blockCount
      rw [hblocks, hindex]
      exact h.indexed
    · intro hzero honly
      have hsame := prepareEpoch_idle honly
      dsimp only at hzero honly ⊢
      rw [hsame] at hzero honly ⊢
      exact h.idle hzero honly
  · have hres : (c.addBlock P now block).1 = .ok () := by rw [hok]
    obtain ⟨-, stake, hspine⟩ := addBlock_ok_spine hres
    obtain ⟨hst, hblocks, hgenesis, hheight, -⟩ := h.straight.addBlock hres
    obtain ⟨s', ha⟩ := accepted_of_addBlock hres
    refine ⟨ha.config.trans h.config, hgenesis.trans h.genesis,
      (congrArg Spine.pruneKeepBlocks hspine).trans h.keep, hst, ?_, ?_⟩
    · intro _ hempty
      have hmem := @blockHashToHeight_commitBlock P (c.prepareEpoch P block.header.height) block s
      rw [hok] at hempty
      rw [hempty] at hmem
      exact absurd hmem (by simp)
    · intro hzero
      omega

/-- Nobody can vote on the genesis, so a chain without a block does not hear votes. -/
theorem addFinalityVote_genesis (hstart : fromGenesis P g = .ok c) (vote : FinalityVote) :
    (c.addFinalityVote P vote).2 = c := by
  obtain ⟨htracker, -, -, -, -, -, htree, hheight, -⟩ := fresh_of_genesis hstart
  cases hsnapshot : c.votableSnapshot vote with
  | none =>
    unfold addFinalityVote
    rw [hsnapshot]
  | some snapshot =>
    have hzero : vote.blockHeight = 0 := by
      unfold votableSnapshot at hsnapshot
      rw [htree, BlockTree.get_fromGenesis] at hsnapshot
      split at hsnapshot
      · exact absurd hsnapshot (by simp)
      · next b hb =>
        split at hb
        · cases hb
          split at hsnapshot
          · exact absurd hsnapshot (by simp)
          · omega
        · exact absurd hb (by simp)
    have hdeaf : c.finalityTracker.addVote P vote snapshot = (c.finalityTracker, none) := by
      unfold FinalityTracker.addVote
      dsimp only
      split
      · rfl
      · split
        · rfl
        · rw [if_pos (by omega)]
    unfold addFinalityVote
    rw [hsnapshot]
    dsimp only
    rw [hdeaf]

theorem Grown.addFinalityVote (hstart : fromGenesis P g = .ok c₀) (h : Grown c₀ c)
    (vote : FinalityVote) : Grown c₀ (c.addFinalityVote P vote).2 := by
  obtain ⟨tracker, tree, hv⟩ := @addFinalityVote_of_none P c h.keep vote
  rw [hv]
  refine ⟨h.config, h.genesis, h.keep,
    ⟨h.straight.base, h.straight.head, h.straight.heights⟩, h.indexed, ?_⟩
  intro hzero honly
  have hidle := h.idle hzero honly
  rw [← hv, hidle]
  exact addFinalityVote_genesis hstart vote

theorem Grown.performAll {ops : List LedgerOp} (hstart : fromGenesis P g = .ok c₀)
    (h : Grown c₀ c) (hquiet : c.NeverSlashes P ops) : Grown c₀ (c.performAll P ops) := by
  induction ops generalizing c with
  | nil => exact h
  | cons op rest ih =>
    refine ih ?_ hquiet.2
    cases op with
    | addBlock now block => exact h.addBlock now block
    | addFinalityVote vote => exact h.addFinalityVote hstart vote
    | processEquivocation evidence =>
      unfold perform
      dsimp only
      rw [processEquivocation_of_not_convicts hquiet.1]
      exact h

theorem grown_genesis (hstart : fromGenesis P g = .ok c₀) : Grown c₀ c₀ := by
  obtain ⟨accounts, -, hrec⟩ := recomputes_genesis hstart 0
  obtain ⟨-, -, -, -, -, hkeep, -, -, -⟩ := fresh_of_genesis hstart
  refine ⟨rfl, rfl, hkeep, hrec.straight, ?_, fun _ _ => rfl⟩
  intro hpos
  unfold height blockCount at hpos
  rw [(blocks_of_genesis hstart).1] at hpos
  exact absurd hpos (by simp)

end Blockchain

open Blockchain in
/-- **When a snapshot hands everything over.** However a chain was reached by blocks and votes,
accepted or refused, its snapshot makes a fresh chain its equal only before the first block, and
before a refused block has left the snapshot of an epoch that did not begin. -/
theorem snapshot_round_trip_iff {P : Primitives} {g : GenesisConfig} {c₀ : Blockchain}
    {deserialize : Bytes → Except String SnapshotState} {ops : List LedgerOp} {now : Int}
    (hstart : fromGenesis P g = .ok c₀) (hquiet : c₀.NeverSlashes P ops)
    (hsha : ∀ data, P.sha3 data ≠ []) (hcodec : (c₀.performAll P ops).Decodes P deserialize now) :
    RoundTrips P deserialize now c₀ (c₀.performAll P ops) ↔
      (c₀.performAll P ops).height = 0 ∧ ∀ e ∈ (c₀.performAll P ops).epochSnapshots, e = 0 := by
  have hgrown := (grown_genesis hstart).performAll hstart hquiet
  obtain ⟨htracker, -, -, -, hindex, -, -, -, -⟩ := fresh_of_genesis hstart
  constructor
  · rintro ⟨manifest, chunks, d, hcreate, happly, hsame⟩
    obtain ⟨block, s, hmade⟩ := made_of_createSnapshot hcreate
    have hd := hmade.applySnapshot hsha hgrown.straight hgrown.config.symm hgrown.genesis.symm
      htracker hcodec
    cases happly.symm.trans hd
    have hzero : (c₀.performAll P ops).height = 0 := by
      by_contra hne
      refine hgrown.indexed (Nat.pos_of_ne_zero hne) ?_
      rw [← hsame.blockIndex, installSnapshot_keeps.2.2.2.2.1, hindex]
    refine ⟨hzero, ?_⟩
    intro e he
    -- the payload has the epochs up to that of its height
    have hsent := getElem?_collectHeights (c₀.performAll P ops).epochSnapshots
      (fun e => e.1 ≤ (c₀.performAll P ops).epochForHeight (c₀.performAll P ops).snapshotHeight) e
    have hkept : (c₀.performAll P ops).epochSnapshots[e]? = _ :=
      (congrArg (fun m : HeightMap EpochSnapshot => m[e]?) hsame.epochSnapshots).symm.trans hsent
    have hheight : (c₀.performAll P ops).snapshotHeight = 0 :=
      Nat.le_zero.mp (hzero ▸ snapshotHeight_le)
    obtain ⟨snapshot, hsnapshot⟩ := Option.isSome_iff_exists.mp
      (Std.ExtTreeMap.mem_iff_isSome_getElem?.mp he)
    rw [hsnapshot] at hkept
    have hle := (Option.filter_eq_some_iff.mp hkept.symm).2
    rw [hheight] at hle
    simpa [epochForHeight] using hle
  · rintro ⟨hzero, honly⟩
    have hidle := hgrown.idle hzero honly
    rw [hidle] at hcodec ⊢
    exact roundTrips_genesis hstart hsha hcodec

namespace RoundTripSample

open Scenario Blockchain SnapshotSample

/-- What `c` sends. -/
def sentBy (now : Int) (c : Blockchain) : SnapshotState :=
  match c.blockAtHeight c.snapshotHeight,
      c.replayStateToCanonicalHeight Reference.primitives now c.snapshotHeight with
  | some block, .ok s => c.snapshotState block.hash s
  | _, _ => payloadAt c

theorem decodes_codec (now : Int) (c : Blockchain) :
    c.Decodes Reference.primitives (codec (sentBy now c)) now := by
  intro block s hblock hs
  have hsent : sentBy now c = c.snapshotState block.hash s := by
    unfold sentBy
    rw [hblock, hs]
  rw [hsent, codec, if_pos rfl]

theorem sha3_ne_nil (data : Bytes) : Reference.primitives.sha3 data ≠ [] := by
  refine List.ne_nil_of_length_pos ?_
  rw [show (Reference.primitives.sha3 data).length = 32 from Reference.length_sha3 data]
  decide

/-- A vote on the genesis, and the genesis offered as a block. -/
def idleOps (c : Blockchain) : List LedgerOp :=
  [.addFinalityVote (FinalityVote.new Reference.primitives c.genesis.hash 0 0 (key 1)),
    .addBlock (clock 1) c.genesis]

/-- Block 1. -/
def oneBlock (c : Blockchain) : Option (List LedgerOp) := do
  let (block, _) ← extend c (clock 1) 1
  return [.addBlock (clock 1) block]

end RoundTripSample

open RoundTripSample SnapshotSample LinearSample Scenario Blockchain in
/-- After calls that were all refused the snapshot still hands everything over. -/
theorem snapshot_round_trip_sample : ∃ c₀,
    fromGenesis Reference.primitives LinearSample.genesis = .ok c₀ ∧
      RoundTrips Reference.primitives
        (codec (sentBy (clock 9) (c₀.performAll Reference.primitives (idleOps c₀)))) (clock 9) c₀
        (c₀.performAll Reference.primitives (idleOps c₀)) := by
  have hrun : (fromGenesis Reference.primitives LinearSample.genesis).toOption.any (fun c₀ =>
      decide (c₀.height = 0 ∧ c₀.performAll Reference.primitives (idleOps c₀) = c₀)) = true := by
    decide +kernel
  obtain ⟨c₀, hstart, hidle⟩ := Outcome.ok_of_any hrun
  rw [decide_eq_true_eq] at hidle
  obtain ⟨-, -, -, -, -, -, -, -, hepochs⟩ := fresh_of_genesis hstart
  have hquiet : c₀.NeverSlashes Reference.primitives (idleOps c₀) := ⟨trivial, trivial, trivial⟩
  refine ⟨c₀, hstart, ?_⟩
  refine (snapshot_round_trip_iff hstart hquiet sha3_ne_nil (decodes_codec _ _)).mpr ?_
  rw [hidle.2]
  exact ⟨hidle.1, hepochs⟩

open RoundTripSample SnapshotSample LinearSample Scenario Blockchain in
/-- Block 1 is accepted, and the snapshot of it is made and applied; the receiver holds the block
and cannot find it by its hash. -/
theorem snapshot_forgets_index : ∃ c₀ ops manifest chunks d,
    fromGenesis Reference.primitives LinearSample.genesis = .ok c₀ ∧ oneBlock c₀ = some ops ∧
      c₀.Succeeds Reference.primitives ops ∧ c₀.NeverSlashes Reference.primitives ops ∧
      (c₀.performAll Reference.primitives ops).createSnapshot Reference.primitives (clock 9) =
        .ok (manifest, chunks) ∧
      c₀.applySnapshot Reference.primitives
        (codec (sentBy (clock 9) (c₀.performAll Reference.primitives ops))) manifest chunks =
          .ok d ∧
      d.blocks = (c₀.performAll Reference.primitives ops).blocks ∧
      d.blockHashToHeight ≠ (c₀.performAll Reference.primitives ops).blockHashToHeight ∧
      ¬ RoundTrips Reference.primitives
        (codec (sentBy (clock 9) (c₀.performAll Reference.primitives ops))) (clock 9) c₀
        (c₀.performAll Reference.primitives ops) := by
  have hrun : (fromGenesis Reference.primitives LinearSample.genesis).toOption.any (fun c₀ =>
      (oneBlock c₀).any fun ops =>
        ((c₀.performAll Reference.primitives ops).createSnapshot Reference.primitives
          (clock 9)).toOption.any fun made =>
          (c₀.applySnapshot Reference.primitives
            (codec (sentBy (clock 9) (c₀.performAll Reference.primitives ops)))
            made.1 made.2).toOption.any fun d => decide (
              d.blocks = (c₀.performAll Reference.primitives ops).blocks ∧
              d.blockHashToHeight ≠
                (c₀.performAll Reference.primitives ops).blockHashToHeight)) = true := by
    decide +kernel
  obtain ⟨c₀, hstart, hrest⟩ := Outcome.ok_of_any hrun
  obtain ⟨ops, hops, hrest⟩ := (Option.any_eq_true _ _).mp hrest
  obtain ⟨⟨manifest, chunks⟩, hcreate, hrest⟩ := Outcome.ok_of_any hrest
  obtain ⟨d, happly, hd⟩ := Outcome.ok_of_any hrest
  rw [decide_eq_true_eq] at hd
  have hcalls : c₀.Succeeds Reference.primitives ops ∧ c₀.NeverSlashes Reference.primitives ops := by
    simp only [oneBlock, Option.bind_eq_bind, Option.bind_eq_some_iff] at hops
    obtain ⟨⟨block, c'⟩, hextend, hops⟩ := hops
    cases hops
    exact ⟨⟨congrArg Prod.fst (addBlock_of_extend hextend), trivial⟩, trivial, trivial⟩
  refine ⟨c₀, ops, manifest, chunks, d, hstart, hops, hcalls.1, hcalls.2, hcreate, happly, hd.1,
    hd.2, ?_⟩
  rintro ⟨manifest', chunks', d', hcreate', happly', hsame⟩
  obtain ⟨rfl, rfl⟩ := Prod.mk.inj (Except.ok.inj (hcreate.symm.trans hcreate'))
  cases happly.symm.trans happly'
  exact hd.2 hsame.blockIndex

end Curs3d
