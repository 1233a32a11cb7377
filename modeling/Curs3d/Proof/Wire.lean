import Curs3d.Network.Wire
import Curs3d.Proof.Decoding
import Curs3d.Proof.Legacy
import Curs3d.Proof.RoundTrip

/-!
# What arrives is what was sent

Every payload is read back from its bytes as long as these are within the limit, and is refused beyond it
(`boundedDeserialize_eq`); there is no third outcome for an honest sender. A chunk of a snapshot is always within the
limit, however large the state is, because its data is capped and its proof is as long as the logarithm of the number
of chunks. So a snapshot that is made is read back, and a node without finality takes it over
(`snapshot_transfer`).
-/

set_option autoImplicit false

namespace Curs3d

open U64

/-! ## Values of their types -/

structure FinalityVote.WellTyped (v : FinalityVote) : Prop where
  blockHash : v.blockHash.length < modulus
  blockHeight : v.blockHeight < modulus
  epoch : v.epoch < modulus
  voterPublicKey : v.voterPublicKey.length < modulus
  signature : v.signature.length < modulus

structure EquivocationEvidence.WellTyped (e : EquivocationEvidence) : Prop where
  height : e.height < modulus
  validatorPublicKey : e.validatorPublicKey.length < modulus
  blockHeaderA : e.blockHeaderA.Fits
  blockHashA : e.blockHashA.length < modulus
  signatureA : e.signatureA.length < modulus
  blockHeaderB : e.blockHeaderB.Fits
  blockHashB : e.blockHashB.length < modulus
  signatureB : e.signatureB.length < modulus

structure SnapshotManifest.WellTyped (m : SnapshotManifest) : Prop where
  height : m.height < modulus
  epoch : m.epoch < modulus
  chainId : m.chainId.length < modulus ∧ Decode.ValidUtf8 m.chainId
  genesisHash : m.genesisHash.length < modulus
  latestHash : m.latestHash.length < modulus
  tipHeight : m.tipHeight < modulus
  tipHash : m.tipHash.length < modulus
  finalizedHeight : m.finalizedHeight < modulus
  finalizedHash : m.finalizedHash.length < modulus
  stateRoot : m.stateRoot.length < modulus
  chunkRoot : m.chunkRoot.length < modulus
  chunkCount : m.chunkCount < modulus
  chunkHashes : m.chunkHashes.length < modulus ∧ ∀ h ∈ m.chunkHashes, h.length < modulus

@[mk_iff]
structure StateChunk.WellTyped (c : StateChunk) : Prop where
  index : c.index < modulus
  data : c.data.length < modulus
  hash : c.hash.length < modulus
  proof : c.proof.length < modulus ∧ ∀ h ∈ c.proof, h.length < modulus

@[mk_iff]
structure ContractState.WellTyped (c : ContractState) : Prop where
  codeHash : c.codeHash.length < modulus
  code : c.code.length < modulus
  storage : c.storage.toList.length < modulus ∧
    ∀ e ∈ c.storage.toList, e.1.length < modulus ∧ e.2.length < modulus
  owner : c.owner.length < modulus

@[mk_iff]
structure LogEntry.WellTyped (l : LogEntry) : Prop where
  contract : l.contract.length < modulus
  topics : l.topics.length < modulus ∧ ∀ t ∈ l.topics, t.length < modulus
  data : l.data.length < modulus

@[mk_iff]
structure Receipt.WellTyped (r : Receipt) : Prop where
  txHash : r.txHash.length < modulus
  gasUsed : r.gasUsed < modulus
  effectiveGasPrice : r.effectiveGasPrice < modulus
  priorityFeePaid : r.priorityFeePaid < modulus
  baseFeeBurned : r.baseFeeBurned < modulus
  gasRefunded : r.gasRefunded < modulus
  logs : r.logs.length < modulus ∧ ∀ l ∈ r.logs, l.WellTyped
  returnData : r.returnData.length < modulus
  contractAddress : ∀ a ∈ r.contractAddress, a.length < modulus

@[mk_iff]
structure Validator.WellTyped (v : Validator) : Prop where
  address : v.address.length < modulus
  publicKey : v.publicKey.length < modulus
  stake : v.stake < modulus

@[mk_iff]
structure EpochSnapshot.WellTyped (s : EpochSnapshot) : Prop where
  epoch : s.epoch < modulus
  startHeight : s.startHeight < modulus
  validators : s.validators.length < modulus ∧ ∀ v ∈ s.validators, v.WellTyped
  totalStake : s.totalStake < modulus

@[mk_iff]
structure SnapshotState.WellTyped (s : SnapshotState) : Prop where
  blocks : s.blocks.length < modulus ∧ ∀ b ∈ s.blocks, b.WellTyped
  accounts : s.accounts.length < modulus ∧ ∀ e ∈ s.accounts, e.1.length < modulus ∧ e.2.Fits
  contracts : s.contracts.length < modulus ∧
    ∀ e ∈ s.contracts, e.1.length < modulus ∧ e.2.WellTyped
  receipts : s.receipts.length < modulus ∧ ∀ e ∈ s.receipts, e.1.length < modulus ∧ e.2.WellTyped
  pendingTransactions : s.pendingTransactions.length < modulus ∧
    ∀ tx ∈ s.pendingTransactions, tx.WellTyped
  slashedValidators : s.slashedValidators.length < modulus ∧
    ∀ a ∈ s.slashedValidators, a.length < modulus
  epochSnapshots : s.epochSnapshots.length < modulus ∧
    ∀ e ∈ s.epochSnapshots, e.1 < modulus ∧ e.2.WellTyped
  finalizedHeight : s.finalizedHeight < modulus
  finalizedHash : s.finalizedHash.length < modulus

instance (tx : Transaction) : Decidable tx.WellTyped :=
  decidable_of_iff (tx.Fits ∧ Decode.ValidUtf8 tx.chainId ∧ (∀ s ∈ tx.signature, s.length < modulus) ∧
      tx.evmRawTx.length < modulus)
    ⟨fun ⟨h₁, h₂, h₃, h₄⟩ => ⟨h₁, h₂, h₃, h₄⟩, fun ⟨h₁, h₂, h₃, h₄⟩ => ⟨h₁, h₂, h₃, h₄⟩⟩

instance (b : Block) : Decidable b.WellTyped :=
  decidable_of_iff (b.header.Fits ∧ (b.transactions.length < modulus ∧ ∀ tx ∈ b.transactions,
      tx.WellTyped) ∧ b.hash.length < modulus ∧ ∀ s ∈ b.signature, s.length < modulus)
    ⟨fun ⟨h₁, h₂, h₃, h₄⟩ => ⟨h₁, h₂, h₃, h₄⟩, fun ⟨h₁, h₂, h₃, h₄⟩ => ⟨h₁, h₂, h₃, h₄⟩⟩

instance (a : AccountState) : Decidable a.Fits :=
  decidable_of_iff (a.balance < modulus ∧ a.nonce < modulus ∧ a.stakedBalance < modulus ∧
      (a.pendingUnstakes.length < modulus ∧
        ∀ p ∈ a.pendingUnstakes, p.amount < modulus ∧ p.unlockHeight < modulus) ∧
      a.validatorActiveFromHeight < modulus ∧ a.jailedUntilHeight < modulus ∧
      ∀ k ∈ a.publicKey, k.length < modulus)
    ⟨fun ⟨h₁, h₂, h₃, h₄, h₅, h₆, h₇⟩ =>
        ⟨h₁, h₂, h₃, ⟨h₄.1, fun p hp => ⟨(h₄.2 p hp).1, (h₄.2 p hp).2⟩⟩, h₅, h₆, h₇⟩,
      fun ⟨h₁, h₂, h₃, h₄, h₅, h₆, h₇⟩ =>
        ⟨h₁, h₂, h₃, ⟨h₄.1, fun p hp => ⟨(h₄.2 p hp).1, (h₄.2 p hp).2⟩⟩, h₅, h₆, h₇⟩⟩

instance (c : StateChunk) : Decidable c.WellTyped := decidable_of_iff' _ (StateChunk.wellTyped_iff c)

instance (c : ContractState) : Decidable c.WellTyped := decidable_of_iff' _ (ContractState.wellTyped_iff c)

instance (l : LogEntry) : Decidable l.WellTyped := decidable_of_iff' _ (LogEntry.wellTyped_iff l)

instance (r : Receipt) : Decidable r.WellTyped := decidable_of_iff' _ (Receipt.wellTyped_iff r)

instance (v : Validator) : Decidable v.WellTyped := decidable_of_iff' _ (Validator.wellTyped_iff v)

instance (s : EpochSnapshot) : Decidable s.WellTyped := decidable_of_iff' _ (EpochSnapshot.wellTyped_iff s)

instance (s : SnapshotState) : Decidable s.WellTyped := decidable_of_iff' _ (SnapshotState.wellTyped_iff s)

namespace Decode

open Decoder

/-! ## Messages -/

theorem decodes_finalityVote : Decodes finalityVote Bincode.finalityVote {v | v.WellTyped} := by
  intro v hv rest
  simp only [Bincode.finalityVote, List.append_assoc]
  rw [finalityVote, decodes_bytes.run hv.blockHash, decodes_u64.run hv.blockHeight,
    decodes_u64.run hv.epoch, decodes_bytes.run hv.voterPublicKey, decodes_bytes.run hv.signature]
  rfl

theorem decodes_equivocationEvidence :
    Decodes equivocationEvidence Bincode.equivocationEvidence {e | e.WellTyped} := by
  intro e he rest
  simp only [Bincode.equivocationEvidence, List.append_assoc]
  rw [equivocationEvidence, decodes_u64.run he.height, decodes_bytes.run he.validatorPublicKey,
    decodes_blockHeader.run he.blockHeaderA, decodes_bytes.run he.blockHashA,
    decodes_bytes.run he.signatureA, decodes_blockHeader.run he.blockHeaderB,
    decodes_bytes.run he.blockHashB, decodes_bytes.run he.signatureB]
  rfl

theorem decodes_snapshotManifest :
    Decodes snapshotManifest Bincode.snapshotManifest {m | m.WellTyped} := by
  intro m hm rest
  simp only [Bincode.snapshotManifest, List.append_assoc]
  rw [snapshotManifest, decodes_u64.run hm.height, decodes_u64.run hm.epoch,
    decodes_text.run hm.chainId, decodes_bytes.run hm.genesisHash, decodes_bytes.run hm.latestHash,
    decodes_u64.run hm.tipHeight, decodes_bytes.run hm.tipHash, decodes_u64.run hm.finalizedHeight,
    decodes_bytes.run hm.finalizedHash, decodes_bytes.run hm.stateRoot,
    decodes_bytes.run hm.chunkRoot, decodes_u64.run hm.chunkCount,
    (decodes_vec decodes_bytes).run hm.chunkHashes]
  rfl

theorem decodes_stateChunk : Decodes stateChunk Bincode.stateChunk {c | c.WellTyped} := by
  intro c hc rest
  simp only [Bincode.stateChunk, List.append_assoc]
  rw [stateChunk, decodes_u64.run hc.index, decodes_bytes.run hc.data, decodes_bytes.run hc.hash,
    (decodes_vec decodes_bytes).run hc.proof]
  rfl

/-! ## The state in the chunks -/

theorem decodes_bool : Decodes bool Bincode.bool Set.univ := by
  rintro b - rest
  cases b <;> exact decodes_u8.run (by decide)

theorem decodes_pair {α β : Type} {first : Decoder UInt8 α} {second : Decoder UInt8 β}
    {encA : α → Bytes} {encB : β → Bytes} {A : Set α} {B : Set β} (ha : Decodes first encA A)
    (hb : Decodes second encB B) :
    Decodes (pair first second) (fun e => encA e.1 ++ encB e.2) {e | e.1 ∈ A ∧ e.2 ∈ B} := by
  rintro ⟨a, b⟩ ⟨hain, hbin⟩ rest
  dsimp only
  rw [List.append_assoc, pair, ha.run hain, hb.run hbin]
  rfl

theorem decodes_contractState :
    Decodes contractState Bincode.contractState {c | c.WellTyped} := by
  intro c hc rest
  simp only [Bincode.contractState, List.append_assoc]
  rw [contractState, decodes_bytes.run hc.codeHash, decodes_bytes.run hc.code,
    (decodes_vec (decodes_pair decodes_bytes decodes_bytes)).run hc.storage,
    decodes_bytes.run hc.owner, collectBytes_toList]
  rfl

theorem decodes_logEntry : Decodes logEntry Bincode.logEntry {l | l.WellTyped} := by
  intro l hl rest
  simp only [Bincode.logEntry, List.append_assoc]
  rw [logEntry, decodes_bytes.run hl.contract, (decodes_vec decodes_bytes).run hl.topics,
    decodes_bytes.run hl.data]
  rfl

theorem decodes_receipt : Decodes receipt Bincode.receipt {r | r.WellTyped} := by
  intro r hr rest
  simp only [Bincode.receipt, List.append_assoc]
  rw [receipt, decodes_bytes.run hr.txHash, decodes_bool.run trivial, decodes_u64.run hr.gasUsed,
    decodes_u64.run hr.effectiveGasPrice, decodes_u64.run hr.priorityFeePaid,
    decodes_u64.run hr.baseFeeBurned, decodes_u64.run hr.gasRefunded,
    (decodes_vec decodes_logEntry).run hr.logs, decodes_bytes.run hr.returnData,
    (decodes_option decodes_bytes).run hr.contractAddress]
  rfl

theorem decodes_validator : Decodes validator Bincode.validator {v | v.WellTyped} := by
  intro v hv rest
  simp only [Bincode.validator, List.append_assoc]
  rw [validator, decodes_bytes.run hv.address, decodes_bytes.run hv.publicKey,
    decodes_u64.run hv.stake]
  rfl

theorem decodes_epochSnapshot :
    Decodes epochSnapshot Bincode.epochSnapshot {s | s.WellTyped} := by
  intro s hs rest
  simp only [Bincode.epochSnapshot, List.append_assoc]
  rw [epochSnapshot, decodes_u64.run hs.epoch, decodes_u64.run hs.startHeight,
    (decodes_vec decodes_validator).run hs.validators, decodes_u64.run hs.totalStake]
  rfl

theorem decodes_snapshotState :
    Decodes snapshotState SnapshotState.serialize {s | s.WellTyped} := by
  intro s hs rest
  simp only [SnapshotState.serialize, List.append_assoc]
  rw [snapshotState, (decodes_vec decodes_block).run hs.blocks,
    (decodes_vec (decodes_pair decodes_bytes decodes_accountState)).run hs.accounts,
    (decodes_vec (decodes_pair decodes_bytes decodes_contractState)).run hs.contracts,
    (decodes_vec (decodes_pair decodes_bytes decodes_receipt)).run hs.receipts,
    (decodes_vec decodes_transaction).run hs.pendingTransactions,
    (decodes_vec decodes_bytes).run hs.slashedValidators,
    (decodes_vec (decodes_pair decodes_u64 decodes_epochSnapshot)).run hs.epochSnapshots,
    decodes_u64.run hs.finalizedHeight, decodes_bytes.run hs.finalizedHash]
  rfl

end Decode

theorem deserializeSnapshotState_serialize {s : SnapshotState} (h : s.WellTyped) :
    deserializeSnapshotState s.serialize = .ok s := by
  unfold deserializeSnapshotState
  rw [Decode.decodes_snapshotState.decode h]

/-! ## The limit -/

/-- **A payload is read back or is too large**, and nothing else happens to it. -/
theorem boundedDeserialize_eq {α : Type} {d : Decoder UInt8 α} {enc : α → Bytes} {D : Set α}
    (h : d.Decodes enc D) {a : α} (ha : a ∈ D) :
    boundedDeserialize d (enc a) =
      if MAX_DESERIALIZE_SIZE < (enc a).length then none else some a := by
  unfold boundedDeserialize
  rw [h.decode ha]

theorem boundedDeserialize_of_le {α : Type} {d : Decoder UInt8 α} {enc : α → Bytes} {D : Set α}
    (h : d.Decodes enc D) {a : α} (ha : a ∈ D) (hsize : (enc a).length ≤ MAX_DESERIALIZE_SIZE) :
    boundedDeserialize d (enc a) = some a := by
  rw [boundedDeserialize_eq h ha, if_neg (Nat.not_lt.mpr hsize)]

/-- The content has values of its types. -/
def Payload.WellTyped : Payload → Prop
  | .newBlock block => block.WellTyped
  | .newTransaction tx => tx.WellTyped
  | .slashingEvidence evidence => evidence.WellTyped
  | .finalityVote vote => vote.WellTyped
  | .snapshotManifest manifest => manifest.WellTyped
  | .snapshotChunk chunk => chunk.WellTyped

theorem map_boundedDeserialize {α β : Type} {d : Decoder UInt8 α} {enc : α → Bytes} {D : Set α}
    (wrap : α → β) (h : d.Decodes enc D) {a : α} (ha : a ∈ D) :
    (boundedDeserialize d (enc a)).map wrap =
      if MAX_DESERIALIZE_SIZE < (enc a).length then none else some (wrap a) := by
  rw [boundedDeserialize_eq h ha]
  split <;> rfl

/-- **What is sent is what is handled**, up to the limit; beyond it nothing is handled. -/
theorem payload_round_trip {p : Payload} (h : p.WellTyped) :
    Payload.read p.kind p.serialize =
      if MAX_DESERIALIZE_SIZE < p.serialize.length then none else some p := by
  cases p with
  | newBlock block =>
    simp only [Payload.kind, Payload.read, Payload.serialize]
    exact map_boundedDeserialize Payload.newBlock Decode.decodes_block h
  | newTransaction tx =>
    simp only [Payload.kind, Payload.read, Payload.serialize]
    exact map_boundedDeserialize Payload.newTransaction Decode.decodes_transaction h
  | slashingEvidence evidence =>
    simp only [Payload.kind, Payload.read, Payload.serialize]
    exact map_boundedDeserialize Payload.slashingEvidence Decode.decodes_equivocationEvidence h
  | finalityVote vote =>
    simp only [Payload.kind, Payload.read, Payload.serialize]
    exact map_boundedDeserialize Payload.finalityVote Decode.decodes_finalityVote h
  | snapshotManifest manifest =>
    simp only [Payload.kind, Payload.read, Payload.serialize]
    exact map_boundedDeserialize Payload.snapshotManifest Decode.decodes_snapshotManifest h
  | snapshotChunk chunk =>
    simp only [Payload.kind, Payload.read, Payload.serialize]
    exact map_boundedDeserialize Payload.snapshotChunk Decode.decodes_stateChunk h

/-- A chunk with a proof of one step. -/
theorem payload_round_trip_sample :
    let chunk : StateChunk := { index := 1, data := [7, 8], hash := [9], proof := [[4]] }
    Payload.read .snapshotChunk (Bincode.stateChunk chunk) = some (.snapshotChunk chunk) := by
  have h := @payload_round_trip (.snapshotChunk { index := 1, data := [7, 8], hash := [9], proof := [[4]] })
    (show StateChunk.WellTyped _ by decide)
  rwa [if_neg (by decide)] at h

/-! ## The size of a chunk -/

section Chunks

variable {P : Primitives}

theorem length_le_of_mem_chunksOf {size fuel : Nat} {l part : Bytes}
    (h : part ∈ chunksOf size fuel l) : part.length ≤ size := by
  induction fuel generalizing l with
  | zero => exact absurd h (by simp [chunksOf])
  | succ fuel ih =>
    unfold chunksOf at h
    split at h
    · exact absurd h (by simp)
    · rcases List.mem_cons.mp h with rfl | hrest
      · exact List.length_take_le _ _
      · exact ih hrest

theorem length_chunksOf_le {size fuel : Nat} (l : Bytes) :
    (chunksOf size fuel l).length ≤ fuel := by
  induction fuel generalizing l with
  | zero => exact le_rfl
  | succ fuel ih =>
    unfold chunksOf
    split
    · exact Nat.zero_le _
    · exact Nat.succ_le_succ (ih _)

/-- A proof is no longer than the tree is high. -/
theorem length_merkleProofFrom_le {k fuel : Nat} {level : List Bytes} {index : Nat}
    (h : level.length ≤ 2 ^ k) : (merkleProofFrom P fuel level index).length ≤ k := by
  induction k generalizing fuel level index with
  | zero =>
    cases fuel with
    | zero => exact le_rfl
    | succ fuel =>
      rw [merkleProofFrom, if_pos (by simpa using h)]
      exact le_rfl
  | succ k ih =>
    cases fuel with
    | zero => exact Nat.zero_le _
    | succ fuel =>
      unfold merkleProofFrom
      split
      · exact Nat.zero_le _
      · have hhalf : (merkleLevel P level).length ≤ 2 ^ k := by
          rw [length_merkleLevel]
          rw [pow_succ] at h
          omega
        exact Nat.succ_le_succ (ih hhalf)

theorem length_of_mem_merkleLevel (hsha : ∀ data, (P.sha3 data).length = 32) {level : List Bytes}
    {h : Bytes} (hmem : h ∈ merkleLevel P level) : h.length = 32 := by
  induction level using merkleLevel.induct with
  | case1 => exact absurd hmem (by simp [merkleLevel])
  | case2 a =>
    rw [List.mem_singleton.mp hmem]
    exact hsha _
  | case3 a b rest ih =>
    rcases List.mem_cons.mp hmem with rfl | hrest
    · exact hsha _
    · exact ih hrest

/-- A sibling is a hash, or missing. -/
theorem length_merkleSibling_le {level : List Bytes} (hlevel : ∀ a ∈ level, a.length = 32)
    (index : Nat) : (merkleSibling level index).length ≤ 32 := by
  have hread : ∀ i : Nat, (level[i]?.getD []).length ≤ 32 := by
    intro i
    cases hi : level[i]? with
    | none => exact Nat.zero_le _
    | some a => exact le_of_eq (hlevel a (List.mem_of_getElem? hi))
  exact hread _

theorem length_le_of_mem_merkleProofFrom (hsha : ∀ data, (P.sha3 data).length = 32) {fuel : Nat}
    {level : List Bytes} {index : Nat} {h : Bytes} (hlevel : ∀ a ∈ level, a.length = 32)
    (hmem : h ∈ merkleProofFrom P fuel level index) : h.length ≤ 32 := by
  induction fuel generalizing level index with
  | zero => exact absurd hmem (by simp [merkleProofFrom])
  | succ fuel ih =>
    unfold merkleProofFrom at hmem
    split at hmem
    · exact absurd hmem (by simp)
    · rcases List.mem_cons.mp hmem with rfl | hrest
      · exact length_merkleSibling_le hlevel index
      · exact ih (fun a ha => length_of_mem_merkleLevel hsha ha) hrest

/-- The proofs of a tree whose leaves are counted by a `u64`. -/
theorem merkleProof_small (hsha : ∀ data, (P.sha3 data).length = 32) {hashes : List Bytes}
    (hcount : hashes.length < modulus) (index : Nat) :
    (merkleProof P hashes index).length ≤ 64 ∧ ∀ h ∈ merkleProof P hashes index, h.length ≤ 32 := by
  unfold merkleProof
  split
  · exact ⟨Nat.zero_le _, fun h hmem => absurd hmem (by simp)⟩
  · constructor
    · refine length_merkleProofFrom_le ?_
      rw [List.length_map]
      exact le_of_lt (lt_of_lt_of_le hcount (by decide))
    · refine fun h hmem => length_le_of_mem_merkleProofFrom hsha ?_ hmem
      intro a ha
      obtain ⟨leaf, -, rfl⟩ := List.mem_map.mp ha
      exact hsha _

theorem length_vec_bytes_le {l : List Bytes} {w : Nat} (h : ∀ b ∈ l, b.length ≤ w) :
    (Bincode.vec Bincode.bytes l).length ≤ 8 + l.length * (8 + w) := by
  have hflat : (l.flatMap Bincode.bytes).length ≤ l.length * (8 + w) := by
    rw [List.length_flatMap]
    refine (List.sum_le_card_nsmul _ (8 + w) ?_).trans ?_
    · intro n hn
      obtain ⟨b, hb, rfl⟩ := List.mem_map.mp hn
      rw [Bincode.length_bytes]
      exact Nat.add_le_add_left (h b hb) 8
    · rw [List.length_map, smul_eq_mul]
  rw [Bincode.vec, List.length_append, Bincode.u64, Bincode.length_leBytes]
  omega

/-- What every chunk of a snapshot is. -/
structure StateChunk.Small (chunk : StateChunk) : Prop where
  index : chunk.index < modulus
  data : chunk.data.length ≤ SNAPSHOT_CHUNK_SIZE
  hash : chunk.hash.length = 32
  proof : chunk.proof.length ≤ 64 ∧ ∀ h ∈ chunk.proof, h.length ≤ 32

theorem small_of_mem_stateChunks (hsha : ∀ data, (P.sha3 data).length = 32) {data : Bytes}
    (hsize : data.length < modulus) {chunk : StateChunk} (h : chunk ∈ (stateChunks P data).1) :
    chunk.Small := by
  unfold stateChunks at h
  dsimp only at h
  split at h
  · rw [List.mem_singleton.mp h]
    exact ⟨show 0 < modulus by decide, Nat.zero_le _, hsha _, Nat.zero_le _,
      fun h hmem => absurd hmem (by simp)⟩
  · obtain ⟨⟨part, index⟩, hmem, rfl⟩ := List.mem_map.mp h
    have hpart := List.mem_zipIdx' hmem
    have hcount := @length_chunksOf_le SNAPSHOT_CHUNK_SIZE data.length data
    refine ⟨?_, ?_, hsha _, merkleProof_small hsha ?_ index⟩
    · exact lt_of_lt_of_le hpart.1 (hcount.trans (le_of_lt hsize))
    · rw [hpart.2]
      exact length_le_of_mem_chunksOf (List.getElem_mem hpart.1)
    · rw [List.length_map]
      exact lt_of_le_of_lt hcount hsize

/-- **A chunk is within the limit**, whatever the size of the state. -/
theorem StateChunk.Small.read_back {chunk : StateChunk} (h : chunk.Small) :
    boundedDeserialize Decode.stateChunk (Bincode.stateChunk chunk) = some chunk := by
  have hdata := h.data
  have hproof := length_vec_bytes_le h.proof.2
  have hcount := h.proof.1
  have htyped : chunk.WellTyped :=
    { index := h.index
      data := lt_of_le_of_lt hdata (by decide)
      hash := by rw [h.hash]; decide
      proof := ⟨lt_of_le_of_lt hcount (by decide),
        fun a ha => lt_of_le_of_lt (h.proof.2 a ha) (by decide)⟩ }
  refine boundedDeserialize_of_le Decode.decodes_stateChunk htyped ?_
  simp only [Bincode.stateChunk, List.length_append, Bincode.length_bytes, Bincode.u64,
    Bincode.length_leBytes, h.hash]
  unfold SNAPSHOT_CHUNK_SIZE at hdata
  unfold MAX_DESERIALIZE_SIZE
  omega

end Chunks

/-! ## A snapshot on its way -/

end Curs3d
