import Curs3d.Chain.Snapshot
import Curs3d.Proof.Restart

/-!
# What an applied snapshot is known to be

`applySnapshot` takes its manifest and its chunks from a peer. The chunks are checked against the
manifest's hashes, the decoded accounts against the manifest's state root, the first and the last
block against the manifest's hashes, and the blocks at protected heights against the local ones,
by hash. Nothing in these checks looks inside a block, and the protected heights end where the
manifest says that finality ends.

`applySnapshot_eq_ok` spells the checks out. The two main results compare them with what they are
there for: when the installed blocks are one chain with the installed state at its end, and when
the local finalized blocks survive.
-/

set_option autoImplicit false

namespace Curs3d

open Outcome

variable {P : Primitives} {deserialize : Bytes → Except String SnapshotState}
  {manifest : SnapshotManifest} {chunks : List StateChunk} {payload : SnapshotState}
  {c c' : Blockchain}

/-! ## The checks -/

@[simp] theorem ensureSnapshot_eq_ok {cond : Bool} {reason : String} {u : Unit} :
    ensureSnapshot cond reason = .ok u ↔ cond = true := by
  cases cond <;> simp [ensureSnapshot]

/-- The payload of a manifest and its chunks passed every check of `decode_snapshot_state`. -/
structure Decoded (P : Primitives) (deserialize : Bytes → Except String SnapshotState)
    (manifest : SnapshotManifest) (chunks : List StateChunk) (payload : SnapshotState) : Prop where
  count : chunks.length = manifest.chunkCount
  verified : checkChunks P manifest 0 chunks = .ok ()
  bytes : deserialize (chunks.flatMap StateChunk.data) = .ok payload
  root : StateRoot.computeFull P (collectBytes payload.accounts) (collectBytes payload.contracts) =
    manifest.stateRoot
  first : payload.blocks.head?.map Block.hash = some manifest.genesisHash
  last : payload.blocks.getLast?.map Block.hash = some manifest.latestHash

theorem decodeSnapshotState_eq_ok :
    decodeSnapshotState P deserialize manifest chunks = .ok payload ↔
      Decoded P deserialize manifest chunks payload := by
  unfold decodeSnapshotState
  simp only [except_bind_eq_ok, ensureSnapshot_eq_ok, decide_eq_true_eq]
  constructor
  · rintro ⟨_, hcount, _, hchunks, h⟩
    cases hbytes : deserialize (chunks.flatMap StateChunk.data) with
    | error reason => exact absurd h (by simp [hbytes])
    | ok state =>
      simp only [hbytes, except_bind_eq_ok, ensureSnapshot_eq_ok, decide_eq_true_eq] at h
      obtain ⟨_, hroot, _, hne, _, hfirst, _, hlast, hstate⟩ := h
      cases hstate
      refine ⟨hcount, hchunks, hbytes, hroot, hfirst, ?_⟩
      cases hblocks : payload.blocks.getLast? with
      | none =>
        rw [List.getLast?_eq_none_iff] at hblocks
        exact absurd hne (by simp [hblocks])
      | some b => simpa [hblocks] using hlast
  · intro h
    refine ⟨(), h.count, (), h.verified, ?_⟩
    simp only [h.bytes, except_bind_eq_ok, ensureSnapshot_eq_ok, decide_eq_true_eq]
    have hne : payload.blocks ≠ [] := by
      intro hnil
      exact absurd h.first (by simp [hnil])
    exact ⟨(), h.root, (), by simpa using hne, (), h.first, (), by rw [h.last]; rfl, rfl⟩

namespace Blockchain

/-- A snapshot is applied exactly when the manifest, the payload and every block of the payload
pass, and then the payload is what the node holds. -/
theorem applySnapshot_eq_ok : c.applySnapshot P deserialize manifest chunks = .ok c' ↔
    c.checkManifest manifest = .ok () ∧ ∃ payload, Decoded P deserialize manifest chunks payload ∧
      (∀ b ∈ payload.blocks, c.agreesLocally manifest b = true) ∧
      c.installSnapshot P manifest payload = c' := by
  unfold applySnapshot
  simp only [except_bind_eq_ok, decodeSnapshotState_eq_ok]
  constructor
  · rintro ⟨_, hmanifest, payload, hdecoded, h⟩
    refine ⟨hmanifest, payload, hdecoded, ?_⟩
    cases hfind : payload.blocks.find? fun b => !c.agreesLocally manifest b with
    | some b => exact absurd h (by simp [hfind])
    | none =>
      simp only [hfind] at h
      cases h
      exact ⟨fun b hb => by simpa using List.find?_eq_none.mp hfind b hb, rfl⟩
  · rintro ⟨hmanifest, payload, hdecoded, hagree, rfl⟩
    refine ⟨(), hmanifest, payload, hdecoded, ?_⟩
    have hfind : (payload.blocks.find? fun b => !c.agreesLocally manifest b) = none := by
      rw [List.find?_eq_none]
      intro b hb
      simp [hagree b hb]
    simp only [hfind]
    rfl

/-- Where a block of the snapshot agrees with the local one at a protected height. -/
theorem hash_of_agreesLocally {b stored : Block} (h : c.agreesLocally manifest b = true)
    (hlocal : c.blockAtHeight b.header.height = some stored)
    (hprotected : b.header.height = 0 ∨ b.header.height ≤ c.protectedHeight manifest) :
    stored.hash = b.hash := by
  by_contra hne
  unfold agreesLocally at h
  exact absurd h (by simp [hlocal, hne, hprotected])

/-! ## What is installed -/

/-- The blocks a cursor takes come at consecutive heights. -/
theorem height_of_appendable {blocks : List Block} {n i : Nat} {b : Block}
    (h : (appendable n blocks)[i]? = some b) : b.header.height = n + i := by
  induction blocks generalizing n i with
  | nil => exact absurd h (by simp [appendable])
  | cons block rest ih =>
    unfold appendable at h
    split at h
    · next hheight =>
      cases i with
      | zero =>
        cases h
        simpa using hheight
      | succ i =>
        have := ih (n := n + 1) (i := i) (by simpa using h)
        omega
    · exact ih h

theorem mem_of_mem_appendable {blocks : List Block} {n : Nat} {b : Block}
    (h : b ∈ appendable n blocks) : b ∈ blocks := by
  induction blocks generalizing n with
  | nil => exact absurd h (by simp [appendable])
  | cons block rest ih =>
    unfold appendable at h
    split at h
    · rcases List.mem_cons.mp h with rfl | hmem
      · exact List.mem_cons_self
      · exact List.mem_cons_of_mem _ (ih hmem)
    · exact List.mem_cons_of_mem _ (ih h)

section Installed

variable (P c manifest payload)

-- Only the receipt indexes are rebuilt after the assignments, so the other fields are read off.
@[simp] theorem installSnapshot_blocks :
    (c.installSnapshot P manifest payload).blocks = appendable 0 payload.blocks :=
  congrArg Blockchain.blocks rebuildReceiptIndexes_unindexed

@[simp] theorem installSnapshot_genesis : (c.installSnapshot P manifest payload).genesis =
    (appendable 0 payload.blocks).head?.getD c.genesis :=
  congrArg Blockchain.genesis rebuildReceiptIndexes_unindexed

@[simp] theorem installSnapshot_baseHeight :
    (c.installSnapshot P manifest payload).baseHeight = c.baseHeight := by
  change (rebuildReceiptIndexes P _).unindexed.baseHeight = _
  rw [rebuildReceiptIndexes_unindexed]
  rfl

@[simp] theorem installSnapshot_accounts :
    (c.installSnapshot P manifest payload).accounts = collectBytes payload.accounts :=
  congrArg Blockchain.accounts rebuildReceiptIndexes_unindexed

@[simp] theorem installSnapshot_contracts :
    (c.installSnapshot P manifest payload).contracts = collectBytes payload.contracts :=
  congrArg Blockchain.contracts rebuildReceiptIndexes_unindexed

@[simp] theorem installSnapshot_finalizedHeight :
    (c.installSnapshot P manifest payload).finalityTracker.finalizedHeight =
      manifest.finalizedHeight := rfl

end Installed

/-! ## One chain with its state -/

end Blockchain

/-- Heights `0, 1, ..` without a gap, each block on the one before it, each hash that of its
header, and the given genesis at the bottom. -/
structure OneChain (P : Primitives) (genesis : Block) (blocks : List Block) : Prop where
  bottom : blocks.head? = some genesis
  heights : ∀ (i : Nat) (b : Block), blocks[i]? = some b → b.header.height = i
  linked : List.IsChain (fun a b : Block => b.header.prevHash = a.hash) blocks
  hashed : ∀ b ∈ blocks, b.hash = Block.computeHash P b.header

/-- What a node that applied a snapshot should hold: one chain from its own genesis, and the state
its last block commits to. -/
structure SoundInstall (P : Primitives) (c c' : Blockchain) : Prop where
  chain : OneChain P c.genesis c'.blocks
  root : ∃ last, c'.blocks.getLast? = some last ∧
    StateRoot.computeAtProtocol P c'.accounts c'.contracts last.header.version =
      last.header.stateRoot

/-- The blocks of a payload that come at the next height on top of `previous` name the block they
come on and carry the hash of their own header. The others are skipped by the cursor. -/
def linkedOn (P : Primitives) : Block → List Block → Bool
  | _, [] => true
  | previous, block :: rest =>
    if block.header.height = previous.header.height + 1 then
      decide (block.header.prevHash = previous.hash) && block.verifyHash P && linkedOn P block rest
    else linkedOn P previous rest

/-- The last block of a payload that comes at the next height. -/
def topOn : Block → List Block → Block
  | previous, [] => previous
  | previous, block :: rest =>
    if block.header.height = previous.header.height + 1 then topOn block rest
    else topOn previous rest

/-- A payload with nothing forged in it: its first block of height 0 is the local genesis, its
blocks link up from there, and the last of them commits to the state. Up to protocol 5 that is the
root the manifest states, which has been compared with the payload; from protocol 6 on it is a root
that no check computes. -/
def HonestPayload (P : Primitives) (genesis : Block) (manifest : SnapshotManifest)
    (payload : SnapshotState) : Prop :=
  ∃ rest, payload.blocks.dropWhile (fun b => b.header.height ≠ 0) = genesis :: rest ∧
    genesis.verifyHash P ∧ linkedOn P genesis rest ∧
    (topOn genesis rest).header.stateRoot =
      if V6_PROTOCOL_VERSION ≤ (topOn genesis rest).header.version then
        StateRoot.computeV6Smt P (collectBytes payload.accounts) (collectBytes payload.contracts)
      else manifest.stateRoot

namespace Blockchain

theorem appendable_eq (n : Nat) (blocks : List Block) :
    appendable n blocks = match blocks.dropWhile (fun b => b.header.height ≠ n) with
      | [] => []
      | b :: rest => b :: appendable (n + 1) rest := by
  induction blocks with
  | nil => rfl
  | cons block rest ih =>
    rw [appendable]
    by_cases h : block.header.height = n
    · simp [h]
    · rw [if_neg h, ih]
      simp [h]

/-- The scan of a payload says what the list the cursor ends up with is. -/
theorem linkedOn_iff {previous : Block} {blocks : List Block} {n : Nat}
    (hn : n = previous.header.height + 1) :
    linkedOn P previous blocks = true ↔
      (previous :: appendable n blocks).IsChain (fun a b => b.header.prevHash = a.hash) ∧
      ∀ b ∈ appendable n blocks, b.hash = Block.computeHash P b.header := by
  induction blocks generalizing previous n with
  | nil => simp [linkedOn, appendable]
  | cons block rest ih =>
    unfold linkedOn appendable
    by_cases h : block.header.height = n
    · rw [if_pos h, if_pos (h.trans hn)]
      simp only [Bool.and_eq_true, decide_eq_true_eq, ih (congrArg (· + 1) h.symm), Block.verifyHash,
        List.isChain_cons_cons, List.forall_mem_cons]
      tauto
    · rw [if_neg h, if_neg (fun h' => h (h'.trans hn.symm))]
      exact ih hn

theorem getLast_topOn {previous : Block} {blocks : List Block} {n : Nat}
    (hn : n = previous.header.height + 1) :
    (previous :: appendable n blocks).getLast? = some (topOn previous blocks) := by
  induction blocks generalizing previous n with
  | nil => simp [topOn, appendable]
  | cons block rest ih =>
    unfold topOn appendable
    by_cases h : block.header.height = n
    · rw [if_pos h, if_pos (h.trans hn), List.getLast?_cons_cons]
      exact ih (congrArg (· + 1) h.symm)
    · rw [if_neg h, if_neg (fun h' => h (h'.trans hn.symm))]
      exact ih hn

/-- The local genesis hangs below everything the cursor takes exactly when it is the first block of
height 0 that the payload has. -/
theorem appendable_head_iff {genesis : Block} {blocks : List Block} :
    (appendable 0 blocks).head? = some genesis ↔
      ∃ rest, blocks.dropWhile (fun b => b.header.height ≠ 0) = genesis :: rest ∧
        appendable 0 blocks = genesis :: appendable 1 rest := by
  rw [appendable_eq]
  cases blocks.dropWhile (fun b => b.header.height ≠ 0) with
  | nil => simp
  | cons b rest =>
    simp only [List.head?_cons, Option.some.injEq, zero_add, List.cons.injEq]
    constructor
    · rintro rfl
      exact ⟨rest, ⟨rfl, rfl⟩, rfl, rfl⟩
    · rintro ⟨_, ⟨rfl, _⟩, _⟩
      rfl

/-- An applied snapshot leaves the node with one chain and the state at its end exactly when
nothing in the payload is forged: of all this the checks enforce the heights, the hash of the
genesis and the root of the manifest, and nothing else. -/
theorem applied_snapshot_sound_iff
    (h : c.applySnapshot P deserialize manifest chunks = .ok c')
    (hpayload : deserialize (chunks.flatMap StateChunk.data) = .ok payload) :
    SoundInstall P c c' ↔ HonestPayload P c.genesis manifest payload := by
  obtain ⟨-, payload', hdecoded, -, rfl⟩ := applySnapshot_eq_ok.mp h
  cases hdecoded.bytes.symm.trans hpayload
  have hroot : ∀ version, StateRoot.computeAtProtocol P (collectBytes payload.accounts)
      (collectBytes payload.contracts) version =
        if V6_PROTOCOL_VERSION ≤ version then
          StateRoot.computeV6Smt P (collectBytes payload.accounts) (collectBytes payload.contracts)
        else manifest.stateRoot := by
    intro version
    rw [← hdecoded.root]
    rfl
  constructor
  · intro hsound
    obtain ⟨rest, hrest, hkept⟩ := appendable_head_iff.mp
      (by simpa using hsound.chain.bottom)
    have hchain := hsound.chain
    rw [installSnapshot_blocks, hkept] at hchain
    have hzero : 1 = c.genesis.header.height + 1 := by
      rw [hchain.heights 0 c.genesis rfl]
    refine ⟨rest, hrest, by simpa [Block.verifyHash] using hchain.hashed c.genesis (by simp), ?_, ?_⟩
    · exact (linkedOn_iff hzero).mpr
        ⟨hchain.linked, fun b hb => hchain.hashed b (List.mem_cons_of_mem _ hb)⟩
    · obtain ⟨last, hlast, hcommitted⟩ := hsound.root
      rw [installSnapshot_blocks, hkept, getLast_topOn hzero] at hlast
      cases hlast
      rw [← hcommitted, ← hroot, installSnapshot_accounts, installSnapshot_contracts]
  · rintro ⟨rest, hrest, hgenesis, hlinked, hcommitted⟩
    have hkept : appendable 0 payload.blocks = c.genesis :: appendable 1 rest := by
      rw [appendable_eq, hrest]
    have hheight : c.genesis.header.height = 0 :=
      height_of_appendable (n := 0) (i := 0) (by rw [hkept]; rfl)
    have hzero : 1 = c.genesis.header.height + 1 := by rw [hheight]
    obtain ⟨hchained, hhashed⟩ := (linkedOn_iff hzero).mp hlinked
    refine ⟨⟨by simp [hkept], ?_, by simpa [hkept] using hchained, ?_⟩, topOn c.genesis rest, ?_, ?_⟩
    · intro i b hb
      rw [installSnapshot_blocks] at hb
      rw [height_of_appendable hb, zero_add]
    · rw [installSnapshot_blocks, hkept]
      exact List.forall_mem_cons.mpr ⟨by simpa [Block.verifyHash] using hgenesis, hhashed⟩
    · rw [installSnapshot_blocks, hkept, getLast_topOn hzero]
    · rw [installSnapshot_accounts, installSnapshot_contracts, hroot, hcommitted]

/-! ## Local finality -/

/-- What finality promises across a snapshot. -/
structure KeepsFinalized (c c' : Blockchain) : Prop where
  height : c.finalityTracker.finalizedHeight ≤ c'.finalityTracker.finalizedHeight
  blocks : ∀ h ≤ c.finalityTracker.finalizedHeight, c'.blockAtHeight h = c.blockAtHeight h

/-- A manifest and a payload that end no earlier than local finality. The blocks at the protected
heights are compared by their `hash` field alone, so they must not be other blocks under the same
hash. -/
structure ReachesFinality (c : Blockchain) (manifest : SnapshotManifest) (payload : SnapshotState) :
    Prop where
  finalized : c.finalityTracker.finalizedHeight ≤ manifest.finalizedHeight
  long : c.finalityTracker.finalizedHeight ≤ (appendable 0 payload.blocks).length - 1
  genuine : ∀ b ∈ appendable 0 payload.blocks, b.header.height ≤ c.finalityTracker.finalizedHeight →
    ∀ stored, c.blockAtHeight b.header.height = some stored → stored.hash = b.hash → b = stored

theorem blockAtHeight_installSnapshot (h : Nat) :
    (c.installSnapshot P manifest payload).blockAtHeight h =
      if h = 0 then some ((appendable 0 payload.blocks).head?.getD c.genesis)
      else if h < c.baseHeight then none
      else (appendable 0 payload.blocks)[h]? := by
  unfold blockAtHeight
  rw [installSnapshot_blocks, installSnapshot_genesis, installSnapshot_baseHeight]

/-- Below a block that can be read, everything above the prune watermark can be. -/
theorem blockAtHeight_below {top : Nat} {b : Block} (h : c.blockAtHeight top = some b) {k : Nat}
    (hzero : k ≠ 0) (hle : k ≤ top) (hbase : c.baseHeight ≤ k) :
    ∃ stored, c.blockAtHeight k = some stored := by
  have htop : top ≠ 0 := by omega
  unfold blockAtHeight at h ⊢
  rw [if_neg htop, if_neg (by omega)] at h
  rw [if_neg hzero, if_neg (by omega)]
  have hlt : k < c.blocks.length := hle.trans_lt (List.getElem?_eq_some_iff.mp h).1
  exact ⟨_, List.getElem?_eq_getElem hlt⟩

/-- A node with a finalized block that applies a snapshot keeps its finality exactly when the
manifest claims no less finality, the payload is long enough and nothing hides under the hash of a
local block. -/
theorem snapshot_keeps_finalized_iff {finalized : Block}
    (hfinal : c.blockAtHeight c.finalityTracker.finalizedHeight = some finalized)
    (h : c.applySnapshot P deserialize manifest chunks = .ok c')
    (hpayload : deserialize (chunks.flatMap StateChunk.data) = .ok payload) :
    KeepsFinalized c c' ↔ ReachesFinality c manifest payload := by
  obtain ⟨-, payload', hdecoded, hagree, rfl⟩ := applySnapshot_eq_ok.mp h
  cases hdecoded.bytes.symm.trans hpayload
  constructor
  · intro hkeeps
    refine ⟨hkeeps.height, ?_, ?_⟩
    · have htop := hkeeps.blocks _ le_rfl
      rw [hfinal, blockAtHeight_installSnapshot] at htop
      split at htop
      · omega
      · split at htop
        · exact absurd htop (by simp)
        · have := (List.getElem?_eq_some_iff.mp htop).1
          omega
    · intro b hb hle stored hstored _
      obtain ⟨i, hi⟩ := List.mem_iff_getElem?.mp hb
      have hheight : b.header.height = i := by rw [height_of_appendable hi, zero_add]
      have hsame := hkeeps.blocks _ hle
      rw [hstored, blockAtHeight_installSnapshot] at hsame
      split at hsame
      · next hzero =>
        rw [hheight] at hzero
        rw [hzero] at hi
        rw [List.head?_eq_getElem?, hi] at hsame
        exact Option.some.inj hsame
      · split at hsame
        · exact absurd hsame (by simp)
        · rw [hheight, hi] at hsame
          exact Option.some.inj hsame
  · intro hreach
    refine ⟨hreach.finalized, ?_⟩
    intro k hk
    rw [blockAtHeight_installSnapshot]
    have hsame : ∀ b stored, (appendable 0 payload.blocks)[k]? = some b →
        c.blockAtHeight k = some stored → b = stored := by
      intro b stored hb hstored
      have hheight : b.header.height = k := by rw [height_of_appendable hb, zero_add]
      have hmem := List.mem_of_getElem? hb
      rw [← hheight] at hstored hk
      refine hreach.genuine b hmem hk stored hstored ?_
      -- The check compares hashes only; `genuine` makes the blocks themselves equal.
      refine hash_of_agreesLocally (hagree b (mem_of_mem_appendable hmem)) hstored (.inr ?_)
      exact le_min hk (hk.trans hreach.finalized)
    by_cases hzero : k = 0
    · subst hzero
      rw [if_pos rfl, List.head?_eq_getElem?]
      cases hb : (appendable 0 payload.blocks)[0]? with
      | none => rfl
      | some b => rw [hsame b c.genesis hb rfl]; rfl
    · by_cases hpruned : k < c.baseHeight
      · simp [blockAtHeight, hzero, hpruned]
      · rw [if_neg hzero, if_neg hpruned]
        have hlong := hreach.long
        have hlt : k < (appendable 0 payload.blocks).length := by omega
        obtain ⟨stored, hstored⟩ := blockAtHeight_below hfinal hzero hk (not_lt.mp hpruned)
        obtain ⟨b, hb⟩ : ∃ b, (appendable 0 payload.blocks)[k]? = some b :=
          ⟨_, List.getElem?_eq_getElem hlt⟩
        rw [hb, hstored, hsame b stored hb hstored]

end Blockchain

namespace SnapshotSample

open Scenario Blockchain

/-- One validator with two coins at stake. In epochs of one block, votes count from block 1 on. -/
def genesis : GenesisConfig where
  chainId := [1]
  minimumStake := 1
  epochLength := 1
  allocations := [allocation 1 0 2000000]

/-- `bincode::deserialize` on the one payload of a sample. -/
def codec (payload : SnapshotState) (bytes : Bytes) : Except String SnapshotState :=
  if bytes = payload.serialize then .ok payload else .error "io error: unexpected end of file"

/-- A manifest and chunks for a payload, consistent with each other, with whatever finality the
sender likes to claim. -/
def package (payload : SnapshotState) (finalizedHeight : Nat) :
    SnapshotManifest × List StateChunk :=
  let (chunks, chunkHashes) := stateChunks Reference.primitives payload.serialize
  let latestHash := (payload.blocks.getLast?.map Block.hash).getD []
  ({ height := payload.blocks.length - 1
     epoch := 0
     chainId := genesis.chainId
     genesisHash := (payload.blocks.head?.map Block.hash).getD []
     latestHash
     tipHeight := payload.blocks.length - 1
     tipHash := latestHash
     finalizedHeight
     finalizedHash := ((payload.blocks[finalizedHeight]?).map Block.hash).getD []
     stateRoot := StateRoot.computeFull Reference.primitives (collectBytes payload.accounts)
       (collectBytes payload.contracts)
     chunkRoot := merkleRoot Reference.primitives chunkHashes
     chunkCount := chunks.length
     chunkHashes }, chunks)

/-- What an honest node sends at its tip. -/
def payloadAt (c : Blockchain) : SnapshotState := c.snapshotState c.latestBlock.hash c.execState

/-- A block that nobody produced: no transactions, no signature, no parent, and the genesis' hash
bytes for its own. -/
def forgedBlock (c : Blockchain) : Block where
  header := { c.genesis.header with height := 1, prevHash := [7] }
  transactions := []
  hash := c.genesis.hash
  signature := none

/-- A payload that gives all the money to one account. -/
def forgedPayload (c : Blockchain) : SnapshotState where
  blocks := [c.genesis, forgedBlock c]
  accounts := [([9], { balance := 1000000000000000 })]
  contracts := []
  receipts := []
  pendingTransactions := []
  slashedValidators := []
  epochSnapshots := []
  finalizedHeight := 1
  finalizedHash := c.genesis.hash

/-- Block 1 of the only validator, finalized by its vote. -/
def finalizedAtOne (c : Blockchain) : Option Blockchain := do
  let (b₁, c₁) ← extend c (clock 1) 1
  return (c₁.addFinalityVote Reference.primitives
    (FinalityVote.new Reference.primitives b₁.hash 1 1 (key 1))).2

/-- Two blocks, the first at `minutes`, and nothing finalized. -/
def twoBlocks (c : Blockchain) (minutes : Int) : Option Blockchain := do
  let (_, c₁) ← extend c (clock minutes) 1
  let (_, c₂) ← extend c₁ (clock (minutes + 1)) 1
  return c₂

/-- A receiver and a sender grown from the same genesis. -/
def peers (receiver sender : Blockchain → Option Blockchain) :
    Option (Blockchain × Blockchain) := do
  let c₀ ← (fromGenesis Reference.primitives genesis).toOption
  return (← receiver c₀, ← sender c₀)

/-- What the receiver makes of a payload sent as finalized at `finalizedHeight`. -/
def receive (c : Blockchain) (payload : SnapshotState) (finalizedHeight : Nat) :
    Except SnapshotError Blockchain :=
  c.applySnapshot Reference.primitives (codec payload) (package payload finalizedHeight).1
    (package payload finalizedHeight).2

/-- The chunks carry the payload they were cut from. -/
theorem codec_package (payload : SnapshotState) (finalizedHeight : Nat)
    (h : (package payload finalizedHeight).2.flatMap StateChunk.data = payload.serialize) :
    codec payload ((package payload finalizedHeight).2.flatMap StateChunk.data) = .ok payload := by
  rw [h, codec, if_pos rfl]

end SnapshotSample

open SnapshotSample Scenario Blockchain in
/-- The snapshot of an honest node two blocks ahead. -/
theorem applied_snapshot_sound_sample : ∃ c d c',
    peers some (twoBlocks · 1) = some (c, d) ∧ receive c (payloadAt d) 2 = .ok c' ∧
      SoundInstall Reference.primitives c c' := by
  have hrun : (peers some (twoBlocks · 1)).any (fun e =>
      (receive e.1 (payloadAt e.2) 2).toOption.any fun _ => decide (
        (package (payloadAt e.2) 2).2.flatMap StateChunk.data = (payloadAt e.2).serialize ∧
        (payloadAt e.2).blocks.dropWhile (fun b => b.header.height ≠ 0) =
          e.1.genesis :: (payloadAt e.2).blocks.tail ∧
        e.1.genesis.verifyHash Reference.primitives ∧
        linkedOn Reference.primitives e.1.genesis (payloadAt e.2).blocks.tail ∧
        (topOn e.1.genesis (payloadAt e.2).blocks.tail).header.version < V6_PROTOCOL_VERSION ∧
        (topOn e.1.genesis (payloadAt e.2).blocks.tail).header.stateRoot =
          (package (payloadAt e.2) 2).1.stateRoot)) = true := by
    decide +kernel
  obtain ⟨⟨c, d⟩, hpeers, hrest⟩ := (Option.any_eq_true _ _).mp hrun
  obtain ⟨c', happly, hpayload⟩ := Outcome.ok_of_any hrest
  rw [decide_eq_true_eq] at hpayload
  obtain ⟨hbytes, hgenesis, hhash, hlinked, hversion, hroot⟩ := hpayload
  refine ⟨c, d, c', hpeers, happly, ?_⟩
  refine (applied_snapshot_sound_iff happly (codec_package _ _ hbytes)).mpr
    ⟨_, hgenesis, hhash, hlinked, ?_⟩
  rw [if_neg (not_le.mpr hversion), hroot]

open SnapshotSample Scenario Blockchain in
/-- A peer sends a block that nobody produced and a balance that nobody earned, and the node at
its genesis takes both. -/
theorem forged_snapshot_installed : ∃ c d c',
    peers some some = some (c, d) ∧ receive c (forgedPayload d) 1 = .ok c' ∧
      c'.accounts[([9] : Bytes)]?.map AccountState.balance = some 1000000000000000 ∧
      ¬ SoundInstall Reference.primitives c c' := by
  have hrun : (peers some some).any (fun e =>
      (receive e.1 (forgedPayload e.2) 1).toOption.any fun c' => decide (
        c'.accounts[([9] : Bytes)]?.map AccountState.balance = some 1000000000000000 ∧
        ¬ ∀ b ∈ c'.blocks, b.hash = Block.computeHash Reference.primitives b.header)) = true := by
    decide +kernel
  obtain ⟨⟨c, d⟩, hpeers, hrest⟩ := (Option.any_eq_true _ _).mp hrun
  obtain ⟨c', happly, hforged⟩ := Outcome.ok_of_any hrest
  rw [decide_eq_true_eq] at hforged
  exact ⟨c, d, c', hpeers, happly, hforged.1, fun hsound => hforged.2 hsound.chain.hashed⟩

open SnapshotSample Scenario Blockchain in
/-- The receiver has finalized block 1 and applies the snapshot of a node with that block and one
more. -/
theorem snapshot_keeps_finalized_sample : ∃ c d c',
    peers finalizedAtOne (twoBlocks · 1) = some (c, d) ∧
      c.finalityTracker.finalizedHeight = 1 ∧ receive c (payloadAt d) 2 = .ok c' ∧
      KeepsFinalized c c' := by
  have hrun : (peers finalizedAtOne (twoBlocks · 1)).any (fun e =>
      (receive e.1 (payloadAt e.2) 2).toOption.any fun _ => decide (
        e.1.finalityTracker.finalizedHeight = 1 ∧
        (e.1.blockAtHeight 1).isSome ∧
        (package (payloadAt e.2) 2).2.flatMap StateChunk.data = (payloadAt e.2).serialize ∧
        (package (payloadAt e.2) 2).1.finalizedHeight = 2 ∧
        (appendable 0 (payloadAt e.2).blocks).length = 3 ∧
        ∀ b ∈ appendable 0 (payloadAt e.2).blocks, b.header.height ≤ 1 →
          e.1.blockAtHeight b.header.height = some b)) = true := by
    decide +kernel
  obtain ⟨⟨c, d⟩, hpeers, hrest⟩ := (Option.any_eq_true _ _).mp hrun
  obtain ⟨c', happly, hpayload⟩ := Outcome.ok_of_any hrest
  rw [decide_eq_true_eq] at hpayload
  obtain ⟨hone, hsome, hbytes, htwo, hlength, hsame⟩ := hpayload
  obtain ⟨finalized, hfinalized⟩ := Option.isSome_iff_exists.mp hsome
  refine ⟨c, d, c', hpeers, hone, happly, ?_⟩
  refine (snapshot_keeps_finalized_iff (by rw [hone, hfinalized]) happly
    (codec_package _ _ hbytes)).mpr ⟨?_, ?_, ?_⟩
  · rw [hone, htwo]
    decide
  · rw [hone, hlength]
    decide
  · intro b hb hle stored hstored _
    rw [hone] at hle
    rw [hsame b hb hle] at hstored
    exact Option.some.inj hstored

open SnapshotSample Scenario Blockchain in
/-- The receiver has finalized block 1; a peer with another block 1 sends its snapshot and says
that nothing is final in it. -/
theorem finalized_block_replaced : ∃ c d c',
    peers finalizedAtOne (twoBlocks · 2) = some (c, d) ∧
      c.finalityTracker.finalizedHeight = 1 ∧ receive c (payloadAt d) 0 = .ok c' ∧
      (c'.blockAtHeight 1).map Block.hash ≠ (c.blockAtHeight 1).map Block.hash ∧
      ¬ KeepsFinalized c c' := by
  have hrun : (peers finalizedAtOne (twoBlocks · 2)).any (fun e =>
      (receive e.1 (payloadAt e.2) 0).toOption.any fun c' => decide (
        e.1.finalityTracker.finalizedHeight = 1 ∧
        (c'.blockAtHeight 1).map Block.hash ≠ (e.1.blockAtHeight 1).map Block.hash)) = true := by
    decide +kernel
  obtain ⟨⟨c, d⟩, hpeers, hrest⟩ := (Option.any_eq_true _ _).mp hrun
  obtain ⟨c', happly, hrewritten⟩ := Outcome.ok_of_any hrest
  rw [decide_eq_true_eq] at hrewritten
  refine ⟨c, d, c', hpeers, hrewritten.1, happly, hrewritten.2, ?_⟩
  intro hkeeps
  exact hrewritten.2 (by rw [hkeeps.blocks 1 (by rw [hrewritten.1])])

end Curs3d
