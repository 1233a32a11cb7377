import Curs3d.Chain.Finality
import Mathlib.Data.Finset.Sort

/-!
# State-sync snapshots (`src/core/chain/snapshot.rs`, `src/storage/mod.rs`)

`createSnapshot` serialises the chain up to its finalized height, or up to its tip, cuts the bytes
into chunks and commits to them in a manifest; `applySnapshot` checks a manifest and chunks of any
origin and installs what they decode to.

`bincode::deserialize` is the parameter `deserialize`; the bytes `serialize` writes are spelled
out. A snapshot is written to disk when it is made and read back from there; here `createSnapshot`
returns the chunks with the manifest.
-/

set_option autoImplicit false

namespace Curs3d

/-- The `tip_` fields are for the peer's bookkeeping. -/
structure SnapshotManifest where
  height : Nat
  epoch : Nat
  chainId : Text
  genesisHash : Bytes
  latestHash : Bytes
  tipHeight : Nat
  tipHash : Bytes
  finalizedHeight : Nat
  finalizedHash : Bytes
  stateRoot : Bytes
  chunkRoot : Bytes
  chunkCount : Nat
  chunkHashes : List Bytes
deriving DecidableEq, Repr

structure StateChunk where
  index : Nat
  data : Bytes
  hash : Bytes
  proof : List Bytes
deriving DecidableEq, Repr

structure SnapshotState where
  blocks : List Block
  accounts : List (Bytes × AccountState)
  contracts : List (Bytes × ContractState)
  receipts : List (Bytes × Receipt)
  pendingTransactions : List Transaction
  slashedValidators : List Bytes
  epochSnapshots : List (Nat × EpochSnapshot)
  finalizedHeight : Nat
  finalizedHash : Bytes
deriving DecidableEq

/-- `ChainError::SnapshotError` and the other errors a snapshot ends with. -/
inductive SnapshotError where
  | snapshotError (reason : String)
  | chainError (err : ChainError)
deriving DecidableEq, Repr

/-- `Ok`, or `SnapshotError(reason)`. -/
def ensureSnapshot (cond : Bool) (reason : String) : Except SnapshotError Unit :=
  if cond then .ok () else .error (.snapshotError reason)

/-! ## The wire format -/

namespace Bincode

def bool (b : Bool) : Bytes := u8 (if b then 1 else 0)

/-- The storage is a `HashMap`; its entries go out in some order, here that of the keys. -/
def contractState (c : ContractState) : Bytes :=
  bytes c.codeHash ++ bytes c.code ++ vec (fun e => bytes e.1 ++ bytes e.2) c.storage.toList ++
    bytes c.owner

def logEntry (l : LogEntry) : Bytes := bytes l.contract ++ vec bytes l.topics ++ bytes l.data

def receipt (r : Receipt) : Bytes :=
  bytes r.txHash ++ bool r.success ++ u64 r.gasUsed ++ u64 r.effectiveGasPrice ++
    u64 r.priorityFeePaid ++ u64 r.baseFeeBurned ++ u64 r.gasRefunded ++ vec logEntry r.logs ++
    bytes r.returnData ++ option bytes r.contractAddress

def validator (v : Validator) : Bytes := bytes v.address ++ bytes v.publicKey ++ u64 v.stake

def epochSnapshot (s : EpochSnapshot) : Bytes :=
  u64 s.epoch ++ u64 s.startHeight ++ vec validator s.validators ++ u64 s.totalStake

end Bincode

open Bincode in
/-- `bincode::serialize(&snapshot_state)`. -/
def SnapshotState.serialize (s : SnapshotState) : Bytes :=
  vec block s.blocks ++ vec (fun e => bytes e.1 ++ accountState e.2) s.accounts ++
    vec (fun e => bytes e.1 ++ contractState e.2) s.contracts ++
    vec (fun e => bytes e.1 ++ receipt e.2) s.receipts ++ vec transaction s.pendingTransactions ++
    vec bytes s.slashedValidators ++ vec (fun e => u64 e.1 ++ epochSnapshot e.2) s.epochSnapshots ++
    u64 s.finalizedHeight ++ bytes s.finalizedHash

/-! ## Chunks -/

def SNAPSHOT_CHUNK_SIZE : Nat := 256 * 1024

/-- `chunks(size)`, on fuel for the length. -/
def chunksOf (size : Nat) : Nat → Bytes → List Bytes
  | 0, _ => []
  | fuel + 1, l => if l.isEmpty then [] else l.take size :: chunksOf size fuel (l.drop size)

/-- The chunks of `snapshotBytes` and their hashes; no bytes still make one empty chunk, which has
no hash in the list. -/
def stateChunks (P : Primitives) (snapshotBytes : Bytes) : List StateChunk × List Bytes :=
  let parts := chunksOf SNAPSHOT_CHUNK_SIZE snapshotBytes.length snapshotBytes
  let chunkHashes := parts.map P.sha3
  if parts.isEmpty then ([{ index := 0, data := [], hash := P.sha3 [], proof := [] }], chunkHashes)
  else
    (parts.zipIdx.map fun e =>
      { index := e.2, data := e.1, hash := P.sha3 e.1, proof := merkleProof P chunkHashes e.2 },
      chunkHashes)

/-- One turn of the loop over the chunks, for the chunk at position `i`. -/
def checkChunk (P : Primitives) (manifest : SnapshotManifest) (i : Nat) (chunk : StateChunk) :
    Except SnapshotError Unit := do
  ensureSnapshot (chunk.index = i) s!"unexpected chunk order: expected {i}, got {chunk.index}"
  ensureSnapshot (manifest.chunkHashes[i]? = some (P.sha3 chunk.data)) s!"chunk {i} hash mismatch"
  ensureSnapshot (verifyMerkleProof P (P.sha3 chunk.data) chunk.proof i manifest.chunkRoot)
    s!"chunk {i} proof mismatch"

def checkChunks (P : Primitives) (manifest : SnapshotManifest) :
    Nat → List StateChunk → Except SnapshotError Unit
  | _, [] => .ok ()
  | i, chunk :: rest =>
    match checkChunk P manifest i chunk with
    | .error e => .error e
    | .ok () => checkChunks P manifest (i + 1) rest

/-- `into_iter().collect()` into a map: a later entry replaces an earlier one. -/
def collectBytes {β : Type} (entries : List (Bytes × β)) : ByteMap β :=
  entries.foldl (fun m e => m.insert e.1 e.2) ∅

def collectHeights {β : Type} (entries : List (Nat × β)) : HeightMap β :=
  entries.foldl (fun m e => m.insert e.1 e.2) ∅

section Decode

variable (P : Primitives) (deserialize : Bytes → Except String SnapshotState)

/-- `decode_snapshot_state`: the state root is compared with the manifest's, the first and the last
block with the manifest's hashes. -/
def decodeSnapshotState (manifest : SnapshotManifest) (chunks : List StateChunk) :
    Except SnapshotError SnapshotState := do
  ensureSnapshot (chunks.length = manifest.chunkCount)
    s!"expected {manifest.chunkCount} chunks, got {chunks.length}"
  checkChunks P manifest 0 chunks
  match deserialize (chunks.flatMap StateChunk.data) with
  | .error reason => .error (.snapshotError reason)
  | .ok state =>
    ensureSnapshot (StateRoot.computeFull P (collectBytes state.accounts)
      (collectBytes state.contracts) = manifest.stateRoot) "state root mismatch"
    ensureSnapshot (!state.blocks.isEmpty) "snapshot does not contain canonical blocks"
    ensureSnapshot (state.blocks.head?.map Block.hash = some manifest.genesisHash)
      "snapshot genesis hash mismatch"
    ensureSnapshot ((state.blocks.getLast?.map Block.hash).getD [] = manifest.latestHash)
      "snapshot latest hash mismatch"
    return state

end Decode

/-- `verify_snapshot_against_known`. No anchor records a state root. -/
def verifySnapshotAgainstKnown (chainId : Text) (manifest : SnapshotManifest) :
    Except ChainError Unit :=
  (checkpointsFor chainId).forM fun cp => do
    ensure (cp.1 ≠ manifest.height ∨ manifest.latestHash = cp.2)
      (.checkpointMismatch cp.1 cp.2 manifest.latestHash "snapshot_latest_hash")
    ensure (cp.1 ≠ manifest.finalizedHeight ∨ manifest.finalizedHash = cp.2)
      (.checkpointMismatch cp.1 cp.2 manifest.finalizedHash "snapshot_finalized_hash")

namespace Blockchain

variable (P : Primitives) (deserialize : Bytes → Except String SnapshotState) (c : Blockchain)

/-! ## Creating -/

def snapshotHeight : Nat :=
  if 0 < c.finalityTracker.finalizedHeight then min c.finalityTracker.finalizedHeight c.height
  else c.height

/-- `replay_state_to_canonical_height`. -/
def replayStateToCanonicalHeight (now : Int) (targetHeight : Nat) :
    Except SnapshotError ExecState :=
  match c.blockAtHeight targetHeight with
  | none => .error (.snapshotError "target height missing")
  | some block =>
    match c.replayStateToTip P now block.hash with
    | .error e => .error (.chainError e)
    | .ok s => .ok s

/-- What a snapshot carries of the state at its height. -/
def snapshotState (snapshotHash : Bytes) (s : ExecState) : SnapshotState where
  blocks := c.iterBlocks.take (c.snapshotHeight + 1)
  accounts := s.accounts.toList
  contracts := s.contracts.toList
  receipts := s.receipts.toList
  pendingTransactions := []
  slashedValidators := c.slashedValidators.sort (· ≤ ·)
  epochSnapshots := c.epochSnapshots.toList.filter fun e => e.1 ≤ c.epochForHeight c.snapshotHeight
  finalizedHeight := c.snapshotHeight
  finalizedHash := snapshotHash

/-- `create_snapshot` at clock reading `now`. -/
def createSnapshot (now : Int) : Except SnapshotError (SnapshotManifest × List StateChunk) :=
  match c.blockAtHeight c.snapshotHeight with
  | none => .error (.snapshotError "snapshot height missing")
  | some block => do
    let s ← c.replayStateToCanonicalHeight P now c.snapshotHeight
    let (chunks, chunkHashes) := stateChunks P (c.snapshotState block.hash s).serialize
    return (
      { height := c.snapshotHeight
        epoch := c.epochForHeight c.snapshotHeight
        chainId := c.genesisConfig.chainId
        genesisHash := c.genesis.hash
        latestHash := block.hash
        tipHeight := c.height
        tipHash := c.latestBlock.hash
        finalizedHeight := c.snapshotHeight
        finalizedHash := block.hash
        stateRoot := StateRoot.computeFull P s.accounts s.contracts
        chunkRoot := merkleRoot P chunkHashes
        chunkCount := chunks.length
        chunkHashes }, chunks)

/-! ## Applying -/

/-- The blocks `replace_all_blocks` gets into an emptied cursor that holds `n` of them: those that
come at their own height. The others are logged and skipped. -/
def appendable : Nat → List Block → List Block
  | _, [] => []
  | n, block :: rest =>
    if block.header.height = n then block :: appendable (n + 1) rest else appendable n rest

/-- The heights a snapshot may not change. -/
def protectedHeight (manifest : SnapshotManifest) : Nat :=
  min c.finalityTracker.finalizedHeight manifest.finalizedHeight

/-- The checks on the manifest, before the chunks are looked at. -/
def checkManifest (manifest : SnapshotManifest) : Except SnapshotError Unit := do
  ensureSnapshot (manifest.chainId = c.genesisConfig.chainId) "snapshot chain_id mismatch"
  match verifySnapshotAgainstKnown c.genesisConfig.chainId manifest with
  | .error e => .error (.chainError e)
  | .ok () =>
    ensureSnapshot (¬ (manifest.height ≤ c.finalityTracker.finalizedHeight ∧
        c.finalityTracker.finalizedHash ≠ [] ∧
        c.finalityTracker.finalizedHeight = manifest.finalizedHeight ∧
        c.finalityTracker.finalizedHash ≠ manifest.finalizedHash))
      "snapshot finalized hash conflicts with local finalized checkpoint"
    ensureSnapshot (¬ ((c.blockAtHeight manifest.height).any (fun b => b.hash ≠ manifest.latestHash) ∧
        manifest.height ≤ c.protectedHeight manifest))
      "snapshot latest hash conflicts with local canonical block"

/-- Whether a block of the snapshot may stand at its height. -/
def agreesLocally (manifest : SnapshotManifest) (block : Block) : Bool :=
  ¬ ((c.blockAtHeight block.header.height).any (fun b => b.hash ≠ block.hash) ∧
    (block.header.height = 0 ∨ block.header.height ≤ c.protectedHeight manifest))

/-- Everything after the last check. -/
def installSnapshot (manifest : SnapshotManifest) (state : SnapshotState) : Blockchain :=
  let installed := { c.replaceAllBlocks (appendable 0 state.blocks) with
    accounts := collectBytes state.accounts
    contracts := collectBytes state.contracts
    receipts := collectBytes state.receipts }.rebuildReceiptIndexes P
  { installed with
    pendingTransactions := state.pendingTransactions
    slashedValidators := state.slashedValidators.toFinset
    epochSnapshots := collectHeights state.epochSnapshots
    blockTree := (treeFromBlocks P installed.accounts installed.genesis
      (installed.iterBlocks.drop 1)).setFinalized manifest.finalizedHash manifest.finalizedHeight
    finalityTracker := FinalityTracker.withFinalized manifest.finalizedHeight
      manifest.finalizedHash }

/-- `apply_snapshot`; an error leaves the chain as it was. -/
def applySnapshot (manifest : SnapshotManifest) (chunks : List StateChunk) :
    Except SnapshotError Blockchain := do
  c.checkManifest manifest
  let state ← decodeSnapshotState P deserialize manifest chunks
  match state.blocks.find? fun b => !c.agreesLocally manifest b with
  | some b =>
    let height := b.header.height
    .error (.snapshotError
      s!"snapshot block at protected height {height} disagrees with local canonical block")
  | none => return c.installSnapshot P manifest state

end Blockchain

end Curs3d
