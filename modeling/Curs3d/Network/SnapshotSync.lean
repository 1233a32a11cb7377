import Curs3d.Chain.Snapshot
import Curs3d.Lib.Assembly

/-!
# Receiving a snapshot (`src/network/mod.rs`)

The handlers of `SnapshotManifest` and `SnapshotChunk` in `run_with_chain`, with the variables of
that loop they work on. A chunk goes to the pending ones when a manifest of its height is known, and
waits in a buffer otherwise. Both handlers end in the same block, which assembles the snapshot when
the number of pending chunks is right; it is written out twice in the source and once here.

Deserialization, its size limit and the `target_peer_id` filter decide which messages get here. The
clock behind `sync_deadline` is left out. `calls` records the arguments of every `apply_snapshot`,
and nothing reads it.
-/

set_option autoImplicit false

namespace Curs3d

open Assembly U64

def MAX_BUFFERED_PRE_MANIFEST_CHUNKS : Nat := 2048

def MAX_BUFFERED_PRE_MANIFEST_BYTES : Nat := 128 * 1024 * 1024

/-- `RequestBlocks`, without the sender. -/
structure BlockRequest where
  fromHeight : Nat
  expectedPrevHash : Bytes
  genesisHash : Bytes
deriving DecidableEq

structure SnapshotSync where
  chain : Blockchain
  pendingSnapshotManifest : Option SnapshotManifest := none
  pendingSnapshotChunks : Parts StateChunk := ∅
  /-- By height and then by index. -/
  preManifestChunkBuffer : HeightMap (Parts StateChunk) := ∅
  syncRequested : Bool := false
  syncRetries : Nat := 0
  requests : List BlockRequest := []
  calls : List (SnapshotManifest × List StateChunk) := []

inductive SnapshotMessage where
  | manifest (manifest : SnapshotManifest)
  | chunk (height : Nat) (chunk : StateChunk)

namespace SnapshotSync

variable (P : Primitives) (deserialize : Bytes → Except String SnapshotState) (s : SnapshotSync)

/-! ## The manifest -/

/-- The checks on a manifest. -/
def acceptsManifest (c : Blockchain) (manifest : SnapshotManifest) : Bool :=
  c.height < manifest.height ∧ manifest.chainId = c.genesisConfig.chainId ∧
    manifest.genesisHash = c.genesis.hash ∧ manifest.chunkRoot ≠ [] ∧
    manifest.chunkCount ≠ 0 ∧ manifest.chunkHashes.length = manifest.chunkCount ∧
    ¬ (manifest.tipHeight < manifest.height ∧ manifest.tipHeight ≠ 0) ∧
    ¬ (c.finalityTracker.finalizedHash ≠ [] ∧
      manifest.finalizedHeight ≤ c.finalityTracker.finalizedHeight ∧
      c.finalityTracker.finalizedHeight = manifest.finalizedHeight ∧
      c.finalityTracker.finalizedHash ≠ manifest.finalizedHash)

/-- The manifest continues the session under way. -/
def sameSession (manifest : SnapshotManifest) : Bool :=
  s.pendingSnapshotManifest.any fun current =>
    current.height = manifest.height ∧ current.chunkRoot = manifest.chunkRoot

/-- The chunks that came before their manifest. -/
def buffered (height : Nat) : Parts StateChunk := (s.preManifestChunkBuffer[height]?).getD ∅

/-- `manifest` becomes the pending one, and the buffered chunks of its height with it. -/
def openSession (manifest : SnapshotManifest) : SnapshotSync :=
  let chunks := if s.sameSession manifest then s.pendingSnapshotChunks else ∅
  { s with
    pendingSnapshotManifest := some manifest
    pendingSnapshotChunks :=
      (s.buffered manifest.height).toList.foldl (fun m e => m.insert e.2.index e.2) chunks
    -- the drained chunks and those of lower heights
    preManifestChunkBuffer := s.preManifestChunkBuffer.filter fun h _ => manifest.height < h }

/-! ## Assembling -/

/-- What follows `apply_snapshot`. -/
def afterApply (manifest : SnapshotManifest) (result : Except SnapshotError Blockchain) :
    SnapshotSync :=
  match result with
  | .error _ => { s with pendingSnapshotChunks := ∅, pendingSnapshotManifest := none }
  | .ok c =>
    if manifest.height < manifest.tipHeight then
      { s with
        chain := c
        pendingSnapshotManifest := none
        requests := s.requests ++ [
          { fromHeight := satAdd manifest.height 1
            expectedPrevHash := c.latestBlock.hash
            genesisHash := c.genesis.hash }]
        syncRequested := true }
    else
      { s with
        chain := c, pendingSnapshotManifest := none, syncRequested := false, syncRetries := 0 }

/-- Chunks are taken out of the session before it is known that none is missing. -/
def tryAssemble (manifest : SnapshotManifest) : SnapshotSync :=
  if s.pendingSnapshotChunks.size = manifest.chunkCount then
    let (ordered, left, complete) := takeFrom manifest.chunkCount 0 s.pendingSnapshotChunks
    let s := { s with pendingSnapshotChunks := left }
    if complete then
      { s with calls := s.calls ++ [(manifest, ordered)] }.afterApply manifest
        (s.chain.applySnapshot P deserialize manifest ordered)
    else s
  else s

/-! ## The two messages -/

def receiveManifest (manifest : SnapshotManifest) : SnapshotSync :=
  if acceptsManifest s.chain manifest then (s.openSession manifest).tryAssemble P deserialize manifest
  else s

/-- The caps on the buffer. -/
def hasRoom (chunk : StateChunk) : Bool :=
  KeyMap.sumBy Std.ExtTreeMap.size s.preManifestChunkBuffer < MAX_BUFFERED_PRE_MANIFEST_CHUNKS ∧
    KeyMap.sumBy (KeyMap.sumBy fun c : StateChunk => c.data.length) s.preManifestChunkBuffer +
      chunk.data.length ≤ MAX_BUFFERED_PRE_MANIFEST_BYTES

def receiveChunk (height : Nat) (chunk : StateChunk) : SnapshotSync :=
  match s.pendingSnapshotManifest.filter fun m => m.height = height with
  | some manifest =>
    { s with
      pendingSnapshotChunks :=
        s.pendingSnapshotChunks.insert chunk.index chunk }.tryAssemble P deserialize manifest
  | none =>
    if s.hasRoom chunk then
      { s with
        preManifestChunkBuffer := s.preManifestChunkBuffer.insert height
          ((s.buffered height).insert chunk.index chunk) }
    else s

def receive : SnapshotMessage → SnapshotSync
  | .manifest manifest => s.receiveManifest P deserialize manifest
  | .chunk height chunk => s.receiveChunk P deserialize height chunk

/-- Messages, one after another. -/
def receiveAll (messages : List SnapshotMessage) : SnapshotSync :=
  messages.foldl (fun s message => s.receive P deserialize message) s

end SnapshotSync

end Curs3d
