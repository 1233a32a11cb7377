import Curs3d.Chain.Mempool
import Curs3d.Network.RateLimiter
import Curs3d.Network.SnapshotSync
import Curs3d.Network.Wire

/-!
# Catching up block by block (`src/network/mod.rs`)

A node that hears of a higher chain, or whose sync deadline has passed, asks for the blocks after its tip
(`RequestBlocks`); any node that has them sends up to fifty (`BlockResponse`), and `handle_block_response` feeds them
to `add_block` one by one. The handlers share the variables of `run_with_chain` with those of a
snapshot, so a node is a `SnapshotSync` with its deadline and the snapshots it asked for.

`SyncNet` puts any number of such nodes together. One of them, the leader, gets new blocks in another way
(it produces them); the others only copy. Messages are kept for good, so they arrive late, twice, out of order
or never. The chain clock is `now`; an `Instant` is a number of nanoseconds.
-/

set_option autoImplicit false

namespace Curs3d

open U64

def SYNC_BATCH_SIZE : Nat := 50

def SYNC_TIMEOUT_SECS : Nat := 30

def MAX_SYNC_RETRIES : Nat := 3

/-! ## Messages -/

/-- `BlockResponse`, without the peers. -/
structure BlockResponse where
  fromHeight : Nat
  genesisHash : Bytes
  blocks : List Bytes
deriving DecidableEq

/-- `RequestSnapshot`, without the sender. -/
structure SnapshotRequest where
  preferredHeight : Option Nat
  startChunk : Nat
  knownFinalizedHeight : Nat
  knownFinalizedHash : Bytes
deriving DecidableEq

/-- `HeightAnnounce`, without the peer and its addresses. -/
structure HeightAnnounce where
  height : Nat
  latestHash : Bytes
  genesisHash : Bytes
  publicKey : Option Bytes
  signature : Option Bytes
  protocolVersion : Nat
deriving DecidableEq

namespace HeightAnnounce

variable (P : Primitives) (a : HeightAnnounce)

def signedData (height : Nat) (latestHash genesisHash : Bytes) : Bytes :=
  Bincode.leBytes 8 height ++ latestHash ++ genesisHash

/-- The announce timer. -/
def new (c : Blockchain) (validatorKey : Option KeyPair) : HeightAnnounce where
  height := c.height
  latestHash := c.latestBlock.hash
  genesisHash := c.genesis.hash
  publicKey := validatorKey.map KeyPair.publicKey
  signature := validatorKey.map fun kp =>
    kp.sign P (signedData c.height c.latestBlock.hash c.genesis.hash)
  protocolVersion := c.protocolVersionAtHeight c.height

def verified : Bool :=
  match a.publicKey, a.signature with
  | some pk, some sig =>
    P.dilithiumVerify (signedData a.height a.latestHash a.genesisHash) sig pk
  | _, _ => false

end HeightAnnounce

/-! ## Serving blocks -/

/-- What `handle_block_request` sends back. -/
inductive RequestReply where
  | silence
  | snapshot (manifest : SnapshotManifest) (chunks : List StateChunk)
  | blocks (response : BlockResponse)

namespace Blockchain

variable (P : Primitives) (c : Blockchain)

/-- The serialized blocks from `fromHeight` on, one batch at most. -/
def requestedBlocks (fromHeight : Nat) : List Bytes :=
  let endHeight := min (fromHeight + SYNC_BATCH_SIZE - 1) c.height
  (List.range' fromHeight (endHeight + 1 - fromHeight)).filterMap fun h =>
    (c.blockAtHeight h).map Bincode.block

/-- The requester's tip is not this chain's block at that height. -/
def forked (request : BlockRequest) : Bool :=
  0 < request.fromHeight ∧
    (c.blockAtHeight (request.fromHeight - 1)).any fun b => b.hash ≠ request.expectedPrevHash

/-- `handle_block_request`. -/
def handleBlockRequest (now : Int) (request : BlockRequest) : RequestReply :=
  if request.genesisHash ≠ c.genesis.hash then .silence
  else if c.height < request.fromHeight then .silence
  else if c.forked request then
    match c.createSnapshot P now with
    | .error _ => .silence
    | .ok (manifest, chunks) => .snapshot manifest chunks
  else
    let blocks := c.requestedBlocks request.fromHeight
    if blocks.isEmpty then .silence
    else .blocks { fromHeight := request.fromHeight, genesisHash := c.genesis.hash, blocks }

/-- The next blocks, for this chain. -/
def blockRequest : BlockRequest where
  fromHeight := c.height + 1
  expectedPrevHash := c.latestBlock.hash
  genesisHash := c.genesis.hash

def snapshotRequest (preferredHeight : Option Nat) (startChunk : Nat) : SnapshotRequest where
  preferredHeight
  startChunk
  knownFinalizedHeight := c.finalityTracker.finalizedHeight
  knownFinalizedHash := c.finalityTracker.finalizedHash

end Blockchain

/-! ## Asking and taking over -/

structure SyncPeer extends SnapshotSync where
  syncDeadline : Option Nat := none
  snapshotRequests : List SnapshotRequest := []

/-- The loop of `handle_block_response`. -/
structure SyncBatch where
  chain : Blockchain
  accepted : Nat := 0
  skipped : Nat := 0

/-- Blocks the chain has are skipped; the loop stops at one it cannot read, at a gap and at one it refuses. -/
def SyncBatch.run (P : Primitives) (now : Int) : List Bytes → SyncBatch → SyncBatch
  | [], batch => batch
  | data :: rest, batch =>
    match boundedDeserialize Decode.block data with
    | none => batch
    | some block =>
      if block.header.height ≤ batch.chain.height then
        run P now rest { batch with skipped := batch.skipped + 1 }
      else if block.header.height ≠ batch.chain.height + 1 then batch
      else
        match batch.chain.addBlock P now block with
        | (.error _, c) => { batch with chain := c }
        | (.ok (), c) => run P now rest { batch with chain := c, accepted := batch.accepted + 1 }

namespace SyncPeer

variable (P : Primitives) (s : SyncPeer)

/-- A request is out. -/
def await (clock : Nat) : SyncPeer :=
  { s with syncRequested := true, syncDeadline := some (clock + fromSecs SYNC_TIMEOUT_SECS) }

def askBlocks : SyncPeer := { s with requests := s.requests ++ [s.chain.blockRequest] }

def askSnapshot (preferredHeight : Option Nat) (startChunk : Nat) : SyncPeer :=
  { s with snapshotRequests :=
      s.snapshotRequests ++ [s.chain.snapshotRequest preferredHeight startChunk] }

/-- `next_missing_chunk_index`. -/
def nextMissingChunkIndex (manifest : SnapshotManifest) : Nat :=
  ((List.range manifest.chunkCount).find? fun index => index ∉ s.pendingSnapshotChunks).getD
    manifest.chunkCount

/-- The `HeightAnnounce` arm. -/
def handleHeightAnnounce (clock : Nat) (a : HeightAnnounce) : SyncPeer :=
  if a.genesisHash ≠ s.chain.genesis.hash then s
  else if a.protocolVersion ≠ s.chain.protocolVersionAtHeight s.chain.height then s
  else if s.chain.height < a.height ∧ !s.syncRequested ∧ a.verified P then
    (if SYNC_BATCH_SIZE < a.height - s.chain.height then s.askSnapshot none 0
      else s.askBlocks).await clock
  else if a.height = s.chain.height ∧ a.latestHash ≠ s.chain.latestBlock.hash ∧
      !s.syncRequested ∧ a.verified P then
    (s.askSnapshot none 0).await clock
  else s

/-- The check of the deadline at the head of the event loop. -/
def checkSyncTimeout (clock : Nat) : SyncPeer :=
  match s.syncDeadline with
  | none => s
  | some deadline =>
    if clock < deadline then s
    else if MAX_SYNC_RETRIES ≤ s.syncRetries + 1 then
      ({ s with syncRetries := 0 }.askSnapshot none
        ((s.pendingSnapshotManifest.map s.nextMissingChunkIndex).getD 0)).await clock
    else
      let retried := { s with
        syncRetries := s.syncRetries + 1
        syncDeadline := some (clock + fromSecs SYNC_TIMEOUT_SECS) }
      match s.pendingSnapshotManifest with
      | some manifest =>
        retried.askSnapshot (some manifest.height) (s.nextMissingChunkIndex manifest)
      | none => retried.askBlocks

/-- `handle_block_response`. -/
def handleBlockResponse (now : Int) (response : BlockResponse) : SyncPeer :=
  if response.genesisHash ≠ s.chain.genesis.hash then s
  else if satAdd s.chain.height 1 < response.fromHeight then s
  else
    let batch := SyncBatch.run P now response.blocks { chain := s.chain }
    if 0 < batch.accepted ∨ (batch.skipped = response.blocks.length ∧ response.blocks ≠ []) then
      { s with chain := batch.chain, syncRequested := false, syncDeadline := none, syncRetries := 0 }
    else { s with chain := batch.chain }

end SyncPeer

/-! ## Many nodes -/

structure SyncNet (ι : Type) where
  node : ι → SyncPeer
  /-- The responses sent, each with the node it is for. -/
  responses : List (ι × BlockResponse) := []
  /-- The snapshots sent instead of blocks. -/
  offers : List (ι × SnapshotManifest × List StateChunk) := []

inductive SyncEvent (ι : Type) where
  /-- The leader gets its next block. -/
  | extend (now : Int) (block : Block)
  | vote (i : ι) (vote : FinalityVote)
  | transaction (i : ι) (now : Int) (tx : Transaction)
  | announce (i : ι) (clock : Nat) (a : HeightAnnounce)
  | timeout (i : ι) (clock : Nat)
  /-- `j` handles a request of `i`. -/
  | serve (j i : ι) (now : Int) (request : BlockRequest)
  | deliver (i : ι) (now : Int) (response : BlockResponse)

namespace SyncNet

variable {ι : Type} [DecidableEq ι] (P : Primitives) (leader : ι) (net : SyncNet ι)

def start (c : Blockchain) : SyncNet ι := { node := fun _ => { chain := c } }

/-- Node `i` became `s`. -/
def set (i : ι) (s : SyncPeer) : SyncNet ι := { net with node := Function.update net.node i s }

/-- The chain of node `i` became `c`. -/
def setChain (i : ι) (c : Blockchain) : SyncNet ι := net.set i { net.node i with chain := c }

/-- The network after `i` was sent `reply`. -/
def reply (i : ι) : RequestReply → SyncNet ι
  | .silence => net
  | .snapshot manifest chunks => { net with offers := net.offers ++ [(i, manifest, chunks)] }
  | .blocks response => { net with responses := net.responses ++ [(i, response)] }

def step : SyncEvent ι → SyncNet ι
  | .extend now block => net.setChain leader ((net.node leader).chain.addBlock P now block).2
  | .vote i vote => net.setChain i ((net.node i).chain.addFinalityVote P vote).2
  | .transaction i now tx => net.setChain i ((net.node i).chain.addTransaction P now tx).2
  | .announce i clock a => net.set i ((net.node i).handleHeightAnnounce P clock a)
  | .timeout i clock => net.set i ((net.node i).checkSyncTimeout clock)
  | .serve j i now request => net.reply i ((net.node j).chain.handleBlockRequest P now request)
  | .deliver i now response => net.set i ((net.node i).handleBlockResponse P now response)

def run (events : List (SyncEvent ι)) : SyncNet ι := events.foldl (step P leader) net

end SyncNet

end Curs3d
