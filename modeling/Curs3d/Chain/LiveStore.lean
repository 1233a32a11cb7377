import Curs3d.Core.BlockStore
import Curs3d.Chain.Apply

/-!
# Blocks of a live node (`src/core/chain/{mod,persistence,apply}.rs`)

A node with asynchronous persistence appends blocks to the cache and queues its whole state for a
worker at epoch boundaries. What matters for the blocks is the order in which the cursor is used,
so a call is the list of its uses of the cursor, `StoreOp`, and a run is any interleaving of the
calls' lists with steps of the worker.

`latest_block` is the only use that panics on a missing block; every other one skips it.
-/

set_option autoImplicit false

namespace Curs3d

/-- The blocks of a node: cursor, disk, and the full states between them. -/
structure LiveStore where
  storage : BlockStorage
  cursor : BlockStoreCursor
  /-- The blocks `PersistedChainState::from_chain` has collected so far. -/
  collected : List Block := []
  /-- `full_state_slot`. -/
  slot : Option (List Block) := none
  /-- The state the worker has taken and not written yet. -/
  taken : Option (List Block) := none

inductive StoreOp where
  /-- `block_at_height` in a loop that skips missing blocks. -/
  | read (height : Nat)
  /-- `latest_block`. -/
  | latest
  /-- `push_block_internal`. -/
  | push (block : Block)
  /-- One turn of the loop in `from_chain`. -/
  | collect (height : Nat)
  /-- `enqueue_full_state`. -/
  | enqueue
  /-- The worker takes the slot. -/
  | take
  /-- The worker's `write_full_state_to_storage`. -/
  | write

/-- Done by the thread that holds the chain, not by the worker. -/
def StoreOp.onChain : StoreOp → Bool
  | .take | .write => false
  | _ => true

namespace LiveStore

variable (s : LiveStore)

def height : Nat := s.cursor.heightCount - 1

def blockAtHeight (h : Nat) : Option Block := (s.cursor.blockAt s.storage h).1

/-- The store after a use of the cursor; `none` is a panic. -/
def step : StoreOp → Option LiveStore
  | .read h => some { s with cursor := (s.cursor.blockAt s.storage h).2 }
  | .latest => match s.cursor.blockAt s.storage s.height with
    | (none, _) => none
    | (some _, cursor) => some { s with cursor }
  | .push block => match s.cursor.append s.storage block with
    -- logged, and the node goes on
    | .error _ => some s
    | .ok (cursor, storage) => some { s with cursor, storage }
  | .collect h => some { s with
      cursor := (s.cursor.blockAt s.storage h).2
      collected := s.collected ++ (s.blockAtHeight h).toList }
  | .enqueue => some { s with slot := some s.collected, collected := [] }
  | .take => match s.taken, s.slot with
    | none, some blocks => some { s with slot := none, taken := some blocks }
    | _, _ => some s
  | .write => match s.taken with
    | none => some s
    | some blocks => some { s with storage := s.storage.replaceBlocks blocks, taken := none }

def run : LiveStore → List StoreOp → Option LiveStore
  | s, [] => some s
  | s, op :: rest => (s.step op).bind fun s' => run s' rest

end LiveStore

/-! ## The uses of the cursor -/

/-- The heights `proposer_addresses_for_settling_epoch` reads. -/
def settlingHeights (g : GenesisConfig) (blockHeight : Nat) : List Nat :=
  match Blockchain.settlingEpoch g blockHeight with
  | none => []
  | some prevEpoch =>
    List.range' (prevEpoch * g.epochLen)
      (blockHeight / g.epochLen * g.epochLen - prevEpoch * g.epochLen)

theorem Blockchain.proposerAddressesForSettlingEpoch_eq (P : Primitives) (c : Blockchain)
    (blockHeight : Nat) :
    c.proposerAddressesForSettlingEpoch P blockHeight =
      (settlingHeights c.genesisConfig blockHeight).filterMap fun h =>
        (c.blockAtHeight h).map fun b => addressBytesFromPublicKey P b.header.validatorPublicKey := by
  unfold proposerAddressesForSettlingEpoch settlingHeights
  cases settlingEpoch c.genesisConfig blockHeight <;> rfl

/-- `for h in 0..count`. -/
def walkOps (count : Nat) : List StoreOp := (List.range count).map .read

/-- `persist_full_state` at `count` blocks. -/
def persistOps (count : Nat) : List StoreOp := (List.range count).map .collect ++ [.enqueue]

/-- A successful `add_block` on a cursor of `count` blocks: the producers of a settled epoch, the
parent, the block itself, the walk of `rebuild_receipt_indexes`, and the full state at a
boundary. -/
def addBlockOps (g : GenesisConfig) (count : Nat) (block : Block) : List StoreOp :=
  (settlingHeights g block.header.height).map .read ++ [.latest, .push block] ++
    walkOps (count + 1) ++
    if 0 < g.epochLength ∧ block.header.height % g.epochLength = 0 then persistOps (count + 1)
    else []

/-- One successful `add_block` after another. -/
def addBlocksOps (g : GenesisConfig) : Nat → List Block → List StoreOp
  | _, [] => []
  | count, block :: rest => addBlockOps g count block ++ addBlocksOps g (count + 1) rest

/-! ## Replacing the chain -/

/-- `replace_all_blocks`: a block that does not come at the next height is logged and skipped. -/
def LiveStore.replaceAllBlocks (s : LiveStore) (blocks : List Block) : LiveStore :=
  blocks.foldl (fun s block => (s.step (.push block)).getD s)
    { s with cursor := s.cursor.invalidateFrom 0 }

/-- What follows a replacement on a cursor of `count` blocks, up to the full state: a walk over the
chain (`rebuild_receipt_indexes` or `rebuild_canonical_state`), more reads, and the loop of
`from_chain`. -/
def installOps (count : Nat) (reads : List Nat) : List StoreOp :=
  walkOps count ++ reads.map .read ++ (List.range count).map .collect

/-- `apply_snapshot` reads the genesis and then the chain, for the tree. -/
def snapshotReads (count : Nat) : List Nat := 0 :: List.range count

/-- `reorg_to_canonical_tip` reads the producers of every settled epoch, then the chain, for the
receipt indexes. -/
def reorgReads (g : GenesisConfig) (count : Nat) : List Nat :=
  (List.range' 1 (count - 1)).flatMap (settlingHeights g) ++ List.range count

/-! ## Opening -/

/-- What `with_storage_mode` reads of `count` stored blocks: the tree, the finalized block, the
replay with its settlements, the receipt indexes, and the rewrite of a store with an older
schema (still synchronous: queued, taken and written at once). -/
def reloadOps (g : GenesisConfig) (finalizedHeight count : Nat) (oldSchema : Bool) :
    List StoreOp :=
  .read 0 :: (List.range' 1 (count - 1)).map .read ++ [.read finalizedHeight] ++ walkOps count ++
    (List.range' 1 (count - 1)).flatMap (fun h => (settlingHeights g h).map .read) ++
    walkOps count ++
    if oldSchema then persistOps count ++ [.take, .write] else []

/-- `with_storage_async_persistence`: `genesis` is the block of the genesis config, written first
when the store is new. -/
def LiveStore.openAsync (g : GenesisConfig) (genesis : Block) (storage : BlockStorage)
    (finalizedHeight : Nat) (oldSchema : Bool) : Option LiveStore :=
  match storage.getHeight with
  | some storedHeight =>
    match BlockStoreCursor.new storage DEFAULT_BLOCK_CACHE_SIZE with
    | .error _ => none
    | .ok cursor =>
      LiveStore.run { storage, cursor } (reloadOps g finalizedHeight (storedHeight + 1) oldSchema)
  | none =>
    let storage := storage.replaceBlocks [genesis]
    match BlockStoreCursor.new storage DEFAULT_BLOCK_CACHE_SIZE with
    | .error _ => none
    | .ok cursor => some { storage, cursor }

end Curs3d
