import Curs3d.Core.BlockStore

/-!
# A block store without a disk (`InMemoryBlockBackend` in `src/storage/backend.rs`)

A chain without storage keeps its blocks in a map, behind a cursor that writes every appended block
there itself. The cursor is the one of `src/core/block_store.rs`; it sees the map through the same
reads as the disk (`asStorage`). `prune_below` is the only call that removes blocks from the
backend, and it removes the genesis too, which the cursor has pinned.
-/

set_option autoImplicit false

namespace Curs3d

structure InMemoryBlockBackend where
  inner : HeightMap Block := ∅

namespace InMemoryBlockBackend

variable (s : InMemoryBlockBackend)

def putBlock (block : Block) : InMemoryBlockBackend where
  inner := s.inner.insert block.header.height block

def getBlock (height : Nat) : Option Block := s.inner[height]?

/-- The highest key. -/
def getHeight : Option Nat := s.inner.keys.getLast?

/-- How many blocks went, and what is left. -/
def pruneBlocksBelow (retainFrom : Nat) : Nat × InMemoryBlockBackend :=
  if retainFrom = 0 then (0, s)
  else
    let kept := s.inner.filter fun height _ => retainFrom ≤ height
    (s.inner.size - kept.size, { inner := kept })

/-- The backend as a cursor reads it. -/
def asStorage : BlockStorage where
  blocks := s.inner
  headHeight := s.getHeight

end InMemoryBlockBackend

/-- A self-persisting cursor and its backend. -/
structure MemoryStore where
  cursor : BlockStoreCursor
  backend : InMemoryBlockBackend

inductive StoreCall where
  | append (block : Block)
  | blockAt (height : Nat)
  | pruneBelow (keepFrom : Nat)
  | invalidateFrom (start : Nat)

namespace MemoryStore

def newSelfPersisting (backend : InMemoryBlockBackend) (cacheSize : Nat) :
    Except BlockStoreError MemoryStore :=
  (BlockStoreCursor.newWithPersist backend.asStorage cacheSize true).map fun cursor =>
    { cursor, backend }

variable (m : MemoryStore)

def length : Nat := m.cursor.heightCount

def append (block : Block) : Except BlockStoreError MemoryStore :=
  (m.cursor.append m.backend.asStorage block).map fun (cursor, storage) =>
    { cursor, backend := { inner := storage.blocks } }

def blockAt (height : Nat) : Option Block × MemoryStore :=
  let (block, cursor) := m.cursor.blockAt m.backend.asStorage height
  (block, { m with cursor })

/-- `prune_below`: nothing happens at or below the watermark. -/
def pruneBelow (keepFrom : Nat) : Nat × MemoryStore :=
  if keepFrom = 0 then (0, m)
  else if keepFrom ≤ m.cursor.baseHeight then (0, m)
  else
    let (removed, backend) := m.backend.pruneBlocksBelow keepFrom
    (removed,
      { backend
        cursor := { m.cursor with
          baseHeight := keepFrom
          cache := m.cursor.cache.retain fun h => keepFrom ≤ h } })

def invalidateFrom (start : Nat) : MemoryStore :=
  { m with cursor := m.cursor.invalidateFrom start }

/-- The store after a call; a refused append changes nothing. -/
def step : StoreCall → MemoryStore
  | .append block => match m.append block with
    | .ok m' => m'
    | .error _ => m
  | .blockAt height => (m.blockAt height).2
  | .pruneBelow keepFrom => (m.pruneBelow keepFrom).2
  | .invalidateFrom start => m.invalidateFrom start

def run (calls : List StoreCall) : MemoryStore := calls.foldl step m

end MemoryStore

end Curs3d
