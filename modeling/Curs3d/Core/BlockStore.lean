import Curs3d.Core.Block
import Curs3d.Lib.Lru
import Curs3d.Lib.KeyMap

/-!
# The paginated block store (`src/core/block_store.rs`, the block tables of `src/storage/mod.rs`)

The canonical chain as a live node holds it: the genesis pinned, a bounded cache of the other
blocks, the rest on disk. `append` of a cursor over redb touches the cache only; writing to disk
is somebody else's job.

The disk returns what was last written. Reads and writes of it do not fail here, and one thread
uses the cursor, so the mutex and the second look at the bounds under it leave no trace.
-/

set_option autoImplicit false

namespace Curs3d

def DEFAULT_BLOCK_CACHE_SIZE : Nat := 1000

/-! ## On disk -/

/-- The block table and the stored head height. -/
structure BlockStorage where
  blocks : HeightMap Block := ∅
  headHeight : Option Nat := none

namespace BlockStorage

def getBlock (s : BlockStorage) (height : Nat) : Option Block := s.blocks[height]?

def getHeight (s : BlockStorage) : Option Nat := s.headHeight

def putBlock (s : BlockStorage) (block : Block) : BlockStorage where
  blocks := s.blocks.insert block.header.height block
  headHeight := some block.header.height

/-- `replace_blocks`: the table holds exactly these afterwards. -/
def replaceBlocks (_ : BlockStorage) (blocks : List Block) : BlockStorage where
  blocks := blocks.foldl (fun m b => m.insert b.header.height b) ∅
  headHeight := blocks.getLast?.map fun b => b.header.height

end BlockStorage

/-! ## The cursor -/

inductive BlockStoreError where
  | missingGenesis
  | nonContiguousAppend (expected actual : Nat)
deriving DecidableEq, Repr

structure BlockStoreCursor where
  genesis : Block
  cache : Lru Nat Block
  heightCount : Nat
  baseHeight : Nat
  selfPersist : Bool

namespace BlockStoreCursor

/-- The first height from 1 on that is on disk; 0 when there is none. -/
def firstStored (storage : BlockStorage) (heightCount : Nat) : Nat :=
  ((List.range' 1 (heightCount - 1)).find? fun h => (storage.getBlock h).isSome).getD 0

def newWithPersist (storage : BlockStorage) (cacheSize : Nat) (selfPersist : Bool) :
    Except BlockStoreError BlockStoreCursor :=
  match storage.getBlock 0 with
  | none => .error .missingGenesis
  | some genesis =>
    let heightCount := (storage.getHeight.map (· + 1)).getD 1
    .ok
      { genesis
        cache := Lru.empty Nat Block (max cacheSize 1)
        heightCount
        baseHeight := firstStored storage heightCount
        selfPersist }

def new (storage : BlockStorage) (cacheSize : Nat) : Except BlockStoreError BlockStoreCursor :=
  newWithPersist storage cacheSize false

variable (c : BlockStoreCursor) (storage : BlockStorage)

/-- `block_at`: a hit moves the block to the front of the cache, a miss that the disk answers puts
it there. -/
def blockAt (height : Nat) : Option Block × BlockStoreCursor :=
  if height = 0 then (some c.genesis, c)
  else if c.heightCount ≤ height ∨ height < c.baseHeight then (none, c)
  else match c.cache.get height with
    | (some b, cache) => (some b, { c with cache })
    | (none, _) => match storage.getBlock height with
      | some b => (some b, { c with cache := c.cache.put height b })
      | none => (none, c)

/-- `append`: the cursor and the disk afterwards. -/
def append (block : Block) : Except BlockStoreError (BlockStoreCursor × BlockStorage) :=
  if block.header.height ≠ c.heightCount then
    .error (.nonContiguousAppend c.heightCount block.header.height)
  else
    let storage' := if c.selfPersist then storage.putBlock block else storage
    if block.header.height = 0 then
      .ok ({ c with genesis := block, heightCount := c.heightCount + 1 }, storage')
    else
      .ok ({ c with
        cache := c.cache.put block.header.height block
        heightCount := c.heightCount + 1 }, storage')

/-- `invalidate_from`: the prune watermark and the disk stay as they are. -/
def invalidateFrom (start : Nat) : BlockStoreCursor :=
  { c with
    cache := c.cache.retain fun h => h < start
    heightCount := if start < c.heightCount then start else c.heightCount }

end BlockStoreCursor

end Curs3d
