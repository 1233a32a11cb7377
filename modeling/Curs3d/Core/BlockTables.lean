import Curs3d.Core.Legacy
import Curs3d.Core.MemoryStore
import Curs3d.Core.Storage

/-!
# The block table in redb (`src/storage/mod.rs`, `src/storage/backend.rs`)

`BlockStorage` keeps blocks by height. In redb both the keys and the values are bytes: the height as eight
big-endian bytes, so that the order of the keys is that of the heights, and the block in bincode; the head height is
a record of the `meta` table. A transaction of redb is committed whole, and a read finds what was committed last.

`BlockBackend` is the interface that this and the map of `InMemoryBlockBackend` implement; its calls and
their answers are `BackendCall` and `BackendAnswer`.
-/

set_option autoImplicit false

namespace Curs3d

def HEIGHT_KEY : Bytes := ascii "chain_height"

/-- `u64::from_be_bytes`. -/
def beValue (b : Bytes) : Nat := Bincode.leValue b.reverse

/-- `BLOCKS_TABLE` and `META_TABLE`. -/
structure BlockTables where
  blocks : ByteMap Bytes := ∅
  metadata : ByteMap Bytes := ∅

namespace BlockTables

variable (t : BlockTables)

def putBlock (block : Block) : BlockTables :=
  let key := beBytes block.header.height
  { blocks := t.blocks.insert key (Bincode.block block)
    metadata := t.metadata.insert HEIGHT_KEY key }

def getBlock (height : Nat) : Except StorageError (Option Block) :=
  match t.blocks[beBytes height]? with
  | some data => match Decode.block.decode data with
    | some block => .ok (some block)
    | none => .error .serialize
  | none => .ok none

/-- How many blocks went, and what is left. -/
def pruneBlocksBelow (retainFrom : Nat) : Nat × BlockTables :=
  if retainFrom = 0 then (0, t)
  else
    let upper := beBytes retainFrom
    let keysToRemove := t.blocks.keys.filter fun key => compare key upper = .lt
    (keysToRemove.length, { t with blocks := keysToRemove.foldl (fun m key => m.erase key) t.blocks })

def getHeight : Except StorageError (Option Nat) :=
  match t.metadata[HEIGHT_KEY]? with
  | some data => if data.length = 8 then .ok (some (beValue data)) else .error .serialize
  | none => .ok none

end BlockTables

/-! ## The interface -/

inductive BackendCall where
  | putBlock (block : Block)
  | getBlock (height : Nat)
  | pruneBlocksBelow (retainFrom : Nat)
  | getHeight

inductive BackendAnswer where
  | stored
  | block (block : Option Block)
  | removed (count : Nat)
  | height (height : Option Nat)
deriving DecidableEq

def BlockTables.call (t : BlockTables) :
    BackendCall → Except StorageError BackendAnswer × BlockTables
  | .putBlock block => (.ok .stored, t.putBlock block)
  | .getBlock height => ((t.getBlock height).map .block, t)
  | .pruneBlocksBelow retainFrom =>
    let (removed, t) := t.pruneBlocksBelow retainFrom
    (.ok (.removed removed), t)
  | .getHeight => (t.getHeight.map .height, t)

def InMemoryBlockBackend.call (s : InMemoryBlockBackend) :
    BackendCall → Except StorageError BackendAnswer × InMemoryBlockBackend
  | .putBlock block => (.ok .stored, s.putBlock block)
  | .getBlock height => (.ok (.block (s.getBlock height)), s)
  | .pruneBlocksBelow retainFrom =>
    let (removed, s) := s.pruneBlocksBelow retainFrom
    (.ok (.removed removed), s)
  | .getHeight => (.ok (.height s.getHeight), s)

/-- What a call leaves of the blocks by height. -/
def BlockStorage.step (s : BlockStorage) : BackendCall → BlockStorage
  | .putBlock block => s.putBlock block
  | .pruneBlocksBelow retainFrom => s.pruneBlocksBelow retainFrom
  | .getBlock _ | .getHeight => s

end Curs3d
