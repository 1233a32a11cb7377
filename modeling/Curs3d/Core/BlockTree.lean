import Curs3d.Core.Block
import Curs3d.Lib.KeyMap
import Curs3d.Lib.Machine

/-!
# The block tree (`src/core/blocktree.rs`)

Every walk of the source follows `prev_hash` from some block until it meets a block of height
`0` or a hash it does not know: `is_descendant_of`, `canonical_chain` and `common_ancestor` all
read off the same list of blocks, `lineage`. It runs on fuel, one more than the height it starts
from, since each step goes down one height (`insert` checks the link).
-/

set_option autoImplicit false

namespace Curs3d

open U64

structure BlockEntry where
  block : Block
  cumulativeStakeWeight : Nat
  children : List Bytes
deriving DecidableEq

structure BlockTree where
  entries : ByteMap BlockEntry
  canonicalTip : Bytes
  finalizedHash : Bytes
  finalizedHeight : Nat
deriving DecidableEq

namespace BlockTree

def fromGenesis (genesis : Block) : BlockTree where
  entries := (∅ : ByteMap BlockEntry).insert genesis.hash
    { block := genesis, cumulativeStakeWeight := 0, children := [] }
  canonicalTip := genesis.hash
  finalizedHash := genesis.hash
  finalizedHeight := 0

variable (t : BlockTree)

def get (hash : Bytes) : Option Block := t.entries[hash]?.map BlockEntry.block

/-! ## Walks towards genesis -/

def lineageFrom : Nat → Bytes → List (Bytes × Block)
  | 0, _ => []
  | fuel + 1, current =>
    match t.get current with
    | none => []
    | some block =>
      (current, block) ::
        if block.header.height = 0 then [] else lineageFrom fuel block.header.prevHash

/-- The block `hash` and its ancestors, newest first. -/
def lineage (hash : Bytes) : List (Bytes × Block) :=
  match t.get hash with
  | none => []
  | some block => t.lineageFrom (block.header.height + 1) hash

def isDescendantOf (descendant ancestor : Bytes) : Bool :=
  (t.lineage descendant).any fun e => e.1 = ancestor

def canonicalChain : List Block := ((t.lineage t.canonicalTip).map Prod.snd).reverse

def isOnCanonicalChain (hash : Bytes) : Bool := t.isDescendantOf t.canonicalTip hash

def commonAncestor (hashA hashB : Bytes) : Option Bytes :=
  ((t.lineage hashB).map Prod.fst).find? fun h => (t.lineage hashA).any fun e => e.1 = h

/-! ## Insertion and the fork choice -/

def weightOf (hash : Bytes) : Nat := (t.entries[hash]?.map BlockEntry.cumulativeStakeWeight).getD 0

/-- The tree with `block` hung under its parent, the tip not yet chosen. -/
def attach (block : Block) (parent : BlockEntry) (weight : Nat) : BlockTree :=
  { t with
    entries := (t.entries.insert block.header.prevHash
        { parent with children := parent.children ++ [block.hash] }).insert block.hash
      { block, cumulativeStakeWeight := weight, children := [] } }

/-- The heavier of the new block and the current tip, the current one on a tie; `true` when the
new tip is not above the old one. -/
def chooseTip (hash : Bytes) (weight : Nat) : BlockTree × Bool :=
  if t.weightOf t.canonicalTip < weight then
    let t' := { t with canonicalTip := hash }
    (t', !t'.isDescendantOf hash t.canonicalTip)
  else (t, false)

def insert (block : Block) (proposerStake : Nat) : Except BlockTreeError (BlockTree × Bool) :=
  if block.hash ∈ t.entries then .ok (t, false)
  else if block.header.height ≤ t.finalizedHeight ∧ block.hash ≠ t.finalizedHash then
    .error .belowFinalized
  else match t.entries[block.header.prevHash]? with
    | none => .error .orphanBlock
    | some parent =>
      if block.header.height ≠ parent.block.header.height + 1 then .error .invalidHeightLink
      else if 0 < t.finalizedHeight ∧ block.header.prevHash ≠ t.finalizedHash ∧
          !t.isDescendantOf block.header.prevHash t.finalizedHash then
        .error .belowFinalized
      else
        let weight := wrapAdd parent.cumulativeStakeWeight proposerStake
        .ok ((t.attach block parent weight).chooseTip block.hash weight)

/-! ## Finality -/

/-- Whether `prune_below_finalized` keeps an entry. -/
def keeps (hash : Bytes) : Bool :=
  hash = t.finalizedHash ∨ t.isDescendantOf hash t.finalizedHash ∨
    t.isDescendantOf t.finalizedHash hash

def pruneBelowFinalized : BlockTree :=
  if t.finalizedHeight = 0 then t
  else { t with entries := t.entries.filter fun hash _ => t.keeps hash }

def setFinalized (hash : Bytes) (height : Nat) : BlockTree :=
  { t with finalizedHash := hash, finalizedHeight := height }.pruneBelowFinalized

end BlockTree

end Curs3d
