import Curs3d.Chain.AsyncNode

/-!
# A live node and its crashes (`src/core/chain/{mod,persistence,reorg}.rs`)

`LiveNode` is an `AsyncNode` that also takes blocks off its tip: a reorganisation leaves a full state in
the slot like a boundary block does. A crash at any point leaves the tables the worker has committed so far,
and `Storage.withStorage` is what the next start makes of them.

`finalized` lists what votes have finalized since the start, newest first; nothing reads it.
-/

set_option autoImplicit false

namespace Curs3d

namespace AsyncNode

variable (P : Primitives) (x : AsyncNode)

/-- `add_block_with_fork_choice` on an asynchronous chain. -/
def addBlockWithForkChoice (now : Int) (block : Block) : AsyncNode :=
  if x.chain.tooOld block then x
  else if block.header.prevHash = x.chain.latestBlock.hash then x.addBlock P now block
  else match x.chain.addBlockWithForkChoice P now block with
  | (.ok true, c) => x.persistFullState P c
  | (_, c) => { x with chain := c }

/-- The block the event finalizes. -/
def finalizes : AsyncEvent → Option FinalizedBlock
  | .call (.addFinalityVote vote) => if x.Busy then none else (x.chain.addFinalityVote P vote).1
  | _ => none

/-- The transaction the worker commits next. -/
def nextCommit : Option StorageTx := x.handle.worker.todo.head?.map Dated.value

end AsyncNode

inductive LiveEvent where
  | async (e : AsyncEvent)
  /-- `add_block_with_fork_choice`. -/
  | forkBlock (now : Int) (block : Block)

/-- The clock reading of a block that arrives. -/
def LiveEvent.reading : LiveEvent → Option Int
  | .async (.call (.addBlock now _)) | .forkBlock now _ => some now
  | _ => none

structure LiveNode where
  node : AsyncNode
  finalized : List FinalizedBlock := []

namespace LiveNode

variable (P : Primitives) (x : LiveNode)

def spawn (c : Blockchain) (storage : Storage) : LiveNode where
  node := AsyncNode.spawn c storage

/-- One step of either thread. -/
def step : LiveEvent → LiveNode
  | .async e =>
    { node := x.node.step P e
      finalized := (x.node.finalizes P e).toList ++ x.finalized }
  | .forkBlock now block =>
    { x with
      node :=
        { (if x.node.Busy then x.node else x.node.addBlockWithForkChoice P now block) with
          clock := x.node.clock + 1 } }

def run (events : List LiveEvent) : LiveNode := events.foldl (step P) x

/-- What a crash leaves. -/
def tables : Storage := x.node.handle.store.tables

end LiveNode

/-- The genesis, or a block that was finalized at this height, is in the block table. -/
def Storage.HoldsFinal (s : Storage) (finalized : List FinalizedBlock) (height : Nat) : Prop :=
  height = 0 ∨ ∃ f ∈ finalized, f.height = height ∧
    (s.blocks.getBlock height).map Block.hash = some f.hash

instance (s : Storage) (finalized : List FinalizedBlock) (height : Nat) :
    Decidable (s.HoldsFinal finalized height) :=
  inferInstanceAs (Decidable (_ ∨ _))

end Curs3d
