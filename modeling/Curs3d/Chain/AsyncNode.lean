import Curs3d.Chain.Open

/-!
# A chain with its worker (`src/core/chain/{mod,persistence,apply,finality,mempool}.rs`)

`AsyncNode` is a chain with asynchronous persistence. A call mutates the chain and hands something
to the worker: a boundary block the full state, a finalizing vote the new height, evidence that
convicts the slashed account, an admitted transaction the pool. Pruning goes past the worker: it
deletes blocks from the table on the thread of the vote.

A call that leaves a full state in the slot has its signal still to send, and a vote that prunes
has the deletion still to make. The worker may move before that, and the chain lock keeps the other
calls out.

Everything handed over is `Dated` by the call it comes from, and the store carries with each
account the date of the value it holds. These dates and the list `processed` only record: nothing
reads them.
-/

set_option autoImplicit false

namespace Curs3d

/-- A value, and when it was taken from the chain. -/
structure Dated (α : Type) where
  value : α
  time : Nat

/-- The database, and when the account stored at each address was taken from the chain. -/
structure DatedStorage where
  tables : Storage
  accountTime : Bytes → Nat := fun _ => 0

/-- The dates of the stored accounts after a transaction. -/
def DatedStorage.redate (d : DatedStorage) (t : Dated StorageTx) : Bytes → Nat :=
  match t.value with
  | .replaceAccounts _ => fun _ => t.time
  | .putAccount address _ => fun a => if a = address then t.time else d.accountTime a
  | _ => d.accountTime

def DatedStorage.commit (P : Primitives) (d : DatedStorage) (t : Dated StorageTx) :
    DatedStorage where
  tables := d.tables.commit P t.value
  accountTime := d.redate t

def Dated.each {α : Type} (time : Nat) (values : List α) : List (Dated α) :=
  values.map fun value => { value, time }

/-- The worker of `PersistenceHandle.protocol`, on dated values. -/
def datedProtocol (P : Primitives) :
    Handoff.Protocol (Dated PersistedChainState) (Dated PersistJob) (Dated StorageTx) DatedStorage
    where
  capacity := PERSISTENCE_QUEUE_CAPACITY
  ofState s := Dated.each s.time (writeFullStateToStorage s.value)
  ofJob a := Dated.each a.time a.value.transactions
  commit := DatedStorage.commit P

abbrev DatedHandle :=
  Handoff.State (Dated PersistedChainState) (Dated PersistJob) (Dated StorageTx) DatedStorage

/-- A call on the chain. -/
inductive ChainCall where
  | addBlock (now : Int) (block : Block)
  | addFinalityVote (vote : FinalityVote)
  | processEquivocation (evidence : EquivocationEvidence)
  | addTransaction (now : Int) (tx : Transaction)

inductive AsyncEvent where
  | call (call : ChainCall)
  /-- The second half of `enqueue_full_state`. -/
  | signal
  /-- `prune_blocks_below`. -/
  | prune
  | receive
  | drain
  | commit
  | finish

structure AsyncNode where
  chain : Blockchain
  handle : DatedHandle
  /-- The height a vote is about to prune the table to. -/
  pruning : Option Nat := none
  clock : Nat := 0
  processed : List EquivocationEvidence := []

namespace AsyncNode

variable (P : Primitives) (x : AsyncNode)

/-- What `with_storage_async_persistence` ends in: a chain and a worker at its store. -/
def spawn (c : Blockchain) (storage : Storage) : AsyncNode where
  chain := c
  handle := { store := { tables := storage } }

/-- A call holds the chain lock. -/
def Busy : Prop := x.handle.hand.isSome ∨ x.pruning.isSome

instance : Decidable x.Busy := inferInstanceAs (Decidable (_ ∨ _))

/-- `persist_full_state`, up to the signal. -/
def persistFullState (c : Blockchain) : AsyncNode :=
  { x with
    chain := c
    handle := x.handle.step (datedProtocol P)
      (.put { value := PersistedChainState.fromChain c, time := x.clock }) }

/-- `try_enqueue`. -/
def enqueue (c : Blockchain) (job : PersistJob) : AsyncNode :=
  { x with
    chain := c
    handle := x.handle.step (datedProtocol P) (.send { value := job, time := x.clock }) }

def addBlock (now : Int) (block : Block) : AsyncNode :=
  match x.chain.addBlock P now block with
  | (.error _, c) => { x with chain := c }
  | (.ok (), c) =>
    if c.isBoundary block.header.height then x.persistFullState P c else { x with chain := c }

def addFinalityVote (vote : FinalityVote) : AsyncNode :=
  match x.chain.addFinalityVote P vote with
  | (none, c) => { x with chain := c }
  | (some finalized, c) =>
    { x.enqueue P c (.finalizedHeight finalized.height) with
      pruning := x.chain.pruneFrom finalized.height }

def processEquivocation (evidence : EquivocationEvidence) : AsyncNode :=
  match x.chain.processEquivocation P evidence with
  | (.error _, c) => { x with chain := c }
  | (.ok _, c) =>
    let address := addressBytesFromPublicKey P evidence.validatorPublicKey
    { x.enqueue P c (.equivocationEvidence evidence address c.accounts[address]?) with
      processed := evidence :: x.processed }

def addTransaction (now : Int) (tx : Transaction) : AsyncNode :=
  match x.chain.addTransaction P now tx with
  | (.error _, c) => { x with chain := c }
  | (.ok (), c) => x.enqueue P c (.pendingTransactions c.pendingTransactions)

def serve : ChainCall → AsyncNode
  | .addBlock now block => x.addBlock P now block
  | .addFinalityVote vote => x.addFinalityVote P vote
  | .processEquivocation evidence => x.processEquivocation P evidence
  | .addTransaction now tx => x.addTransaction P now tx

/-- A step of the handle alone. -/
def turn (e : Handoff.Event (Dated PersistedChainState) (Dated PersistJob)) : AsyncNode :=
  { x with handle := x.handle.step (datedProtocol P) e }

/-- `prune_blocks_below`, on the thread of the vote. -/
def prune : AsyncNode :=
  match x.pruning with
  | none => x
  | some keepFrom =>
    { x with
      pruning := none
      handle := { x.handle with store := { x.handle.store with
        tables := x.handle.store.tables.commit P (.pruneBlocksBelow keepFrom) } } }

/-- One step of either thread. -/
def act : AsyncEvent → AsyncNode
  | .call call => if x.Busy then x else x.serve P call
  | .signal => x.turn P .signal
  | .prune => x.prune P
  | .receive => x.turn P .receive
  | .drain => x.turn P .drain
  | .commit => x.turn P .commit
  | .finish => x.turn P .finish

def step (e : AsyncEvent) : AsyncNode := { x.act P e with clock := x.clock + 1 }

def run (events : List AsyncEvent) : AsyncNode := events.foldl (step P) x

end AsyncNode

end Curs3d
