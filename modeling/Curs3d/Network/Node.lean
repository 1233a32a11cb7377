import Curs3d.Chain.Finality
import Curs3d.Chain.Produce

/-!
# A node (`src/network/mod.rs`)

The parts of `run_with_chain` and `handle_new_block` that touch the chain: producing a block at
the tip when the slot gate allows it, receiving a block, receiving a vote. A validator signs a
finality vote in two places only, right after `add_block` accepted a block it produced or one it
received; it keeps no record of its votes. `votes` is that missing record, a list of every vote
signed so far, and nothing reads it.

Deserialization and the duplicate filter on raw messages come before these handlers and decide
only which messages reach them. The peer and sync gates of the production loop depend on the
network, not on the chain; `connectedPeers` stands for the one that is a function of its value.
-/

set_option autoImplicit false

namespace Curs3d

structure Node where
  chain : Blockchain
  validatorKey : Option KeyPair
  votes : List FinalityVote
deriving DecidableEq

namespace Node

variable (P : Primitives) (n : Node)

/-- Sign a vote for `block`, apply it locally; it is also broadcast. -/
def castVote (keypair : KeyPair) (block : Block) : Node :=
  let vote := FinalityVote.new P block.hash block.header.height
    (n.chain.epochForHeight block.header.height) keypair
  { n with chain := (n.chain.addFinalityVote P vote).2, votes := n.votes ++ [vote] }

/-- The vote of a validator on a block its chain just accepted. -/
def voteIfValidator (block : Block) : Node :=
  match n.validatorKey with
  | some keypair => n.castVote P keypair block
  | none => n

/-! ## Production -/

def allowedRankForSlot (nextHeight : Nat) (parentTimestamp now : Int) (snapshotSize : Nat) : Nat :=
  if nextHeight ≤ 1 then 0 else allowedBackupRank parentTimestamp now snapshotSize

/-- The first rank up to `allowedRank` that elects `address`; the walk stops at a rank without a
leader. -/
def rankOf (address : Bytes) (nextHeight : Nat) (latestHash : Bytes) :
    (k fuel : Nat) → Option Nat
  | _, 0 => none
  | k, fuel + 1 =>
    match n.chain.slotLeaderAddress P nextHeight latestHash k with
    | some addr => if addr = address then some k else rankOf address nextHeight latestHash (k + 1) fuel
    | none => none

/-- The slot gate: whether this validator may build the next block now. -/
def mayProduce (now : Int) (keypair : KeyPair) (connectedPeers : Nat) : Bool :=
  let parent := n.chain.latestBlock
  let nextHeight := parent.header.height + 1
  let snapshotSize := (n.chain.epochSnapshots[n.chain.epochForHeight nextHeight]?.map
    fun s => s.validators.length).getD 0
  let allowedRank := allowedRankForSlot nextHeight parent.header.timestamp now snapshotSize
  match n.rankOf P (addressBytesFromPublicKey P keypair.publicKey) nextHeight parent.hash 0
      (allowedRank + 1) with
  | none => false
  | some rank => rank = 0 ∨ 0 < connectedPeers

/-- One tick of the block timer: the node afterwards and the block it broadcasts. -/
def produce (now : Int) (connectedPeers : Nat) : Node × Option Block :=
  match n.validatorKey with
  | none => (n, none)
  | some keypair =>
    if !n.mayProduce P now keypair connectedPeers then (n, none)
    else match n.chain.createBlock P now keypair with
      | .error _ => (n, none)
      | .ok block =>
        match n.chain.addBlock P now block with
        | (.error _, c) => ({ n with chain := c }, none)
        | (.ok (), c) => ({ n with chain := c }.castVote P keypair block, some block)

/-! ## Receiving -/

/-- The evidence `handle_new_block` assembles against the block it holds at that height. -/
def equivocationWith (c : Blockchain) (block : Block) : Option EquivocationEvidence :=
  match c.blockAtHeight block.header.height with
  | none => none
  | some ours =>
    match ours.signature, block.signature with
    | some sigA, some sigB =>
      if ours.header.validatorPublicKey = block.header.validatorPublicKey ∧
          ours.hash ≠ block.hash then
        some
          { height := block.header.height
            validatorPublicKey := block.header.validatorPublicKey
            blockHeaderA := ours.header
            blockHashA := ours.hash
            signatureA := sigA
            blockHeaderB := block.header
            blockHashB := block.hash
            signatureB := sigB }
      else none
    | _, _ => none

/-- Slash when a rejected fork block proves that its proposer signed twice at its height. -/
def punishEquivocation (c : Blockchain) (block : Block) : Blockchain :=
  match equivocationWith c block with
  | none => c
  | some evidence => if evidence.verify P then (c.processEquivocation P evidence).2 else c

/-- The fork path of `handle_new_block`: no vote is cast on it. -/
def handleForkBlock (now : Int) (block : Block) : Node :=
  match n.chain.addBlockWithForkChoice P now block with
  | (.ok _, c) => { n with chain := c }
  | (.error _, c) => { n with chain := punishEquivocation P c block }

/-- `handle_new_block`. -/
def handleNewBlock (now : Int) (block : Block) : Node :=
  match n.chain.addBlock P now block with
  | (.ok (), c) => { n with chain := c }.voteIfValidator P block
  | (.error (.invalidHeight _ _), c) => { n with chain := c }.handleForkBlock P now block
  | (.error .invalidPrevHash, c) => { n with chain := c }.handleForkBlock P now block
  | (.error _, c) => { n with chain := c }

/-- The `FinalityVote` arm of the event loop. -/
def handleVote (vote : FinalityVote) : Node :=
  { n with chain := (n.chain.addFinalityVote P vote).2 }

end Node

/-! ## Events of one node -/

inductive NodeEvent where
  | tick (now : Int) (connectedPeers : Nat)
  | newBlock (now : Int) (block : Block)
  | vote (vote : FinalityVote)
deriving DecidableEq, Repr

def Node.step (P : Primitives) (n : Node) : NodeEvent → Node
  | .tick now connectedPeers => (n.produce P now connectedPeers).1
  | .newBlock now block => n.handleNewBlock P now block
  | .vote vote => n.handleVote P vote

def Node.run (P : Primitives) (n : Node) (events : List NodeEvent) : Node :=
  events.foldl (Node.step P) n

/-- A node just started on a new store. -/
def Node.start (P : Primitives) (g : GenesisConfig) (validatorKey : Option KeyPair) :
    Except ChainError Node := do
  let chain ← fromGenesis P g
  return { chain, validatorKey, votes := [] }

end Curs3d
