import Curs3d.Network.Node

/-!
# Several nodes

Any number of nodes, each running `Node.step`, and the messages they have broadcast so far: the
blocks produced and the votes signed. A message may reach any node at any later time, any number
of times or never; only sent messages are delivered. The clock of an event is the clock of the
node that handles it.
-/

set_option autoImplicit false

namespace Curs3d

structure Network (ι : Type) where
  node : ι → Node
  sentBlocks : List Block
  sentVotes : List FinalityVote

inductive NetEvent (ι : Type) where
  | tick (i : ι) (now : Int) (connectedPeers : Nat)
  | deliverBlock (i : ι) (now : Int) (block : Block)
  | deliverVote (i : ι) (vote : FinalityVote)

namespace Network

variable {ι : Type} [DecidableEq ι] (P : Primitives) (net : Network ι)

/-- The network after node `i` became `n` and broadcast `blocks` and the votes it signed. -/
def moved (i : ι) (n : Node) (blocks : List Block) : Network ι where
  node := Function.update net.node i n
  sentBlocks := net.sentBlocks ++ blocks
  sentVotes := net.sentVotes ++ n.votes.drop (net.node i).votes.length

def step : NetEvent ι → Network ι
  | .tick i now connectedPeers =>
    net.moved i ((net.node i).produce P now connectedPeers).1
      ((net.node i).produce P now connectedPeers).2.toList
  | .deliverBlock i now block => net.moved i ((net.node i).handleNewBlock P now block) []
  | .deliverVote i vote => net.moved i ((net.node i).handleVote P vote) []

def run (events : List (NetEvent ι)) : Network ι := events.foldl (step P) net

/-- Every event of the run satisfies `p` in the state it is handled in. -/
def Along (p : Network ι → NetEvent ι → Prop) : Network ι → List (NetEvent ι) → Prop
  | _, [] => True
  | net, event :: rest => p net event ∧ Along p (net.step P event) rest

/-- Only what was sent is delivered. -/
def Sent (net : Network ι) : NetEvent ι → Prop
  | .tick _ _ _ => True
  | .deliverBlock _ _ block => block ∈ net.sentBlocks
  | .deliverVote _ vote => vote ∈ net.sentVotes

/-- What node `i` has finalized; nothing before its first finalization. -/
def finalized (net : Network ι) (i : ι) : Option Bytes :=
  let tracker := (net.node i).chain.finalityTracker
  if 0 < tracker.finalizedHeight then some tracker.finalizedHash else none

/-- A snapshot some node holds at some time of the run. -/
def Holds (events : List (NetEvent ι)) (s : EpochSnapshot) : Prop :=
  ∃ before, before <+: events ∧ ∃ i, ∃ epoch : Nat,
    ((net.run P before).node i).chain.epochSnapshots[epoch]? = some s

/-- No two nodes sign with one key. -/
def DistinctKeys (net : Network ι) : Prop :=
  ∀ i j, ∀ a ∈ (net.node i).validatorKey, ∀ b ∈ (net.node j).validatorKey,
    a.publicKey = b.publicKey → i = j

/-- All nodes just started on one genesis, each with its own key. -/
def Starts (P : Primitives) (g : GenesisConfig) (net : Network ι) : Prop :=
  (∀ i, Node.start P g (net.node i).validatorKey = .ok (net.node i)) ∧
    net.sentBlocks = [] ∧ net.sentVotes = []

end Network

end Curs3d
