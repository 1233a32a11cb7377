import Curs3d.Lib.Erc20
import Curs3d.Lib.Solidity

/-!
# Token-weighted governance

`Curs3dGovernance` counts the balances of a token as votes on proposals. Its storage maps are functions, zero
where nothing was written; `token` is the state of the token contract, which every account can call.
Each call comes with its sender and the timestamp of its block. Events are left out.
-/

set_option autoImplicit false

namespace Curs3d

open Solidity

/-- The token: balances and allowances by account. -/
abbrev GovernanceToken := Erc20 Address compare

/-- The errors of the contract, and those of the `Ownable` it inherits. -/
inductive Curs3dGovernanceError where
  | emptyDescription
  | proposalMissing
  | votingClosed
  | votingNotStarted
  | votingStillOpen
  | alreadyVoted
  | noVotingPower
  | alreadyExecuted
  | quorumNotMet
  | proposalRejected
  | invalidVotingWindow
  | executionWindowExpired
  | zeroAddress
  | ownableInvalidOwner
  | ownableUnauthorizedAccount
deriving DecidableEq, Repr

/-- A proposal; the fields of one that was never written are zero. -/
structure VotingProposal where
  proposer : Address := 0
  description : String := ""
  startTime : Nat := 0
  endTime : Nat := 0
  executionDeadline : Nat := 0
  forVotes : Nat := 0
  againstVotes : Nat := 0
  executed : Bool := false
deriving DecidableEq, Repr

structure Curs3dGovernance where
  owner : Address
  /-- The token's address, fixed at construction. -/
  tokenAddress : Address
  token : GovernanceToken := {}
  votingDelay : Nat
  votingPeriod : Nat
  quorumVotes : Nat
  executionWindow : Nat
  proposalCount : Nat := 0
  proposals : Nat → VotingProposal := fun _ => {}
  voterSnapshot : Nat → Address → Nat := fun _ _ => 0
  hasVoted : Nat → Address → Bool := fun _ _ => false

namespace Curs3dGovernance

def minVotingPeriod : Nat := 3600
def maxVotingPeriod : Nat := 30 * 86400
def maxVotingDelay : Nat := 7 * 86400
def maxExecutionWindow : Nat := 30 * 86400
def minExecutionWindow : Nat := 3600

abbrev Result := Except (Revert Curs3dGovernanceError)

variable (g : Curs3dGovernance)

def validateConfig (delay period window : Nat) : Result Unit := do
  require (delay ≤ maxVotingDelay) .invalidVotingWindow
  require (minVotingPeriod ≤ period ∧ period ≤ maxVotingPeriod) .invalidVotingWindow
  require (minExecutionWindow ≤ window ∧ window ≤ maxExecutionWindow) .invalidVotingWindow

/-- The constructor, with the token as it stands. -/
def deploy (tokenAddress : Address) (token : GovernanceToken) (votingDelay votingPeriod quorumVotes : Nat)
    (owner : Address) : Result Curs3dGovernance := do
  require (owner ≠ 0) .ownableInvalidOwner
  require (tokenAddress ≠ 0 ∧ owner ≠ 0) .zeroAddress
  validateConfig votingDelay votingPeriod (7 * 86400)
  return { owner, tokenAddress, token, votingDelay, votingPeriod, quorumVotes, executionWindow := 7 * 86400 }

/-- A proposal's storage after a write. -/
def setProposal (proposalId : Nat) (p : VotingProposal) : Curs3dGovernance :=
  { g with proposals := fun id => if id = proposalId then p else g.proposals id }

/-- The counter is incremented unchecked. -/
def nextProposalId : Nat := (g.proposalCount + 1) % 2 ^ 256

def createProposal (sender : Address) (timestamp : Nat) (description : String) :
    Result (Nat × Curs3dGovernance) := do
  require (description.utf8ByteSize ≠ 0) .emptyDescription
  let proposalId := g.nextProposalId
  let start ← add timestamp g.votingDelay
  let stop ← add start g.votingPeriod
  let deadline ← add stop g.executionWindow
  require (deadline ≤ uint64Max) .invalidVotingWindow
  let proposal : VotingProposal :=
    { proposer := sender, description, startTime := start, endTime := stop, executionDeadline := deadline }
  return (proposalId, { g with proposalCount := proposalId }.setProposal proposalId proposal)

/-- The snapshot that a vote uses: what was recorded, or the current balance where nothing (or zero) was. -/
def snapshotOf (proposalId : Nat) (voter : Address) (currentBalance : Nat) : Nat :=
  if g.voterSnapshot proposalId voter = 0 then currentBalance else g.voterSnapshot proposalId voter

/-- The proposal with the vote counted. -/
def castVote (p : VotingProposal) (support : Bool) (weight : Nat) : Result VotingProposal :=
  if support then do
    let forVotes ← add p.forVotes weight
    return { p with forVotes }
  else do
    let againstVotes ← add p.againstVotes weight
    return { p with againstVotes }

def vote (sender : Address) (timestamp : Nat) (proposalId : Nat) (support : Bool) :
    Result Curs3dGovernance := do
  let proposal := g.proposals proposalId
  require (proposal.proposer ≠ 0) .proposalMissing
  require (proposal.startTime ≤ timestamp) .votingNotStarted
  require (timestamp ≤ proposal.endTime) .votingClosed
  require (g.hasVoted proposalId sender = false) .alreadyVoted
  let currentBalance := g.token.balanceOf sender
  require (currentBalance ≠ 0) .noVotingPower
  let snap := g.snapshotOf proposalId sender currentBalance
  let weight := if currentBalance < snap then currentBalance else snap
  let proposal ← castVote proposal support weight
  return { g with
    voterSnapshot := fun id voter =>
      if id = proposalId ∧ voter = sender then snap else g.voterSnapshot id voter
    hasVoted := fun id voter =>
      if id = proposalId ∧ voter = sender then true else g.hasVoted id voter }.setProposal proposalId proposal

def execute (timestamp : Nat) (proposalId : Nat) : Result Curs3dGovernance := do
  let proposal := g.proposals proposalId
  require (proposal.proposer ≠ 0) .proposalMissing
  require (proposal.endTime < timestamp) .votingStillOpen
  require (timestamp ≤ proposal.executionDeadline) .executionWindowExpired
  require (proposal.executed = false) .alreadyExecuted
  let totalVotes ← add proposal.forVotes proposal.againstVotes
  require (g.quorumVotes ≤ totalVotes) .quorumNotMet
  require (proposal.againstVotes < proposal.forVotes) .proposalRejected
  return g.setProposal proposalId { proposal with executed := true }

def setConfig (sender : Address) (votingDelay votingPeriod quorumVotes executionWindow : Nat) :
    Result Curs3dGovernance := do
  require (sender = g.owner) .ownableUnauthorizedAccount
  validateConfig votingDelay votingPeriod executionWindow
  return { g with votingDelay, votingPeriod, quorumVotes, executionWindow }

/-! ## Calls -/

/-- What an account can call: the contract, or the token itself. -/
inductive Action where
  | createProposal (description : String)
  | vote (proposalId : Nat) (support : Bool)
  | execute (proposalId : Nat)
  | setConfig (votingDelay votingPeriod quorumVotes executionWindow : Nat)
  | token (call : Erc20.Call Address)

/-- A call: its sender, the timestamp of its block, and what is called. -/
structure Call where
  sender : Address
  timestamp : Nat
  action : Action

def step (c : Call) : Result Curs3dGovernance :=
  match c.action with
  | .createProposal description => do return (← g.createProposal c.sender c.timestamp description).2
  | .vote proposalId support => g.vote c.sender c.timestamp proposalId support
  | .execute proposalId => g.execute c.timestamp proposalId
  | .setConfig votingDelay votingPeriod quorumVotes executionWindow =>
    g.setConfig c.sender votingDelay votingPeriod quorumVotes executionWindow
  | .token call => do return { g with token := ← bubble (g.token.call c.sender call) }

/-- The votes counted on a proposal. -/
def votesOn (proposalId : Nat) : Nat :=
  (g.proposals proposalId).forVotes + (g.proposals proposalId).againstVotes

end Curs3dGovernance
end Curs3d
