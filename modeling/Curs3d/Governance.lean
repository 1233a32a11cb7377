import Curs3d.Crypto.Hash
import Curs3d.Lib.KeyMap
import Curs3d.Lib.Machine

/-!
# On-chain governance (`src/governance/mod.rs`)

The tallies use the unchecked operators, so they wrap. `process_block` divides by the epoch
length when a proposal passes; with epoch length `0` the thread panics there, which is `none`.

`process_block` walks a `HashMap`; its order only shows in the order of `executed_upgrades`,
which the model takes to be the order of the proposal ids.
-/

set_option autoImplicit false

namespace Curs3d

open Bincode U64

def VOTING_PERIOD_EPOCHS : Nat := 2
def QUORUM_PERCENT : Nat := 50
def APPROVAL_PERCENT : Nat := 67
def MIN_EXECUTION_DELAY_BLOCKS : Nat := 32

def validParams : List Text :=
  [ascii "block_gas_limit", ascii "minimum_stake", ascii "block_reward", ascii "epoch_length",
    ascii "unstake_delay_blocks", ascii "jail_duration_blocks"]

namespace GovernanceState

variable (P : Primitives) (g : GovernanceState)

def checkKind : ProposalKind → Except GovernanceError Unit
  | .protocolUpgrade version _ => if version = 0 then .error .invalidParams else .ok ()
  | .parameterChange parameter _ =>
    if parameter ∈ validParams then .ok () else .error (.unknownParameter parameter)

def submitProposal (proposer : Bytes) (params : SubmitProposalParams)
    (currentHeight epochLength : Nat) (stakeSnapshot : ByteMap Nat) :
    Except GovernanceError GovernanceState :=
  match checkKind params.kind with
  | .error e => .error e
  | .ok () =>
    let id := P.sha3 (proposer ++ u64 currentHeight ++ proposalKind params.kind)
    let proposal : Proposal :=
      { id, proposer, kind := params.kind, status := .active
        createdAtHeight := currentHeight
        votingDeadlineHeight := wrapAdd currentHeight (wrapMul VOTING_PERIOD_EPOCHS epochLength)
        executionHeight := none, votesFor := 0, votesAgainst := 0, voters := ∅, stakeSnapshot }
    .ok { g with proposals := g.proposals.insert id proposal }

def countVote (proposal : Proposal) (voter : Bytes) (stake : Nat) : VoteChoice → Proposal
  | .for => { proposal with voters := insert voter proposal.voters,
                            votesFor := wrapAdd proposal.votesFor stake }
  | .against => { proposal with voters := insert voter proposal.voters,
                                votesAgainst := wrapAdd proposal.votesAgainst stake }

def vote (voter proposalId : Bytes) (choice : VoteChoice) (currentHeight : Nat) :
    Except GovernanceError GovernanceState :=
  match g.proposals[proposalId]? with
  | none => .error .proposalNotFound
  | some proposal =>
    if proposal.status ≠ .active then .error .proposalNotActive
    else if proposal.votingDeadlineHeight < currentHeight then .error .votingEnded
    else if voter ∈ proposal.voters then .error .alreadyVoted
    else
      let stake := proposal.stakeSnapshot[voter]?.getD 0
      if stake = 0 then .error .proposalNotActive
      else .ok { g with proposals :=
        g.proposals.insert proposalId (countVote proposal voter stake choice) }

/-! ## Per-block processing -/

def quorumMet (proposal : Proposal) (totalStake : Nat) : Bool :=
  0 < totalStake ∧
    wrapMul totalStake QUORUM_PERCENT ≤
      wrapMul (wrapAdd proposal.votesFor proposal.votesAgainst) 100

def approved (proposal : Proposal) : Bool :=
  0 < wrapAdd proposal.votesFor proposal.votesAgainst ∧
    wrapMul (wrapAdd proposal.votesFor proposal.votesAgainst) APPROVAL_PERCENT ≤
      wrapMul proposal.votesFor 100

/-- The deadline plus the minimum delay, or the next epoch boundary if that is later. -/
def executionHeightFor (proposal : Proposal) (epochLength : Nat) : Nat :=
  max (satAdd proposal.votingDeadlineHeight MIN_EXECUTION_DELAY_BLOCKS)
    (wrapMul (wrapAdd (proposal.votingDeadlineHeight / epochLength) 1) epochLength)

/-- One turn of the loop: the proposal afterwards, and whether it was executed now. -/
def processProposal (currentHeight totalStake epochLength : Nat) (proposal : Proposal) :
    Option (Proposal × Bool) :=
  match proposal.status with
  | .active =>
    if proposal.votingDeadlineHeight < currentHeight then
      if quorumMet proposal totalStake && approved proposal then
        if epochLength = 0 then none
        else some ({ proposal with
          status := .passed
          executionHeight := some (executionHeightFor proposal epochLength) }, false)
      else some ({ proposal with status := .rejected }, false)
    else some (proposal, false)
  | .passed =>
    match proposal.executionHeight with
    | some execHeight =>
      if execHeight ≤ currentHeight then some ({ proposal with status := .executed }, true)
      else some (proposal, false)
    | none => some (proposal, false)
  | _ => some (proposal, false)

/-- `process_block`; the returned proposals are dropped by every caller. -/
def processBlock (currentHeight totalStake epochLength : Nat) : Option GovernanceState :=
  g.proposals.toList.foldlM
    (fun (acc : GovernanceState) (e : Bytes × Proposal) =>
      (processProposal currentHeight totalStake epochLength e.2).map fun r =>
        { proposals := acc.proposals.insert e.1 r.1
          executedUpgrades :=
            if r.2 then acc.executedUpgrades ++ [e.2.id] else acc.executedUpgrades })
    g

end GovernanceState

end Curs3d
