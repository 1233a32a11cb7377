import Curs3d.Contracts.Governance
import Curs3d.Lib.Trace

/-!
# One token, one vote

The weight of a vote is the voter's balance when it votes: the snapshot that is to clamp it is taken in the
same call, from the same balance. What keeps a token from being counted twice is therefore only that its
holder had not got it from somebody who voted with it. `Counting` follows the counted tokens of one
proposal through the transfers, each account paying with tokens that were not counted as long as it
has any; if every vote finds that the voter holds none that was counted, the votes are at most the
supply, in every state of every run (`votes_le_supply`).
-/

set_option autoImplicit false

namespace Curs3d
namespace Curs3dGovernance

open Solidity

variable {g g' : Curs3dGovernance} {sender voter : Address} {timestamp proposalId id weight : Nat}
variable {support : Bool} {c : Call}

/-! ## Counted tokens -/

/-- The contract, and of each account's tokens the number that one proposal has counted. -/
structure Counting where
  governance : Curs3dGovernance
  counted : Std.ExtTreeMap Address Nat compare := ∅

namespace Counting

variable (s : Counting)

def countedOf (a : Address) : Nat := Ledger.amount s.counted a

/-- Of `n` tokens paid, those that the payer's tokens not yet counted do not cover. -/
def countedIn (owner : Address) (n : Nat) : Nat :=
  n - (s.governance.token.balanceOf owner - s.countedOf owner)

/-- What is counted after a call. A vote on the proposal counts what the voter holds, and creating it anew
forgets what was counted. -/
def track (proposalId : Nat) (c : Call) : Std.ExtTreeMap Address Nat compare :=
  match c.action with
  | .createProposal _ => if s.governance.nextProposalId = proposalId then ∅ else s.counted
  | .vote id _ =>
    if id = proposalId then s.counted.insert c.sender (s.governance.token.balanceOf c.sender)
    else s.counted
  | .token call =>
    match call.movement c.sender with
    | none => s.counted
    | some (owner, recipient, n) => Ledger.move s.counted owner recipient (s.countedIn owner n)
  | _ => s.counted

def step (proposalId : Nat) (c : Call) : Result Counting := do
  let governance ← s.governance.step c
  return { governance, counted := s.track proposalId c }

/-- A vote on the proposal finds nothing counted in the voter's hands. -/
def CountsFresh (proposalId : Nat) (s : Counting) (c : Call) (_ : Counting) : Prop :=
  ∀ support, c.action = .vote proposalId support → s.countedOf c.sender = 0

/-- Who holds counted tokens holds them, and the votes are no more than those. -/
structure Backed (proposalId : Nat) (s : Counting) : Prop where
  held : ∀ a, s.countedOf a ≤ s.governance.token.balanceOf a
  votes : s.governance.votesOn proposalId ≤ Ledger.totalOf (fun _ => true) s.counted

end Counting

/-! ## What the calls do -/

theorem createProposal_eq_ok {description : String}
    (h : g.createProposal sender timestamp description = .ok (id, g')) :
    g'.token = g.token ∧ ∀ proposalId, g'.votesOn proposalId =
      if g.nextProposalId = proposalId then 0 else g.votesOn proposalId := by
  simp only [createProposal, Outcome.except_bind_eq_ok, add_eq_ok, pure, Except.pure,
    Except.ok.injEq, Prod.mk.injEq] at h
  obtain ⟨-, -, -, -, -, -, -, -, -, -, rfl, rfl⟩ := h
  refine ⟨rfl, ?_⟩
  intro proposalId
  simp only [votesOn, setProposal]
  by_cases heq : g.nextProposalId = proposalId
  · rw [if_pos heq, if_pos heq.symm]
    rfl
  · rw [if_neg heq, if_neg (Ne.symm heq)]

theorem castVote_eq_ok {p p' : VotingProposal} (h : castVote p support weight = .ok p') :
    p'.forVotes + p'.againstVotes = p.forVotes + p.againstVotes + weight := by
  simp only [castVote] at h
  split at h
  · simp only [Outcome.except_bind_eq_ok, add_eq_ok, pure, Except.pure, Except.ok.injEq] at h
    obtain ⟨votes, ⟨-, rfl⟩, rfl⟩ := h
    exact Nat.add_right_comm _ _ _
  · simp only [Outcome.except_bind_eq_ok, add_eq_ok, pure, Except.pure, Except.ok.injEq] at h
    obtain ⟨votes, ⟨-, rfl⟩, rfl⟩ := h
    exact (Nat.add_assoc _ _ _).symm

/-- A vote adds at most what the voter holds. -/
theorem vote_eq_ok (h : g.vote sender timestamp id support = .ok g') :
    g'.token = g.token ∧ ∀ proposalId, g'.votesOn proposalId ≤
      g.votesOn proposalId + if id = proposalId then g.token.balanceOf sender else 0 := by
  simp only [vote, Outcome.except_bind_eq_ok, require_eq_ok, pure, Except.pure, Except.ok.injEq] at h
  obtain ⟨-, -, -, -, -, -, -, -, -, -, p, hcast, rfl⟩ := h
  refine ⟨rfl, ?_⟩
  intro proposalId
  simp only [votesOn, setProposal]
  by_cases heq : id = proposalId
  · subst heq
    rw [if_pos rfl, if_pos rfl, castVote_eq_ok hcast]
    apply Nat.add_le_add_left
    split
    · exact Nat.le_refl _
    · next hge => exact Nat.not_lt.mp hge
  · rw [if_neg (Ne.symm heq), if_neg heq, Nat.add_zero]

theorem execute_eq_ok (h : g.execute timestamp id = .ok g') :
    g'.token = g.token ∧ ∀ proposalId, g'.votesOn proposalId = g.votesOn proposalId := by
  simp only [execute, Outcome.except_bind_eq_ok, require_eq_ok, add_eq_ok, pure, Except.pure,
    Except.ok.injEq] at h
  obtain ⟨-, -, -, -, -, -, -, -, -, -, -, -, -, -, rfl⟩ := h
  refine ⟨rfl, ?_⟩
  intro proposalId
  simp only [votesOn, setProposal]
  split
  · next heq => rw [heq]
  · rfl

theorem setConfig_eq_ok {delay period quorum window : Nat}
    (h : g.setConfig sender delay period quorum window = .ok g') :
    g'.token = g.token ∧ ∀ proposalId, g'.votesOn proposalId = g.votesOn proposalId := by
  simp only [setConfig, Outcome.except_bind_eq_ok, pure, Except.pure, Except.ok.injEq] at h
  obtain ⟨-, -, -, -, rfl⟩ := h
  exact ⟨rfl, fun _ => rfl⟩

/-! ## One call -/

namespace Counting

variable {s s' : Counting}

theorem step_eq_ok (h : s.step proposalId c = .ok s') :
    s.governance.step c = .ok s'.governance ∧ s'.counted = s.track proposalId c := by
  simp only [step, Outcome.except_bind_eq_ok, pure, Except.pure, Except.ok.injEq] at h
  obtain ⟨governance, hstep, rfl⟩ := h
  exact ⟨hstep, rfl⟩

/-- A call that moves no token and counts nothing keeps what backs the votes. -/
theorem Backed.of_same (h : s.Backed proposalId)
    (htoken : s'.governance.token = s.governance.token) (hcounted : s'.counted = s.counted)
    (hvotes : s'.governance.votesOn proposalId ≤ s.governance.votesOn proposalId) :
    s'.Backed proposalId := by
  constructor
  · intro a
    rw [htoken, countedOf, hcounted]
    exact h.held a
  · rw [hcounted]
    exact Nat.le_trans hvotes h.votes

/-- A payment moves counted tokens only where the others do not cover it. -/
theorem Backed.move (h : s.Backed proposalId) {owner recipient : Address} {n : Nat}
    (hn : n ≤ s.governance.token.balanceOf owner)
    (hbalances : s'.governance.token.balances =
      Ledger.move s.governance.token.balances owner recipient n)
    (hcounted : s'.counted = Ledger.move s.counted owner recipient (s.countedIn owner n))
    (hvotes : s'.governance.votesOn proposalId = s.governance.votesOn proposalId) :
    s'.Backed proposalId := by
  have howner := h.held owner
  have hmoved : s.countedIn owner n ≤ s.countedOf owner := by
    simp only [countedIn]
    omega
  constructor
  · intro a
    have hcount := @Ledger.amount_move _ _ _ _ _ s.counted a owner recipient
      (s.countedIn owner n) hmoved
    have hbalance := @Ledger.amount_move _ _ _ _ _ s.governance.token.balances a owner recipient n hn
    have hheld := h.held a
    rw [← hcounted] at hcount
    rw [← hbalances] at hbalance
    simp only [countedOf, countedIn, Erc20.balanceOf] at *
    by_cases ho : owner = a
    · subst ho
      rw [if_pos rfl] at hcount hbalance
      split at hcount
      all_goals simp_all
      all_goals omega
    · rw [if_neg ho] at hcount hbalance
      split at hcount
      all_goals simp_all
      all_goals omega
  · have htotal := @Ledger.totalOf_move _ _ _ _ _ s.counted (fun _ => true) owner recipient
      (s.countedIn owner n) hmoved
    rw [← hcounted] at htotal
    have hvotes' := h.votes
    rw [hvotes]
    simp only [if_true] at htotal
    omega

/-- A vote by somebody without counted tokens counts what that account holds. -/
theorem Backed.vote (h : s.Backed proposalId) (hfresh : s.countedOf voter = 0)
    (htoken : s'.governance.token = s.governance.token)
    (hcounted : s'.counted = s.counted.insert voter (s.governance.token.balanceOf voter))
    (hvotes : s'.governance.votesOn proposalId ≤
      s.governance.votesOn proposalId + s.governance.token.balanceOf voter) :
    s'.Backed proposalId := by
  constructor
  · intro a
    rw [htoken, countedOf, hcounted, Ledger.amount_insert]
    split
    · next heq =>
      subst heq
      exact Nat.le_refl _
    · exact h.held a
  · have htotal := @Ledger.totalOf_insert _ _ _ _ _ s.counted (fun _ => true) voter
      (s.governance.token.balanceOf voter)
    rw [← hcounted] at htotal
    have hold := h.votes
    simp only [if_true] at htotal
    simp only [countedOf] at hfresh
    omega

/-- **A call keeps the votes backed, if it does not count a token twice.** -/
theorem Backed.step (h : s.Backed proposalId) (hok : s.step proposalId c = .ok s')
    (hfresh : CountsFresh proposalId s c s') : s'.Backed proposalId := by
  obtain ⟨hstep, hcounted⟩ := step_eq_ok hok
  obtain ⟨sender, timestamp, action⟩ := c
  cases action with
  | createProposal description =>
    simp only [track] at hcounted
    simp only [Curs3dGovernance.step, Outcome.except_bind_eq_ok, pure, Except.pure, Except.ok.injEq] at hstep
    obtain ⟨⟨id, g⟩, hcreate, heq⟩ := hstep
    have heq : g = s'.governance := heq
    subst heq
    obtain ⟨htoken, hvotes⟩ := createProposal_eq_ok hcreate
    have hvotes' := hvotes proposalId
    split at hcounted
    · next hid =>
      -- Created anew: no votes, nothing counted.
      rw [if_pos hid] at hvotes'
      constructor
      · intro a
        rw [countedOf, hcounted, Ledger.amount_empty]
        exact Nat.zero_le _
      · rw [hvotes']
        exact Nat.zero_le _
    · next hid =>
      rw [if_neg hid] at hvotes'
      exact h.of_same htoken hcounted hvotes'.le
  | vote id support =>
    simp only [track] at hcounted
    obtain ⟨htoken, hvotes⟩ := vote_eq_ok hstep
    have hvotes' := hvotes proposalId
    split at hcounted
    · next hid =>
      subst hid
      rw [if_pos rfl] at hvotes'
      exact h.vote (hfresh support rfl) htoken hcounted hvotes'
    · next hid =>
      rw [if_neg hid, Nat.add_zero] at hvotes'
      exact h.of_same htoken hcounted hvotes'
  | execute id =>
    obtain ⟨htoken, hvotes⟩ := execute_eq_ok hstep
    exact h.of_same htoken hcounted (hvotes proposalId).le
  | setConfig delay period quorum window =>
    obtain ⟨htoken, hvotes⟩ := setConfig_eq_ok hstep
    exact h.of_same htoken hcounted (hvotes proposalId).le
  | token call =>
    simp only [track] at hcounted
    simp only [Curs3dGovernance.step, Outcome.except_bind_eq_ok, bubble_eq_ok, pure, Except.pure,
      Except.ok.injEq] at hstep
    obtain ⟨token, htoken, heq⟩ := hstep
    have hmovement := Erc20.call_movement htoken
    have hafter : s'.governance.token = token := by rw [← heq]
    have hvotes : s'.governance.votesOn proposalId = s.governance.votesOn proposalId := by
      rw [← heq]
      rfl
    split at hcounted
    · next hnone =>
      rw [hnone] at hmovement
      constructor
      · intro a
        rw [countedOf, hcounted, hafter, Erc20.balanceOf, hmovement]
        exact h.held a
      · rw [hcounted, hvotes]
        exact h.votes
    · next owner recipient n hsome =>
      rw [hsome] at hmovement
      obtain ⟨hn, hbalances⟩ := hmovement
      rw [← hafter] at hbalances
      exact h.move hn hbalances hcounted hvotes

end Counting

/-! ## Runs -/

theorem totalSupply_step (h : g.step c = .ok g') : g'.token.totalSupply = g.token.totalSupply := by
  obtain ⟨sender, timestamp, action⟩ := c
  cases action with
  | createProposal description =>
    simp only [step, Outcome.except_bind_eq_ok, pure, Except.pure, Except.ok.injEq] at h
    obtain ⟨⟨id, after⟩, hcreate, rfl⟩ := h
    rw [(createProposal_eq_ok hcreate).1]
  | vote id support => rw [(vote_eq_ok h).1]
  | execute id => rw [(execute_eq_ok h).1]
  | setConfig delay period quorum window => rw [(setConfig_eq_ok h).1]
  | token call =>
    simp only [step, Outcome.except_bind_eq_ok, bubble_eq_ok, pure, Except.pure,
      Except.ok.injEq] at h
    obtain ⟨token, htoken, rfl⟩ := h
    exact Erc20.totalSupply_call htoken

/-- Counting changes nothing in the contract. -/
theorem run_counting (s : Counting) (calls : List Call) :
    Trace.run step s.governance calls =
      (Trace.run (Counting.step · proposalId) s calls).governance := by
  apply Trace.run_map
  intro s c
  simp only [Counting.step]
  cases s.governance.step c <;> rfl

theorem deploy_eq_ok {tokenAddress owner : Address} {token : GovernanceToken}
    {delay period quorum : Nat} (h : deploy tokenAddress token delay period quorum owner = .ok g) :
    g.token = token ∧ ∀ proposalId, g.votesOn proposalId = 0 := by
  simp only [deploy, Outcome.except_bind_eq_ok, pure, Except.pure, Except.ok.injEq] at h
  obtain ⟨-, -, -, -, -, -, rfl⟩ := h
  exact ⟨rfl, fun _ => rfl⟩

/-- **From a new contract over any token, in every state of every sequence of calls of the contract and
of the token in which no vote on the proposal is cast with tokens it has already counted: the votes on
it are at most the token's supply.** -/
theorem votes_le_supply (tokenAddress owner : Address) (token : GovernanceToken)
    (delay period quorum : Nat) (g : Curs3dGovernance)
    (hdeploy : deploy tokenAddress token delay period quorum owner = .ok g) (proposalId : Nat)
    (calls : List Call)
    (hfresh : Trace.Each (Counting.step · proposalId) (Counting.CountsFresh proposalId) { governance := g } calls) :
    ∀ earlier, earlier <+: calls →
      (Trace.run step g earlier).votesOn proposalId ≤ token.totalSupply ∧
      (Trace.run step g earlier).token.totalSupply = token.totalSupply := by
  obtain ⟨htoken, hvotes⟩ := deploy_eq_ok hdeploy
  rintro earlier ⟨later, rfl⟩
  have hsupply : (Trace.run step g earlier).token.totalSupply = token.totalSupply := by
    refine @Trace.run_induction _ _ _ step g earlier
      (fun after => after.token.totalSupply = token.totalSupply) (by rw [htoken]) ?_
    intro before c after hinv hstep
    rw [totalSupply_step hstep, hinv]
  have hbacked : (Trace.run (Counting.step · proposalId) { governance := g } earlier).Backed proposalId := by
    refine Trace.run_induction_of_each ?_ (Trace.each_append.mp hfresh).1 ?_
    · exact ⟨fun a => by simp [Counting.countedOf], by simp [hvotes]⟩
    · intro s c s' hinv hstep hcond
      exact hinv.step hstep hcond
  refine ⟨?_, hsupply⟩
  calc (Trace.run step g earlier).votesOn proposalId
      = (Trace.run (Counting.step · proposalId) { governance := g } earlier).governance.votesOn proposalId := by
        rw [← run_counting]
    _ ≤ Ledger.totalOf (fun _ => true)
        (Trace.run (Counting.step · proposalId) { governance := g } earlier).counted := hbacked.votes
    _ ≤ (Trace.run (Counting.step · proposalId) { governance := g } earlier).governance.token.totalSupply :=
        Ledger.totalOf_le_totalOf hbacked.held
    _ = token.totalSupply := by rw [← run_counting, hsupply]

end Curs3dGovernance

/-! ## One token voting from two accounts -/

namespace GovernanceSample

open Solidity Curs3dGovernance

/-- Alice (1) and Bob (2) have one token each. -/
def token : GovernanceToken := { balances := ((∅ : Std.ExtTreeMap Address Nat compare).insert 1 1).insert 2 1 }

def governance : Curs3dGovernance where
  owner := 9
  tokenAddress := 200
  token := token
  votingDelay := 0
  votingPeriod := 3600
  quorumVotes := 1
  executionWindow := 604800

def create : Curs3dGovernance.Call := ⟨1, 0, .createProposal "fund"⟩

def voteOf (voter : Address) : Curs3dGovernance.Call := ⟨voter, 10, .vote 1 true⟩

/-- Alice sends the token she has voted with to Carol (3), who votes with it. -/
def shuffle : List Curs3dGovernance.Call :=
  [create, voteOf 1, ⟨1, 10, .token (.transfer 3 1)⟩, voteOf 3, voteOf 2]

end GovernanceSample

open GovernanceSample Curs3dGovernance in
theorem votes_le_supply_two_voters :
    (Trace.run step governance [create, voteOf 1, voteOf 2]).votesOn 1 ≤ token.totalSupply ∧
      (Trace.run step governance [create, voteOf 1, voteOf 2]).token.totalSupply =
        token.totalSupply := by
  refine votes_le_supply 200 9 token 0 3600 1 governance rfl 1 [create, voteOf 1, voteOf 2]
    ⟨?_, ?_, ?_, trivial⟩ _ List.prefix_rfl
  · intro s' _ support heq
    exact absurd heq (by simp [create])
  · intro s' _ support _
    decide +kernel
  · intro s' _ support _
    decide +kernel

open GovernanceSample Curs3dGovernance in
/-- Two tokens cast three votes. -/
theorem shuffled_token_votes_twice :
    deploy 200 token 0 3600 1 9 = .ok governance ∧ token.totalSupply = 2 ∧
      (Trace.run step governance shuffle).votesOn 1 = 3 :=
  ⟨rfl, by decide +kernel, by decide +kernel⟩

end Curs3d
