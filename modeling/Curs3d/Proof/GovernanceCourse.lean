import Curs3d.Proof.GovernanceVotes

/-!
# The course of a proposal

A call leaves a proposal as it is, creates it, counts a vote on it or executes it (`step_changes`). Votes
are taken until the end of its window and `execute` only works after that, so what is executed had won, and no later
call changes it; and as nothing resets `executed` or `hasVoted`, a proposal is executed once and an account
votes on it once. Ids are handed out unchecked, and would come round after `2 ^ 256` calls.
-/

set_option autoImplicit false

namespace Curs3d
namespace Curs3dGovernance

open Solidity

variable {g g' g₀ : Curs3dGovernance} {c d : Call} {calls past rest : List Call} {id : Nat} {voter : Address}

/-- What `execute` checks of a proposal. -/
structure MayExecute (g : Curs3dGovernance) (id timestamp : Nat) : Prop where
  present : (g.proposals id).proposer ≠ 0
  closed : (g.proposals id).endTime < timestamp
  inWindow : timestamp ≤ (g.proposals id).executionDeadline
  pending : (g.proposals id).executed = false
  quorum : g.quorumVotes ≤ g.votesOn id
  majority : (g.proposals id).againstVotes < (g.proposals id).forVotes

/-- What `vote` checks of a proposal and a voter. -/
structure MayVote (g : Curs3dGovernance) (id : Nat) (voter : Address) (timestamp : Nat) : Prop where
  present : (g.proposals id).proposer ≠ 0
  opened : (g.proposals id).startTime ≤ timestamp
  inTime : timestamp ≤ (g.proposals id).endTime
  first : g.hasVoted id voter = false

/-- What a call can leave of a proposal. -/
inductive Changes (g : Curs3dGovernance) (c : Call) (id : Nat) : VotingProposal → Prop where
  | same : Changes g c id (g.proposals id)
  | created {p : VotingProposal} (description : String) (haction : c.action = .createProposal description)
    (hid : g.nextProposalId = id) (hnew : p.executed = false) : Changes g c id p
  | voted {p : VotingProposal} (support : Bool) (weight : Nat) (haction : c.action = .vote id support)
    (hmay : MayVote g id c.sender c.timestamp)
    (hcast : castVote (g.proposals id) support weight = .ok p) : Changes g c id p
  | executed (haction : c.action = .execute id) (hmay : MayExecute g id c.timestamp) :
    Changes g c id { g.proposals id with executed := true }

/-! ## What the calls do -/

theorem castVote_executed {p p' : VotingProposal} {support : Bool} {weight : Nat}
    (h : castVote p support weight = .ok p') : p'.executed = p.executed := by
  simp only [castVote] at h
  split at h
  all_goals
    simp only [Outcome.except_bind_eq_ok, add_eq_ok, pure, Except.pure, Except.ok.injEq] at h
    obtain ⟨votes, -, rfl⟩ := h
    rfl

theorem mayVote_of_vote {sender : Address} {timestamp : Nat} {support : Bool}
    (h : g.vote sender timestamp id support = .ok g') :
    MayVote g id sender timestamp ∧ g'.proposalCount = g.proposalCount ∧
      (∀ i v, g'.hasVoted i v = if i = id ∧ v = sender then true else g.hasVoted i v) ∧
      ∃ weight p, castVote (g.proposals id) support weight = .ok p ∧
        ∀ i, g'.proposals i = if i = id then p else g.proposals i := by
  simp only [vote, Outcome.except_bind_eq_ok, require_eq_ok, pure, Except.pure, Except.ok.injEq] at h
  obtain ⟨-, hpresent, -, hopened, -, hinTime, -, hfirst, -, -, p, hcast, rfl⟩ := h
  exact ⟨⟨hpresent, hopened, hinTime, hfirst⟩, rfl, fun _ _ => rfl, _, p, hcast, fun _ => rfl⟩

theorem mayExecute_of_execute {timestamp : Nat} (h : g.execute timestamp id = .ok g') :
    MayExecute g id timestamp ∧ g' = g.setProposal id { g.proposals id with executed := true } := by
  simp only [execute, Outcome.except_bind_eq_ok, require_eq_ok, add_eq_ok, pure, Except.pure,
    Except.ok.injEq] at h
  obtain ⟨-, hpresent, -, hclosed, -, hwindow, -, hpending, -, ⟨-, rfl⟩, -, hquorum, -, hmajority, rfl⟩ := h
  exact ⟨⟨hpresent, hclosed, hwindow, hpending, hquorum, hmajority⟩, rfl⟩

theorem created_of_createProposal {sender : Address} {timestamp i : Nat} {description : String}
    (h : g.createProposal sender timestamp description = .ok (i, g')) :
    g'.proposalCount = g.nextProposalId ∧ g'.hasVoted = g.hasVoted ∧
      ∃ p : VotingProposal, p.executed = false ∧
        ∀ id, g'.proposals id = if id = g.nextProposalId then p else g.proposals id := by
  simp only [createProposal, Outcome.except_bind_eq_ok, add_eq_ok, pure, Except.pure,
    Except.ok.injEq, Prod.mk.injEq] at h
  obtain ⟨-, -, -, -, -, -, -, -, -, -, rfl, rfl⟩ := h
  exact ⟨rfl, rfl, _, rfl, fun _ => rfl⟩

/-- **What a call does to a proposal.** -/
theorem step_changes (h : g.step c = .ok g') (id : Nat) : Changes g c id (g'.proposals id) := by
  obtain ⟨sender, timestamp, action⟩ := c
  cases action with
  | createProposal description =>
    simp only [step, Outcome.except_bind_eq_ok, pure, Except.pure, Except.ok.injEq] at h
    obtain ⟨⟨i, after⟩, hcreate, rfl⟩ := h
    obtain ⟨-, -, p, hnew, hproposals⟩ := created_of_createProposal hcreate
    rw [hproposals]
    split
    · next hid => exact .created description rfl hid.symm hnew
    · exact .same
  | vote i support =>
    obtain ⟨hmay, -, -, weight, p, hcast, hproposals⟩ := mayVote_of_vote h
    rw [hproposals]
    split
    · next hid =>
      subst hid
      exact .voted support weight rfl hmay hcast
    · exact .same
  | execute i =>
    obtain ⟨hmay, rfl⟩ := mayExecute_of_execute h
    simp only [setProposal]
    split
    · next hid =>
      subst hid
      exact .executed rfl hmay
    · exact .same
  | setConfig delay period quorum window =>
    simp only [step, setConfig, Outcome.except_bind_eq_ok, pure, Except.pure, Except.ok.injEq] at h
    obtain ⟨-, -, -, -, rfl⟩ := h
    exact .same
  | token call =>
    simp only [step, Outcome.except_bind_eq_ok, pure, Except.pure, Except.ok.injEq] at h
    obtain ⟨token, -, rfl⟩ := h
    exact .same

/-- Only creating a proposal counts on. -/
theorem proposalCount_step (h : g.step c = .ok g') :
    g'.proposalCount = g.proposalCount ∨ g'.proposalCount = g.nextProposalId := by
  obtain ⟨sender, timestamp, action⟩ := c
  cases action with
  | createProposal description =>
    simp only [step, Outcome.except_bind_eq_ok, pure, Except.pure, Except.ok.injEq] at h
    obtain ⟨⟨i, after⟩, hcreate, rfl⟩ := h
    exact .inr (created_of_createProposal hcreate).1
  | vote i support => exact .inl (mayVote_of_vote h).2.1
  | execute i =>
    obtain ⟨-, rfl⟩ := mayExecute_of_execute h
    exact .inl rfl
  | setConfig delay period quorum window =>
    simp only [step, setConfig, Outcome.except_bind_eq_ok, pure, Except.pure, Except.ok.injEq] at h
    obtain ⟨-, -, -, -, rfl⟩ := h
    exact .inl rfl
  | token call =>
    simp only [step, Outcome.except_bind_eq_ok, pure, Except.pure, Except.ok.injEq] at h
    obtain ⟨token, -, rfl⟩ := h
    exact .inl rfl

/-- Nobody's vote is forgotten. -/
theorem hasVoted_step (h : g.step c = .ok g') (hvoted : g.hasVoted id voter = true) :
    g'.hasVoted id voter = true := by
  obtain ⟨sender, timestamp, action⟩ := c
  cases action with
  | createProposal description =>
    simp only [step, Outcome.except_bind_eq_ok, pure, Except.pure, Except.ok.injEq] at h
    obtain ⟨⟨i, after⟩, hcreate, rfl⟩ := h
    rwa [(created_of_createProposal hcreate).2.1]
  | vote i support =>
    rw [(mayVote_of_vote h).2.2.1]
    split
    · rfl
    · exact hvoted
  | execute i =>
    obtain ⟨-, rfl⟩ := mayExecute_of_execute h
    exact hvoted
  | setConfig delay period quorum window =>
    simp only [step, setConfig, Outcome.except_bind_eq_ok, pure, Except.pure, Except.ok.injEq] at h
    obtain ⟨-, -, -, -, rfl⟩ := h
    exact hvoted
  | token call =>
    simp only [step, Outcome.except_bind_eq_ok, pure, Except.pure, Except.ok.injEq] at h
    obtain ⟨token, -, rfl⟩ := h
    exact hvoted

/-! ## Ids -/

/-- At most `n` ids are given out, and no proposal has another. -/
structure Numbered (n : Nat) (g : Curs3dGovernance) : Prop where
  count : g.proposalCount ≤ n
  unused : ∀ id, g.proposalCount < id → g.proposals id = {}

/-- Below `2 ^ 256` the next id is a new one. -/
theorem Numbered.nextProposalId {n : Nat} (h : Numbered n g) (hn : n + 1 < 2 ^ 256) :
    g.nextProposalId = g.proposalCount + 1 :=
  Nat.mod_eq_of_lt (Nat.lt_of_le_of_lt (Nat.succ_le_succ h.count) hn)

theorem Numbered.step {n : Nat} (h : Numbered n g) (hn : n + 1 < 2 ^ 256) (hstep : g.step c = .ok g') :
    Numbered (n + 1) g' := by
  have hnext := h.nextProposalId hn
  have hcount := proposalCount_step hstep
  rw [hnext] at hcount
  have hold := h.count
  constructor
  · omega
  · intro id hid
    have hblank : g.proposals id = {} := h.unused id (by omega)
    have hchanges := step_changes hstep id
    generalize g'.proposals id = p at hchanges
    cases hchanges with
    | same => exact hblank
    | created description haction hnew _ =>
      -- A created proposal is counted, unless the call is no creation.
      obtain ⟨sender, timestamp, action⟩ := c
      subst haction
      simp only [Curs3dGovernance.step, Outcome.except_bind_eq_ok, pure, Except.pure,
        Except.ok.injEq] at hstep
      obtain ⟨⟨i, after⟩, hcreate, rfl⟩ := hstep
      have hcounted := (created_of_createProposal hcreate).1
      dsimp only at hcounted hid
      omega
    | voted support weight _ hmay _ =>
      have hpresent := hmay.present
      rw [hblank] at hpresent
      exact absurd rfl hpresent
    | executed _ hmay =>
      have hpresent := hmay.present
      rw [hblank] at hpresent
      exact absurd rfl hpresent

theorem Numbered.run (h : Numbered 0 g) (hfew : calls.length < 2 ^ 256) :
    Numbered calls.length (Trace.run Curs3dGovernance.step g calls) := by
  induction calls using List.reverseRecOn with
  | nil => exact h
  | append_singleton past c ih =>
    rw [List.length_append, List.length_singleton] at hfew ⊢
    have hpast := ih (Nat.lt_of_succ_lt hfew)
    rw [Trace.run_append, Trace.run_cons, Trace.run_nil]
    cases hstep : (Trace.run Curs3dGovernance.step g past).step c with
    | ok g' =>
      rw [Trace.after_of_ok hstep]
      exact hpast.step hfew hstep
    | error e =>
      rw [Trace.after_of_error hstep]
      exact ⟨hpast.count.trans (Nat.le_succ _), hpast.unused⟩

/-- **Nothing undoes an execution.** -/
theorem Numbered.executed_step {n : Nat} (h : Numbered n g) (hn : n + 1 < 2 ^ 256)
    (hstep : g.step c = .ok g') (hexecuted : (g.proposals id).executed = true) :
    (g'.proposals id).executed = true := by
  have hchanges := step_changes hstep id
  generalize g'.proposals id = p at hchanges
  cases hchanges with
  | same => exact hexecuted
  | created description _ hid _ =>
    -- The id of a new proposal is above that of any proposal.
    rw [h.nextProposalId hn] at hid
    rw [h.unused id (by omega)] at hexecuted
    exact absurd hexecuted (by simp)
  | voted support weight _ _ hcast => rwa [castVote_executed hcast]
  | executed _ _ => rfl

/-! ## Runs -/

/-- The call after `past` executes the proposal. -/
def ExecutedAt (g₀ : Curs3dGovernance) (id : Nat) (past : List Call) (c : Call) : Prop :=
  c.action = .execute id ∧ ∃ g', (Trace.run step g₀ past).step c = .ok g'

/-- The call after `past` is a vote that counts. -/
def VotedAt (g₀ : Curs3dGovernance) (id : Nat) (voter : Address) (past : List Call) (c : Call) : Prop :=
  c.sender = voter ∧ (∃ support, c.action = .vote id support) ∧ ∃ g', (Trace.run step g₀ past).step c = .ok g'

theorem ExecutedAt.executed (h : ExecutedAt g₀ id past c) :
    MayExecute (Trace.run step g₀ past) id c.timestamp ∧
      (Trace.run step g₀ (past ++ [c])).proposals id =
        { (Trace.run step g₀ past).proposals id with executed := true } := by
  obtain ⟨haction, g', hstep⟩ := h
  rw [Trace.run_append, Trace.run_cons, Trace.run_nil, Trace.after_of_ok hstep]
  obtain ⟨sender, timestamp, action⟩ := c
  subst haction
  obtain ⟨hmay, rfl⟩ := mayExecute_of_execute hstep
  exact ⟨hmay, if_pos rfl⟩

theorem VotedAt.voted (h : VotedAt g₀ id voter past c) :
    (Trace.run step g₀ past).hasVoted id voter = false ∧
      (Trace.run step g₀ (past ++ [c])).hasVoted id voter = true := by
  obtain ⟨rfl, ⟨support, haction⟩, g', hstep⟩ := h
  rw [Trace.run_append, Trace.run_cons, Trace.run_nil, Trace.after_of_ok hstep]
  obtain ⟨sender, timestamp, action⟩ := c
  subst haction
  obtain ⟨hmay, -, hvoted, -⟩ := mayVote_of_vote hstep
  exact ⟨hmay.first, by rw [hvoted, if_pos ⟨rfl, rfl⟩]⟩

theorem executed_later (h : Numbered 0 g₀) (hfew : (past ++ rest).length < 2 ^ 256)
    (hexecuted : ((Trace.run step g₀ past).proposals id).executed = true) :
    ((Trace.run step g₀ (past ++ rest)).proposals id).executed = true := by
  induction rest using List.reverseRecOn with
  | nil => rwa [List.append_nil]
  | append_singleton more c ih =>
    rw [← List.append_assoc, List.length_append, List.length_singleton] at hfew
    have hmore := ih (Nat.lt_of_succ_lt hfew)
    have hnumbered := h.run (Nat.lt_of_succ_lt hfew)
    rw [← List.append_assoc, Trace.run_append, Trace.run_cons, Trace.run_nil]
    refine @Trace.after_induction _ _ _ step _ c (fun g => (g.proposals id).executed = true) hmore ?_
    exact fun g' hstep => hnumbered.executed_step hfew hstep hmore

theorem hasVoted_later (hvoted : (Trace.run step g₀ past).hasVoted id voter = true) :
    (Trace.run step g₀ (past ++ rest)).hasVoted id voter = true := by
  rw [Trace.run_append]
  refine @Trace.run_induction _ _ _ step _ rest (fun g => g.hasVoted id voter = true) hvoted ?_
  exact fun _ _ _ hold hstep => hasVoted_step hstep hold

/-- **Executed once.** -/
theorem executedAt_unique (h : Numbered 0 g₀) (hfew : calls.length < 2 ^ 256) {past' rest' : List Call}
    (hc : calls = past ++ c :: rest) (hd : calls = past' ++ d :: rest') (hpast : ExecutedAt g₀ id past c)
    (hpast' : ExecutedAt g₀ id past' d) : past = past' := by
  refine Trace.eq_of_once ?_ hc hd hpast hpast'
  intro past c mid d rest hsplit hfirst hsecond
  have hlast : (past ++ [c] ++ mid).length < 2 ^ 256 := by
    rw [hsplit, List.length_append] at hfew
    rw [List.append_assoc, List.singleton_append]
    exact Nat.lt_of_le_of_lt (Nat.le_add_right _ _) hfew
  have hexecuted := executed_later h hlast (by rw [hfirst.executed.2])
  rw [List.append_assoc, List.singleton_append, hsecond.executed.1.pending] at hexecuted
  exact absurd hexecuted (by simp)

/-- **One vote an account.** -/
theorem votedAt_unique {past' rest' : List Call} (hc : calls = past ++ c :: rest)
    (hd : calls = past' ++ d :: rest') (hpast : VotedAt g₀ id voter past c)
    (hpast' : VotedAt g₀ id voter past' d) : past = past' := by
  refine Trace.eq_of_once ?_ hc hd hpast hpast'
  intro past c mid d rest _ hfirst hsecond
  have hvoted : (Trace.run step g₀ (past ++ [c] ++ mid)).hasVoted id voter = true :=
    hasVoted_later hfirst.voted.2
  rw [List.append_assoc, List.singleton_append, hsecond.voted.1] at hvoted
  exact absurd hvoted (by simp)

/-- **What is executed had won, and stays as it was.** -/
theorem executed_won (hnew : (g₀.proposals id).executed = false)
    (hordered : calls.Pairwise fun c d => c.timestamp ≤ d.timestamp)
    (hexecuted : ((Trace.run step g₀ calls).proposals id).executed = true) :
    ∃ past c rest, calls = past ++ c :: rest ∧ ExecutedAt g₀ id past c ∧
      (Trace.run step g₀ calls).proposals id =
        { (Trace.run step g₀ past).proposals id with executed := true } := by
  induction calls using List.reverseRecOn with
  | nil => exact absurd (hnew.symm.trans hexecuted) (by simp)
  | append_singleton before c ih =>
    obtain ⟨hbefore, -, hlast⟩ := List.pairwise_append.mp hordered
    -- A proposal executed before, and left as it was.
    have hkeep (hold : ((Trace.run step g₀ before).proposals id).executed = true)
        (hsame : (Trace.run step g₀ (before ++ [c])).proposals id =
          (Trace.run step g₀ before).proposals id) :
        ∃ past d rest, before ++ [c] = past ++ d :: rest ∧ ExecutedAt g₀ id past d ∧
          (Trace.run step g₀ (before ++ [c])).proposals id =
            { (Trace.run step g₀ past).proposals id with executed := true } := by
      obtain ⟨past, d, rest, rfl, hd, heq⟩ := ih hbefore hold
      exact ⟨past, d, rest ++ [c], by simp, hd, hsame.trans heq⟩
    have hrun : Trace.run step g₀ (before ++ [c]) =
        Trace.after step (Trace.run step g₀ before) c := by
      rw [Trace.run_append, Trace.run_cons, Trace.run_nil]
    cases hstep : (Trace.run step g₀ before).step c with
    | error e =>
      have hsame : Trace.run step g₀ (before ++ [c]) = Trace.run step g₀ before := by
        rw [hrun, Trace.after_of_error hstep]
      rw [hsame] at hexecuted
      exact hkeep hexecuted (by rw [hsame])
    | ok g' =>
      rw [Trace.after_of_ok hstep] at hrun
      rw [hrun] at hexecuted hkeep ⊢
      have hchanges := step_changes hstep id
      generalize g'.proposals id = p at hexecuted hkeep hchanges ⊢
      cases hchanges with
      | same => exact hkeep hexecuted rfl
      | created description _ _ hpending => exact absurd (hpending.symm.trans hexecuted) (by simp)
      | voted support weight _ hmay hcast =>
        -- The window of an executed proposal was over, so this vote comes too late.
        rw [castVote_executed hcast] at hexecuted
        obtain ⟨past, d, rest, rfl, hd, heq⟩ := ih hbefore hexecuted
        have htime : d.timestamp ≤ c.timestamp := hlast d (by simp) c (by simp)
        have hclosed := hd.executed.1.closed
        have hinTime := hmay.inTime
        rw [heq] at hinTime
        exact absurd (hclosed.trans_le (htime.trans hinTime)) (Nat.lt_irrefl _)
      | executed haction hmay => exact ⟨before, c, [], rfl, ⟨haction, g', hstep⟩, rfl⟩

/-- **The course of a proposal.** In every run from a new contract, at times that do not go back: a proposal
that is executed was so by one call only, which found it in its execution window, with the quorum and a majority
for it, and nothing about it has changed since; and of each account one vote on it counted at most. -/
theorem proposal_course {tokenAddress owner : Address} {token : GovernanceToken}
    {delay period quorum : Nat} (hdeploy : deploy tokenAddress token delay period quorum owner = .ok g₀)
    (hordered : calls.Pairwise fun c d => c.timestamp ≤ d.timestamp)
    (hfew : calls.length < 2 ^ 256) (id : Nat) :
    (((Trace.run step g₀ calls).proposals id).executed = true →
      ∃ past c rest, calls = past ++ c :: rest ∧ ExecutedAt g₀ id past c ∧
        MayExecute (Trace.run step g₀ past) id c.timestamp ∧
        (Trace.run step g₀ calls).proposals id =
          { (Trace.run step g₀ past).proposals id with executed := true }) ∧
    (∀ past c rest past' d rest', calls = past ++ c :: rest → calls = past' ++ d :: rest' →
      ExecutedAt g₀ id past c → ExecutedAt g₀ id past' d → past = past') ∧
    ∀ voter past c rest past' d rest', calls = past ++ c :: rest → calls = past' ++ d :: rest' →
      VotedAt g₀ id voter past c → VotedAt g₀ id voter past' d → past = past' := by
  have hblank : g₀.proposalCount = 0 ∧ g₀.proposals = fun _ => {} := by
    simp only [deploy, Outcome.except_bind_eq_ok, pure, Except.pure, Except.ok.injEq] at hdeploy
    obtain ⟨-, -, -, -, -, -, rfl⟩ := hdeploy
    exact ⟨rfl, rfl⟩
  obtain ⟨hcount, hproposals⟩ := hblank
  have hnumbered : Numbered 0 g₀ := ⟨hcount.le, fun id _ => by rw [hproposals]⟩
  refine ⟨?_, ?_, ?_⟩
  · intro hexecuted
    obtain ⟨past, c, rest, hsplit, hat, heq⟩ := executed_won (by rw [hproposals]) hordered hexecuted
    exact ⟨past, c, rest, hsplit, hat, hat.executed.1, heq⟩
  · intro past c rest past' d rest' hc hd hpast hpast'
    exact executedAt_unique hnumbered hfew hc hd hpast hpast'
  · intro voter past c rest past' d rest' hc hd hpast hpast'
    exact votedAt_unique hc hd hpast hpast'

open GovernanceSample in
/-- Alice proposes and votes, and Carol executes what she likes, once. -/
theorem proposal_course_sample :
    ∃ past c rest, [create, voteOf 1, ⟨3, 4000, .execute 1⟩, ⟨3, 4000, .execute 1⟩] = past ++ c :: rest ∧
      ExecutedAt governance 1 past c ∧ MayExecute (Trace.run step governance past) 1 c.timestamp := by
  have hordered : [create, voteOf 1, ⟨3, 4000, .execute 1⟩, ⟨3, 4000, .execute 1⟩].Pairwise
      fun c d => c.timestamp ≤ d.timestamp := by decide
  have h := proposal_course
    (show deploy 200 GovernanceSample.token 0 3600 1 9 = .ok governance from rfl) hordered (by decide) 1
  obtain ⟨past, c, rest, hsplit, hat, hmay, -⟩ := h.1 (by decide +kernel)
  exact ⟨past, c, rest, hsplit, hat, hmay⟩

end Curs3dGovernance
end Curs3d
