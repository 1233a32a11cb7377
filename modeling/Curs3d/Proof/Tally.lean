import Curs3d.Crypto.Reference
import Curs3d.Proof.Decisions

/-!
# Counting the votes of a proposal

The count of a proposal is the stake of those whose vote went through, each of them once, and what
was decided stays decided. The map of proposals is keyed by a hash of proposer, height and kind, and
`submit_proposal` overwrites what it finds there: the same proposer with the same proposal in the
same block starts the count again. A submission that finds its key free, or held by an open proposal
without votes, does no harm (`Clean`), and a run is exact just when all its submissions are of that
kind and no deadline leaves the word.

Nothing here depends on the order of the heights.
-/

set_option autoImplicit false

namespace Curs3d

open U64 Bincode

inductive GovernanceCall where
  | submitProposal (proposer : Bytes) (params : SubmitProposalParams)
      (currentHeight epochLength : Nat) (stakeSnapshot : ByteMap Nat)
  | vote (voter proposalId : Bytes) (choice : VoteChoice) (currentHeight : Nat)
  | processBlock (currentHeight totalStake epochLength : Nat)

/-- The stakes of a snapshot add up in the word, and the height of a block is in it. -/
def GovernanceCall.Fits : GovernanceCall → Prop
  | .submitProposal _ _ _ _ stakeSnapshot => KeyMap.sumBy id stakeSnapshot < modulus
  | .vote .. => True
  | .processBlock currentHeight _ _ => currentHeight < modulus

/-- A vote that returned `Ok`, with the stake the snapshot gave it. -/
structure Ballot where
  proposalId : Bytes
  voter : Bytes
  stake : Nat
deriving DecidableEq

/-- A governance state and the votes that went through on the way to it. -/
structure Tally where
  governance : GovernanceState := {}
  accepted : List Ballot := []

namespace GovernanceState

variable {P : Primitives} {g g' : GovernanceState} {p : Proposal} {id voter proposer : Bytes}
  {params : SubmitProposalParams} {choice : VoteChoice} {snapshot : ByteMap Nat}
  {currentHeight epochLength totalStake : Nat}

/-! ## What one call does -/

/-- The key a submission goes under. -/
def proposalIdOf (P : Primitives) (proposer : Bytes) (params : SubmitProposalParams)
    (currentHeight : Nat) : Bytes :=
  P.sha3 (proposer ++ u64 currentHeight ++ proposalKind params.kind)

/-- An open proposal without votes. -/
def fresh (P : Primitives) (proposer : Bytes) (params : SubmitProposalParams)
    (currentHeight epochLength : Nat) (stakeSnapshot : ByteMap Nat) : Proposal where
  id := proposalIdOf P proposer params currentHeight
  proposer := proposer
  kind := params.kind
  status := .active
  createdAtHeight := currentHeight
  votingDeadlineHeight := wrapAdd currentHeight (wrapMul VOTING_PERIOD_EPOCHS epochLength)
  executionHeight := none
  votesFor := 0
  votesAgainst := 0
  voters := ∅
  stakeSnapshot := stakeSnapshot

theorem submitProposal_eq_ok_iff :
    g.submitProposal P proposer params currentHeight epochLength snapshot = .ok g' ↔
      checkKind params.kind = .ok () ∧
        g' = { g with
          proposals := g.proposals.insert (proposalIdOf P proposer params currentHeight)
            (fresh P proposer params currentHeight epochLength snapshot) } := by
  unfold submitProposal
  cases checkKind params.kind with
  | error e => simp
  | ok u =>
    simp only [Except.ok.injEq, true_and]
    exact eq_comm

theorem vote_eq_ok (h : g.vote voter id choice currentHeight = .ok g') :
    ∃ p stake, g.proposals[id]? = some p ∧ p.status = .active ∧ voter ∉ p.voters ∧
      p.stakeSnapshot[voter]? = some stake ∧ 0 < stake ∧
      g' = { g with proposals := g.proposals.insert id (countVote p voter stake choice) } := by
  unfold vote at h
  cases hp : g.proposals[id]? with
  | none => rw [hp] at h; exact absurd h (by simp)
  | some p =>
    rw [hp] at h
    dsimp only at h
    split_ifs at h with hstatus hdeadline hvoted hstake
    cases h
    obtain ⟨stake, hsnapshot⟩ : ∃ stake, p.stakeSnapshot[voter]? = some stake := by
      cases hs : p.stakeSnapshot[voter]? with
      | none => exact absurd (by rw [hs]; rfl) hstake
      | some stake => exact ⟨stake, rfl⟩
    rw [hsnapshot, Option.getD_some] at hstake
    refine ⟨p, stake, rfl, of_not_not hstatus, hvoted, hsnapshot, Nat.pos_of_ne_zero hstake, ?_⟩
    rw [hsnapshot, Option.getD_some]

/-- Processing changes the status and the execution height, and reopens nothing. -/
theorem processProposal_frame {r : Proposal × Bool}
    (h : processProposal currentHeight totalStake epochLength p = some r) :
    ∃ status executionHeight, r.1 = { p with status, executionHeight } ∧
      (p.status ≠ .active → status ≠ .active) := by
  unfold processProposal at h
  cases hs : p.status with
  | active =>
    rw [hs] at h
    dsimp only at h
    split_ifs at h
    · cases h
      exact ⟨_, _, rfl, fun _ => by simp⟩
    · cases h
      exact ⟨_, _, rfl, fun _ => by simp⟩
    · cases h
      exact ⟨.active, p.executionHeight, by rw [← hs], fun hne => absurd rfl hne⟩
  | passed =>
    rw [hs] at h
    dsimp only at h
    split at h
    · split_ifs at h
      · cases h
        exact ⟨_, _, rfl, fun _ => by simp⟩
      · cases h
        exact ⟨.passed, p.executionHeight, by rw [← hs], fun _ => by simp⟩
    · cases h
      exact ⟨.passed, p.executionHeight, by rw [← hs], fun _ => by simp⟩
  | rejected | executed | expired =>
    rw [hs] at h
    cases h
    exact ⟨p.status, p.executionHeight, rfl, fun _ => by rw [hs]; simp⟩

theorem countVote_votes {stake : Nat} (h : p.votes + stake < modulus) :
    (countVote p voter stake choice).votes = p.votes + stake := by
  have hvotes : p.votes = p.votesFor + p.votesAgainst := rfl
  cases choice with
  | «for» =>
    have hfor : wrapAdd p.votesFor stake = p.votesFor + stake := Nat.mod_eq_of_lt (by omega)
    simp only [Proposal.votes, countVote, hfor]
    omega
  | against =>
    have hagainst : wrapAdd p.votesAgainst stake = p.votesAgainst + stake :=
      Nat.mod_eq_of_lt (by omega)
    simp only [Proposal.votes, countVote, hagainst]
    omega

theorem countVote_frame {stake : Nat} : (countVote p voter stake choice).status = p.status ∧
    (countVote p voter stake choice).voters = insert voter p.voters ∧
    (countVote p voter stake choice).stakeSnapshot = p.stakeSnapshot := by
  cases choice <;> exact ⟨rfl, rfl, rfl⟩

end GovernanceState

/-- The count a vote goes to. -/
def Proposal.side (p : Proposal) : VoteChoice → Nat
  | .for => p.votesFor
  | .against => p.votesAgainst

/-- The votes for one proposal among all that went through. -/
def ballotsFor (accepted : List Ballot) (id : Bytes) : List Ballot :=
  accepted.filter fun b => b.proposalId = id

namespace Tally

open GovernanceState

variable {P : Primitives} {s s' : Tally} {c : GovernanceCall} {calls : List GovernanceCall}
  {p : Proposal} {ballots : List Ballot} {k : Bytes}

/-- The stake the snapshot of a proposal gives to a voter. -/
def stakeIn (g : GovernanceState) (id voter : Bytes) : Nat :=
  (g.proposals[id]?.bind fun p => p.stakeSnapshot[voter]?).getD 0

/-- One call; `none` when it panics. A call that returns an error leaves the state as it was. -/
def step (P : Primitives) (s : Tally) : GovernanceCall → Option Tally
  | .submitProposal proposer params currentHeight epochLength stakeSnapshot =>
    match s.governance.submitProposal P proposer params currentHeight epochLength stakeSnapshot with
    | .ok g => some { s with governance := g }
    | .error _ => some s
  | .vote voter id choice currentHeight =>
    match s.governance.vote voter id choice currentHeight with
    | .ok g => some { governance := g
                      accepted := s.accepted ++ [⟨id, voter, stakeIn s.governance id voter⟩] }
    | .error _ => some s
  | .processBlock currentHeight totalStake epochLength =>
    (s.governance.processBlock currentHeight totalStake epochLength).map fun g =>
      { s with governance := g }

/-! ## What is to hold -/

/-- Every proposal has the stake of its voters, each counted once. -/
def Counted (s : Tally) : Prop :=
  ∀ (id : Bytes) (p : Proposal), s.governance.proposals[id]? = some p →
    p.votesFor + p.votesAgainst = ((ballotsFor s.accepted id).map Ballot.stake).sum ∧
      ((ballotsFor s.accepted id).map Ballot.voter).Nodup

/-- The additions of a call stay in the word. -/
def AddsFit (s : Tally) : GovernanceCall → Prop
  | .submitProposal _ params currentHeight epochLength _ => checkKind params.kind = .ok () →
    currentHeight + wrapMul VOTING_PERIOD_EPOCHS epochLength < modulus
  | .vote voter id choice currentHeight => ∀ g' p,
    s.governance.vote voter id choice currentHeight = .ok g' →
      s.governance.proposals[id]? = some p →
        p.side choice + stakeIn s.governance id voter < modulus
  | .processBlock currentHeight totalStake epochLength => ∀ (id : Bytes) (p : Proposal),
    s.governance.proposals[id]? = some p → p.Due currentHeight →
      p.votesFor + p.votesAgainst < modulus ∧
        ((quorumMet p totalStake && approved p) = true →
          p.votingDeadlineHeight / epochLength + 1 < modulus)

/-- What was decided stays, and stays decided. -/
def KeepsDecided (s s' : Tally) : Prop :=
  ∀ (id : Bytes) (p : Proposal), s.governance.proposals[id]? = some p → p.status ≠ .active →
    ∃ p', s'.governance.proposals[id]? = some p' ∧ p'.status ≠ .active

/-- All of it, in every state of a run and over every call. -/
def ExactAlong (P : Primitives) : Tally → List GovernanceCall → Prop
  | s, [] => s.Counted
  | s, c :: rest => s.Counted ∧ s.AddsFit c ∧
    ∀ s' ∈ s.step P c, s.KeepsDecided s' ∧ ExactAlong P s' rest

/-- A submission whose key is free, or held by an open proposal nobody has voted on, and whose
deadline is in the word. Votes and processing are always clean. -/
def Clean (P : Primitives) (s : Tally) : GovernanceCall → Prop
  | .submitProposal proposer params currentHeight epochLength _ => checkKind params.kind = .ok () →
    (∀ p ∈ s.governance.proposals[proposalIdOf P proposer params currentHeight]?,
      p.status = .active ∧ p.voters = ∅) ∧
    currentHeight + wrapMul VOTING_PERIOD_EPOCHS epochLength < modulus
  | .vote .. => True
  | .processBlock .. => True

def CleanAlong (P : Primitives) : Tally → List GovernanceCall → Prop
  | _, [] => True
  | s, c :: rest => s.Clean P c ∧ ∀ s' ∈ s.step P c, CleanAlong P s' rest

/-! ## The invariant -/

/-- A proposal and the votes for it: they are the votes it has, with the stakes of its snapshot. -/
structure Tallied (p : Proposal) (ballots : List Ballot) : Prop where
  votes : p.votes = (ballots.map Ballot.stake).sum
  nodup : (ballots.map Ballot.voter).Nodup
  voters : ∀ v, v ∈ p.voters ↔ v ∈ ballots.map Ballot.voter
  stakes : ∀ b ∈ ballots, p.stakeSnapshot[b.voter]? = some b.stake
  positive : ∀ b ∈ ballots, 0 < b.stake
  total : KeyMap.sumBy id p.stakeSnapshot < modulus

structure Kept (s : Tally) : Prop where
  unknown : ∀ id, s.governance.proposals[id]? = none → ballotsFor s.accepted id = []
  known : ∀ (id : Bytes) (p : Proposal), s.governance.proposals[id]? = some p →
    Tallied p (ballotsFor s.accepted id)

/-- Distinct voters have no more than the snapshot altogether. -/
theorem sum_stakes_le {snapshot : ByteMap Nat} (hnd : (ballots.map Ballot.voter).Nodup)
    (hstakes : ∀ b ∈ ballots, snapshot[b.voter]? = some b.stake) :
    (ballots.map Ballot.stake).sum ≤ KeyMap.sumBy id snapshot := by
  have hread : ballots.map Ballot.stake =
      (ballots.map Ballot.voter).map fun v => snapshot[v]?.elim 0 id := by
    rw [List.map_map]
    refine List.map_congr_left fun b hb => ?_
    rw [Function.comp_apply, hstakes b hb]
    rfl
  rw [hread]
  exact KeyMap.sum_map_le_sumBy id hnd

theorem Tallied.votes_lt (h : Tallied p ballots) : p.votesFor + p.votesAgainst < modulus := by
  have hle := sum_stakes_le h.nodup h.stakes
  rw [← h.votes] at hle
  exact hle.trans_lt h.total

/-- One more vote, of somebody who has not voted. -/
theorem Tallied.vote (h : Tallied p ballots) {voter : Bytes} {stake : Nat} {choice : VoteChoice}
    (hvoter : voter ∉ p.voters) (hstake : p.stakeSnapshot[voter]? = some stake)
    (hpos : 0 < stake) :
    p.votes + stake < modulus ∧
      Tallied (countVote p voter stake choice) (ballots ++ [⟨k, voter, stake⟩]) := by
  have hnew : voter ∉ ballots.map Ballot.voter := fun hmem => hvoter ((h.voters voter).mpr hmem)
  have hnodup : ((ballots ++ [(⟨k, voter, stake⟩ : Ballot)]).map Ballot.voter).Nodup := by
    rw [List.map_append, List.map_singleton, List.nodup_append]
    refine ⟨h.nodup, List.nodup_singleton _, ?_⟩
    intro a ha b hb heq
    rw [List.mem_singleton.mp hb] at heq
    subst heq
    exact hnew ha
  have hstakes : ∀ b ∈ ballots ++ [(⟨k, voter, stake⟩ : Ballot)],
      p.stakeSnapshot[b.voter]? = some b.stake := by
    intro b hb
    rcases List.mem_append.mp hb with hb | hb
    · exact h.stakes b hb
    · rw [List.mem_singleton.mp hb]
      exact hstake
  have hsum : ((ballots ++ [(⟨k, voter, stake⟩ : Ballot)]).map Ballot.stake).sum =
      p.votes + stake := by
    rw [List.map_append, List.sum_append, ← h.votes]
    rfl
  have hfits : p.votes + stake < modulus := by
    rw [← hsum]
    exact (sum_stakes_le hnodup hstakes).trans_lt h.total
  obtain ⟨-, hvoters, hsnapshot⟩ := @countVote_frame p voter choice stake
  refine ⟨hfits, (countVote_votes hfits).trans hsum.symm, hnodup, ?_, ?_, ?_, ?_⟩
  · intro v
    rw [hvoters, Finset.mem_insert, h.voters, List.map_append, List.mem_append, List.map_singleton,
      List.mem_singleton, or_comm]
  · rw [hsnapshot]
    exact hstakes
  · intro b hb
    rcases List.mem_append.mp hb with hb | hb
    · exact h.positive b hb
    · rw [List.mem_singleton.mp hb]
      exact hpos
  · rw [hsnapshot]
    exact h.total

theorem Tallied.fresh {P : Primitives} {proposer : Bytes} {params : SubmitProposalParams}
    {currentHeight epochLength : Nat} {snapshot : ByteMap Nat}
    (htotal : KeyMap.sumBy id snapshot < modulus) :
    Tallied (GovernanceState.fresh P proposer params currentHeight epochLength snapshot) [] where
  votes := rfl
  nodup := List.nodup_nil
  voters := fun v => by simp [GovernanceState.fresh]
  stakes := fun b hb => absurd hb (by simp)
  positive := fun b hb => absurd hb (by simp)
  total := htotal

/-- A proposal without voters had no votes. -/
theorem Tallied.eq_nil (h : Tallied p ballots) (hnone : p.voters = ∅) : ballots = [] := by
  refine List.eq_nil_iff_forall_not_mem.mpr fun b hb => ?_
  have hmem := (h.voters b.voter).mpr (List.mem_map_of_mem hb)
  rw [hnone] at hmem
  exact absurd hmem (by simp)

theorem Kept.counted (h : s.Kept) : s.Counted :=
  fun id p hp => ⟨(h.known id p hp).votes, (h.known id p hp).nodup⟩

theorem kept_start : Kept {} where
  unknown := fun _ _ => rfl
  known := fun id p hp => absurd hp (by simp)

/-! ## One call -/

section Submit

variable {proposer : Bytes} {params : SubmitProposalParams} {currentHeight epochLength : Nat}
  {snapshot : ByteMap Nat}

/-- The state a valid submission leaves. -/
def submitted (P : Primitives) (s : Tally) (proposer : Bytes) (params : SubmitProposalParams)
    (currentHeight epochLength : Nat) (snapshot : ByteMap Nat) : Tally :=
  { s with governance := { s.governance with
      proposals := s.governance.proposals.insert (proposalIdOf P proposer params currentHeight)
        (GovernanceState.fresh P proposer params currentHeight epochLength snapshot) } }

theorem step_submit (hkind : checkKind params.kind = .ok ()) :
    s.step P (.submitProposal proposer params currentHeight epochLength snapshot) =
      some (s.submitted P proposer params currentHeight epochLength snapshot) := by
  unfold step
  dsimp only
  rw [submitProposal_eq_ok_iff.mpr ⟨hkind, rfl⟩]
  rfl

theorem step_submit_error {e : GovernanceError} (hkind : checkKind params.kind = .error e) :
    s.step P (.submitProposal proposer params currentHeight epochLength snapshot) = some s := by
  have herror : s.governance.submitProposal P proposer params currentHeight epochLength snapshot =
      .error e := by
    unfold submitProposal
    rw [hkind]
  unfold step
  dsimp only
  rw [herror]

theorem Kept.submitted (h : s.Kept)
    (hfree : ∀ p, s.governance.proposals[proposalIdOf P proposer params currentHeight]? = some p →
      p.status = .active ∧ p.voters = ∅)
    (htotal : KeyMap.sumBy id snapshot < modulus) :
    (s.submitted P proposer params currentHeight epochLength snapshot).Kept ∧
      s.KeepsDecided (s.submitted P proposer params currentHeight epochLength snapshot) := by
  refine ⟨⟨?_, ?_⟩, ?_⟩
  · intro k hk
    dsimp only [Tally.submitted] at hk
    rw [KeyMap.getElem?_insert_eq] at hk
    split at hk
    · exact absurd hk (by simp)
    · exact h.unknown k hk
  · intro k p hk
    dsimp only [Tally.submitted] at hk
    rw [KeyMap.getElem?_insert_eq] at hk
    split at hk
    · next heq =>
      cases hk
      -- nothing was counted under this key so far
      have hnone : ballotsFor s.accepted k = [] := by
        rw [heq] at hfree
        cases hold : s.governance.proposals[k]? with
        | none => exact h.unknown k hold
        | some old => exact (h.known k old hold).eq_nil (hfree old hold).2
      dsimp only [Tally.submitted]
      rw [hnone]
      exact Tallied.fresh htotal
    · exact h.known k p hk
  · intro k p hp hdecided
    refine ⟨p, ?_, hdecided⟩
    refine (KeyMap.getElem?_insert_ne _ _ ?_).trans hp
    rintro rfl
    exact hdecided (hfree p hp).1

/-- What the count of a submission that was not clean gives away. -/
theorem Kept.free_of_exact (h : s.Kept)
    (hdecided : s.KeepsDecided (s.submitted P proposer params currentHeight epochLength snapshot))
    (hcounted : (s.submitted P proposer params currentHeight epochLength snapshot).Counted) :
    ∀ p, s.governance.proposals[proposalIdOf P proposer params currentHeight]? = some p →
      p.status = .active ∧ p.voters = ∅ := by
  intro p hp
  have hwritten : (s.submitted P proposer params currentHeight epochLength
      snapshot).governance.proposals[proposalIdOf P proposer params currentHeight]? =
        some (GovernanceState.fresh P proposer params currentHeight epochLength snapshot) :=
    (KeyMap.getElem?_insert_eq _ _ _ _).trans (if_pos rfl)
  constructor
  · by_contra hne
    obtain ⟨p', hp', hne'⟩ := hdecided _ p hp hne
    cases hwritten.symm.trans hp'
    exact hne' rfl
  · have hold := h.known _ p hp
    obtain ⟨hsum, -⟩ := hcounted _ _ hwritten
    have hzero : ((ballotsFor s.accepted (proposalIdOf P proposer params currentHeight)).map
        Ballot.stake).sum = 0 := hsum.symm
    refine Finset.eq_empty_iff_forall_notMem.mpr fun v hv => ?_
    obtain ⟨b, hb, -⟩ := List.mem_map.mp ((hold.voters v).mp hv)
    have hle := List.le_sum_of_mem (@List.mem_map_of_mem _ _ _ _ Ballot.stake hb)
    have hpos := hold.positive b hb
    omega

end Submit

theorem ballotsFor_append (accepted : List Ballot) (b : Ballot) :
    ballotsFor (accepted ++ [b]) k =
      if b.proposalId = k then ballotsFor accepted k ++ [b] else ballotsFor accepted k := by
  unfold ballotsFor
  rw [List.filter_append, List.filter_singleton]
  split <;> simp_all

theorem Kept.vote (h : s.Kept) {voter : Bytes} {choice : VoteChoice} {currentHeight : Nat} :
    s.AddsFit (.vote voter k choice currentHeight) ∧
      ∀ s', s.step P (.vote voter k choice currentHeight) = some s' →
        s'.Kept ∧ s.KeepsDecided s' := by
  cases hvote : s.governance.vote voter k choice currentHeight with
  | error e =>
    refine ⟨fun g' p hok => absurd (hvote.symm.trans hok) (by simp), ?_⟩
    intro s' hs'
    simp only [step, hvote, Option.some.injEq] at hs'
    subst hs'
    exact ⟨h, fun id p hp hne => ⟨p, hp, hne⟩⟩
  | ok g =>
    obtain ⟨p, stake, hp, hactive, hnew, hstake, hpos, rfl⟩ := vote_eq_ok hvote
    have hread : stakeIn s.governance k voter = stake := by
      rw [stakeIn, hp, Option.bind_some, hstake, Option.getD_some]
    obtain ⟨hfits, htallied⟩ :=
      @Tallied.vote _ _ k (h.known k p hp) voter stake choice hnew hstake hpos
    constructor
    · intro g' q _ hq
      cases hp.symm.trans hq
      rw [hread]
      refine lt_of_le_of_lt (Nat.add_le_add_right ?_ _) hfits
      cases choice with
      | «for» => exact Nat.le_add_right _ _
      | against => exact Nat.le_add_left _ _
    · intro s' hs'
      simp only [step, hvote, Option.some.injEq] at hs'
      subst hs'
      refine ⟨⟨?_, ?_⟩, ?_⟩
      · intro l hl
        rw [KeyMap.getElem?_insert_eq] at hl
        rw [ballotsFor_append]
        split at hl
        · exact absurd hl (by simp)
        · next hne =>
          rw [if_neg hne]
          exact h.unknown l hl
      · intro l q hl
        rw [KeyMap.getElem?_insert_eq] at hl
        rw [ballotsFor_append, hread]
        split at hl
        · next heq =>
          cases hl
          subst heq
          rw [if_pos rfl]
          exact htallied
        · next hne =>
          rw [if_neg hne]
          exact h.known l q hl
      · intro l q hq hdecided
        refine ⟨q, (KeyMap.getElem?_insert_ne _ _ ?_).trans hq, hdecided⟩
        rintro rfl
        cases hp.symm.trans hq
        exact hdecided hactive

theorem Kept.processBlock (h : s.Kept) {currentHeight totalStake epochLength : Nat}
    (hheight : currentHeight < modulus) :
    s.AddsFit (.processBlock currentHeight totalStake epochLength) ∧
      ∀ s', s.step P (.processBlock currentHeight totalStake epochLength) = some s' →
        s'.Kept ∧ s.KeepsDecided s' := by
  constructor
  · intro k p hp hdue
    refine ⟨(h.known k p hp).votes_lt, fun _ => ?_⟩
    -- a deadline that is over lies below a height
    have hle := Nat.div_le_self p.votingDeadlineHeight epochLength
    have := hdue.2
    omega
  · intro s' hs'
    obtain ⟨g', hg', rfl⟩ := Option.map_eq_some_iff.mp hs'
    refine ⟨⟨?_, ?_⟩, ?_⟩
    · intro k hk
      cases hold : s.governance.proposals[k]? with
      | none => exact h.unknown k hold
      | some p =>
        obtain ⟨r, -, hr⟩ := processBlock_entry hg' hold
        exact absurd (hk.symm.trans hr) (by simp)
    · intro k p hk
      cases hold : s.governance.proposals[k]? with
      | none => exact absurd (hk.symm.trans (processBlock_absent hg' hold)) (by simp)
      | some q =>
        obtain ⟨r, hr, hwritten⟩ := processBlock_entry hg' hold
        obtain ⟨status, executionHeight, hframe, -⟩ := processProposal_frame hr
        cases hk.symm.trans hwritten
        rw [hframe]
        have ht := h.known k q hold
        exact ⟨ht.votes, ht.nodup, ht.voters, ht.stakes, ht.positive, ht.total⟩
    · intro k p hp hdecided
      obtain ⟨r, hr, hwritten⟩ := processBlock_entry hg' hp
      obtain ⟨status, executionHeight, hframe, hstays⟩ := processProposal_frame hr
      refine ⟨r.1, hwritten, ?_⟩
      rw [hframe]
      exact hstays hdecided

/-- A clean call does no harm. -/
theorem Kept.step (h : s.Kept) (hfits : c.Fits) (hclean : s.Clean P c) :
    s.AddsFit c ∧ ∀ s' ∈ s.step P c, s'.Kept ∧ s.KeepsDecided s' := by
  cases c with
  | submitProposal proposer params currentHeight epochLength snapshot =>
    refine ⟨fun hkind => (hclean hkind).2, fun s' hs' => ?_⟩
    cases hkind : checkKind params.kind with
    | error e =>
      cases (step_submit_error hkind).symm.trans hs'
      exact ⟨h, fun k p hp hne => ⟨p, hp, hne⟩⟩
    | ok u =>
      cases (step_submit hkind).symm.trans hs'
      exact h.submitted (hclean hkind).1 hfits
  | vote voter k choice currentHeight => exact h.vote
  | processBlock currentHeight totalStake epochLength => exact h.processBlock hfits

/-- A call that did no harm was clean. -/
theorem Kept.clean_of_exact (h : s.Kept) (hadds : s.AddsFit c)
    (hexact : ∀ s' ∈ s.step P c, s.KeepsDecided s' ∧ s'.Counted) : s.Clean P c := by
  cases c with
  | submitProposal proposer params currentHeight epochLength snapshot =>
    intro hkind
    obtain ⟨hdecided, hcounted⟩ := hexact _ (step_submit hkind)
    exact ⟨h.free_of_exact hdecided hcounted, hadds hkind⟩
  | vote voter k choice currentHeight => exact trivial
  | processBlock currentHeight totalStake epochLength => exact trivial

theorem ExactAlong.counted (h : ExactAlong P s calls) : s.Counted := by
  cases calls with
  | nil => exact h
  | cons c rest => exact h.1

/-- A run from a well kept state. -/
theorem Kept.exactAlong_iff (h : s.Kept) (hfits : ∀ c ∈ calls, c.Fits) :
    ExactAlong P s calls ↔ CleanAlong P s calls := by
  induction calls generalizing s with
  | nil => exact ⟨fun _ => trivial, fun _ => h.counted⟩
  | cons c rest ih =>
    have hrest : ∀ c ∈ rest, c.Fits := fun c' hc' => hfits c' (List.mem_cons_of_mem _ hc')
    have hfit := hfits c List.mem_cons_self
    constructor
    · rintro ⟨-, hadds, hnext⟩
      have hclean : s.Clean P c :=
        h.clean_of_exact hadds fun s' hs' => ⟨(hnext s' hs').1, (hnext s' hs').2.counted⟩
      refine ⟨hclean, fun s' hs' => ?_⟩
      exact (ih ((h.step hfit hclean).2 s' hs').1 hrest).mp (hnext s' hs').2
    · rintro ⟨hclean, hnext⟩
      obtain ⟨hadds, hstep⟩ := h.step hfit hclean
      refine ⟨h.counted, hadds, fun s' hs' => ?_⟩
      obtain ⟨hkept, hdecided⟩ := hstep s' hs'
      exact ⟨hdecided, (ih hkept hrest).mpr (hnext s' hs')⟩

end Tally

open Tally in
/-- A run from the empty state counts and decides exactly when every submission in it is clean. -/
theorem governance_tally_exact_iff {P : Primitives} {calls : List GovernanceCall}
    (hfits : ∀ c ∈ calls, c.Fits) : ExactAlong P {} calls ↔ CleanAlong P {} calls :=
  kept_start.exactAlong_iff hfits

namespace TallySample

open Tally GovernanceState

def params : SubmitProposalParams := ⟨.protocolUpgrade 2 []⟩

/-- Two validators, 3 and 4 at stake. -/
def snapshot : ByteMap Nat := ((∅ : ByteMap Nat).insert [1] 3).insert [2] 4

def submit (height : Nat) : GovernanceCall := .submitProposal [1] params height 2 snapshot

/-- The proposal of block 5. -/
def key : Bytes := proposalIdOf Reference.primitives [1] params 5

/-- Both vote, one of them twice, and the proposal is decided and executed. -/
def orderly : List GovernanceCall :=
  [submit 5, .vote [1] key .for 5, .vote [2] key .for 6, .vote [2] key .against 7,
    .processBlock 10 7 2, submit 10, .processBlock 100 7 2]

/-- A vote between two submissions of one proposal in one block. -/
def repeated : List GovernanceCall :=
  [submit 5, .vote [1] key .for 5, submit 5, .vote [1] key .for 5]

instance (c : GovernanceCall) : Decidable c.Fits := by
  cases c <;> unfold GovernanceCall.Fits <;> infer_instance

instance (P : Primitives) (s : Tally) (c : GovernanceCall) : Decidable (s.Clean P c) := by
  cases c <;> unfold Clean <;> infer_instance

instance decidableCleanAlong (P : Primitives) : (s : Tally) → (calls : List GovernanceCall) →
    Decidable (CleanAlong P s calls)
  | _, [] => isTrue trivial
  | s, c :: rest =>
    have : ∀ s', Decidable (CleanAlong P s' rest) := fun s' => decidableCleanAlong P s' rest
    inferInstanceAs (Decidable (s.Clean P c ∧ ∀ s' ∈ s.step P c, CleanAlong P s' rest))

def run (s : Tally) (calls : List GovernanceCall) : Option Tally :=
  calls.foldlM (Tally.step Reference.primitives) s

end TallySample

open TallySample Tally in
theorem governance_tally_exact_sample : ExactAlong Reference.primitives {} orderly ∧
    (run {} orderly).any (fun s => s.accepted.length = 2 ∧
      (s.governance.proposals[key]?.map Proposal.status) = some .executed) = true := by
  refine ⟨(governance_tally_exact_iff ?_).mpr ?_, ?_⟩
  · decide +kernel
  · decide +kernel
  · decide +kernel

open TallySample Tally in
/-- The second submission starts the count again: the voter is through twice, and counted for 3. -/
theorem resubmission_loses_votes :
    (run {} repeated).any (fun s => s.accepted = [⟨key, [1], 3⟩, ⟨key, [1], 3⟩] ∧
      (s.governance.proposals[key]?.map fun p => p.votesFor + p.votesAgainst) = some 3) = true ∧
      ¬ ExactAlong Reference.primitives {} repeated := by
  refine ⟨by decide +kernel, ?_⟩
  intro hexact
  have hclean := (kept_start.exactAlong_iff (by decide +kernel)).mp hexact
  exact absurd hclean (by decide +kernel)

end Curs3d
