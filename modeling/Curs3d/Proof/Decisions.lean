import Curs3d.Governance

/-!
# How proposals are decided

`process_block` compares percentages with unchecked multiplications and divides by the epoch length
of the genesis. `processChecked` is the same turn of the loop with the checked operators: where it
is `none`, a build with overflow checks stops, and a release build goes on with a wrapped product
(or stops as well, when it was the division).

`InRange` is how large stakes, deadline and epoch may be for none of this to happen, and there the
decision is the one the percentages say, over the natural numbers (`Passes`).
-/

set_option autoImplicit false

namespace Curs3d

open U64

namespace Proposal

variable (p : Proposal) (totalStake epochLength : Nat)

/-- Everything cast, as a natural number. -/
def votes : Nat := p.votesFor + p.votesAgainst

/-- Half of the stake voted, and two thirds of the votes are in favour. -/
def Passes : Prop :=
  (0 < totalStake ∧ QUORUM_PERCENT * totalStake ≤ 100 * p.votes) ∧
    0 < p.votes ∧ APPROVAL_PERCENT * p.votes ≤ 100 * p.votesFor

instance : Decidable (p.Passes totalStake) := inferInstanceAs (Decidable (_ ∧ _))

theorem decide_passes : (decide (0 < totalStake ∧ QUORUM_PERCENT * totalStake ≤ 100 * p.votes) &&
    decide (0 < p.votes ∧ APPROVAL_PERCENT * p.votes ≤ 100 * p.votesFor)) =
      decide (p.Passes totalStake) :=
  (Bool.decide_and _ _).symm

/-- An open proposal whose time is over. -/
def Due (currentHeight : Nat) : Prop :=
  p.status = .active ∧ p.votingDeadlineHeight < currentHeight

instance (currentHeight : Nat) : Decidable (p.Due currentHeight) :=
  inferInstanceAs (Decidable (_ ∧ _))

/-- No operation on this proposal leaves the word. -/
structure InRange : Prop where
  votes : p.votes < modulus
  quorum : 0 < totalStake → 100 * p.votes < modulus ∧ QUORUM_PERCENT * totalStake < modulus
  approval : 0 < p.votes → 100 * p.votesFor < modulus ∧ APPROVAL_PERCENT * p.votes < modulus
  boundary : p.Passes totalStake → epochLength ≠ 0 ∧
    (p.votingDeadlineHeight / epochLength + 1) * epochLength < modulus

variable {p totalStake epochLength}

theorem InRange.next_lt (h : p.InRange totalStake epochLength) (hpass : p.Passes totalStake) :
    p.votingDeadlineHeight / epochLength + 1 < modulus := by
  obtain ⟨hepoch, hboundary⟩ := h.boundary hpass
  exact (Nat.le_mul_of_pos_right _ (Nat.pos_of_ne_zero hepoch)).trans_lt hboundary

end Proposal

namespace GovernanceState

variable {g g' : GovernanceState} {p p' : Proposal} {currentHeight totalStake epochLength : Nat}

/-! ## The decision with checked operators -/

/-- `total > 0 && part * 100 >= total * percent`. -/
def shareChecked (part total percent : Nat) : Option Bool :=
  if 0 < total then do
    let left ← checkedMul part 100
    let right ← checkedMul total percent
    return decide (right ≤ left)
  else some false

/-- The branch of `process_block` for an `Active` proposal past its deadline. -/
def decideChecked (totalStake epochLength : Nat) (p : Proposal) : Option Proposal := do
  let totalVotes ← checkedAdd p.votesFor p.votesAgainst
  let quorumMet ← shareChecked totalVotes totalStake QUORUM_PERCENT
  let approved ← shareChecked p.votesFor totalVotes APPROVAL_PERCENT
  if quorumMet && approved then
    let epoch ← checkedDiv p.votingDeadlineHeight epochLength
    let next ← checkedAdd epoch 1
    let boundary ← checkedMul next epochLength
    return { p with
      status := .passed
      executionHeight :=
        some (max (satAdd p.votingDeadlineHeight MIN_EXECUTION_DELAY_BLOCKS) boundary) }
  else return { p with status := .rejected }

/-- One turn of the loop. Only an open proposal whose time is over needs arithmetic. -/
def processChecked (currentHeight totalStake epochLength : Nat) (p : Proposal) :
    Option (Proposal × Bool) :=
  if p.Due currentHeight then
    (decideChecked totalStake epochLength p).map fun p' => (p', false)
  else processProposal currentHeight totalStake epochLength p

/-- What a decision is meant to be: the proposal with its new status, over the natural numbers. -/
def decided (totalStake epochLength : Nat) (p : Proposal) : Proposal :=
  if p.Passes totalStake then
    { p with
      status := .passed
      executionHeight := some (max (satAdd p.votingDeadlineHeight MIN_EXECUTION_DELAY_BLOCKS)
        ((p.votingDeadlineHeight / epochLength + 1) * epochLength)) }
  else { p with status := .rejected }

theorem shareChecked_eq_some_iff {part total percent : Nat} {b : Bool} :
    shareChecked part total percent = some b ↔
      (0 < total → 100 * part < modulus ∧ percent * total < modulus) ∧
        b = decide (0 < total ∧ percent * total ≤ 100 * part) := by
  unfold shareChecked
  rw [Nat.mul_comm 100 part, Nat.mul_comm percent total]
  by_cases hpos : 0 < total
  · rw [if_pos hpos]
    simp only [Option.bind_eq_bind, Option.bind_eq_some_iff, checkedMul_eq_some_iff, Option.pure_def,
      Option.some.injEq]
    constructor
    · rintro ⟨left, ⟨hleft, rfl⟩, right, ⟨hright, rfl⟩, rfl⟩
      exact ⟨fun _ => ⟨hleft, hright⟩, by simp [hpos]⟩
    · rintro ⟨hfits, rfl⟩
      exact ⟨_, ⟨(hfits hpos).1, rfl⟩, _, ⟨(hfits hpos).2, rfl⟩, by simp [hpos]⟩
  · rw [if_neg hpos]
    simp [hpos]

/-- The checked decision succeeds exactly in range, and is then the intended one. -/
theorem decideChecked_eq_some_iff :
    decideChecked totalStake epochLength p = some p' ↔
      p.InRange totalStake epochLength ∧ p' = decided totalStake epochLength p := by
  unfold decideChecked
  simp only [Option.bind_eq_bind, Option.bind_eq_some_iff, checkedAdd_eq_some_iff,
    shareChecked_eq_some_iff]
  constructor
  · rintro ⟨votes, ⟨hvotes, hsum⟩, quorum, ⟨hquorum, rfl⟩, approval, ⟨happroval, rfl⟩, hrest⟩
    obtain rfl : p.votes = votes := hsum
    rw [p.decide_passes] at hrest
    by_cases hpass : p.Passes totalStake
    · simp only [decide_eq_true hpass, if_true, Option.bind_eq_some_iff, checkedAdd_eq_some_iff,
        checkedMul_eq_some_iff, checkedDiv_eq_some_iff, Option.pure_def, Option.some.injEq] at hrest
      obtain ⟨epoch, ⟨hepoch, rfl⟩, next, ⟨-, rfl⟩, boundary, ⟨hboundary, rfl⟩, rfl⟩ := hrest
      exact ⟨⟨hvotes, hquorum, happroval, fun _ => ⟨hepoch, hboundary⟩⟩, (if_pos hpass).symm⟩
    · simp only [decide_eq_false hpass, Bool.false_eq_true, if_false, Option.pure_def,
        Option.some.injEq] at hrest
      exact ⟨⟨hvotes, hquorum, happroval, fun h => absurd h hpass⟩,
        hrest.symm.trans (if_neg hpass).symm⟩
  · rintro ⟨hrange, rfl⟩
    refine ⟨p.votes, ⟨hrange.votes, rfl⟩, _, ⟨hrange.quorum, rfl⟩, _, ⟨hrange.approval, rfl⟩, ?_⟩
    rw [p.decide_passes]
    by_cases hpass : p.Passes totalStake
    · obtain ⟨hepoch, hboundary⟩ := hrange.boundary hpass
      have hnext := hrange.next_lt hpass
      rw [decided, if_pos hpass, if_pos (decide_eq_true hpass)]
      simp only [Option.bind_eq_some_iff, checkedAdd_eq_some_iff, checkedMul_eq_some_iff,
        checkedDiv_eq_some_iff]
      exact ⟨_, ⟨hepoch, rfl⟩, _, ⟨hnext, rfl⟩, _, ⟨hboundary, rfl⟩, rfl⟩
    · rw [decided, if_neg hpass, if_neg (by rw [decide_eq_true_eq]; exact hpass)]
      rfl

/-- A decision that did not panic is the one a release build takes. -/
theorem processProposal_of_checked {r : Proposal × Bool}
    (h : processChecked currentHeight totalStake epochLength p = some r) :
    processProposal currentHeight totalStake epochLength p = some r := by
  unfold processChecked at h
  split at h
  · next hdue =>
    obtain ⟨p', hdecide, rfl⟩ := Option.map_eq_some_iff.mp h
    obtain ⟨hrange, rfl⟩ := decideChecked_eq_some_iff.mp hdecide
    have hvotes : wrapAdd p.votesFor p.votesAgainst = p.votes := Nat.mod_eq_of_lt hrange.votes
    have hquorum : quorumMet p totalStake = decide (0 < totalStake ∧
        QUORUM_PERCENT * totalStake ≤ 100 * p.votes) := by
      unfold quorumMet
      rw [hvotes, decide_eq_decide]
      refine and_congr_right fun hpos => ?_
      obtain ⟨hleft, hright⟩ := hrange.quorum hpos
      rw [wrapMul, wrapMul, Nat.mul_comm totalStake, Nat.mul_comm p.votes,
        Nat.mod_eq_of_lt hleft, Nat.mod_eq_of_lt hright]
    have happroved : approved p = decide (0 < p.votes ∧
        APPROVAL_PERCENT * p.votes ≤ 100 * p.votesFor) := by
      unfold approved
      rw [hvotes, decide_eq_decide]
      refine and_congr_right fun hpos => ?_
      obtain ⟨hleft, hright⟩ := hrange.approval hpos
      rw [wrapMul, wrapMul, Nat.mul_comm p.votes, Nat.mul_comm p.votesFor,
        Nat.mod_eq_of_lt hleft, Nat.mod_eq_of_lt hright]
    unfold processProposal
    rw [hdue.1]
    dsimp only
    rw [if_pos hdue.2, hquorum, happroved, p.decide_passes]
    by_cases hpass : p.Passes totalStake
    · obtain ⟨hepoch, hboundary⟩ := hrange.boundary hpass
      have hnext := hrange.next_lt hpass
      rw [if_pos (decide_eq_true hpass), if_neg hepoch, decided, if_pos hpass, executionHeightFor,
        wrapAdd, Nat.mod_eq_of_lt hnext, wrapMul, Nat.mod_eq_of_lt hboundary]
    · rw [if_neg (by rw [decide_eq_true_eq]; exact hpass), decided, if_neg hpass]
  · exact h

/-- Without a decision to take there is no arithmetic. -/
theorem processProposal_isSome_of_not_due (h : ¬ p.Due currentHeight) :
    (processProposal currentHeight totalStake epochLength p).isSome = true := by
  unfold processProposal
  cases hs : p.status with
  | active =>
    dsimp only
    rw [if_neg fun hdeadline => h ⟨hs, hdeadline⟩]
    rfl
  | passed =>
    dsimp only
    split
    · split <;> rfl
    · rfl
  | _ => rfl

/-! ## The whole loop -/

/-- The body of the loop of `process_block`. -/
def processEntry (currentHeight totalStake epochLength : Nat) (acc : GovernanceState)
    (e : Bytes × Proposal) : Option GovernanceState :=
  (processProposal currentHeight totalStake epochLength e.2).map fun r =>
    { proposals := acc.proposals.insert e.1 r.1
      executedUpgrades :=
        if r.2 then acc.executedUpgrades ++ [e.2.id] else acc.executedUpgrades }

theorem processBlock_eq_foldlM : g.processBlock currentHeight totalStake epochLength =
    g.proposals.toList.foldlM (processEntry currentHeight totalStake epochLength) g := rfl

/-- The loop succeeds when each turn does. -/
theorem processBlock_total (h : ∀ (id : Bytes) (p : Proposal), g.proposals[id]? = some p →
      (processProposal currentHeight totalStake epochLength p).isSome = true) :
    ∃ g', g.processBlock currentHeight totalStake epochLength = some g' := by
  have hall : ∀ e ∈ g.proposals.toList,
      (processProposal currentHeight totalStake epochLength e.2).isSome = true := by
    intro e he
    exact h e.1 e.2 (Std.ExtTreeMap.mem_toList_iff_getElem?_eq_some.mp he)
  rw [processBlock_eq_foldlM]
  generalize g.proposals.toList = proposals at hall
  generalize g = acc
  induction proposals generalizing acc with
  | nil => exact ⟨acc, rfl⟩
  | cons e rest ih =>
    obtain ⟨r, hr⟩ := Option.isSome_iff_exists.mp (hall e (by simp))
    rw [List.foldlM_cons, processEntry, hr]
    exact ih (fun e' he' => hall e' (by simp [he'])) _

/-- Every turn writes its own proposal and no other. -/
theorem foldlM_processEntry {l : List (Bytes × Proposal)} (hnd : (l.map Prod.fst).Nodup)
    (h : l.foldlM (processEntry currentHeight totalStake epochLength) g = some g') :
    (∀ e ∈ l, ∃ r, processProposal currentHeight totalStake epochLength e.2 = some r ∧
      g'.proposals[e.1]? = some r.1) ∧
    ∀ id, id ∉ l.map Prod.fst → g'.proposals[id]? = g.proposals[id]? := by
  induction l generalizing g with
  | nil =>
    cases h
    exact ⟨fun e he => absurd he (by simp), fun _ _ => rfl⟩
  | cons e rest ih =>
    rw [List.map_cons, List.nodup_cons] at hnd
    rw [List.foldlM_cons, Option.bind_eq_bind, Option.bind_eq_some_iff] at h
    obtain ⟨acc, hfirst, hrest⟩ := h
    obtain ⟨r, hr, rfl⟩ := Option.map_eq_some_iff.mp hfirst
    obtain ⟨hwritten, hkept⟩ := ih hnd.2 hrest
    constructor
    · intro x hx
      rcases List.mem_cons.mp hx with rfl | hx
      · refine ⟨r, hr, ?_⟩
        rw [hkept _ hnd.1]
        exact (KeyMap.getElem?_insert_eq _ _ _ _).trans (if_pos rfl)
      · exact hwritten x hx
    · intro id hid
      rw [List.map_cons, List.mem_cons, not_or] at hid
      rw [hkept id hid.2]
      exact KeyMap.getElem?_insert_ne _ _ (Ne.symm hid.1)

theorem processBlock_entry (h : g.processBlock currentHeight totalStake epochLength = some g')
    {id : Bytes} (hp : g.proposals[id]? = some p) :
    ∃ r, processProposal currentHeight totalStake epochLength p = some r ∧
      g'.proposals[id]? = some r.1 := by
  rw [processBlock_eq_foldlM] at h
  exact (foldlM_processEntry (KeyMap.nodup_keys_toList _) h).1 (id, p)
    (Std.ExtTreeMap.mem_toList_iff_getElem?_eq_some.mpr hp)

theorem processBlock_absent (h : g.processBlock currentHeight totalStake epochLength = some g')
    {id : Bytes} (hp : g.proposals[id]? = none) : g'.proposals[id]? = none := by
  rw [processBlock_eq_foldlM] at h
  refine ((foldlM_processEntry (KeyMap.nodup_keys_toList _) h).2 id ?_).trans hp
  intro hmem
  obtain ⟨e, he, rfl⟩ := List.mem_map.mp hmem
  exact absurd (hp.symm.trans (Std.ExtTreeMap.mem_toList_iff_getElem?_eq_some.mp he)) (by simp)

/-! ## Exact decisions -/

/-- `process_block` gets through without an overflow or a division by zero, and decides what is due
by the percentages alone. -/
structure DecidesExactly (g : GovernanceState) (currentHeight totalStake epochLength : Nat) :
    Prop where
  checked : ∀ (id : Bytes) (p : Proposal), g.proposals[id]? = some p →
    (processChecked currentHeight totalStake epochLength p).isSome = true
  decided : ∃ g', g.processBlock currentHeight totalStake epochLength = some g' ∧
    ∀ (id : Bytes) (p : Proposal), g.proposals[id]? = some p → p.Due currentHeight →
      ∃ p', g'.proposals[id]? = some p' ∧
        p'.status = if p.Passes totalStake then .passed else .rejected

end GovernanceState

open GovernanceState in
/-- Exactly the states whose due proposals are in range are decided exactly. -/
theorem governance_decisions_exact_iff (g : GovernanceState)
    (currentHeight totalStake epochLength : Nat) :
    g.DecidesExactly currentHeight totalStake epochLength ↔
      ∀ (id : Bytes) (p : Proposal), g.proposals[id]? = some p → p.Due currentHeight →
        p.InRange totalStake epochLength := by
  constructor
  · intro h id p hp hdue
    obtain ⟨r, hr⟩ := Option.isSome_iff_exists.mp (h.checked id p hp)
    unfold processChecked at hr
    rw [if_pos hdue] at hr
    obtain ⟨p', hdecide, -⟩ := Option.map_eq_some_iff.mp hr
    exact (decideChecked_eq_some_iff.mp hdecide).1
  · intro h
    have hchecked : ∀ (id : Bytes) (p : Proposal), g.proposals[id]? = some p →
        (processChecked currentHeight totalStake epochLength p).isSome = true := by
      intro id p hp
      unfold processChecked
      split
      · next hdue =>
        rw [decideChecked_eq_some_iff.mpr ⟨h id p hp hdue, rfl⟩]
        rfl
      · next hdue => exact processProposal_isSome_of_not_due hdue
    obtain ⟨g', hg'⟩ : ∃ g', g.processBlock currentHeight totalStake epochLength = some g' := by
      refine processBlock_total fun id p hp => ?_
      obtain ⟨r, hr⟩ := Option.isSome_iff_exists.mp (hchecked id p hp)
      rw [processProposal_of_checked hr]
      rfl
    refine ⟨hchecked, g', hg', ?_⟩
    intro id p hp hdue
    obtain ⟨r, hr, hwritten⟩ := processBlock_entry hg' hp
    refine ⟨r.1, hwritten, ?_⟩
    have hdecided : processChecked currentHeight totalStake epochLength p =
        some (decided totalStake epochLength p, false) := by
      unfold processChecked
      rw [if_pos hdue, decideChecked_eq_some_iff.mpr ⟨h id p hp hdue, rfl⟩]
      rfl
    cases hr.symm.trans (processProposal_of_checked hdecided)
    unfold decided
    split <;> rfl

namespace DecisionSample

/-- One vote in favour, and the time is over at height 1. -/
def proposal : Proposal where
  id := [1]
  proposer := [1]
  kind := .protocolUpgrade 1 []
  status := .active
  createdAtHeight := 0
  votingDeadlineHeight := 0
  executionHeight := none
  votesFor := 1
  votesAgainst := 0
  voters := {[1]}
  stakeSnapshot := (∅ : ByteMap Nat).insert [1] 1

def governance : GovernanceState where
  proposals := (∅ : ByteMap Proposal).insert [1] proposal
  executedUpgrades := []

end DecisionSample

open DecisionSample in
/-- With epoch length 0 a proposal that passes stops the node; with a total stake of 2 ^ 63 the
quorum wraps to nothing, and one vote is enough. -/
theorem governance_decisions_fail :
    (¬ governance.DecidesExactly 1 1 0 ∧ governance.processBlock 1 1 0 = none) ∧
      ¬ governance.DecidesExactly 1 (2 ^ 63) 1 ∧ ¬ proposal.Passes (2 ^ 63) ∧
      (governance.processBlock 1 (2 ^ 63) 1).bind (fun g => g.proposals[proposal.id]?.map Proposal.status) =
        some .passed := by
  have hzero : governance.processBlock 1 1 0 = none := by decide +kernel
  have hwrapped : (governance.processBlock 1 (2 ^ 63) 1).bind
      (fun g => g.proposals[proposal.id]?.map Proposal.status) = some .passed := by
    decide +kernel
  have hfew : ¬ proposal.Passes (2 ^ 63) := by decide
  refine ⟨⟨?_, hzero⟩, ?_, hfew, hwrapped⟩
  · intro h
    obtain ⟨g', hg', -⟩ := h.decided
    exact absurd (hzero.symm.trans hg') (by simp)
  · intro h
    obtain ⟨g', hg', hstatus⟩ := h.decided
    obtain ⟨p', hp', hdecided⟩ := hstatus proposal.id proposal (by decide) (by decide)
    rw [hg', Option.bind_some, hp', Option.map_some, hdecided, if_neg hfew] at hwrapped
    exact absurd hwrapped (by decide)

end Curs3d
