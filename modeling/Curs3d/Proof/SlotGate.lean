import Curs3d.Proof.Voting

/-!
# The production gate and the validator's slot check

Both walk the leaders of the next height from rank 0 up to the highest rank the elapsed time opens,
and both take the leaders from `snapshot_for_height`. They differ in how many validators they
count when they clamp that rank: the validator counts those of the snapshot it uses, the gate those
of the snapshot stored for the epoch, which is empty all through epoch 0 and missing for the first
block of every later epoch. The gate then opens rank 0 only, and a backup leader waits for ever
(`gate_agrees_iff`, `backup_held_back`).
-/

set_option autoImplicit false

namespace Curs3d

/-! ## Leaders by rank -/

section Leaders

variable {P : Primitives} {snapshot : EpochSnapshot} {height : Nat} {parentHash : Bytes}

/-- A walk that has found a leader ends with one. -/
theorem isSome_slotLeaderWalk {k n : Nat} {excluded : List Bytes} {last : Option Bytes}
    (h : last.isSome) : (slotLeaderWalk P snapshot height parentHash k n excluded last).isSome := by
  induction n generalizing k excluded last with
  | zero => exact h
  | succ n ih =>
    simp only [slotLeaderWalk]
    split
    · exact ih rfl
    · exact h

/-- Whether there is a leader does not depend on the rank. -/
theorem isSome_slotLeaderAtRank (rank : Nat) :
    (slotLeaderAtRank P snapshot height parentHash rank).isSome =
      (slotLeaderAtRank P snapshot height parentHash 0).isSome := by
  simp only [slotLeaderAtRank]
  split
  · rfl
  simp only [slotLeaderWalk]
  split
  · rw [isSome_slotLeaderWalk rfl]
    rfl
  · rfl

end Leaders

namespace Blockchain

open Outcome

variable {P : Primitives} {c : Blockchain}

/-- A height above the genesis without a snapshot has no active validator. -/
theorem selectValidator_of_no_snapshot {height : Nat} {prevHash : Bytes} (hpos : 0 < height)
    (h : c.snapshotForHeight c.accounts height = none) :
    (c.genesisConfig.pos c.slashedValidators height).selectValidator P c.accounts height prevHash =
      none := by
  have hlive : c.liveSnapshot c.accounts height = none := by
    simp only [snapshotForHeight] at h
    split at h
    · split at h
      · exact h
      · exact absurd h (by simp)
    · exact h
  simp only [liveSnapshot] at hlive
  split at hlive
  · exact absurd hlive (by simp)
  next hnone =>
  have hnil : (c.genesisConfig.pos c.slashedValidators height).activeValidators c.accounts = [] := by
    by_contra hne
    exact hnone ⟨hpos, by simpa using hne⟩
  simp only [ProofOfStake.selectValidator]
  rw [hnil]
  rfl

theorem snapshotForHeight_nonempty {height : Nat} {snapshot : EpochSnapshot}
    (h : c.snapshotForHeight c.accounts height = some snapshot) :
    snapshot.validators.isEmpty = false := by
  have hlive : ∀ s, c.liveSnapshot c.accounts height = some s → s.validators.isEmpty = false := by
    intro s hs
    simp only [liveSnapshot] at hs
    split at hs
    · next hcond =>
      cases hs
      simpa using hcond.2
    · exact absurd hs (by simp)
  simp only [snapshotForHeight] at h
  split at h
  · split at h
    · exact hlive _ h
    · next hne =>
      cases h
      simpa using hne
  · exact hlive _ h

theorem isSome_slotLeaderAddress {height : Nat} {prevHash : Bytes} (rank : Nat) :
    (c.slotLeaderAddress P height prevHash rank).isSome =
      (c.slotLeaderAddress P height prevHash 0).isSome := by
  simp only [slotLeaderAddress]
  split
  · rfl
  split
  · rfl
  · exact isSome_slotLeaderAtRank rank

/-- With a snapshot the slot check is a search through its leaders. -/
theorem authorizeProposer_eq_ok {height : Nat} {publicKey prevHash : Bytes}
    {parentTimestamp timestamp : Int} {snapshot : EpochSnapshot}
    (h : c.snapshotForHeight c.accounts height = some snapshot) :
    c.authorizeProposer P c.accounts publicKey height prevHash parentTimestamp timestamp = .ok () ↔
      ∃ rank ≤ allowedBackupRankForHeight height parentTimestamp timestamp
          snapshot.validators.length,
        slotLeaderAtRank P snapshot height prevHash rank =
          some (addressBytesFromPublicKey P publicKey) := by
  simp only [authorizeProposer, ensureValidatorIsAuthorizedAtRank]
  rw [h]
  simp only [snapshotForHeight_nonempty h, Bool.false_eq_true, if_false, ensure_eq_ok,
    List.any_eq_true, List.mem_range, decide_eq_true_eq, Option.map_some, Option.getD_some]
  constructor
  · intro hall
    obtain ⟨rank, hlt, hleader⟩ := hall
    exact ⟨rank, Nat.le_of_lt_succ hlt, hleader⟩
  · intro hall
    obtain ⟨rank, hle, hleader⟩ := hall
    exact ⟨rank, Nat.lt_succ_of_le hle, hleader⟩

/-- Without one anybody may propose. -/
theorem authorizeProposer_of_no_snapshot {height : Nat} {publicKey prevHash : Bytes}
    {parentTimestamp timestamp : Int} (hpos : 0 < height)
    (h : c.snapshotForHeight c.accounts height = none) :
    c.authorizeProposer P c.accounts publicKey height prevHash parentTimestamp timestamp =
      .ok () := by
  simp only [authorizeProposer, ensureValidatorIsAuthorizedAtRank]
  rw [h]
  simp only [selectValidator_of_no_snapshot hpos h]

end Blockchain

namespace Node

variable (P : Primitives) (n : Node)

def nextHeight : Nat := n.chain.latestBlock.header.height + 1

/-- The snapshot stored for the epoch of the next height. -/
def storedSnapshot : Option EpochSnapshot :=
  n.chain.epochSnapshots[n.chain.epochForHeight n.nextHeight]?

/-- The highest rank the gate opens at `now`. -/
def gateRank (now : Int) : Nat :=
  allowedRankForSlot n.nextHeight n.chain.latestBlock.header.timestamp now
    ((n.storedSnapshot.map fun s => s.validators.length).getD 0)

/-- The rank at which the production loop elects `publicKey`, if it does. -/
def slotRank (now : Int) (publicKey : Bytes) : Option Nat :=
  n.rankOf P (addressBytesFromPublicKey P publicKey) n.nextHeight n.chain.latestBlock.hash 0
    (n.gateRank now + 1)

/-- Whether validation accepts `publicKey` as the proposer of the next block, dated `now`. -/
def acceptsProposer (now : Int) (publicKey : Bytes) : Prop :=
  n.chain.authorizeProposer P n.chain.accounts publicKey n.nextHeight n.chain.latestBlock.hash
    n.chain.latestBlock.header.timestamp now = .ok ()

variable {P n} {now : Int} {publicKey : Bytes}

theorem mayProduce_eq (keypair : KeyPair) (connectedPeers : Nat) :
    n.mayProduce P now keypair connectedPeers =
      match n.slotRank P now keypair.publicKey with
      | none => false
      | some rank => rank = 0 ∨ 0 < connectedPeers := rfl

/-- The search finds the address exactly when it leads one of the ranks searched. -/
theorem isSome_rankOf {address hash : Bytes} {height k fuel : Nat} :
    (n.rankOf P address height hash k fuel).isSome ↔
      ∃ rank, k ≤ rank ∧ rank < k + fuel ∧
        n.chain.slotLeaderAddress P height hash rank = some address := by
  induction fuel generalizing k with
  | zero =>
    simp only [rankOf]
    constructor
    · intro h
      exact absurd h (by simp)
    · intro h
      obtain ⟨rank, hle, hlt, -⟩ := h
      omega
  | succ fuel ih =>
    simp only [rankOf]
    split
    · next leader hleader =>
      split
      · next heq =>
        subst heq
        exact ⟨fun _ => ⟨k, le_refl k, by omega, hleader⟩, fun _ => rfl⟩
      -- Someone else leads rank `k`, so the search goes on above it.
      · next hne =>
        rw [ih]
        constructor
        · intro h
          obtain ⟨rank, hle, hlt, hrank⟩ := h
          exact ⟨rank, by omega, by omega, hrank⟩
        · intro h
          obtain ⟨rank, hle, hlt, hrank⟩ := h
          have hk : rank ≠ k := by
            intro heq
            rw [heq, hleader] at hrank
            exact hne (Option.some.inj hrank)
          exact ⟨rank, by omega, by omega, hrank⟩
    -- A rank is led at all exactly when every rank is: an empty one ends the search for good.
    · next hnone =>
      constructor
      · intro h
        exact absurd h (by simp)
      · intro h
        obtain ⟨rank, -, -, hrank⟩ := h
        have hk : (n.chain.slotLeaderAddress P height hash k).isSome := by
          rw [Blockchain.isSome_slotLeaderAddress, ← Blockchain.isSome_slotLeaderAddress rank, hrank]
          rfl
        rw [hnone] at hk
        exact absurd hk (by simp)

theorem isSome_slotRank {snapshot : EpochSnapshot}
    (h : n.chain.snapshotForHeight n.chain.accounts n.nextHeight = some snapshot) :
    (n.slotRank P now publicKey).isSome ↔ ∃ rank ≤ n.gateRank now,
      slotLeaderAtRank P snapshot n.nextHeight n.chain.latestBlock.hash rank =
        some (addressBytesFromPublicKey P publicKey) := by
  have hleader : ∀ rank, n.chain.slotLeaderAddress P n.nextHeight n.chain.latestBlock.hash rank =
      slotLeaderAtRank P snapshot n.nextHeight n.chain.latestBlock.hash rank := by
    intro rank
    simp only [Blockchain.slotLeaderAddress]
    rw [h]
    simp [Blockchain.snapshotForHeight_nonempty h]
  simp only [slotRank, isSome_rankOf, hleader]
  constructor
  · intro hall
    obtain ⟨rank, -, hlt, hrank⟩ := hall
    exact ⟨rank, by omega, hrank⟩
  · intro hall
    obtain ⟨rank, hle, hrank⟩ := hall
    exact ⟨rank, Nat.zero_le _, by omega, hrank⟩

/-- With the snapshot stored the gate opens the ranks the validator accepts. -/
theorem gateRank_of_stored {snapshot : EpochSnapshot} (h : n.storedSnapshot = some snapshot) :
    n.gateRank now = Blockchain.allowedBackupRankForHeight n.nextHeight
      n.chain.latestBlock.header.timestamp now snapshot.validators.length := by
  simp only [gateRank]
  rw [h]
  rfl

/-- Without it, rank 0 only. -/
theorem gateRank_of_not_stored {snapshot : EpochSnapshot}
    (hsnapshot : n.chain.snapshotForHeight n.chain.accounts n.nextHeight = some snapshot)
    (h : n.storedSnapshot ≠ some snapshot) : n.gateRank now = 0 := by
  have hsize : (n.storedSnapshot.map fun s => s.validators.length).getD 0 = 0 := by
    simp only [storedSnapshot] at h ⊢
    simp only [Blockchain.snapshotForHeight] at hsnapshot
    split at hsnapshot
    · next stored hstored =>
      rw [hstored]
      split at hsnapshot
      · next hnil => simpa using hnil
      · rw [hstored] at h
        exact absurd hsnapshot h
    · next hnone =>
      rw [hnone]
      rfl
  simp only [gateRank, allowedRankForSlot, allowedBackupRank]
  rw [hsize]
  simp

/-- **The gate and the validator agree on a key exactly when there is an active validator and either
the epoch's snapshot is stored, or the key is the primary's, or it is no open backup's.** -/
theorem gate_agrees_iff (P : Primitives) (n : Node) (now : Int) (publicKey : Bytes) :
    ((n.slotRank P now publicKey).isSome ↔ n.acceptsProposer P now publicKey) ↔
      ∃ snapshot, n.chain.snapshotForHeight n.chain.accounts n.nextHeight = some snapshot ∧
        (n.storedSnapshot = some snapshot ∨
          slotLeaderAtRank P snapshot n.nextHeight n.chain.latestBlock.hash 0 =
            some (addressBytesFromPublicKey P publicKey) ∨
          ∀ rank, 0 < rank → rank ≤ Blockchain.allowedBackupRankForHeight n.nextHeight
              n.chain.latestBlock.header.timestamp now snapshot.validators.length →
            slotLeaderAtRank P snapshot n.nextHeight n.chain.latestBlock.hash rank ≠
              some (addressBytesFromPublicKey P publicKey)) := by
  cases hsnapshot : n.chain.snapshotForHeight n.chain.accounts n.nextHeight with
  | none =>
    -- nobody leads, and everybody is accepted
    have haccepts : n.acceptsProposer P now publicKey :=
      Blockchain.authorizeProposer_of_no_snapshot (Nat.succ_pos _) hsnapshot
    have hrank : ¬ (n.slotRank P now publicKey).isSome := by
      simp only [slotRank, isSome_rankOf, Blockchain.slotLeaderAddress]
      rw [hsnapshot]
      simp
    constructor
    · intro hagree
      exact absurd (hagree.mpr haccepts) hrank
    · intro h
      obtain ⟨_, h, -⟩ := h
      exact absurd h (by simp)
  | some snapshot =>
    rw [isSome_slotRank hsnapshot]
    simp only [acceptsProposer]
    rw [Blockchain.authorizeProposer_eq_ok hsnapshot]
    constructor
    · intro hagree
      refine ⟨snapshot, rfl, ?_⟩
      by_cases hstored : n.storedSnapshot = some snapshot
      · exact .inl hstored
      rw [gateRank_of_not_stored hsnapshot hstored] at hagree
      by_cases hprimary : slotLeaderAtRank P snapshot n.nextHeight n.chain.latestBlock.hash 0 =
          some (addressBytesFromPublicKey P publicKey)
      · exact .inr (.inl hprimary)
      · refine .inr (.inr ?_)
        intro rank _ hle hleader
        obtain ⟨rank', hle', hleader'⟩ := hagree.mpr ⟨rank, hle, hleader⟩
        rw [Nat.le_zero.mp hle'] at hleader'
        exact hprimary hleader'
    · intro h
      obtain ⟨snapshot', hsame, h⟩ := h
      cases hsame
      rcases h with hstored | hprimary | hnobackup
      · rw [gateRank_of_stored hstored]
      · exact ⟨fun _ => ⟨0, Nat.zero_le _, hprimary⟩, fun _ => ⟨0, Nat.zero_le _, hprimary⟩⟩
      · by_cases hstored : n.storedSnapshot = some snapshot
        · rw [gateRank_of_stored hstored]
        rw [gateRank_of_not_stored hsnapshot hstored]
        constructor
        · intro hall
          obtain ⟨rank, hle, hleader⟩ := hall
          exact ⟨rank, hle.trans (Nat.zero_le _), hleader⟩
        · intro hall
          obtain ⟨rank, hle, hleader⟩ := hall
          rcases Nat.eq_zero_or_pos rank with rfl | hpos
          · exact ⟨0, le_refl 0, hleader⟩
          · exact absurd hleader (hnobackup rank hpos hle)

end Node

namespace GateSample

open Scenario

/-- Block 1 of validator 3 on the genesis of three validators. -/
def node (c : Blockchain) : Option Node :=
  (extend c (clock 1) 3).map fun e => { chain := e.2, validatorKey := none, votes := [] }

end GateSample

open GateSample Scenario in
/-- In the first epoch, one minute after block 1: validation accepts validator 1 as a backup leader,
and its own gate does not let it build. -/
theorem backup_held_back : ∃ (c₀ : Blockchain) (n : Node),
    fromGenesis Reference.primitives DoubleVote.genesis = .ok c₀ ∧ node c₀ = some n ∧
      n.chain.latestBlock.header.timestamp ≤ clock 2 ∧
      n.acceptsProposer Reference.primitives (clock 2) (key 1).publicKey ∧
      n.slotRank Reference.primitives (clock 2) (key 1).publicKey = none := by
  have hrun : (fromGenesis Reference.primitives DoubleVote.genesis).toOption.any (fun c₀ =>
      (node c₀).any fun n => decide (n.chain.latestBlock.header.timestamp ≤ clock 2 ∧
        (n.chain.authorizeProposer Reference.primitives n.chain.accounts (key 1).publicKey n.nextHeight
          n.chain.latestBlock.hash n.chain.latestBlock.header.timestamp (clock 2)).toOption.any (fun _ => true) ∧
        n.slotRank Reference.primitives (clock 2) (key 1).publicKey = none)) = true := by
    decide +kernel
  obtain ⟨c₀, hc₀, hrest⟩ := Outcome.ok_of_any hrun
  obtain ⟨n, hn, hall⟩ := (Option.any_eq_true _ _).mp hrest
  obtain ⟨hclock, haccepts, hgate⟩ := of_decide_eq_true hall
  refine ⟨c₀, n, hc₀, hn, hclock, ?_, hgate⟩
  obtain ⟨_, haccepts, -⟩ := Outcome.ok_of_any haccepts
  exact haccepts

end Curs3d
