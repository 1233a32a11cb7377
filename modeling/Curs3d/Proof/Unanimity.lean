import Curs3d.Proof.Keys
import Curs3d.Proof.Tracker

/-!
# Unanimous votes

A proposer is elected from `snapshot_for_height`, votes are counted against the snapshot stored for
the epoch. The two differ where the stored snapshot is empty: `snapshot_for_height` then derives one
from the accounts, `add_finality_vote` does not. The snapshot of epoch `0` is such a one, since the
genesis validators become active at height `1`: no block of the first epoch is ever finalized.

Everywhere else unanimity finalizes. `Counting` is what a tracker knows of the votes for one block
that did not finalize it yet: once every validator has voted, the recorded stake is the total.
-/

set_option autoImplicit false

namespace Curs3d

open U64

/-! ## Counting the votes for one block -/

namespace FinalityTracker

variable {P : Primitives} {s : EpochSnapshot} {hash : Bytes} {height : Nat}
  {fed : List FinalityVote} {t : FinalityTracker} {vote : FinalityVote}

/-- The votes recorded under a hash. -/
def recorded (t : FinalityTracker) (hash : Bytes) : List FinalityVote := t.votes[hash]?.getD []

/-- The recorded stake reaches the threshold. -/
def Reaches (s : EpochSnapshot) (votes : List FinalityVote) : Prop :=
  satMul s.totalStake 2 ≤ satMul (votedStake s.validatorStakes votes) 3

/-- A correctly signed vote for the block `hash` at `height`, against `s`. -/
structure VotesFor (P : Primitives) (s : EpochSnapshot) (hash : Bytes) (height : Nat)
    (vote : FinalityVote) : Prop where
  hash : vote.blockHash = hash
  height : vote.blockHeight = height
  epoch : vote.epoch = s.epoch
  verify : vote.verify P = true

/-- A tracker that was fed votes for one block and has not finalized it. -/
structure Counting (s : EpochSnapshot) (hash : Bytes) (height : Nat) (fed : List FinalityVote)
    (t : FinalityTracker) : Prop where
  below : t.finalizedHeight < height
  nodup : ((t.recorded hash).map FinalityVote.voterPublicKey).Nodup
  voters : ∀ publicKey, publicKey ∈ (t.recorded hash).map FinalityVote.voterPublicKey ↔
    publicKey ∈ fed.map FinalityVote.voterPublicKey ∧
      publicKey ∈ s.validators.map Validator.publicKey
  seen : ∀ publicKey, (publicKey, height) ∈ t.seenVotes ↔
    publicKey ∈ (t.recorded hash).map FinalityVote.voterPublicKey
  short : t.recorded hash = [] ∨ ¬ Reaches s (t.recorded hash)

theorem counting_fresh (hheight : 0 < height) : Counting s hash height [] {} := by
  refine ⟨hheight, ?_, ?_, ?_, .inl ?_⟩ <;> simp [recorded]

theorem mem_validatorStakes {publicKey : Bytes} :
    publicKey ∈ s.validatorStakes ↔ publicKey ∈ s.validators.map Validator.publicKey := by
  constructor
  · intro h
    by_contra hnot
    rw [EpochSnapshot.validatorStakes, Std.ExtTreeMap.mem_iff_isSome_getElem?,
      KeyMap.getElem?_foldl_insert_of_notMem Validator.publicKey Validator.stake _ _ hnot] at h
    simp at h
  · intro h
    obtain ⟨stake, hstake⟩ : ∃ stake, s.validatorStakes[publicKey]? = some stake := by
      rw [EpochSnapshot.validatorStakes]
      exact KeyMap.getElem?_foldl_insert_isSome Validator.publicKey Validator.stake _ _ h
    rw [Std.ExtTreeMap.mem_iff_isSome_getElem?, hstake]
    rfl

theorem recorded_recordVote : (t.recordVote vote).recorded vote.blockHash =
    t.recorded vote.blockHash ++ [vote] := by
  simp [recorded, recordVote]

/-- A vote that finalizes nothing is counted. -/
theorem Counting.addVote (h : Counting s hash height fed t) (hvote : VotesFor P s hash height vote)
    (htotal : s.totalStake ≠ 0) :
    (t.addVote P vote s).2 = some { hash, height } ∨
      ((t.addVote P vote s).2 = none ∧
        Counting s hash height (fed ++ [vote]) (t.addVote P vote s).1) := by
  obtain ⟨rfl, rfl, hepoch, hverify⟩ := hvote
  -- a vote that leaves the record as it was: of no validator, or of one already recorded
  have hsame : (vote.voterPublicKey ∈ s.validators.map Validator.publicKey →
      vote.voterPublicKey ∈ (t.recorded vote.blockHash).map FinalityVote.voterPublicKey) →
      Counting s vote.blockHash vote.blockHeight (fed ++ [vote]) t := by
    intro hold
    refine ⟨h.below, h.nodup, ?_, h.seen, h.short⟩
    intro publicKey
    rw [h.voters]
    simp only [List.map_append, List.map_singleton, List.mem_append, List.mem_singleton]
    constructor
    · rintro ⟨hfed, hmem⟩
      exact ⟨.inl hfed, hmem⟩
    · rintro ⟨hfed | rfl, hmem⟩
      · exact ⟨hfed, hmem⟩
      · exact (h.voters _).mp (hold hmem)
  have hbelow : ¬ vote.blockHeight ≤ t.finalizedHeight := Nat.not_le.mpr h.below
  simp only [FinalityTracker.addVote, hverify, Bool.not_true, Bool.false_eq_true, if_false, hepoch,
    ne_eq, not_true_eq_false, hbelow]
  split
  · next hnot =>
    refine .inr ⟨rfl, hsame ?_⟩
    intro hmem
    exact absurd (mem_validatorStakes.mpr hmem) hnot
  next hmember =>
  split
  · next hseen => exact .inr ⟨rfl, hsame fun _ => (h.seen _).mp hseen⟩
  next hunseen =>
  have hfresh : vote.voterPublicKey ∉
      (t.recorded vote.blockHash).map FinalityVote.voterPublicKey := by
    intro hmem
    exact hunseen ((h.seen _).mpr hmem)
  split
  · next hany =>
    obtain ⟨v, hv, hkey⟩ := List.any_eq_true.mp hany
    exact absurd (List.mem_map.mpr ⟨v, hv, by simpa using hkey⟩) hfresh
  have hrec : (t.recordVote vote).votes[vote.blockHash]?.getD [] =
      t.recorded vote.blockHash ++ [vote] := recorded_recordVote
  rw [hrec]
  split
  · exact .inl rfl
  · next hshort =>
    refine .inr ⟨rfl, h.below, ?_, ?_, ?_, .inr ?_⟩
    · rw [recorded_recordVote, List.map_append, List.map_singleton, List.nodup_append]
      refine ⟨h.nodup, by simp, ?_⟩
      intro a ha b hb
      rw [List.mem_singleton] at hb
      subst hb
      intro heq
      exact hfresh (heq ▸ ha)
    · intro publicKey
      rw [recorded_recordVote]
      simp only [List.map_append, List.map_singleton, List.mem_append, List.mem_singleton, h.voters]
      constructor
      · rintro (⟨hfed, hmem⟩ | rfl)
        · exact ⟨.inl hfed, hmem⟩
        · exact ⟨.inr rfl, mem_validatorStakes.mp (by simpa using hmember)⟩
      · rintro ⟨hfed | rfl, hmem⟩
        · exact .inl ⟨hfed, hmem⟩
        · exact .inr rfl
    · intro publicKey
      rw [recorded_recordVote]
      simp only [recordVote, Finset.mem_insert, Prod.mk.injEq, and_true, h.seen, List.map_append,
        List.map_singleton, List.mem_append, List.mem_singleton]
      exact or_comm
    · rw [recorded_recordVote]
      exact hshort

/-- The stakes of the voters are those of the validators, in another order. -/
theorem votedStake_of_perm (hkeys : (s.validators.map Validator.publicKey).Nodup)
    {votes : List FinalityVote}
    (hperm : (votes.map FinalityVote.voterPublicKey).Perm
      (s.validators.map Validator.publicKey)) :
    votedStake s.validatorStakes votes = totalStakeOf s.validators := by
  have hleft : votes.filterMap (fun v => s.validatorStakes[v.voterPublicKey]?) =
      (votes.map FinalityVote.voterPublicKey).filterMap fun pk => s.validatorStakes[pk]? := by
    rw [List.filterMap_map]
    rfl
  have hright : (s.validators.map Validator.publicKey).filterMap (fun pk => s.validatorStakes[pk]?) =
      s.validators.map Validator.stake := by
    rw [List.filterMap_map, ← List.filterMap_eq_map]
    apply List.filterMap_congr
    intro v hv
    exact KeyMap.getElem?_foldl_insert_of_mem Validator.publicKey Validator.stake _ _ hkeys hv
  rw [votedStake, totalStakeOf, hleft, ← hright]
  exact wrapSum_perm (hperm.filterMap _)

/-- **Once every validator has voted, the block is finalized.** -/
theorem Counting.absurd_of_unanimous (h : Counting s hash height fed t)
    (hkeys : (s.validators.map Validator.publicKey).Nodup)
    (htotal : s.totalStake = totalStakeOf s.validators) (hne : s.validators ≠ [])
    (hall : ∀ v ∈ s.validators, v.publicKey ∈ fed.map FinalityVote.voterPublicKey) : False := by
  have hperm : ((t.recorded hash).map FinalityVote.voterPublicKey).Perm
      (s.validators.map Validator.publicKey) := by
    refine (List.perm_ext_iff_of_nodup h.nodup hkeys).mpr ?_
    intro publicKey
    rw [h.voters]
    constructor
    · exact And.right
    · intro hmem
      obtain ⟨v, hv, rfl⟩ := List.mem_map.mp hmem
      exact ⟨hall v hv, hmem⟩
  obtain hnil | hshort := h.short
  · rw [hnil, List.map_nil, List.nil_perm, List.map_eq_nil_iff] at hperm
    exact hne hperm
  · apply hshort
    rw [Reaches, votedStake_of_perm hkeys hperm, htotal]
    simp only [satMul]
    omega

end FinalityTracker

/-! ## Unanimous votes on a chain -/

namespace Blockchain

variable {P : Primitives} {g : GenesisConfig} {c c₀ : Blockchain} {now : Int} {block b : Block}
  {height : Nat} {votes : List FinalityVote}

/-- The calls of `add_finality_vote`, one after the other: what they return, and the chain they
leave. -/
def castVotes (P : Primitives) : Blockchain → List FinalityVote →
    List (Option FinalizedBlock) × Blockchain
  | c, [] => ([], c)
  | c, vote :: rest =>
    let cast := c.addFinalityVote P vote
    let later := castVotes P cast.2 rest
    (cast.1 :: later.1, later.2)

/-- One of the calls returns `Some`, and the finalized height gets to `height`. -/
def Finalizes (P : Primitives) (c : Blockchain) (votes : List FinalityVote) (height : Nat) : Prop :=
  (∃ result ∈ (c.castVotes P votes).1, result.isSome = true) ∧
    height ≤ (c.castVotes P votes).2.finalityTracker.finalizedHeight

/-- A correctly signed vote for `b`, with its height and epoch. -/
structure VoteFor (P : Primitives) (c : Blockchain) (b : Block) (vote : FinalityVote) : Prop where
  hash : vote.blockHash = b.hash
  height : vote.blockHeight = b.header.height
  epoch : vote.epoch = c.epochForHeight b.header.height
  verify : vote.verify P = true

/-- Votes for `b` count: the snapshot stored for its epoch has validators and a stake, and the tree
holds `b` at its height on the canonical chain. -/
structure CountsVotesFor (c : Blockchain) (b : Block) (s : EpochSnapshot) : Prop where
  stored : c.epochSnapshots[c.epochForHeight b.header.height]? = some s
  validators : s.validators ≠ []
  stake : s.totalStake ≠ 0
  held : ∃ held, c.blockTree.get b.hash = some held ∧ held.header.height = b.header.height
  canonical : c.blockTree.isOnCanonicalChain b.hash = true

theorem VoteFor.votableSnapshot {vote : FinalityVote} {s : EpochSnapshot} (h : VoteFor P c b vote) :
    c.votableSnapshot vote = some s ↔
      c.epochSnapshots[c.epochForHeight b.header.height]? = some s ∧
        (∃ held, c.blockTree.get b.hash = some held ∧ held.header.height = b.header.height) ∧
        c.blockTree.isOnCanonicalChain b.hash = true := by
  obtain ⟨hhash, hheight, hepoch, -⟩ := h
  simp only [Blockchain.votableSnapshot, hhash, hheight, hepoch]
  cases c.blockTree.get b.hash with
  | none => simp
  | some held =>
    by_cases hh : held.header.height = b.header.height
    · cases c.blockTree.isOnCanonicalChain b.hash <;> simp [hh]
    · simp [hh]

/-- The finalized height only rises. -/
theorem finalizedHeight_le_addFinalityVote (vote : FinalityVote) :
    c.finalityTracker.finalizedHeight ≤
      (c.addFinalityVote P vote).2.finalityTracker.finalizedHeight := by
  obtain h | ⟨snapshot, -, ⟨tracker, hadd, h⟩ | ⟨tracker, finalized, hadd, h⟩⟩ :=
    addFinalityVote_cases P c vote
  · rw [h]
  · rw [h]
    exact (FinalityTracker.finalized_of_addVote_none hadd).1.ge
  · obtain ⟨hlt, -, hheight, -⟩ := FinalityTracker.finalized_of_addVote_some hadd
    have htracker : (c.addFinalityVote P vote).2.finalityTracker = tracker := by
      rw [h]
      exact congrArg Spine.finalityTracker (maybePruneFinalized_spine _)
    rw [htracker, hheight]
    exact hlt.le

theorem finalizedHeight_le_castVotes :
    c.finalityTracker.finalizedHeight ≤
      (c.castVotes P votes).2.finalityTracker.finalizedHeight := by
  induction votes generalizing c with
  | nil => exact le_rfl
  | cons vote rest ih => exact (finalizedHeight_le_addFinalityVote vote).trans ih

/-- Until one finalizes, the votes change nothing but the tracker. -/
theorem addFinalityVote_none {vote : FinalityVote} (h : (c.addFinalityVote P vote).1 = none) :
    ∃ tracker, (c.addFinalityVote P vote).2 = { c with finalityTracker := tracker } := by
  obtain hsame | ⟨snapshot, -, ⟨tracker, -, hnone⟩ | ⟨tracker, finalized, -, hsome⟩⟩ :=
    addFinalityVote_cases P c vote
  · exact ⟨c.finalityTracker, by rw [hsame]⟩
  · exact ⟨tracker, by rw [hnone]⟩
  · rw [hsome] at h
    cases h

/-- A call that returns `Some` counted against a stored snapshot with stake in it. -/
theorem addFinalityVote_some {vote : FinalityVote} (hvote : VoteFor P c b vote)
    (hstored : ∀ s, c.epochSnapshots[c.epochForHeight b.header.height]? = some s →
      s.totalStake = totalStakeOf s.validators)
    (h : (c.addFinalityVote P vote).1.isSome = true) : ∃ s, CountsVotesFor c b s := by
  obtain hsame | ⟨s, hs, ⟨tracker, -, hnone⟩ | ⟨tracker, finalized, hadd, -⟩⟩ :=
    addFinalityVote_cases P c vote
  · rw [hsame] at h
    cases h
  · rw [hnone] at h
    cases h
  · obtain ⟨hsnapshot, hheld, hcanonical⟩ := hvote.votableSnapshot.mp hs
    have hpos : 0 < s.totalStake := by
      obtain ⟨-, -, -, hn⟩ | ⟨-, -, -, ⟨-, hn⟩ | ⟨hpos, -⟩⟩ := FinalityTracker.addVote_cases hadd
      · cases hn
      · cases hn
      · exact hpos
    refine ⟨s, hsnapshot, ?_, hpos.ne', hheld, hcanonical⟩
    intro hnil
    rw [hstored s hsnapshot, hnil] at hpos
    exact absurd hpos (by decide)

/-- So does a run of calls one of which returns `Some`. -/
theorem castVotes_some (hvotes : ∀ vote ∈ votes, VoteFor P c b vote)
    (hstored : ∀ s, c.epochSnapshots[c.epochForHeight b.header.height]? = some s →
      s.totalStake = totalStakeOf s.validators)
    (h : ∃ result ∈ (c.castVotes P votes).1, result.isSome = true) :
    ∃ s, CountsVotesFor c b s := by
  induction votes generalizing c with
  | nil => simp [castVotes] at h
  | cons vote rest ih =>
    have hvote := hvotes vote (by simp)
    cases hcast : (c.addFinalityVote P vote).1 with
    | some f => exact addFinalityVote_some hvote hstored (by rw [hcast]; rfl)
    | none =>
      obtain ⟨tracker, hchain⟩ := addFinalityVote_none hcast
      simp only [castVotes, List.mem_cons, hcast, hchain] at h
      obtain ⟨result, rfl | hmem, hsome⟩ := h
      · cases hsome
      · obtain ⟨s, hs⟩ := ih (c := { c with finalityTracker := tracker })
          (fun v hv => ⟨(hvotes v (by simp [hv])).hash, (hvotes v (by simp [hv])).height,
            (hvotes v (by simp [hv])).epoch, (hvotes v (by simp [hv])).verify⟩)
          hstored ⟨result, hmem, hsome⟩
        exact ⟨s, hs.stored, hs.validators, hs.stake, hs.held, hs.canonical⟩

/-- Votes of all validators of a snapshot that counts them finalize `b`. -/
theorem castVotes_unanimous {s : EpochSnapshot} {fed : List FinalityVote}
    (hcount : CountsVotesFor c b s) (hepoch : s.epoch = c.epochForHeight b.header.height)
    (hkeys : (s.validators.map Validator.publicKey).Nodup)
    (htotal : s.totalStake = totalStakeOf s.validators)
    (hcounting : FinalityTracker.Counting s b.hash b.header.height fed c.finalityTracker)
    (hvotes : ∀ vote ∈ votes, VoteFor P c b vote)
    (hall : ∀ v ∈ s.validators, v.publicKey ∈ (fed ++ votes).map FinalityVote.voterPublicKey) :
    c.Finalizes P votes b.header.height := by
  induction votes generalizing c fed with
  | nil =>
    rw [List.append_nil] at hall
    exact (hcounting.absurd_of_unanimous hkeys htotal hcount.validators hall).elim
  | cons vote rest ih =>
    have hvote := hvotes vote (by simp)
    have hs : c.votableSnapshot vote = some s :=
      hvote.votableSnapshot.mpr ⟨hcount.stored, hcount.held, hcount.canonical⟩
    have hfor : FinalityTracker.VotesFor P s b.hash b.header.height vote :=
      ⟨hvote.hash, hvote.height, hvote.epoch.trans hepoch.symm, hvote.verify⟩
    cases hadd : c.finalityTracker.addVote P vote s with
    | mk tracker result =>
      have hstep := hcounting.addVote hfor hcount.stake
      rw [hadd] at hstep
      obtain rfl | ⟨rfl, hcounting'⟩ := hstep
      · -- this vote finalizes `b`; what comes later cannot lower the height
        have hcast : c.addFinalityVote P vote = (some ⟨b.hash, b.header.height⟩,
            { c with
              finalityTracker := tracker
              blockTree := c.blockTree.setFinalized b.hash b.header.height
            }.maybePruneFinalized b.header.height) := by
          simp only [addFinalityVote, hs, hadd]
        have htracker : (c.addFinalityVote P vote).2.finalityTracker = tracker := by
          rw [hcast]
          exact congrArg Spine.finalityTracker (maybePruneFinalized_spine _)
        have hheight : b.header.height =
            (c.addFinalityVote P vote).2.finalityTracker.finalizedHeight := by
          rw [htracker, (FinalityTracker.finalized_of_addVote_some hadd).2.2.1, hvote.height]
        refine ⟨⟨some ⟨b.hash, b.header.height⟩, ?_, rfl⟩, ?_⟩
        · simp [castVotes, hcast]
        · rw [hheight]
          exact finalizedHeight_le_castVotes
      · have hcast : c.addFinalityVote P vote = (none, { c with finalityTracker := tracker }) := by
          simp only [addFinalityVote, hs, hadd]
        obtain ⟨⟨result, hmem, hsome⟩, hheight⟩ := ih
          (c := { c with finalityTracker := tracker })
          ⟨hcount.stored, hcount.validators, hcount.stake, hcount.held, hcount.canonical⟩
          hepoch hcounting'
          (fun v hv => ⟨(hvotes v (by simp [hv])).hash, (hvotes v (by simp [hv])).height,
            (hvotes v (by simp [hv])).epoch, (hvotes v (by simp [hv])).verify⟩)
          (by simpa using hall)
        simp only [Finalizes, castVotes, hcast]
        exact ⟨⟨result, List.mem_cons_of_mem _ hmem, hsome⟩, hheight⟩

/-! ## The snapshots of a chain that no vote has reached -/

theorem addBlock_genesisConfig : (c.addBlock P now block).2.genesisConfig = c.genesisConfig := by
  obtain ⟨e, he⟩ | ⟨s, -, hok⟩ := addBlock_cases P c now block
  · rw [he, prepareEpoch_genesisConfig]
  · rw [hok, commitBlock_genesisConfig, prepareEpoch_genesisConfig]

theorem offer_genesisConfig {calls : List (Int × Block)} :
    (Blockchain.offer P c calls).genesisConfig = c.genesisConfig := by
  induction calls generalizing c with
  | nil => rfl
  | cons call rest ih => exact ih.trans addBlock_genesisConfig

/-- What blocks alone make of a chain: a snapshot for every epoch up to the tip's, each of
validators with keys of their own, and a tracker that saw no vote. -/
structure Voteless (P : Primitives) (c : Blockchain) : Prop where
  straight : c.Straight
  known : ∀ e ≤ c.epochForHeight c.height, e ∈ c.epochSnapshots
  keys : OwnKeys P c.accounts
  stored : ∀ (e : Nat) (s : EpochSnapshot), c.epochSnapshots[e]? = some s → s.epoch = e ∧
    s.totalStake = totalStakeOf s.validators ∧ (s.validators.map Validator.publicKey).Nodup
  tracker : c.finalityTracker = {}

theorem stored_snapshotForAccounts (h : OwnKeys P c.accounts) (epoch : Nat) :
    let s := c.snapshotForAccounts epoch c.accounts
    s.epoch = epoch ∧ s.totalStake = totalStakeOf s.validators ∧
      (s.validators.map Validator.publicKey).Nodup :=
  ⟨rfl, rfl, h.nodup_activeValidators⟩

theorem voteless_genesis (h : fromGenesis P g = .ok c) : Voteless P c := by
  obtain ⟨accounts, -, hrec⟩ := recomputes_genesis h 0
  refine ⟨hrec.straight, hrec.known, ownKeys_genesis h, ?_, ?_⟩
  · have hown := ownKeys_genesis h
    simp only [fromGenesis, Outcome.except_bind_eq_ok] at h
    obtain ⟨accounts, -, hc⟩ := h
    cases hc
    intro e s hs
    rw [KeyMap.getElem?_insert_eq] at hs
    split at hs
    · next he =>
      cases hs
      exact ⟨he, rfl, hown.nodup_activeValidators⟩
    · simp at hs
  · simp only [fromGenesis, Outcome.except_bind_eq_ok] at h
    obtain ⟨accounts, -, hc⟩ := h
    cases hc
    rfl

/-- Accepted or refused, a block stores at most the snapshot of its own epoch. -/
theorem addBlock_epochSnapshots_eq : (c.addBlock P now block).2.epochSnapshots =
    (c.ensureEpochSnapshot block.header.height).epochSnapshots := by
  obtain ⟨e, he⟩ | ⟨s, hs, hok⟩ := addBlock_cases P c now block
  · rw [he, prepareEpoch_eq]
  · rw [hok, (commitBlock_epochSnapshots _ _ _).1, prepareEpoch_eq]

theorem Voteless.addBlock (h : Voteless P c) : Voteless P (c.addBlock P now block).2 := by
  have hstored : ∀ (e : Nat) (s : EpochSnapshot),
      (c.addBlock P now block).2.epochSnapshots[e]? = some s → s.epoch = e ∧
      s.totalStake = totalStakeOf s.validators ∧
        (s.validators.map Validator.publicKey).Nodup := by
    intro e s hs
    rw [addBlock_epochSnapshots_eq] at hs
    simp only [ensureEpochSnapshot] at hs
    split at hs
    · simp only [createEpochSnapshotFromAccounts, KeyMap.getElem?_insert_eq] at hs
      split at hs
      · next he =>
        cases hs
        rw [← he]
        exact stored_snapshotForAccounts h.keys _
      · exact h.stored e s hs
    · exact h.stored e s hs
  cases hres : (c.addBlock P now block).1 with
  -- A refused block may still have stored a snapshot, which is why `stored` came first.
  | error e =>
    have hspine := addBlock_error_spine hres
    have hconfig : (c.addBlock P now block).2.genesisConfig = c.genesisConfig :=
      addBlock_genesisConfig
    have hheight : (c.addBlock P now block).2.height = c.height := by
      simp only [Blockchain.height, blockCount]
      rw [show (c.addBlock P now block).2.blocks = c.blocks from congrArg Spine.blocks hspine]
    refine ⟨h.straight.of_spine hspine, ?_, ownKeys_addBlock h.keys, hstored, ?_⟩
    · intro e he
      rw [epochForHeight_congr hconfig, hheight] at he
      rw [addBlock_epochSnapshots_eq]
      exact mem_ensureEpochSnapshot (h.known e he)
    · rw [show (c.addBlock P now block).2.finalityTracker = c.finalityTracker from
        congrArg Spine.finalityTracker hspine]
      exact h.tracker
  | ok _ =>
    obtain ⟨s, ha⟩ := accepted_of_addBlock hres
    obtain ⟨hst, -, -, hheight, hblock⟩ := h.straight.addBlock hres
    refine ⟨hst, ?_, ownKeys_addBlock h.keys, hstored, ?_⟩
    · intro e he
      rw [epochForHeight_congr ha.config, hheight] at he
      rw [addBlock_epochSnapshots_eq, hblock]
      exact mem_ensureEpochSnapshot_next h.known he
    · obtain ⟨-, stake, hspine⟩ := addBlock_ok_spine hres
      rw [show (c.addBlock P now block).2.finalityTracker = c.finalityTracker from
        congrArg Spine.finalityTracker hspine]
      exact h.tracker

theorem Voteless.offer (h : Voteless P c) (calls : List (Int × Block)) :
    Voteless P (Blockchain.offer P c calls) := by
  induction calls generalizing c with
  | nil => exact h
  | cons call rest ih => exact ih h.addBlock

theorem offer_epochSnapshots {calls : List (Int × Block)} {e : Nat} (he : e ∈ c.epochSnapshots) :
    (Blockchain.offer P c calls).epochSnapshots[e]? = c.epochSnapshots[e]? := by
  induction calls generalizing c with
  | nil => rfl
  | cons call rest ih =>
    have hone : (c.addBlock P call.1 call.2).2.epochSnapshots[e]? = c.epochSnapshots[e]? := by
      rw [addBlock_epochSnapshots_eq]
      exact ensureEpochSnapshot_of_mem he
    rw [← hone]
    apply ih
    rw [Std.ExtTreeMap.mem_iff_isSome_getElem?, hone]
    exact Std.ExtTreeMap.mem_iff_isSome_getElem?.mp he

/-! ## The validators that elected the proposer -/

/-- `snapshot_for_height` when `b` was accepted, on its way into `calls`. -/
def ElectedBy (P : Primitives) (c₀ : Blockchain) (calls : List (Int × Block)) (b : Block)
    (s : EpochSnapshot) : Prop :=
  ∃ before now after, calls = before ++ (now, b) :: after ∧
    ((Blockchain.offer P c₀ before).addBlock P now b).1 = .ok () ∧
    ((Blockchain.offer P c₀ before).prepareEpoch P b.header.height).snapshotForHeight
      ((Blockchain.offer P c₀ before).prepareEpoch P b.header.height).accounts b.header.height =
        some s

/-- Every canonical block above the genesis was accepted in one of the calls. -/
theorem canonical_accepted {calls : List (Int × Block)} (hstart : fromGenesis P g = .ok c₀)
    (hpos : 0 < height)
    (hb : (Blockchain.offer P c₀ calls).blockAtHeight height = some b) :
    b.header.height = height ∧ ∃ before now after, calls = before ++ (now, b) :: after ∧
      ((Blockchain.offer P c₀ before).addBlock P now b).1 = .ok () := by
  have hgenesis := voteless_genesis hstart
  rw [(hgenesis.offer calls).straight.blockAtHeight] at hb
  refine ⟨(hgenesis.offer calls).straight.heights hb, ?_⟩
  induction calls using List.reverseRecOn with
  | nil =>
    have hlen := (List.getElem?_eq_some_iff.mp hb).1
    rw [show (Blockchain.offer P c₀ []).blocks = c₀.blocks from rfl,
      (blocks_of_genesis hstart).1] at hlen
    simp at hlen
    omega
  | append_singleton calls call ih =>
    rw [offer_append] at hb
    set c := Blockchain.offer P c₀ calls with hc
    have hone : Blockchain.offer P c [call] = (c.addBlock P call.1 call.2).2 := rfl
    rw [hone] at hb
    have hlift : c.blocks[height]? = some b → ∃ before now after,
        calls ++ [call] = before ++ (now, b) :: after ∧
          ((Blockchain.offer P c₀ before).addBlock P now b).1 = .ok () := by
      intro hold
      obtain ⟨before, now, after, rfl, hok⟩ := ih hold
      exact ⟨before, now, after ++ [call], by simp, hok⟩
    cases hres : (c.addBlock P call.1 call.2).1 with
    | error e =>
      rw [show (c.addBlock P call.1 call.2).2.blocks = c.blocks from
        congrArg Spine.blocks (addBlock_error_spine hres)] at hb
      exact hlift hb
    | ok _ =>
      rw [((hgenesis.offer calls).straight.addBlock hres).2.1] at hb
      -- The block was there before the last call, or it is what the last call appended.
      rcases Nat.lt_or_ge height c.blocks.length with hlt | hge
      · rw [List.getElem?_append_left hlt] at hb
        exact hlift hb
      · rw [List.getElem?_append_right hge, List.getElem?_singleton] at hb
        split at hb
        · cases hb
          exact ⟨calls, call.1, [], rfl, hres⟩
        · cases hb

/-- Where the stored snapshot has validators, they elected the proposer. -/
theorem ElectedBy.eq_stored {calls : List (Int × Block)} {s stored : EpochSnapshot}
    (hstart : Voteless P c₀) (h : ElectedBy P c₀ calls b s)
    (hstored : (Blockchain.offer P c₀ calls).epochSnapshots[
      (Blockchain.offer P c₀ calls).epochForHeight b.header.height]? = some stored)
    (hne : stored.validators ≠ []) : s = stored := by
  obtain ⟨before, now, after, rfl, hok, helected⟩ := h
  set c := Blockchain.offer P c₀ before with hc
  have hpre : Voteless P c := hstart.offer _
  obtain ⟨t, ha⟩ := accepted_of_addBlock hok
  obtain ⟨-, -, -, hheight, hblock⟩ := hpre.straight.addBlock hok
  have hepoch : (Blockchain.offer P c₀ (before ++ (now, b) :: after)).epochForHeight
      b.header.height = c.epochForHeight b.header.height :=
    epochForHeight_congr (offer_genesisConfig.trans offer_genesisConfig.symm) _
  have hmem : c.epochForHeight b.header.height ∈
      (c.addBlock P now b).2.epochSnapshots := by
    rw [addBlock_epochSnapshots_eq, hblock]
    exact mem_ensureEpochSnapshot_next hpre.known le_rfl
  -- the snapshot stored when `b` was prepared is the one stored now
  have hthen : (c.prepareEpoch P b.header.height).epochSnapshots[
      c.epochForHeight b.header.height]? = some stored := by
    rw [← hstored, hepoch, offer_append]
    show _ = (Blockchain.offer P (c.addBlock P now b).2 after).epochSnapshots[
      c.epochForHeight b.header.height]?
    rw [offer_epochSnapshots hmem, addBlock_epochSnapshots_eq, prepareEpoch_eq]
  have hread : (c.prepareEpoch P b.header.height).epochForHeight b.header.height =
      c.epochForHeight b.header.height :=
    epochForHeight_congr (prepareEpoch_genesisConfig _) _
  simp only [snapshotForHeight, hread, hthen, List.isEmpty_iff, hne, if_false] at helected
  exact (Option.some.inj helected).symm

/-- **When unanimity finalizes.** On every chain that blocks alone lead to, votes for a canonical
block by all the validators that elected its proposer finalize it exactly where votes for it
count. -/
theorem unanimous_votes_finalize_iff {calls : List (Int × Block)} {s : EpochSnapshot}
    (hstart : fromGenesis P g = .ok c₀) (hc : c = Blockchain.offer P c₀ calls)
    (helected : ElectedBy P c₀ calls b s) (hvotes : ∀ vote ∈ votes, VoteFor P c b vote)
    (hall : ∀ v ∈ s.validators, ∃ vote ∈ votes, vote.voterPublicKey = v.publicKey) :
    c.Finalizes P votes b.header.height ↔ ∃ stored, CountsVotesFor c b stored := by
  have hgenesis := voteless_genesis hstart
  have hvoteless : Voteless P c := by
    rw [hc]
    exact hgenesis.offer calls
  constructor
  · intro h
    exact castVotes_some hvotes (fun stored hs => (hvoteless.stored _ stored hs).2.1) h.1
  · rintro ⟨stored, hcount⟩
    obtain ⟨hepoch, htotal, hkeys⟩ := hvoteless.stored _ stored hcount.stored
    obtain rfl : s = stored := by
      have hstored := hcount.stored
      rw [hc] at hstored
      exact helected.eq_stored hgenesis hstored hcount.validators
    have hpos : 0 < b.header.height := by
      obtain ⟨before, now, after, -, hok, -⟩ := helected
      obtain ⟨-, -, -, -, hblock⟩ := (hgenesis.offer before).straight.addBlock hok
      omega
    have hfresh : FinalityTracker.Counting s b.hash b.header.height [] c.finalityTracker := by
      rw [hvoteless.tracker]
      exact FinalityTracker.counting_fresh hpos
    refine castVotes_unanimous hcount hepoch hkeys htotal hfresh hvotes ?_
    intro v hv
    obtain ⟨vote, hmem, hkey⟩ := hall v hv
    rw [List.nil_append, ← hkey]
    exact List.mem_map_of_mem hmem

end Blockchain

namespace UnanimitySample

open Scenario

/-- One validator, and epochs of two blocks. -/
def genesis : GenesisConfig where
  chainId := [1]
  minimumStake := 1
  epochLength := 2
  allocations := [allocation 1 0 1]

def steps : List (Int × UInt8) := [(clock 1, 1), (clock 2, 1)]

/-- The vote of validator 1 for `b`. -/
def vote (c : Blockchain) (b : Block) : FinalityVote :=
  FinalityVote.new Reference.primitives b.hash b.header.height
    (c.epochForHeight b.header.height) (key 1)

theorem voteFor (c : Blockchain) (b : Block) :
    Blockchain.VoteFor Reference.primitives c b (vote c b) :=
  ⟨rfl, rfl, rfl, Reference.verify_sign _ _⟩

/-- The chain that accepts the blocks of `script`, one after the other. -/
def snapshotBefore (c₀ : Blockchain) (before : List (Int × Block)) (b : Block) :
    Option EpochSnapshot :=
  let prepared :=
    (Blockchain.offer Reference.primitives c₀ before).prepareEpoch Reference.primitives
      b.header.height
  prepared.snapshotForHeight prepared.accounts b.header.height

/-- The validators that elected the proposer of block `n + 1` have all voted. -/
def allVoted (c₀ : Blockchain) (calls : List (Int × Block)) (n : Nat) : Bool :=
  calls[n]?.any fun call => (snapshotBefore c₀ (calls.take n) call.2).any fun s =>
    decide (∀ v ∈ s.validators, v.publicKey = (key 1).publicKey)

/-- The vote finalizes block `n + 1`. -/
def finalized (c₀ : Blockchain) (calls : List (Int × Block)) (n : Nat) : Bool :=
  let c := Blockchain.offer Reference.primitives c₀ calls
  calls[n]?.any fun call =>
    decide (call.2.header.height ≤
      (c.castVotes Reference.primitives [vote c call.2]).2.finalityTracker.finalizedHeight)

/-- What the theorem asks of block `n + 1`, with the snapshot that elected its proposer. -/
theorem electedBy_of_allVoted {c₀ : Blockchain} {calls : List (Int × Block)} {n : Nat}
    {call : Int × Block} (hok : c₀.Accepts Reference.primitives calls)
    (hcall : calls[n]? = some call) (hvoted : allVoted c₀ calls n = true) :
    ∃ s, Blockchain.ElectedBy Reference.primitives c₀ calls call.2 s ∧
      ∀ v ∈ s.validators, (key 1).publicKey = v.publicKey := by
  simp only [allVoted, hcall, Option.any_some] at hvoted
  obtain ⟨s, hs, hkeys⟩ := (Option.any_eq_true _ _).mp hvoted
  rw [decide_eq_true_eq] at hkeys
  have hsplit : calls = calls.take n ++ call :: calls.drop (n + 1) := by
    obtain ⟨hlt, rfl⟩ := List.getElem?_eq_some_iff.mp hcall
    rw [← List.drop_eq_getElem_cons hlt, List.take_append_drop]
  rw [hsplit, Blockchain.accepts_append] at hok
  exact ⟨s, ⟨calls.take n, call.1, calls.drop (n + 1), hsplit, hok.2.1, hs⟩,
    fun v hv => (hkeys v hv).symm⟩

end UnanimitySample

open UnanimitySample Scenario Blockchain in
/-- Block 2 opens epoch 1, and the one vote there is finalizes it. -/
theorem unanimous_votes_finalize_sample : ∃ c₀ calls b s,
    fromGenesis Reference.primitives genesis = .ok c₀ ∧
      ElectedBy Reference.primitives c₀ calls b s ∧
      ((offer Reference.primitives c₀ calls).Finalizes Reference.primitives
          [vote (offer Reference.primitives c₀ calls) b] b.header.height ↔
        ∃ stored, CountsVotesFor (offer Reference.primitives c₀ calls) b stored) ∧
      b.header.height ≤ ((offer Reference.primitives c₀ calls).castVotes Reference.primitives
        [vote (offer Reference.primitives c₀ calls) b]).2.finalityTracker.finalizedHeight := by
  have hrun : (fromGenesis Reference.primitives genesis).toOption.any (fun c₀ =>
      (script c₀ steps).any fun calls => allVoted c₀ calls 1 && finalized c₀ calls 1) = true := by
    decide +kernel
  obtain ⟨c₀, hstart, hrest⟩ := Outcome.ok_of_any hrun
  obtain ⟨calls, hscript, hcalls⟩ := (Option.any_eq_true _ _).mp hrest
  obtain ⟨hvoted, hfinal⟩ := (Bool.and_eq_true _ _).mp hcalls
  obtain ⟨call, hcall, hheight⟩ := (Option.any_eq_true _ _).mp hfinal
  rw [decide_eq_true_eq] at hheight
  obtain ⟨s, helected, hkeys⟩ :=
    electedBy_of_allVoted (accepts_script hscript).1 hcall hvoted
  refine ⟨c₀, calls, call.2, s, hstart, helected, ?_, hheight⟩
  refine unanimous_votes_finalize_iff hstart rfl helected ?_ ?_
  · intro v hv
    rw [List.mem_singleton] at hv
    subst hv
    exact voteFor _ _
  · intro v hv
    exact ⟨_, List.mem_singleton_self _, hkeys v hv⟩

open UnanimitySample Scenario Blockchain in
/-- Block 1 is of epoch 0, whose stored snapshot is empty: the vote of its only validator does not
count. -/
theorem first_epoch_never_finalized :
    ¬ ∀ (P : Primitives) (g : GenesisConfig) (c₀ : Blockchain) (calls : List (Int × Block))
        (b : Block) (s : EpochSnapshot) (votes : List FinalityVote),
        fromGenesis P g = .ok c₀ → ElectedBy P c₀ calls b s →
        (∀ vote ∈ votes, VoteFor P (offer P c₀ calls) b vote) →
        (∀ v ∈ s.validators, ∃ vote ∈ votes, vote.voterPublicKey = v.publicKey) →
        (offer P c₀ calls).Finalizes P votes b.header.height := by
  intro h
  have hrun : (fromGenesis Reference.primitives genesis).toOption.any (fun c₀ =>
      (script c₀ steps).any fun calls =>
        allVoted c₀ calls 0 && (calls[0]?.isSome && !finalized c₀ calls 0)) = true := by
    decide +kernel
  obtain ⟨c₀, hstart, hrest⟩ := Outcome.ok_of_any hrun
  obtain ⟨calls, hscript, hcalls⟩ := (Option.any_eq_true _ _).mp hrest
  simp only [Bool.and_eq_true, Option.isSome_iff_exists] at hcalls
  obtain ⟨hvoted, ⟨call, hcall⟩, hfinal⟩ := hcalls
  obtain ⟨s, helected, hkeys⟩ :=
    electedBy_of_allVoted (accepts_script hscript).1 hcall hvoted
  have hheight := (h Reference.primitives genesis c₀ calls call.2 s
    [vote (offer Reference.primitives c₀ calls) call.2] hstart helected
    (fun v hv => by rw [List.mem_singleton.mp hv]; exact voteFor _ _)
    (fun v hv => ⟨_, List.mem_singleton_self _, hkeys v hv⟩)).2
  simp [finalized, hcall] at hfinal
  omega

end Curs3d
