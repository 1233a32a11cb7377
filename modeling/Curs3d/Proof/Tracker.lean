import Curs3d.Consensus.Finality
import Curs3d.Crypto.Reference
import Curs3d.Lib.Quorum

/-!
# What a finality tracker has seen

`addVote_cases` lists what one vote can do to a tracker; everything else here follows from it.
`Recorded` is the invariant: under every block hash stand votes for that hash, each fed to the
tracker and each correctly signed, of pairwise different voters. When a vote finalizes its hash,
the recorded voters hold two thirds of the snapshot's stake (`quorum_of_finalized`).

Two finalized hashes then give two quorums of one validator set, and quorum intersection bounds
the stake that signed for both.
-/

set_option autoImplicit false

namespace Curs3d

open U64

/-! ## One vote -/

namespace FinalityTracker

variable {P : Primitives} {t t' : FinalityTracker} {vote : FinalityVote}
  {snapshot : EpochSnapshot} {r : Option FinalizedBlock}

/-- Everything `add_vote` can do: leave the recorded votes alone, record the vote, or record it
and finalize its block. -/
theorem addVote_cases (h : t.addVote P vote snapshot = (t', r)) :
    (t'.votes = t.votes ∧ t'.finalizedHeight = t.finalizedHeight ∧
        t'.finalizedHash = t.finalizedHash ∧ r = none) ∨
    (vote.verify P = true ∧ t.finalizedHeight < vote.blockHeight ∧
      (∀ v ∈ t.votes[vote.blockHash]?.getD [], v.voterPublicKey ≠ vote.voterPublicKey) ∧
      ((t' = t.recordVote vote ∧ r = none) ∨
        (0 < snapshot.totalStake ∧
          satMul snapshot.totalStake 2 ≤ satMul (votedStake snapshot.validatorStakes
            (t.votes[vote.blockHash]?.getD [] ++ [vote])) 3 ∧
          t' = (t.recordVote vote).finalize vote.blockHash vote.blockHeight ∧
          r = some { hash := vote.blockHash, height := vote.blockHeight }))) := by
  have hrec : (t.recordVote vote).votes[vote.blockHash]?.getD [] =
      t.votes[vote.blockHash]?.getD [] ++ [vote] := by
    simp [recordVote]
  unfold addVote at h
  dsimp only at h
  rw [hrec] at h
  split at h
  · left; cases h; exact ⟨rfl, rfl, rfl, rfl⟩
  next hv =>
  split at h
  · left; cases h; exact ⟨rfl, rfl, rfl, rfl⟩
  split at h
  · left; cases h; exact ⟨rfl, rfl, rfl, rfl⟩
  next hh =>
  split at h
  · left; cases h; exact ⟨rfl, rfl, rfl, rfl⟩
  split at h
  · left; cases h; exact ⟨rfl, rfl, rfl, rfl⟩
  split at h
  · left; cases h; exact ⟨rfl, rfl, rfl, rfl⟩
  next hany =>
  have hfresh : ∀ v ∈ t.votes[vote.blockHash]?.getD [],
      v.voterPublicKey ≠ vote.voterPublicKey := by
    intro v hv hk
    exact hany (List.any_eq_true.mpr ⟨v, hv, by simpa using hk⟩)
  right
  -- From here on the vote is recorded, with a quorum or without.
  refine ⟨by simpa using hv, by omega, hfresh, ?_⟩
  split at h
  · left; cases h; exact ⟨rfl, rfl⟩
  next hz =>
  split at h
  · next hq => right; cases h; exact ⟨Nat.pos_of_ne_zero hz, hq, rfl, rfl⟩
  · left; cases h; exact ⟨rfl, rfl⟩

/-- A vote that finalizes nothing leaves the finalized block. -/
theorem finalized_of_addVote_none (h : t.addVote P vote snapshot = (t', none)) :
    t'.finalizedHeight = t.finalizedHeight ∧ t'.finalizedHash = t.finalizedHash := by
  rcases addVote_cases h with ⟨-, hheight, hhash, -⟩ | ⟨-, -, -, ⟨rfl, -⟩ | ⟨-, -, -, hn⟩⟩
  · exact ⟨hheight, hhash⟩
  · exact ⟨rfl, rfl⟩
  · exact absurd hn (by simp)

/-- A vote finalizes its own block, above the one finalized before. -/
theorem finalized_of_addVote_some {f : FinalizedBlock}
    (h : t.addVote P vote snapshot = (t', some f)) :
    t.finalizedHeight < vote.blockHeight ∧ t'.finalizedHash = vote.blockHash ∧
      t'.finalizedHeight = vote.blockHeight ∧
      f = { hash := vote.blockHash, height := vote.blockHeight } := by
  rcases addVote_cases h with ⟨-, -, -, hn⟩ | ⟨-, hlt, -, ⟨-, hn⟩ | ⟨-, -, rfl, hf⟩⟩
  · exact absurd hn (by simp)
  · exact absurd hn (by simp)
  · exact ⟨hlt, rfl, rfl, Option.some.inj hf⟩

/-! ## The invariant -/

/-- The votes a tracker holds, against the votes it was fed. -/
def Recorded (P : Primitives) (fed : List FinalityVote) (t : FinalityTracker) : Prop :=
  ∀ hash votes, t.votes[hash]? = some votes →
    (votes.map FinalityVote.voterPublicKey).Nodup ∧
      ∀ v ∈ votes, v ∈ fed ∧ v.verify P = true ∧ v.blockHash = hash

variable {fed : List FinalityVote}

theorem recorded_withFinalized (height : Nat) (hash : Bytes) :
    Recorded P fed (withFinalized height hash) := by
  intro h votes hv
  simp [withFinalized] at hv

theorem Recorded.mono {fed' : List FinalityVote} (h : Recorded P fed t) (hs : fed ⊆ fed') :
    Recorded P fed' t := by
  intro hash votes hv
  obtain ⟨hn, hm⟩ := h hash votes hv
  exact ⟨hn, fun v hmem => ⟨hs (hm v hmem).1, (hm v hmem).2⟩⟩

theorem Recorded.congr (h : Recorded P fed t) (he : t'.votes = t.votes) : Recorded P fed t' := by
  intro hash votes hv
  rw [he] at hv
  exact h hash votes hv

/-- The list under a hash, empty when there is none. -/
theorem Recorded.getD (h : Recorded P fed t) (hash : Bytes) :
    ((t.votes[hash]?.getD []).map FinalityVote.voterPublicKey).Nodup ∧
      ∀ v ∈ t.votes[hash]?.getD [], v ∈ fed ∧ v.verify P = true ∧ v.blockHash = hash := by
  cases hv : t.votes[hash]? with
  | none => simp
  | some votes => exact h hash votes hv

/-- The list under the vote's hash once the vote is on it. -/
theorem Recorded.append (h : Recorded P fed t) (hvote : vote ∈ fed) (hver : vote.verify P = true)
    (hfresh : ∀ v ∈ t.votes[vote.blockHash]?.getD [], v.voterPublicKey ≠ vote.voterPublicKey) :
    ((t.votes[vote.blockHash]?.getD [] ++ [vote]).map FinalityVote.voterPublicKey).Nodup ∧
      ∀ v ∈ t.votes[vote.blockHash]?.getD [] ++ [vote],
        v ∈ fed ∧ v.verify P = true ∧ v.blockHash = vote.blockHash := by
  obtain ⟨hn, hm⟩ := h.getD vote.blockHash
  constructor
  · rw [List.map_append, List.nodup_append]
    refine ⟨hn, by simp, ?_⟩
    intro a ha b hb
    obtain ⟨v, hv, rfl⟩ := List.mem_map.mp ha
    rw [List.map_singleton, List.mem_singleton] at hb
    rw [hb]
    exact hfresh v hv
  · intro v hv
    rcases List.mem_append.mp hv with hv | hv
    · exact hm v hv
    · rw [List.mem_singleton] at hv
      subst hv
      exact ⟨hvote, hver, rfl⟩

theorem Recorded.recordVote (h : Recorded P fed t) (hvote : vote ∈ fed)
    (hver : vote.verify P = true)
    (hfresh : ∀ v ∈ t.votes[vote.blockHash]?.getD [], v.voterPublicKey ≠ vote.voterPublicKey) :
    Recorded P fed (t.recordVote vote) := by
  intro hash votes hv
  simp only [FinalityTracker.recordVote, KeyMap.getElem?_insert_eq] at hv
  split at hv
  · next hk =>
    cases hv
    subst hk
    exact h.append hvote hver hfresh
  · exact h hash votes hv

theorem Recorded.finalize (h : Recorded P fed t) (hash : Bytes) (height : Nat) :
    Recorded P fed (t.finalize hash height) := by
  intro k votes hv
  rw [FinalityTracker.finalize, Std.ExtTreeMap.getElem?_filter', Option.filter_eq_some_iff] at hv
  exact h k votes hv.1

/-- One vote keeps the invariant. -/
theorem Recorded.addVote (h : Recorded P fed t) (hvote : vote ∈ fed)
    (ha : t.addVote P vote snapshot = (t', r)) : Recorded P fed t' := by
  rcases addVote_cases ha with ⟨he, -⟩ | ⟨hver, -, hfresh, ⟨rfl, -⟩ | ⟨-, -, rfl, -⟩⟩
  · exact h.congr he
  · exact h.recordVote hvote hver hfresh
  · exact (h.recordVote hvote hver hfresh).finalize _ _

end FinalityTracker

/-! ## The stake behind a list of votes -/

namespace EpochSnapshot

variable {s : EpochSnapshot}

/-- A snapshot the quorum argument works on: distinct keys, the exact total, and room to triple
it. -/
structure WellFormed (s : EpochSnapshot) : Prop where
  nodup : (s.validators.map Validator.publicKey).Nodup
  total : s.totalStake = (s.validators.map Validator.stake).sum
  bound : 3 * s.totalStake < modulus

/-- Distinct keys and the exact total, up to the top of the range. -/
structure Exact (s : EpochSnapshot) : Prop where
  nodup : (s.validators.map Validator.publicKey).Nodup
  total : s.totalStake = (s.validators.map Validator.stake).sum
  bound : s.totalStake < modulus

theorem WellFormed.exact (h : s.WellFormed) : s.Exact where
  nodup := h.nodup
  total := h.total
  bound := by
    have hbound := h.bound
    omega

/-- The stake a public key votes with. -/
def stakeOf (s : EpochSnapshot) (publicKey : Bytes) : Nat := s.validatorStakes[publicKey]?.getD 0

def keys (s : EpochSnapshot) : Finset Bytes := (s.validators.map Validator.publicKey).toFinset

theorem stakeOf_of_mem (h : s.Exact) {v : Validator} (hv : v ∈ s.validators) :
    s.stakeOf v.publicKey = v.stake := by
  rw [stakeOf, validatorStakes,
    KeyMap.getElem?_foldl_insert_of_mem Validator.publicKey Validator.stake _ _ h.nodup hv]
  rfl

theorem stakeOf_of_notMem {pk : Bytes} (h : pk ∉ s.keys) : s.stakeOf pk = 0 := by
  rw [keys, List.mem_toFinset] at h
  rw [stakeOf, validatorStakes,
    KeyMap.getElem?_foldl_insert_of_notMem Validator.publicKey Validator.stake _ _ h]
  simp

theorem weight_keys (h : s.Exact) : Quorum.weight s.stakeOf s.keys = s.totalStake := by
  rw [keys, ← Quorum.sum_map_eq_weight _ h.nodup, h.total, List.map_map]
  congr 1
  exact List.map_congr_left fun v hv => stakeOf_of_mem h hv

/-- Voters outside the snapshot carry no weight. -/
theorem weight_inter_keys (a : Finset Bytes) :
    Quorum.weight s.stakeOf (a ∩ s.keys) = Quorum.weight s.stakeOf a := by
  refine Finset.sum_subset Finset.inter_subset_left ?_
  intro pk hpk hnot
  refine stakeOf_of_notMem fun hk => hnot ?_
  exact Finset.mem_inter.mpr ⟨hpk, hk⟩

end EpochSnapshot

/-- Who voted, as a set. -/
def voters (votes : List FinalityVote) : Finset Bytes :=
  (votes.map FinalityVote.voterPublicKey).toFinset

namespace FinalityTracker

variable {P : Primitives} {s : EpochSnapshot} {votes : List FinalityVote}

theorem sum_filterMap_stakes (stakes : ByteMap Nat) (votes : List FinalityVote) :
    (votes.filterMap fun v => stakes[v.voterPublicKey]?).sum =
      ((votes.map FinalityVote.voterPublicKey).map fun pk => stakes[pk]?.getD 0).sum := by
  induction votes with
  | nil => rfl
  | cons v vs ih =>
    cases hv : stakes[v.voterPublicKey]? with
    | none => simp [hv, ih]
    | some x => simp [hv, ih]

theorem votedStake_eq_weight (h : s.Exact)
    (hnd : (votes.map FinalityVote.voterPublicKey).Nodup) :
    votedStake s.validatorStakes votes = Quorum.weight s.stakeOf (voters votes) := by
  have hsum : (votes.filterMap fun v => s.validatorStakes[v.voterPublicKey]?).sum =
      Quorum.weight s.stakeOf (voters votes) := by
    rw [sum_filterMap_stakes]
    exact Quorum.sum_map_eq_weight s.stakeOf hnd
  have hle : Quorum.weight s.stakeOf (voters votes) ≤ s.totalStake := by
    rw [← EpochSnapshot.weight_inter_keys, ← EpochSnapshot.weight_keys h]
    exact Quorum.weight_mono _ Finset.inter_subset_right
  have hb := h.bound
  rw [votedStake, wrapSum_eq_sum (by omega), hsum]

/-- **A finalizing vote completes a quorum**: distinct voters who were fed, correctly signed
votes for the finalized hash and hold two thirds of the snapshot's stake. -/
theorem quorum_of_finalized {t t' : FinalityTracker} {fed : List FinalityVote}
    {vote : FinalityVote} {b : FinalizedBlock} (h : s.WellFormed) (hr : Recorded P fed t)
    (hvote : vote ∈ fed) (ha : t.addVote P vote s = (t', some b)) :
    0 < s.totalStake ∧ ∃ votes : List FinalityVote,
      (∀ v ∈ votes, v ∈ fed ∧ v.verify P = true ∧ v.blockHash = b.hash) ∧
        2 * s.totalStake ≤ 3 * Quorum.weight s.stakeOf (voters votes) := by
  rcases addVote_cases ha with ⟨-, -, -, hn⟩ | ⟨hver, -, hfresh, ⟨-, hn⟩ | ⟨hpos, hq, -, hb⟩⟩
  · exact absurd hn (by simp)
  · exact absurd hn (by simp)
  · cases hb
    obtain ⟨hnd, hmem⟩ := hr.append hvote hver hfresh
    refine ⟨hpos, _, hmem, ?_⟩
    rw [votedStake_eq_weight h.exact hnd] at hq
    have hbound := h.bound
    unfold satMul u64Max at hq
    unfold modulus at hbound
    omega

/-! ## Whole runs against one snapshot -/

/-- The tracker after a list of votes. -/
def feed (P : Primitives) (s : EpochSnapshot) (t : FinalityTracker) (votes : List FinalityVote) :
    FinalityTracker :=
  votes.foldl (fun t v => (t.addVote P v s).1) t

/-- Some vote of the list, when its turn comes, finalizes `b`. -/
def Finalizes (P : Primitives) (s : EpochSnapshot) (t : FinalityTracker)
    (votes : List FinalityVote) (b : FinalizedBlock) : Prop :=
  ∃ before vote after, votes = before ++ vote :: after ∧
    ((feed P s t before).addVote P vote s).2 = some b

theorem Recorded.feed {t : FinalityTracker} {fed votes : List FinalityVote}
    (h : Recorded P fed t) (hsub : votes ⊆ fed) :
    Recorded P fed (FinalityTracker.feed P s t votes) := by
  induction votes generalizing t with
  | nil => exact h
  | cons v vs ih =>
    have hv : v ∈ fed := hsub (List.mem_cons_self ..)
    exact ih (h.addVote hv rfl) fun x hx => hsub (List.mem_cons_of_mem _ hx)

/-- The quorum behind a finalization of a whole run. -/
theorem quorum_of_finalizes (h : s.WellFormed) {height : Nat} {hash : Bytes}
    {b : FinalizedBlock} (hf : Finalizes P s (withFinalized height hash) votes b) :
    ∃ signed : List FinalityVote,
      (∀ v ∈ signed, v ∈ votes ∧ v.verify P = true ∧ v.blockHash = b.hash) ∧
        2 * s.totalStake ≤ 3 * Quorum.weight s.stakeOf (voters signed) := by
  obtain ⟨before, vote, after, rfl, ha⟩ := hf
  have hr : Recorded P (before ++ vote :: after)
      (FinalityTracker.feed P s (withFinalized height hash) before) :=
    (recorded_withFinalized height hash).feed (List.subset_append_left _ _)
  exact (quorum_of_finalized h hr (by simp) (Prod.ext rfl ha)).2

end FinalityTracker

/-- `votes` holds a correctly signed vote of `publicKey` for `hash`. -/
def signedFor (P : Primitives) (votes : List FinalityVote) (hash publicKey : Bytes) : Bool :=
  votes.any fun v => v.verify P ∧ v.voterPublicKey = publicKey ∧ v.blockHash = hash

/-- The stake of the validators that signed for `hash₁` in the one list and for `hash₂` in the
other. -/
def doubleSignedStake (P : Primitives) (s : EpochSnapshot) (votes₁ votes₂ : List FinalityVote)
    (hash₁ hash₂ : Bytes) : Nat :=
  ((s.validators.filter fun v => signedFor P votes₁ hash₁ v.publicKey ∧
    signedFor P votes₂ hash₂ v.publicKey).map Validator.stake).sum

theorem signedFor_of_mem {P : Primitives} {votes signed : List FinalityVote} {hash pk : Bytes}
    (h : ∀ v ∈ signed, v ∈ votes ∧ v.verify P = true ∧ v.blockHash = hash)
    (hpk : pk ∈ voters signed) : signedFor P votes hash pk = true := by
  rw [voters, List.mem_toFinset] at hpk
  obtain ⟨v, hv, rfl⟩ := List.mem_map.mp hpk
  obtain ⟨hmem, hver, hh⟩ := h v hv
  exact List.any_eq_true.mpr ⟨v, hmem, by simp [hver, hh]⟩

/-- The double signers weigh at least what two vote sets share inside the snapshot. -/
theorem weight_le_doubleSignedStake {P : Primitives} {s : EpochSnapshot} (h : s.WellFormed)
    {votes₁ votes₂ signed₁ signed₂ : List FinalityVote} {hash₁ hash₂ : Bytes}
    (h₁ : ∀ v ∈ signed₁, v ∈ votes₁ ∧ v.verify P = true ∧ v.blockHash = hash₁)
    (h₂ : ∀ v ∈ signed₂, v ∈ votes₂ ∧ v.verify P = true ∧ v.blockHash = hash₂) :
    Quorum.weight s.stakeOf ((voters signed₁ ∩ s.keys) ∩ (voters signed₂ ∩ s.keys)) ≤
      doubleSignedStake P s votes₁ votes₂ hash₁ hash₂ := by
  set both := s.validators.filter fun v => signedFor P votes₁ hash₁ v.publicKey ∧
    signedFor P votes₂ hash₂ v.publicKey with hboth
  have hsub : both.Sublist s.validators := List.filter_sublist
  have hnd : (both.map Validator.publicKey).Nodup := (hsub.map _).nodup h.nodup
  have hstake : doubleSignedStake P s votes₁ votes₂ hash₁ hash₂ =
      Quorum.weight s.stakeOf (both.map Validator.publicKey).toFinset := by
    rw [← Quorum.sum_map_eq_weight _ hnd, List.map_map, doubleSignedStake, ← hboth]
    congr 1
    exact List.map_congr_left fun v hv => (EpochSnapshot.stakeOf_of_mem h.exact (hsub.mem hv)).symm
  rw [hstake]
  refine Quorum.weight_mono _ fun pk hpk => ?_
  simp only [Finset.mem_inter] at hpk
  obtain ⟨⟨hv₁, hk⟩, hv₂, -⟩ := hpk
  rw [EpochSnapshot.keys, List.mem_toFinset] at hk
  obtain ⟨v, hv, rfl⟩ := List.mem_map.mp hk
  rw [List.mem_toFinset]
  refine List.mem_map.mpr ⟨v, ?_, rfl⟩
  rw [hboth, List.mem_filter]
  exact ⟨hv, by simp [signedFor_of_mem h₁ hv₁, signedFor_of_mem h₂ hv₂]⟩

/-- **Accountable agreement.** Two trackers fed any votes in any order against one snapshot: if
the one finalizes `b₁` and the other `b₂`, the validators that signed for both hashes hold a third
of the stake. That the hashes differ, or that a hash determines its height, is not needed. -/
theorem accountable_agreement {P : Primitives} {s : EpochSnapshot} (h : s.WellFormed)
    {height₁ height₂ : Nat} {hash₁ hash₂ : Bytes} {votes₁ votes₂ : List FinalityVote}
    {b₁ b₂ : FinalizedBlock}
    (hf₁ : FinalityTracker.Finalizes P s (.withFinalized height₁ hash₁) votes₁ b₁)
    (hf₂ : FinalityTracker.Finalizes P s (.withFinalized height₂ hash₂) votes₂ b₂) :
    s.totalStake ≤ 3 * doubleSignedStake P s votes₁ votes₂ b₁.hash b₂.hash := by
  obtain ⟨signed₁, hs₁, hq₁⟩ := FinalityTracker.quorum_of_finalizes h hf₁
  obtain ⟨signed₂, hs₂, hq₂⟩ := FinalityTracker.quorum_of_finalizes h hf₂
  rw [← EpochSnapshot.weight_keys h.exact, ← EpochSnapshot.weight_inter_keys (voters signed₁)] at hq₁
  rw [← EpochSnapshot.weight_keys h.exact, ← EpochSnapshot.weight_inter_keys (voters signed₂)] at hq₂
  have hthird := Quorum.third_le_of_two_thirds s.stakeOf Finset.inter_subset_right
    Finset.inter_subset_right hq₁ hq₂
  rw [EpochSnapshot.weight_keys h.exact] at hthird
  have hle := weight_le_doubleSignedStake h hs₁ hs₂
  omega

namespace AgreementSample

def key (n : UInt8) : KeyPair := KeyPair.fromSeed Reference.primitives [n]

def snapshot : EpochSnapshot where
  epoch := 0
  startHeight := 0
  validators := [1, 2, 3].map fun n => { address := [n], publicKey := [n], stake := 1 }
  totalStake := 3

def voteOf (n : UInt8) (hash : Bytes) : FinalityVote :=
  FinalityVote.new Reference.primitives hash 1 0 (key n)

def first : FinalizedBlock := ⟨[10], 1⟩

def second : FinalizedBlock := ⟨[20], 1⟩

theorem wellFormed : snapshot.WellFormed where
  nodup := by decide
  total := by decide
  bound := by decide

end AgreementSample

open AgreementSample in
/-- Validators 1 and 2 finalize one block, 2 and 3 another: validator 2 signed for both. -/
theorem accountable_agreement_sample :
    snapshot.totalStake ≤ 3 * doubleSignedStake Reference.primitives snapshot
      [voteOf 1 [10], voteOf 2 [10]] [voteOf 2 [20], voteOf 3 [20]] first.hash second.hash := by
  have hf₁ : FinalityTracker.Finalizes Reference.primitives snapshot (.withFinalized 0 [])
      [voteOf 1 [10], voteOf 2 [10]] first :=
    ⟨[voteOf 1 [10]], voteOf 2 [10], [], rfl, by decide +kernel⟩
  have hf₂ : FinalityTracker.Finalizes Reference.primitives snapshot (.withFinalized 0 [])
      [voteOf 2 [20], voteOf 3 [20]] second :=
    ⟨[voteOf 2 [20]], voteOf 3 [20], [], rfl, by decide +kernel⟩
  exact accountable_agreement wellFormed hf₁ hf₂

end Curs3d
