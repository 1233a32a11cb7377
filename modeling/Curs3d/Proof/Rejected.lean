import Curs3d.Chain.Apply
import Curs3d.Crypto.Reference
import Curs3d.Lib.Outcome

/-!
# What a rejected block leaves behind

`add_block` stores the snapshot of a new epoch and settles the old one before it validates, both
keyed on the height in the unvalidated header. A rejection therefore leaves `prepareEpoch` of
that height. Here is when that is the chain itself: `Quiet`.

A settlement with a snapshot touches nothing only if every validator of the epoch produced in
it, has no missed epoch on record, and earned no reward that moves its balance. The three folds
of a settlement each move one key at a time and one way, so a change made early cannot be undone
later in the same fold; that is what the `rank` and `missedRank` lemmas say.
-/

set_option autoImplicit false

namespace Curs3d

open U64

/-! ## Rewards -/

/-- How far a reward can still push an entry: absent, out of range, or its balance. -/
def balanceRank (a : Option AccountState) : Nat :=
  match a with
  | none => 0
  | some a => if u64Max < a.balance then 1 else a.balance + 2

/-- The entry a reward cannot move. -/
def Saturated (a : Option AccountState) : Prop := a.map AccountState.balance = some u64Max

variable {accounts : ByteMap AccountState} {reward : ValidatorReward}

theorem getElem?_creditReward (accounts : ByteMap AccountState) (reward : ValidatorReward)
    (addr : Bytes) :
    (creditReward accounts reward)[addr]? =
      if reward.address = addr then
        some { accounts[reward.address]?.getD {} with
          balance := satAdd (accounts[reward.address]?.getD {}).balance reward.amount }
      else accounts[addr]? :=
  KeyMap.getElem?_upsert accounts reward.address addr {} _

theorem creditReward_of_saturated (h : Saturated accounts[reward.address]?) :
    creditReward accounts reward = accounts := by
  obtain ⟨a, ha, hbal⟩ := Option.map_eq_some_iff.mp h
  refine KeyMap.insert_eq_self ?_
  have hsat : satAdd a.balance reward.amount = a.balance := satAdd_eq_left_iff.mpr (.inr hbal)
  dsimp only
  rw [ha, Option.getD_some, hsat]

theorem balanceRank_credited (a : AccountState) (amount : Nat) :
    balanceRank (some { a with balance := satAdd a.balance amount }) =
      satAdd a.balance amount + 2 :=
  if_neg (Nat.not_lt.mpr (satAdd_le_u64Max _ _))

/-- A positive reward raises the entry unless it is saturated. -/
theorem balanceRank_lt_credit (hpos : 0 < reward.amount)
    (h : ¬ Saturated accounts[reward.address]?) :
    balanceRank accounts[reward.address]? <
      balanceRank (creditReward accounts reward)[reward.address]? := by
  rw [getElem?_creditReward, if_pos rfl, balanceRank_credited]
  unfold Saturated at h
  cases ha : accounts[reward.address]? with
  | none =>
    simp only [balanceRank]
    omega
  | some a =>
    rw [ha] at h
    have hne : a.balance ≠ u64Max := by simpa using h
    have hmax : 0 < u64Max := by decide
    simp only [balanceRank, Option.getD_some, satAdd]
    split <;> omega

theorem balanceRank_le_credit (hpos : 0 < reward.amount) (addr : Bytes) :
    balanceRank accounts[addr]? ≤ balanceRank (creditReward accounts reward)[addr]? := by
  by_cases haddr : reward.address = addr
  · subst haddr
    by_cases hsat : Saturated accounts[reward.address]?
    · rw [creditReward_of_saturated hsat]
    · exact (balanceRank_lt_credit hpos hsat).le
  · rw [getElem?_creditReward, if_neg haddr]

theorem balanceRank_le_rewards {rewards : List ValidatorReward}
    (hpos : ∀ r ∈ rewards, 0 < r.amount) (addr : Bytes) :
    balanceRank accounts[addr]? ≤ balanceRank (rewards.foldl creditReward accounts)[addr]? := by
  induction rewards generalizing accounts with
  | nil => exact le_rfl
  | cons r rs ih =>
    rw [List.foldl_cons]
    exact (balanceRank_le_credit (hpos r (by simp)) addr).trans
      (ih fun r' hr' => hpos r' (by simp [hr']))

/-- Positive rewards change nothing exactly when every rewarded entry is saturated. -/
theorem rewards_eq_self_iff {rewards : List ValidatorReward}
    (hpos : ∀ r ∈ rewards, 0 < r.amount) :
    rewards.foldl creditReward accounts = accounts ↔
      ∀ r ∈ rewards, Saturated accounts[r.address]? := by
  induction rewards generalizing accounts with
  | nil => simp
  | cons r rs ih =>
    have hrs : ∀ r' ∈ rs, 0 < r'.amount := fun r' hr' => hpos r' (by simp [hr'])
    rw [List.foldl_cons, List.forall_mem_cons]
    by_cases hsat : Saturated accounts[r.address]?
    · rw [creditReward_of_saturated hsat, ih hrs]
      simp [hsat]
    · refine iff_of_false ?_ fun h => hsat h.1
      intro heq
      have hlt := balanceRank_lt_credit (hpos r (by simp)) hsat
      have hle : balanceRank (creditReward accounts r)[r.address]? ≤
          balanceRank (rs.foldl creditReward (creditReward accounts r))[r.address]? :=
        balanceRank_le_rewards hrs r.address
      rw [heq] at hle
      omega

/-! ## Missed epochs -/

theorem getElem?_foldl_count (producers : List Bytes) (m : ByteMap Nat) (addr : Bytes) :
    (producers.foldl (fun m a => KeyMap.upsert m a 0 (· + 1)) m)[addr]? =
      if addr ∈ producers then some (m[addr]?.getD 0 + producers.count addr) else m[addr]? := by
  induction producers generalizing m with
  | nil => simp
  | cons p ps ih =>
    rw [List.foldl_cons, ih, KeyMap.getElem?_upsert]
    by_cases hp : p = addr
    · subst hp
      by_cases hmem : p ∈ ps
      · simp [hmem]
        omega
      · simp [hmem, List.count_eq_zero_of_not_mem hmem]
    · have hne : addr ≠ p := Ne.symm hp
      simp [hp, hne]

theorem getElem?_blockProducers (producers : List Bytes) (addr : Bytes) :
    (Blockchain.blockProducers producers)[addr]? =
      if addr ∈ producers then some (producers.count addr) else none := by
  rw [Blockchain.blockProducers, getElem?_foldl_count]
  simp

theorem mem_blockProducers {producers : List Bytes} {addr : Bytes} :
    addr ∈ Blockchain.blockProducers producers ↔ addr ∈ producers := by
  rw [Std.ExtTreeMap.mem_iff_isSome_getElem?, getElem?_blockProducers]
  split <;> simp [*]

/-- How often an address is on record as missing: absent counts less than zero times. -/
def missedRank (missed : ByteMap Nat) (addr : Bytes) : Nat := (missed[addr]?.map (· + 1)).getD 0

variable {producers missed : ByteMap Nat} {v : Validator}

theorem getElem?_updateMissed (producers missed : ByteMap Nat) (v : Validator) (addr : Bytes) :
    (Blockchain.updateMissed producers missed v)[addr]? =
      if v.address = addr then
        if v.address ∈ producers then none else some (missed[v.address]?.getD 0 + 1)
      else missed[addr]? := by
  unfold Blockchain.updateMissed
  split
  · exact KeyMap.getElem?_erase_eq missed v.address addr
  · exact KeyMap.getElem?_upsert missed v.address addr 0 _

theorem missedRank_le_updates {validators : List Validator} {addr : Bytes}
    (haddr : addr ∉ producers) :
    missedRank missed addr ≤
      missedRank (validators.foldl (Blockchain.updateMissed producers) missed) addr := by
  induction validators generalizing missed with
  | nil => exact le_rfl
  | cons v vs ih =>
    rw [List.foldl_cons]
    refine le_trans ?_ ih
    unfold missedRank
    rw [getElem?_updateMissed]
    by_cases hv : v.address = addr
    · subst hv
      rw [if_pos rfl, if_neg haddr]
      cases missed[v.address]? <;> simp
    · rw [if_neg hv]

/-- A producer's record, once cleared, stays cleared. -/
theorem cleared_updates {validators : List Validator} {addr : Bytes} (haddr : addr ∈ producers)
    (h : missed[addr]? = none) :
    (validators.foldl (Blockchain.updateMissed producers) missed)[addr]? = none := by
  induction validators generalizing missed with
  | nil => exact h
  | cons v vs ih =>
    rw [List.foldl_cons]
    refine ih ?_
    rw [getElem?_updateMissed]
    split
    · next hv => rw [if_pos (hv ▸ haddr)]
    · exact h

theorem updateMissed_eq_self (hp : v.address ∈ producers) (hm : v.address ∉ missed) :
    Blockchain.updateMissed producers missed v = missed := by
  rw [Blockchain.updateMissed, if_pos hp]
  exact KeyMap.erase_eq_self_of_none (Std.ExtTreeMap.getElem?_eq_none hm)

/-- The counters change nothing exactly when every validator produced and has no record. -/
theorem updateMissed_eq_self_iff {validators : List Validator} :
    validators.foldl (Blockchain.updateMissed producers) missed = missed ↔
      ∀ v ∈ validators, v.address ∈ producers ∧ v.address ∉ missed := by
  induction validators generalizing missed with
  | nil => simp
  | cons v vs ih =>
    rw [List.foldl_cons, List.forall_mem_cons]
    by_cases hv : v.address ∈ producers ∧ v.address ∉ missed
    · rw [updateMissed_eq_self hv.1 hv.2, ih]
      simp [hv]
    · refine iff_of_false ?_ fun h => hv h.1
      intro heq
      by_cases hp : v.address ∈ producers
      · have hclear : (Blockchain.updateMissed producers missed v)[v.address]? = none := by
          rw [getElem?_updateMissed, if_pos rfl, if_pos hp]
        have hnone : (vs.foldl (Blockchain.updateMissed producers)
            (Blockchain.updateMissed producers missed v))[v.address]? = none :=
          cleared_updates hp hclear
        rw [heq] at hnone
        exact hv ⟨hp, by rw [Std.ExtTreeMap.mem_iff_isSome_getElem?, hnone]; simp⟩
      · have hle : missedRank (Blockchain.updateMissed producers missed v) v.address ≤
            missedRank (vs.foldl (Blockchain.updateMissed producers)
              (Blockchain.updateMissed producers missed v)) v.address :=
          missedRank_le_updates hp
        rw [heq] at hle
        unfold missedRank at hle
        rw [getElem?_updateMissed, if_pos rfl, if_neg hp] at hle
        cases hm : missed[v.address]? <;> simp [hm] at hle

/-! ## One settlement -/

theorem rewardFor_eq_some {r : ValidatorReward} (h : rewardFor producers v = some r) :
    r.address = v.address ∧ 0 < r.amount := by
  unfold rewardFor at h
  dsimp only at h
  split at h
  · next hpos => cases h; exact ⟨rfl, hpos.2⟩
  · exact absurd h (by simp)

/-- A validator that produced `n` blocks is rewarded when it stakes at least one CUR. -/
theorem rewardFor_isSome_iff {n : Nat} (hn : 0 < n) (hp : producers[v.address]? = some n) :
    (rewardFor producers v).isSome ↔ 1000000 ≤ v.stake := by
  have hreward : 0 < satMul (satMul (v.stake / 1000000) EPOCH_REWARD_RATE_PER_CUR) n ↔
      1000000 ≤ v.stake := by
    rw [Nat.pos_iff_ne_zero, Ne, satMul_eq_zero_iff, satMul_eq_zero_iff]
    unfold EPOCH_REWARD_RATE_PER_CUR
    omega
  unfold rewardFor
  rw [hp]
  dsimp only [Option.getD_some]
  rw [← hreward]
  split
  · next h => simp [h.2]
  · next h => simpa [hn] using h

theorem penaltyFor_of_produced {n : Nat} (hn : 0 < n) (hp : producers[v.address]? = some n) :
    penaltyFor producers missed v = none := by
  unfold penaltyFor
  rw [hp]
  dsimp only [Option.getD_some]
  exact if_neg fun h => by omega

/-- Whether the settlement leaves this validator's records alone. -/
def Settled (producers : List Bytes) (accounts : ByteMap AccountState) (missed : ByteMap Nat)
    (v : Validator) : Prop :=
  v.address ∈ producers ∧ v.address ∉ missed ∧
    (v.stake < 1000000 ∨ Saturated accounts[v.address]?)

theorem count_of_mem {produced : List Bytes} (h : v.address ∈ produced) :
    0 < produced.count v.address ∧
      (Blockchain.blockProducers produced)[v.address]? = some (produced.count v.address) :=
  ⟨List.count_pos_iff.mpr h, by rw [getElem?_blockProducers, if_pos h]⟩

/-- When every validator produced, the settlement is the rewards alone. -/
theorem settlement_eq_rewards {snapshot : EpochSnapshot} {produced : List Bytes}
    (h : ∀ v ∈ snapshot.validators, v.address ∈ produced) :
    applyEpochSettlement accounts
        (computeEpochSettlement snapshot (Blockchain.blockProducers produced) missed) =
      (snapshot.validators.filterMap (rewardFor (Blockchain.blockProducers produced))).foldl
        creditReward accounts := by
  have hnone : snapshot.validators.filterMap
      (penaltyFor (Blockchain.blockProducers produced) missed) = [] := by
    refine List.filterMap_eq_nil_iff.mpr fun v hv => ?_
    obtain ⟨hpos, hcount⟩ := count_of_mem (h v hv)
    exact penaltyFor_of_produced hpos hcount
  rw [applyEpochSettlement, computeEpochSettlement]
  dsimp only
  rw [hnone, List.foldl_nil]

theorem rewards_saturated_iff {validators : List Validator} {produced : List Bytes}
    (h : ∀ v ∈ validators, v.address ∈ produced) :
    (∀ r ∈ validators.filterMap (rewardFor (Blockchain.blockProducers produced)),
        Saturated accounts[r.address]?) ↔
      ∀ v ∈ validators, v.stake < 1000000 ∨ Saturated accounts[v.address]? := by
  constructor
  · intro hsat v hv
    by_cases hstake : v.stake < 1000000
    · exact .inl hstake
    · obtain ⟨hpos, hcount⟩ := count_of_mem (h v hv)
      obtain ⟨r, hr⟩ := Option.isSome_iff_exists.mp
        ((rewardFor_isSome_iff hpos hcount).mpr (by omega))
      refine .inr ?_
      rw [← (rewardFor_eq_some hr).1]
      exact hsat r (List.mem_filterMap.mpr ⟨v, hv, hr⟩)
  · intro hall r hr
    obtain ⟨v, hv, hr⟩ := List.mem_filterMap.mp hr
    obtain ⟨hpos, hcount⟩ := count_of_mem (h v hv)
    have hstake := (rewardFor_isSome_iff hpos hcount).mp (by rw [hr]; rfl)
    rw [(rewardFor_eq_some hr).1]
    exact (hall v hv).resolve_left (by omega)

/-- A settlement changes neither accounts nor counters exactly when every validator is settled. -/
theorem settlement_eq_self_iff {snapshot : EpochSnapshot} {produced : List Bytes} :
    (applyEpochSettlement accounts
          (computeEpochSettlement snapshot (Blockchain.blockProducers produced) missed) = accounts ∧
        snapshot.validators.foldl
          (Blockchain.updateMissed (Blockchain.blockProducers produced)) missed = missed) ↔
      ∀ v ∈ snapshot.validators, Settled produced accounts missed v := by
  have hpositive : ∀ r ∈ snapshot.validators.filterMap
      (rewardFor (Blockchain.blockProducers produced)), 0 < r.amount := by
    intro r hr
    obtain ⟨v, -, hr⟩ := List.mem_filterMap.mp hr
    exact (rewardFor_eq_some hr).2
  rw [updateMissed_eq_self_iff]
  simp only [mem_blockProducers, Settled]
  constructor
  · rintro ⟨hacc, hmissed⟩ v hv
    have hproduced : ∀ v ∈ snapshot.validators, v.address ∈ produced := fun v hv => (hmissed v hv).1
    rw [settlement_eq_rewards hproduced, rewards_eq_self_iff hpositive,
      rewards_saturated_iff hproduced] at hacc
    exact ⟨(hmissed v hv).1, (hmissed v hv).2, hacc v hv⟩
  · intro hall
    have hproduced : ∀ v ∈ snapshot.validators, v.address ∈ produced := fun v hv => (hall v hv).1
    rw [settlement_eq_rewards hproduced, rewards_eq_self_iff hpositive,
      rewards_saturated_iff hproduced]
    exact ⟨fun v hv => (hall v hv).2.2, fun v hv => ⟨(hall v hv).1, (hall v hv).2.1⟩⟩

/-! ## Everything before the validation -/

namespace Blockchain

variable {P : Primitives} {c : Blockchain}

/-- The epoch settled at `height` leaves all its validators alone, if there is one at all. -/
def SettlesNothing (P : Primitives) (c : Blockchain) (height : Nat) : Prop :=
  ∀ epoch snapshot, settlingEpoch c.genesisConfig height = some epoch →
    c.epochSnapshots[epoch]? = some snapshot →
    ∀ v ∈ snapshot.validators,
      Settled (c.proposerAddressesForSettlingEpoch P height) c.accounts c.validatorMissedEpochs v

/-- A header height that `add_block` can reject without a trace: not an epoch boundary, or one
whose snapshot is already stored and whose settlement has nothing to do. -/
def Quiet (P : Primitives) (c : Blockchain) (height : Nat) : Prop :=
  height = 0 ∨ height % c.genesisConfig.epochLen ≠ 0 ∨
    (c.epochForHeight height ∈ c.epochSnapshots ∧ c.SettlesNothing P height)

theorem settlingEpoch_of_not_boundary {g : GenesisConfig} {height : Nat}
    (h : height = 0 ∨ height % g.epochLen ≠ 0) : settlingEpoch g height = none := by
  have hlen : 0 < g.epochLen := by unfold GenesisConfig.epochLen; omega
  unfold settlingEpoch
  dsimp only
  refine if_pos (.inl ?_)
  rcases h with rfl | h
  · simp
  · have hpos : 0 < height := by
      rcases Nat.eq_zero_or_pos height with rfl | hpos
      · exact absurd (Nat.zero_mod _) h
      · exact hpos
    have hdiv := Nat.div_add_mod height g.epochLen
    rw [Nat.le_div_iff_mul_le hlen, Nat.mul_comm]
    omega

theorem settleEpoch_eq_self_iff {height : Nat} :
    c.settleEpoch P height = c ↔ c.SettlesNothing P height := by
  have hiff : c.settleEpoch P height = c ↔
      applyEpochSettlementForBlock c.genesisConfig height c.epochSnapshots
        (c.proposerAddressesForSettlingEpoch P height) c.accounts c.validatorMissedEpochs =
      (c.accounts, c.validatorMissedEpochs) := by
    unfold settleEpoch
    cases c
    simp [Prod.ext_iff]
  rw [hiff]
  unfold applyEpochSettlementForBlock SettlesNothing
  cases hs : settlingEpoch c.genesisConfig height with
  | none => simp
  | some epoch =>
    cases he : c.epochSnapshots[epoch]? with
    | none =>
      refine iff_of_true (by simp [he]) ?_
      rintro _ snapshot h hsnap
      cases h
      exact absurd (he.symm.trans hsnap) (by simp)
    | some snapshot =>
      simp only [he, Prod.mk.injEq, settlement_eq_self_iff, Option.some.injEq]
      constructor
      · rintro h _ _ rfl hsnap
        cases he.symm.trans hsnap
        exact h
      · intro h
        exact h epoch snapshot rfl he

theorem prepareEpoch_eq_self_iff {height : Nat} :
    c.prepareEpoch P height = c ↔ c.Quiet P height := by
  unfold prepareEpoch ensureEpochSnapshot Quiet
  by_cases hb : height = 0 ∨ height % c.genesisConfig.epochLen ≠ 0
  · rw [if_neg (by omega), settleEpoch_eq_self_iff]
    refine iff_of_true ?_ (by omega)
    intro epoch snapshot hs
    rw [settlingEpoch_of_not_boundary hb] at hs
    exact absurd hs (by simp)
  · have hcond : 0 < height ∧ height % c.genesisConfig.epochLen = 0 := by omega
    by_cases hmem : c.epochForHeight height ∈ c.epochSnapshots
    · rw [if_neg fun h => h.2.2 hmem, settleEpoch_eq_self_iff]
      constructor
      · intro h
        exact .inr (.inr ⟨hmem, h⟩)
      · intro h
        rcases h with h | h | h
        · omega
        · omega
        · exact h.2
    · rw [if_pos ⟨hcond.1, hcond.2, hmem⟩]
      refine iff_of_false ?_ ?_
      · -- the new snapshot is there, whatever the settlement does to the other fields
        intro heq
        have hsnap : (c.createEpochSnapshotFromAccounts (c.epochForHeight height)
            c.accounts).epochSnapshots = c.epochSnapshots := by
          have hfield := congrArg epochSnapshots heq
          exact hfield
        refine hmem ?_
        rw [← hsnap]
        exact Std.ExtTreeMap.mem_insert_self
      · rintro (h | h | h)
        · omega
        · omega
        · exact hmem h.1

theorem addBlock_of_error {now : Int} {block : Block} {e : ChainError}
    (h : (c.addBlock P now block).1 = .error e) :
    (c.addBlock P now block).2 = c.prepareEpoch P block.header.height := by
  unfold addBlock at *
  dsimp only at *
  split
  · rfl
  · next s hs =>
    rw [hs] at h
    dsimp only at h
    split
    · rfl
    · next hk => rw [hk] at h; exact absurd h (by simp)

/-! ## Rejections -/

/-- The chain after offering it some blocks, each at its own clock reading. -/
def offer (P : Primitives) (c : Blockchain) (blocks : List (Int × Block)) : Blockchain :=
  blocks.foldl (fun c b => (c.addBlock P b.1 b.2).2) c

/-- Every block, when its turn comes, is rejected. -/
def Rejects (P : Primitives) : Blockchain → List (Int × Block) → Prop
  | _, [] => True
  | c, b :: rest => (∃ e, (c.addBlock P b.1 b.2).1 = .error e) ∧
      Rejects P (c.addBlock P b.1 b.2).2 rest

/-- Every block is accepted at the tip, one after the other. -/
def Accepts (P : Primitives) : Blockchain → List (Int × Block) → Prop
  | _, [] => True
  | c, (now, block) :: rest =>
    (c.addBlock P now block).1 = .ok () ∧ Accepts P (c.addBlock P now block).2 rest

theorem addBlock_rejected_iff {now : Int} {block : Block} {e : ChainError}
    (h : (c.addBlock P now block).1 = .error e) :
    (c.addBlock P now block).2 = c ↔ c.Quiet P block.header.height := by
  rw [addBlock_of_error h, prepareEpoch_eq_self_iff]

/-- Rejected blocks at quiet heights leave the chain as it was. -/
theorem offer_eq_self {blocks : List (Int × Block)} (hrej : Rejects P c blocks)
    (hquiet : ∀ b ∈ blocks, c.Quiet P b.2.header.height) : offer P c blocks = c := by
  induction blocks with
  | nil => rfl
  | cons b rest ih =>
    obtain ⟨⟨e, he⟩, hrest⟩ := hrej
    have hb : (c.addBlock P b.1 b.2).2 = c :=
      (addBlock_rejected_iff he).mpr (hquiet b (by simp))
    unfold offer
    rw [List.foldl_cons, hb]
    rw [hb] at hrest
    exact ih hrest fun b' hb' => hquiet b' (by simp [hb'])

/-- **A rejected block leaves no trace exactly at a quiet height**; and any number of blocks
rejected at quiet heights make no difference to what comes after them. -/
theorem rejected_traceless_iff (P : Primitives) (c : Blockchain) :
    (∀ now block e, (c.addBlock P now block).1 = .error e →
      ((c.addBlock P now block).2 = c ↔ c.Quiet P block.header.height)) ∧
    (∀ blocks, Rejects P c blocks → (∀ b ∈ blocks, c.Quiet P b.2.header.height) →
      ∀ now block, (offer P c blocks).addBlock P now block = c.addBlock P now block) := by
  constructor
  · intro now block e he
    exact addBlock_rejected_iff he
  · intro blocks hrej hquiet now block
    rw [offer_eq_self hrej hquiet]

end Blockchain

namespace RejectionSample

open Blockchain

def genesis : GenesisConfig := { chainId := [1] }

/-- A block of nothing, at a height of the sender's choosing. -/
def junk (height : Nat) : Block where
  header :=
    { version := 0, height, timestamp := 0, prevHash := [], merkleRoot := [], stateRoot := []
      gasUsed := 0, baseFeePerGas := 0, validatorPublicKey := [], nonce := 0 }
  transactions := []
  hash := []
  signature := none

def rejects (c : Blockchain) (height : Nat) : Bool :=
  match (c.addBlock Reference.primitives 0 (junk height)).1 with
  | .ok () => false
  | .error _ => true

theorem rejects_iff {c : Blockchain} {height : Nat} (h : rejects c height = true) :
    ∃ e, (c.addBlock Reference.primitives 0 (junk height)).1 = .error e := by
  unfold rejects at h
  split at h
  · exact absurd h (by simp)
  · next e he => exact ⟨e, he⟩

end RejectionSample

open RejectionSample Blockchain in
/-- The junk block of height 5 is rejected by a fresh chain, and leaves it alone. -/
theorem rejected_traceless_fresh : ∃ c, fromGenesis Reference.primitives genesis = .ok c ∧
    ∃ e, (c.addBlock Reference.primitives 0 (junk 5)).1 = .error e ∧
      ((c.addBlock Reference.primitives 0 (junk 5)).2 = c ↔
        c.Quiet Reference.primitives 5) ∧
      ∀ now block, (offer Reference.primitives c [(0, junk 5)]).addBlock Reference.primitives now
        block = c.addBlock Reference.primitives now block := by
  have hrun : (fromGenesis Reference.primitives genesis).toOption.any
      (fun c => rejects c 5 && decide (5 % c.genesisConfig.epochLen ≠ 0)) = true := by
    decide +kernel
  obtain ⟨c, hc, hrej⟩ := Outcome.ok_of_any hrun
  rw [Bool.and_eq_true, decide_eq_true_eq] at hrej
  obtain ⟨e, he⟩ := rejects_iff hrej.1
  have hquiet : c.Quiet Reference.primitives 5 := .inr (.inl hrej.2)
  refine ⟨c, hc, e, he, (rejected_traceless_iff Reference.primitives c).1 0 (junk 5) e he, ?_⟩
  refine (rejected_traceless_iff Reference.primitives c).2 [(0, junk 5)] ⟨⟨e, he⟩, trivial⟩ ?_
  intro b hb
  rw [List.mem_singleton] at hb
  subst hb
  exact hquiet

open RejectionSample in
/-- The junk block of height 32 is rejected by a fresh chain and leaves it a snapshot of the
genesis stakes for epoch 1. -/
theorem rejected_boundary_leaves_snapshot :
    ¬ ∀ (P : Primitives) (g : GenesisConfig) (c : Blockchain), fromGenesis P g = .ok c →
        ∀ (now : Int) (block : Block) (e : ChainError), (c.addBlock P now block).1 = .error e →
          (c.addBlock P now block).2.epochSnapshots = c.epochSnapshots := by
  intro h
  have hrun : (fromGenesis Reference.primitives genesis).toOption.any
      (fun c => rejects c 32 && decide ((c.addBlock Reference.primitives 0
        (junk 32)).2.epochSnapshots ≠ c.epochSnapshots)) = true := by
    decide +kernel
  obtain ⟨c, hc, hrej⟩ := Outcome.ok_of_any hrun
  rw [Bool.and_eq_true, decide_eq_true_eq] at hrej
  obtain ⟨e, he⟩ := rejects_iff hrej.1
  exact hrej.2 (h Reference.primitives genesis c hc 0 (junk 32) e he)

end Curs3d
