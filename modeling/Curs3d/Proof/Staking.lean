import Curs3d.Contracts.Staking

/-!
# What stakers earn

The contract keeps one time an account, that of its last checkpoint, and prices everything since then at the
rate of the moment it is asked. A change of the rate therefore reaches back to the last checkpoint of every
staker. The ledger of one account (`Book`) counts two sums over its history: stake and duration at the rate that was in
force, and at the rate at the end of each interval between checkpoints. The second is what the contract
pays, less what it rounds down at each checkpoint; the first is the same where no rate change reaches back
(`rewards_at_checkpoint_rate`).
-/

set_option autoImplicit false

namespace Curs3d
namespace Curs3dStaking

open Solidity

variable {s s' : Curs3dStaking} {account sender : Address} {timestamp paid pending amount : Nat}
  {c : Call} {calls : List Call}

/-! ## What the calls do -/

/-- What an account's stake is worth in a second, in wads. -/
def flow (s : Curs3dStaking) (account : Address) : Nat :=
  s.stakedBalance account * s.rewardRatePerSecond

theorem pendingRewards_eq_ok (h : s.pendingRewards timestamp account = .ok pending) :
    pending = s.rewardDebt account +
      s.flow account * (timestamp - s.lastUpdate account) / wad := by
  unfold pendingRewards at h
  split at h
  · next hzero =>
    cases h
    rw [flow, hzero, Nat.zero_mul, Nat.zero_mul, Nat.zero_div, Nat.add_zero]
  · simp only [Outcome.except_bind_eq_ok, sub_eq_ok, mul_eq_ok, add_eq_ok] at h
    obtain ⟨-, ⟨-, rfl⟩, -, ⟨-, rfl⟩, -, ⟨-, rfl⟩, -, rfl⟩ := h
    rfl

theorem checkpoint_eq_ok (h : s.checkpoint timestamp account = .ok s') :
    ∃ pending, s.pendingRewards timestamp account = .ok pending ∧
      s' = { s with
        rewardDebt := Function.update s.rewardDebt account pending
        lastUpdate := Function.update s.lastUpdate account timestamp } := by
  simp only [checkpoint, Outcome.except_bind_eq_ok, pure, Except.pure, Except.ok.injEq] at h
  obtain ⟨pending, hpending, rfl⟩ := h
  exact ⟨pending, hpending, rfl⟩

/-- What a checkpoint of `sender` leaves, with whatever follows it in the call. -/
structure Settled (s : Curs3dStaking) (sender : Address) (timestamp : Nat) (paid : Nat)
    (s' : Curs3dStaking) : Prop where
  rate : s'.rewardRatePerSecond = s.rewardRatePerSecond
  lastUpdate : s'.lastUpdate = Function.update s.lastUpdate sender timestamp
  rewardDebt : ∃ debt, s'.rewardDebt = Function.update s.rewardDebt sender debt ∧
    s.pendingRewards timestamp sender = .ok (paid + debt)
  stakedBalance : ∃ staked, s'.stakedBalance = Function.update s.stakedBalance sender staked

/-- After its checkpoint a call changes no more than the sender's stake. -/
theorem settled_of_checkpoint {after : Curs3dStaking} {staked : Nat}
    (h : s.checkpoint timestamp sender = .ok after)
    (hafter : s' = { after with
      token := s'.token
      totalStaked := s'.totalStaked
      stakedBalance := Function.update after.stakedBalance sender staked }) :
    Settled s sender timestamp 0 s' := by
  obtain ⟨pending, hpending, rfl⟩ := checkpoint_eq_ok h
  rw [hafter]
  refine ⟨rfl, rfl, ⟨pending, rfl, ?_⟩, ⟨staked, rfl⟩⟩
  rw [Nat.zero_add]
  exact hpending

theorem settled_stake (h : s.stake sender timestamp amount = .ok s') :
    Settled s sender timestamp 0 s' := by
  simp only [stake, Outcome.except_bind_eq_ok, require_eq_ok, add_eq_ok, bubble_eq_ok, pure,
    Except.pure, Except.ok.injEq] at h
  obtain ⟨-, -, -, -, after, hcheckpoint, -, ⟨-, rfl⟩, -, ⟨-, rfl⟩, token, -, rfl⟩ := h
  exact settled_of_checkpoint hcheckpoint rfl

theorem settled_unstake (h : s.unstake sender timestamp amount = .ok s') :
    Settled s sender timestamp 0 s' := by
  simp only [unstake, Outcome.except_bind_eq_ok, require_eq_ok, sub_eq_ok, bubble_eq_ok, pure,
    Except.pure, Except.ok.injEq] at h
  obtain ⟨-, -, -, -, after, hcheckpoint, -, ⟨-, rfl⟩, -, ⟨-, rfl⟩, token, -, rfl⟩ := h
  exact settled_of_checkpoint hcheckpoint rfl

theorem settled_claimRewards (h : s.claimRewards sender timestamp = .ok (paid, s')) :
    Settled s sender timestamp paid s' := by
  simp only [claimRewards, Outcome.except_bind_eq_ok, require_eq_ok] at h
  obtain ⟨-, -, s₁, hcheckpoint, h⟩ := h
  obtain ⟨pending, hpending, rfl⟩ := checkpoint_eq_ok hcheckpoint
  split at h
  · next hzero =>
    simp only [pure, Except.pure, Except.ok.injEq, Prod.mk.injEq] at h
    obtain ⟨rfl, rfl⟩ := h
    exact ⟨rfl, rfl, ⟨pending, rfl, by rw [Nat.zero_add]; exact hpending⟩,
      ⟨_, (Function.update_eq_self sender s.stakedBalance).symm⟩⟩
  · simp only [Outcome.except_bind_eq_ok, bubble_eq_ok, pure, Except.pure, Except.ok.injEq,
      Prod.mk.injEq] at h
    obtain ⟨token, -, rfl, rfl⟩ := h
    refine ⟨rfl, rfl, ⟨0, ?_, ?_⟩, ⟨_, (Function.update_eq_self sender s.stakedBalance).symm⟩⟩
    · exact Function.update_idem _ _ _
    · show s.pendingRewards timestamp sender = .ok (Function.update s.rewardDebt sender pending sender + 0)
      rw [Function.update_self]
      exact hpending

/-- What the other calls leave of the accounts: everything. -/
structure Untouched (s s' : Curs3dStaking) : Prop where
  lastUpdate : s'.lastUpdate = s.lastUpdate
  rewardDebt : s'.rewardDebt = s.rewardDebt
  stakedBalance : s'.stakedBalance = s.stakedBalance

/-- A call that pays nothing. -/
theorem unpaid_eq_ok {x : Result Curs3dStaking} (h : (do return (0, ← x)) = Except.ok (paid, s')) :
    paid = 0 ∧ x = .ok s' := by
  simp only [Outcome.except_bind_eq_ok, pure, Except.pure, Except.ok.injEq, Prod.mk.injEq] at h
  obtain ⟨after, hx, rfl, rfl⟩ := h
  exact ⟨rfl, hx⟩

/-- **What a call does to the rewards.** -/
theorem perform_cases (h : s.perform c = .ok (paid, s')) :
    (c.action.checkpoints = true ∧ Settled s c.sender c.timestamp paid s') ∨
    (c.action.checkpoints = false ∧ Untouched s s') := by
  obtain ⟨sender, timestamp, action⟩ := c
  cases action with
  | stake amount =>
    obtain ⟨rfl, hstake⟩ := unpaid_eq_ok h
    exact Or.inl ⟨rfl, settled_stake hstake⟩
  | unstake amount =>
    obtain ⟨rfl, hunstake⟩ := unpaid_eq_ok h
    exact Or.inl ⟨rfl, settled_unstake hunstake⟩
  | claimRewards => exact Or.inl ⟨rfl, settled_claimRewards h⟩
  | setRewardRate rate =>
    obtain ⟨-, h⟩ := unpaid_eq_ok h
    simp only [setRewardRate, Outcome.except_bind_eq_ok, require_eq_ok] at h
    obtain ⟨-, -, -, -, ⟨⟩⟩ := h
    exact Or.inr ⟨rfl, rfl, rfl, rfl⟩
  | pause =>
    obtain ⟨-, h⟩ := unpaid_eq_ok h
    simp only [pause, Outcome.except_bind_eq_ok, require_eq_ok] at h
    obtain ⟨-, -, -, -, ⟨⟩⟩ := h
    exact Or.inr ⟨rfl, rfl, rfl, rfl⟩
  | unpause =>
    obtain ⟨-, h⟩ := unpaid_eq_ok h
    simp only [unpause, Outcome.except_bind_eq_ok, require_eq_ok] at h
    obtain ⟨-, -, -, -, ⟨⟩⟩ := h
    exact Or.inr ⟨rfl, rfl, rfl, rfl⟩
  | transferOwnership newOwner =>
    obtain ⟨-, h⟩ := unpaid_eq_ok h
    simp only [transferOwnership, Outcome.except_bind_eq_ok, require_eq_ok] at h
    obtain ⟨-, -, -, -, ⟨⟩⟩ := h
    exact Or.inr ⟨rfl, rfl, rfl, rfl⟩
  | renounceOwnership =>
    obtain ⟨-, h⟩ := unpaid_eq_ok h
    simp only [renounceOwnership, Outcome.except_bind_eq_ok, require_eq_ok] at h
    obtain ⟨-, -, ⟨⟩⟩ := h
    exact Or.inr ⟨rfl, rfl, rfl, rfl⟩
  | token call =>
    simp only [perform, Outcome.except_bind_eq_ok, bubble_eq_ok, pure, Except.pure,
      Except.ok.injEq, Prod.mk.injEq] at h
    obtain ⟨token, -, -, rfl⟩ := h
    exact Or.inr ⟨rfl, rfl, rfl, rfl⟩

/-! ## The history of one account -/

/-- What an account has to its credit, kept beside the contract. The sums are in wads. -/
structure Book where
  staking : Curs3dStaking
  /-- The time of the last call. -/
  now : Nat
  /-- The time of the account's last checkpoint. -/
  since : Nat
  claimed : Nat := 0
  checkpoints : Nat := 0
  /-- Stake, duration and the rate at the end, over the intervals between checkpoints. -/
  closed : Nat := 0
  /-- Stake, duration and the rate in force, over the intervals between calls. -/
  inForce : Nat := 0

namespace Book

variable {b : Book}

def flow (b : Book) (account : Address) : Nat := b.staking.flow account

/-- Time passes. -/
def advance (account : Address) (t : Nat) (b : Book) : Book :=
  { b with now := t, inForce := b.inForce + b.flow account * (t - b.now) }

/-- A call of any account. -/
def record (account : Address) (b : Book) (c : Call) : Book :=
  let b := b.advance account c.timestamp
  match b.staking.perform c with
  | .error _ => b
  | .ok (paid, staking) =>
    if c.sender = account ∧ c.action.checkpoints then
      { b with
        staking
        since := c.timestamp
        claimed := b.claimed + paid
        checkpoints := b.checkpoints + 1
        closed := b.closed + b.flow account * (c.timestamp - b.since) }
    else { b with staking }

def run (account : Address) (b : Book) (calls : List Call) : Book := calls.foldl (record account) b

/-- The sums at `stop`, with the interval that is not over. -/
def closedAt (b : Book) (account : Address) (stop : Nat) : Nat :=
  b.closed + b.flow account * (stop - b.since)

def inForceAt (b : Book) (account : Address) (stop : Nat) : Nat :=
  b.inForce + b.flow account * (stop - b.now)

/-- Calls come in the order of their times, none before `now`. -/
def Chronological (now : Nat) : List Call → Prop
  | [] => True
  | c :: rest => now ≤ c.timestamp ∧ Chronological c.timestamp rest

/-- No rate change reaches back: the rate stays, the account has no stake, or its last checkpoint is at
the same time. -/
def RatesSettled (account : Address) : Book → List Call → Prop
  | _, [] => True
  | b, c :: rest =>
    ((b.record account c).staking.rewardRatePerSecond = b.staking.rewardRatePerSecond ∨
      b.staking.stakedBalance account = 0 ∨ b.staking.lastUpdate account = c.timestamp) ∧
    RatesSettled account (b.record account c) rest

/-- **A call, as the account sees it**: it fails, or settles the account's rewards, or leaves them. -/
theorem record_cases (b : Book) (account : Address) (c : Call) :
    b.record account c = b.advance account c.timestamp ∨
    (∃ paid staking, Settled b.staking account c.timestamp paid staking ∧
      b.record account c = { b.advance account c.timestamp with
        staking
        since := c.timestamp
        claimed := b.claimed + paid
        checkpoints := b.checkpoints + 1
        closed := b.closed + b.flow account * (c.timestamp - b.since) }) ∨
    (∃ staking : Curs3dStaking, (staking.rewardDebt account = b.staking.rewardDebt account ∧
        staking.stakedBalance account = b.staking.stakedBalance account ∧
        staking.lastUpdate account = b.staking.lastUpdate account) ∧
      b.record account c = { b.advance account c.timestamp with staking }) := by
  unfold Book.record
  dsimp only
  split
  · exact Or.inl rfl
  next paid staking hperform =>
  refine Or.inr ?_
  split
  · next hown =>
    refine Or.inl ⟨paid, staking, ?_, rfl⟩
    rcases perform_cases hperform with ⟨-, hsettled⟩ | ⟨hnone, -⟩
    · exact hown.1 ▸ hsettled
    · exact absurd (hown.2.symm.trans hnone) (by simp)
  · next hother =>
    refine Or.inr ⟨staking, ?_, rfl⟩
    rcases perform_cases hperform with ⟨hcheckpoints, hsettled⟩ | ⟨-, huntouched⟩
    · have hne : account ≠ c.sender := fun heq => hother ⟨heq.symm, hcheckpoints⟩
      obtain ⟨debt, hdebt, -⟩ := hsettled.rewardDebt
      obtain ⟨staked, hstaked⟩ := hsettled.stakedBalance
      rw [hdebt, hstaked, hsettled.lastUpdate, Function.update_of_ne hne, Function.update_of_ne hne,
        Function.update_of_ne hne]
      exact ⟨rfl, rfl, rfl⟩
    · rw [huntouched.rewardDebt, huntouched.stakedBalance, huntouched.lastUpdate]
      exact ⟨rfl, rfl, rfl⟩

/-! ## What the contract keeps -/

/-- What is paid and what is owed come to the closed sum but for the rounding, of which the first
checkpoint has none: the account has no stake before it. -/
structure Kept (account : Address) (b : Book) : Prop where
  debt : ∃ lost, wad * (b.claimed + b.staking.rewardDebt account) + lost = b.closed ∧
    lost ≤ wad * (b.checkpoints - 1)
  first : b.checkpoints = 0 → b.staking.stakedBalance account = 0
  last : b.staking.stakedBalance account ≠ 0 → b.staking.lastUpdate account = b.since
  past : b.since ≤ b.now

/-- What is due at `stop`, and what the last division drops. -/
theorem Kept.due (h : Kept account b) {stop : Nat}
    (hpending : b.staking.pendingRewards stop account = .ok pending) :
    ∃ lost, wad * (b.claimed + pending) + lost = b.closedAt account stop ∧
      lost ≤ wad * b.checkpoints := by
  obtain ⟨lost, hsum, hlost⟩ := h.debt
  have hvalue := pendingRewards_eq_ok hpending
  by_cases hstake : b.staking.stakedBalance account = 0
  · have hflow : b.staking.flow account = 0 := by rw [Curs3dStaking.flow, hstake, Nat.zero_mul]
    rw [hflow, Nat.zero_mul, Nat.zero_div, Nat.add_zero] at hvalue
    refine ⟨lost, ?_, hlost.trans (Nat.mul_le_mul_left _ (Nat.sub_le _ _))⟩
    rw [closedAt, flow, hflow, Nat.zero_mul, Nat.add_zero, hvalue]
    exact hsum
  · have hcheckpoints : 0 < b.checkpoints :=
      Nat.pos_of_ne_zero fun hzero => hstake (h.first hzero)
    rw [h.last hstake] at hvalue
    have hdivision := Nat.div_add_mod (b.staking.flow account * (stop - b.since)) wad
    have hdropped : b.staking.flow account * (stop - b.since) % wad < wad :=
      Nat.mod_lt _ (by decide)
    refine ⟨lost + b.staking.flow account * (stop - b.since) % wad, ?_, ?_⟩
    · rw [closedAt, flow, hvalue, ← hsum]
      simp only [Nat.mul_add] at hdivision ⊢
      omega
    · have hone : wad * b.checkpoints = wad * (b.checkpoints - 1) + wad := by
        rw [← Nat.mul_succ, Nat.succ_eq_add_one, Nat.sub_add_cancel hcheckpoints]
      omega

theorem Kept.advance (h : Kept account b) {t : Nat} (ht : b.now ≤ t) :
    Kept account (b.advance account t) :=
  ⟨h.debt, h.first, h.last, h.past.trans ht⟩

theorem Kept.record (h : Kept account b) (ht : b.now ≤ c.timestamp) :
    Kept account (b.record account c) := by
  have hb := h.advance (t := c.timestamp) ht
  rcases b.record_cases account c with heq | ⟨paid, staking, hsettled, heq⟩ |
    ⟨staking, ⟨hdebt, hstaked, hlast⟩, heq⟩ <;> rw [heq]
  · exact hb
  · obtain ⟨debt, hdebt, hpending⟩ := hsettled.rewardDebt
    obtain ⟨lost, hsum, hlost⟩ := hb.due hpending
    constructor
    · refine ⟨lost, ?_, hlost⟩
      show wad * (b.claimed + paid + staking.rewardDebt account) + lost = _
      rw [hdebt, Function.update_self, Nat.add_assoc]
      exact hsum
    · intro hzero
      exact absurd hzero (Nat.succ_ne_zero _)
    · intro _
      show staking.lastUpdate account = c.timestamp
      rw [hsettled.lastUpdate, Function.update_self]
    · exact Nat.le_refl _
  · constructor
    · show ∃ lost, wad * (b.claimed + staking.rewardDebt account) + lost = b.closed ∧ _
      rw [hdebt]
      exact h.debt
    · show b.checkpoints = 0 → staking.stakedBalance account = 0
      rw [hstaked]
      exact h.first
    · show staking.stakedBalance account ≠ 0 → staking.lastUpdate account = b.since
      rw [hstaked, hlast]
      exact h.last
    · exact hb.past

/-- The two sums agree up to now. -/
def Agreed (account : Address) (b : Book) : Prop :=
  b.inForce = b.closed + b.flow account * (b.now - b.since)

theorem Agreed.inForceAt_eq (h : Agreed account b) (hb : Kept account b) {stop : Nat}
    (hstop : b.now ≤ stop) : b.inForceAt account stop = b.closedAt account stop := by
  have hpast := hb.past
  have hsplit : stop - b.since = (b.now - b.since) + (stop - b.now) := by omega
  rw [inForceAt, closedAt, h, hsplit, Nat.mul_add, Nat.add_assoc]

theorem Agreed.advance (h : Agreed account b) (hb : Kept account b) {t : Nat} (ht : b.now ≤ t) :
    Agreed account (b.advance account t) := h.inForceAt_eq hb ht

/-- **One call** keeps the sums together, unless it changes a rate that was in force since a
checkpoint. -/
theorem Agreed.record (h : Agreed account b) (hb : Kept account b) (ht : b.now ≤ c.timestamp)
    (hrate : (b.record account c).staking.rewardRatePerSecond = b.staking.rewardRatePerSecond ∨
      b.staking.stakedBalance account = 0 ∨ b.staking.lastUpdate account = c.timestamp) :
    Agreed account (b.record account c) := by
  have hnow := h.advance hb (t := c.timestamp) ht
  rcases b.record_cases account c with heq | ⟨paid, staking, hsettled, heq⟩ |
    ⟨staking, ⟨-, hstaked, -⟩, heq⟩ <;> rw [heq] at hrate ⊢
  · exact hnow
  · -- a checkpoint closes the interval
    show (b.advance account c.timestamp).inForce = _ + _ * (c.timestamp - c.timestamp)
    rw [Nat.sub_self, Nat.mul_zero, Nat.add_zero]
    exact hnow
  · have hflow : staking.flow account * (c.timestamp - b.since) =
        b.flow account * (c.timestamp - b.since) := by
      show staking.stakedBalance account * staking.rewardRatePerSecond * _ =
        b.staking.stakedBalance account * b.staking.rewardRatePerSecond * _
      rw [hstaked]
      by_cases hstake : b.staking.stakedBalance account = 0
      · simp only [hstake, Nat.zero_mul]
      · rcases hrate with hsame | hzero | hlast
        · rw [hsame]
        · exact absurd hzero hstake
        · rw [← hb.last hstake, hlast, Nat.sub_self, Nat.mul_zero, Nat.mul_zero]
    exact hnow.trans (congrArg (b.closed + ·) hflow.symm)

/-! ## Runs -/

theorem now_record : (b.record account c).now = c.timestamp := by
  unfold Book.record
  dsimp only
  split
  · rfl
  · split <;> rfl

theorem Kept.run (h : Kept account b) (hcalls : Chronological b.now calls) :
    Kept account (b.run account calls) := by
  induction calls generalizing b with
  | nil => exact h
  | cons c calls ih =>
    obtain ⟨ht, hrest⟩ := hcalls
    exact ih (h.record ht) (by rw [now_record]; exact hrest)

theorem Agreed.run (h : Agreed account b) (hb : Kept account b) (hcalls : Chronological b.now calls)
    (hrates : RatesSettled account b calls) : Agreed account (b.run account calls) := by
  induction calls generalizing b with
  | nil => exact h
  | cons c calls ih =>
    obtain ⟨ht, hrest⟩ := hcalls
    obtain ⟨hrate, hsettled⟩ := hrates
    exact ih (h.record hb ht hrate) (hb.record ht) (by rw [now_record]; exact hrest) hsettled

/-- The book of a contract just deployed. -/
def opened (staking : Curs3dStaking) (start : Nat) : Book := { staking, now := start, since := start }

theorem stake_deploy {self tokenAddress owner : Address} {token : Curs3dToken} {rate : Nat}
    (h : deploy self tokenAddress token rate owner = .ok s) :
    s.stakedBalance = (fun _ => 0) ∧ s.rewardDebt = fun _ => 0 := by
  simp only [deploy, Outcome.except_bind_eq_ok, require_eq_ok, pure, Except.pure,
    Except.ok.injEq] at h
  obtain ⟨-, -, -, -, -, -, rfl⟩ := h
  exact ⟨rfl, rfl⟩

theorem kept_opened {start : Nat} (hstake : s.stakedBalance = fun _ => 0)
    (hdebt : s.rewardDebt = fun _ => 0) : Kept account (opened s start) where
  debt := by
    refine ⟨0, ?_, Nat.zero_le _⟩
    show wad * (0 + s.rewardDebt account) + 0 = 0
    rw [hdebt]
    rfl
  first := fun _ => by
    show s.stakedBalance account = 0
    rw [hstake]
  last := fun hne => absurd (by rw [opened, hstake]) hne
  past := Nat.le_refl _

/-- A sum that is met but for less than a wei a checkpoint. -/
theorem abs_sub_le_of_lost {total exact lost n : Nat} (h : wad * total + lost = exact)
    (hlost : lost ≤ wad * n) : |(total : ℚ) - (exact : ℚ) / wad| ≤ n := by
  have hwad : (0 : ℚ) < (wad : ℚ) := by
    unfold wad
    norm_num
  have hexact : (exact : ℚ) / wad = total + (lost : ℚ) / wad := by
    rw [← h]
    push_cast
    field_simp
  have hpart : (lost : ℚ) / wad ≤ n := by
    rw [div_le_iff₀ hwad]
    calc (lost : ℚ) ≤ ((wad * n : Nat) : ℚ) := by exact_mod_cast hlost
      _ = n * wad := by push_cast; ring
  rw [hexact, sub_add_cancel_left, abs_neg, abs_of_nonneg (by positivity)]
  exact hpart

end Book

/-- **What an account gets is its stake at the rate of each next checkpoint**, to a wei a checkpoint; and
that is its stake at the rate in force, where no rate change reaches back. -/
theorem rewards_at_checkpoint_rate {self tokenAddress owner : Address} {token : Curs3dToken}
    {rate : Nat} {s : Curs3dStaking} (hdeploy : deploy self tokenAddress token rate owner = .ok s)
    (account : Address) (start : Nat) (calls : List Call) (hcalls : Book.Chronological start calls)
    (stop : Nat) (hstop : ((Book.opened s start).run account calls).now ≤ stop) (pending : Nat)
    (hpending : ((Book.opened s start).run account calls).staking.pendingRewards stop account =
      .ok pending) :
    |((((Book.opened s start).run account calls).claimed + pending : Nat) : ℚ) -
        (((Book.opened s start).run account calls).closedAt account stop : ℚ) / wad| ≤
        ((Book.opened s start).run account calls).checkpoints ∧
      (Book.RatesSettled account (Book.opened s start) calls →
        |((((Book.opened s start).run account calls).claimed + pending : Nat) : ℚ) -
          (((Book.opened s start).run account calls).inForceAt account stop : ℚ) / wad| ≤
          ((Book.opened s start).run account calls).checkpoints) := by
  obtain ⟨hstake, hdebt⟩ := Book.stake_deploy hdeploy
  have hopened : Book.Kept account (Book.opened s start) := Book.kept_opened hstake hdebt
  have hkept := hopened.run hcalls
  obtain ⟨lost, hsum, hlost⟩ := hkept.due hpending
  have hclosed := Book.abs_sub_le_of_lost hsum hlost
  refine ⟨hclosed, ?_⟩
  intro hrates
  have hstart : Book.Agreed account (Book.opened s start) := by
    show 0 = 0 + _ * (start - start)
    rw [Nat.sub_self]
    rfl
  rw [(hstart.run hopened hcalls hrates).inForceAt_eq hkept hstop]
  exact hclosed

namespace StakingSample

/-- Account 2 has one token and has approved the staking contract, which may mint. -/
def token : Curs3dToken where
  owner := 1
  cap := 10 ^ 30
  minters := fun account => account == 9
  ledger :=
    { balances := (∅ : Std.ExtTreeMap Address Nat compare).insert 2 (10 ^ 18)
      allowance := fun owner spender => if owner = 2 ∧ spender = 9 then 10 ^ 18 else 0 }

/-- A tenth of a percent a second. -/
def staking : Curs3dStaking where
  self := 9
  owner := 1
  tokenAddress := 8
  token := token
  rewardRatePerSecond := 10 ^ 15

/-- Account 2 stakes its token, and claims what a hundred seconds bring before the rate falls. -/
def settledCalls : List Call :=
  [⟨2, 0, .stake (10 ^ 18)⟩, ⟨2, 100, .claimRewards⟩, ⟨1, 100, .setRewardRate 0⟩]

/-- The same without the claim. -/
def unsettledCalls : List Call :=
  [⟨2, 0, .stake (10 ^ 18)⟩, ⟨1, 100, .setRewardRate 0⟩]

def book (calls : List Call) : Book := (Book.opened staking 0).run 2 calls

theorem deployed : deploy 9 8 token (10 ^ 15) 1 = .ok staking := rfl

end StakingSample

open StakingSample in
theorem rewards_at_checkpoint_rate_sample :
    |(((book settledCalls).claimed + 0 : Nat) : ℚ) -
        ((book settledCalls).closedAt 2 200 : ℚ) / wad| ≤ (book settledCalls).checkpoints ∧
      |(((book settledCalls).claimed + 0 : Nat) : ℚ) -
        ((book settledCalls).inForceAt 2 200 : ℚ) / wad| ≤ (book settledCalls).checkpoints := by
  have h := rewards_at_checkpoint_rate deployed 2 0 settledCalls
    ⟨by decide, by decide, by decide, trivial⟩ 200 (by decide +kernel) 0 rfl
  exact ⟨h.1, h.2 ⟨Or.inl rfl, Or.inl rfl, Or.inr (Or.inr rfl), trivial⟩⟩

open StakingSample in
/-- A tenth of a token was due before the rate fell, and nothing after it. -/
theorem rate_change_reaches_back :
    ((book (unsettledCalls.take 1)).staking.pendingRewards 100 2 = .ok (10 ^ 17) ∧
      (book unsettledCalls).staking.pendingRewards 100 2 = .ok 0) ∧
    (Book.Chronological 0 unsettledCalls ∧ (book unsettledCalls).now ≤ 100) ∧
    ¬ |(((book unsettledCalls).claimed + 0 : Nat) : ℚ) -
        ((book unsettledCalls).inForceAt 2 100 : ℚ) / wad| ≤ (book unsettledCalls).checkpoints := by
  refine ⟨⟨rfl, rfl⟩, ⟨⟨by decide, by decide, trivial⟩, by decide +kernel⟩, ?_⟩
  have hclaimed : (book unsettledCalls).claimed = 0 := by decide +kernel
  have hinForce : (book unsettledCalls).inForceAt 2 100 = 10 ^ 17 * wad := by decide +kernel
  have hcheckpoints : (book unsettledCalls).checkpoints = 1 := by decide +kernel
  rw [hclaimed, hinForce, hcheckpoints, wad]
  norm_num

end Curs3dStaking
end Curs3d
