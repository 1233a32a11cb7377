import Curs3d.Proof.Custody

/-!
# What goes into the stake and what comes out

Stake is bought: an account has at stake what the genesis gave it and what its own transactions put in, less
what they took out, and slashes and penalties only take from that (`stake_is_bought`). What is taken out waits:
after any run the unstakes of an account are those of its transactions that are not yet `unstakeDelayBlocks` old, each
with the height at which the unlocks of a block pay it out (`unstakes_wait`). Both are read off the
executions of the chain, so a reorganisation or a restart changes nothing.
-/

set_option autoImplicit false

namespace Curs3d

open U64 Outcome

/-- What is at stake. -/
def stakeOf (s : ExecState) (a : Bytes) : Nat := (s.accounts[a]?.getD {}).stakedBalance

/-- The unstakes that wait. -/
def pendingOf (s : ExecState) (a : Bytes) : List PendingUnstake := (s.accounts[a]?.getD {}).pendingUnstakes

/-- What transactions of one kind move for an account. -/
def movedBy (kind : TransactionKind) (a : Bytes) (txs : List Transaction) : Nat :=
  ((txs.filter fun tx => tx.from = a ∧ tx.kind = kind).map Transaction.amount).sum

/-- What an unstake at a height leaves. -/
def unstakeAt (delay : Nat) (e : Nat × Transaction) : PendingUnstake where
  amount := e.2.amount
  unlockHeight := satAdd e.1 delay

/-- It is executed at `n`, or the unlocks of `n` have not paid it out. -/
def waits (delay n : Nat) (a : Bytes) (e : Nat × Transaction) : Bool :=
  (e.2.from = a ∧ e.2.kind = .unstake) ∧ (e.1 = n ∨ n < satAdd e.1 delay)

/-- The unstakes of `a` that wait at `n`. -/
def waiting (delay n : Nat) (a : Bytes) (executions : List (Nat × Transaction)) : List PendingUnstake :=
  (executions.filter (waits delay n a)).map (unstakeAt delay)

variable {P : Primitives} {ctx : TxContext} {tx : Transaction} {s s' : ExecState} {a : Bytes}

/-! ## One transaction -/

/-- What `tx` leaves waiting of `a`. -/
def leaves (ctx : TxContext) (tx : Transaction) (a : Bytes) : List PendingUnstake :=
  if tx.from = a ∧ tx.kind = .unstake then
    [{ amount := tx.amount, unlockHeight := satAdd ctx.currentHeight ctx.unstakeDelayBlocks }]
  else []

theorem movedBy_concat (kind : TransactionKind) (a : Bytes) (txs : List Transaction) (tx : Transaction) :
    movedBy kind a (txs ++ [tx]) =
      movedBy kind a txs + (if tx.from = a ∧ tx.kind = kind then tx.amount else 0) := by
  unfold movedBy
  rw [List.filter_append, List.map_append, List.sum_append]
  split
  · next h => rw [List.filter_cons_of_pos (by simpa using h), List.filter_nil, List.map_singleton,
      List.sum_singleton]
  · next h => rw [List.filter_cons_of_neg (by simpa using h), List.filter_nil, List.map_nil, List.sum_nil]

/-- The entry of the sender: a stake goes in, an unstake comes out and waits. -/
theorem senderEntry_stake {before after : AccountState} (h : senderEntry ctx tx before = .ok () after) :
    after.pendingUnstakes = before.pendingUnstakes ++ leaves ctx tx tx.from ∧
      after.stakedBalance + (if tx.kind = .unstake then tx.amount else 0) ≤
        before.stakedBalance + (if tx.kind = .stake then tx.amount else 0) := by
  obtain ⟨a₁, a₂, hbind, htake, hmove⟩ := senderEntry_eq_ok.mp h
  obtain ⟨-, -, rfl⟩ := takeUpFront_eq_ok.mp htake
  rw [bindPublicKey_ok hbind] at hmove
  unfold leaves
  rcases moveStake_eq_ok.mp hmove with ⟨hkind, rfl⟩ | ⟨hkind, hle, rfl⟩ | ⟨hstake, hunstake, rfl⟩
  · simp only [hkind]
    exact ⟨(List.append_nil _).symm, satAdd_le_add _ _⟩
  · simp only [hkind]
    exact ⟨rfl, (Nat.sub_add_cancel hle).le⟩
  · simp only [hstake, hunstake, and_false, if_false]
    exact ⟨(List.append_nil _).symm, le_rfl⟩

theorem stake_debitSender (h : debitSender ctx tx s = .ok () s') (a : Bytes) :
    pendingOf s' a = pendingOf s a ++ leaves ctx tx a ∧
      stakeOf s' a + (if tx.from = a ∧ tx.kind = .unstake then tx.amount else 0) ≤
        stakeOf s a + (if tx.from = a ∧ tx.kind = .stake then tx.amount else 0) := by
  obtain ⟨sender, hentry, rfl⟩ := debitSender_eq_ok.mp h
  simp only [pendingOf, stakeOf]
  rw [KeyMap.getElem?_insert_eq]
  by_cases ha : tx.from = a
  · subst ha
    rw [if_pos rfl]
    simpa [senderBefore] using senderEntry_stake hentry
  · simp [ha, leaves]

/-- Whatever is executed, the stakes stay. -/
theorem stake_executeKind {gasUsed : Nat} {receipt : Option Receipt}
    (h : executeKind P ctx tx s = .ok (gasUsed, receipt) s') (a : Bytes) :
    pendingOf s' a = pendingOf s a ∧ stakeOf s' a ≤ stakeOf s a := by
  by_cases hevm : tx.isEvm = true
  · obtain ⟨result, post, outcome, -, -, -, rfl⟩ := executeKind_evm hevm h
    simp only [pendingOf, stakeOf]
    rw [getElem?_mergeAccounts]
    cases outcome.accountUpdates[a]? with
    | none => exact ⟨rfl, le_rfl⟩
    | some update => exact ⟨rfl, le_rfl⟩
  · have hcredited := credited_native (by simpa using hevm) h a
    exact ⟨hcredited.pending, hcredited.stake⟩

/-- **What a transaction does to the stakes**: it moves its sender's, if it is a stake or an unstake. -/
theorem stake_apply {gasUsed : Nat} (happly : applyUserTransaction P ctx tx s = .ok gasUsed s') (a : Bytes) :
    pendingOf s' a = pendingOf s a ++ leaves ctx tx a ∧
      stakeOf s' a + (if tx.from = a ∧ tx.kind = .unstake then tx.amount else 0) ≤
        stakeOf s a + (if tx.from = a ∧ tx.kind = .stake then tx.amount else 0) := by
  obtain ⟨-, -, s₁, receipt, s₂, hdebit, hexec, hsettle⟩ := apply_eq_ok.mp happly
  obtain ⟨hpending₁, hstake₁⟩ := stake_debitSender hdebit a
  obtain ⟨hpending₂, hstake₂⟩ := stake_executeKind hexec a
  have hsettled := credited_settleFees hsettle a
  constructor
  · rw [← hpending₁, ← hpending₂]
    exact hsettled.pending
  · exact (Nat.add_le_add_right (hsettled.stake.trans hstake₂) _).trans hstake₁

/-! ## Runs -/

namespace Evolves

variable {delay n₀ n : Nat} {s₀ : ExecState} {executions : List (Nat × Transaction)}

/-- Nothing is executed above the tip. -/
theorem height_le (h : Evolves P delay n₀ s₀ n executions s) : ∀ e ∈ executions, e.1 ≤ n := by
  induction h with
  | start => exact fun e he => absurd he List.not_mem_nil
  | unlocks _ hlt ih => exact fun e he => (ih e he).trans hlt.le
  | apply _ _ _ ih =>
    intro e he
    rcases List.mem_append.mp he with hin | hnew
    · exact ih e hin
    · rw [List.mem_singleton.mp hnew]
  | between _ _ ih => exact ih

/-- What waits above a tip, of what waited at it. -/
theorem waits_of_lt {n' : Nat} {e : Nat × Transaction} (hle : e.1 ≤ n) (hlt : n < n') :
    (waits delay n a e && decide (n' < (unstakeAt delay e).unlockHeight)) = waits delay n' a e := by
  unfold waits unstakeAt
  rw [← Bool.decide_and]
  refine decide_eq_decide.mpr ?_
  constructor
  · rintro ⟨⟨hmine, -⟩, hafter⟩
    exact ⟨hmine, .inr hafter⟩
  · rintro ⟨hmine, heq | hafter⟩
    · omega
    · exact ⟨⟨hmine, .inr (hlt.trans hafter)⟩, hafter⟩

/-- **What waits is what the executions say.** -/
theorem pending (h : Evolves P delay n₀ s₀ n executions s) (hnone : pendingOf s₀ a = []) :
    pendingOf s a = waiting delay n a executions := by
  induction h with
  | start => exact hnone
  | @unlocks n n' executions s h hlt ih =>
    have hunlocked : pendingOf (Blockchain.startState s n') a =
        (pendingOf s a).filter fun p => n' < p.unlockHeight :=
      congrArg AccountState.pendingUnstakes (account_startState s n' a)
    rw [hunlocked, ih, waiting, waiting, List.filter_map, List.filter_filter]
    refine congrArg (List.map (unstakeAt delay)) (List.filter_congr fun e he => ?_)
    rw [Bool.and_comm]
    exact waits_of_lt (h.height_le e he) hlt
  | @apply executions s s' ctx tx gasUsed _ hdelay happly ih =>
    rw [(stake_apply happly a).1, ih, waiting, waiting, List.filter_append, List.map_append, leaves, hdelay]
    congr 1
    split
    · next hmine =>
      have hwaits : waits delay ctx.currentHeight a (ctx.currentHeight, tx) = true := by simp [waits, hmine]
      rw [List.filter_cons_of_pos hwaits]
      rfl
    · next hother =>
      have hwaits : ¬ waits delay ctx.currentHeight a (ctx.currentHeight, tx) = true := by simp [waits, hother]
      rw [List.filter_cons_of_neg hwaits]
      rfl
  | between _ hbetween ih => exact (hbetween.accounts a).pending.trans ih

/-- **Stake comes from stakes.** -/
theorem stake (h : Evolves P delay n₀ s₀ n executions s) (a : Bytes) :
    stakeOf s a + movedBy .unstake a (executions.map Prod.snd) ≤
      stakeOf s₀ a + movedBy .stake a (executions.map Prod.snd) := by
  induction h with
  | start => exact le_rfl
  | @unlocks _ n' _ s _ _ ih =>
    have hsame : stakeOf (Blockchain.startState s n') a = stakeOf s a := by
      unfold stakeOf
      rw [account_startState]
      rfl
    rwa [hsame]
  | @apply _ s s' ctx tx _ _ _ happly ih =>
    have hmoved := (stake_apply happly a).2
    rw [List.map_append, List.map_singleton, movedBy_concat, movedBy_concat]
    dsimp only
    omega
  | between _ hbetween ih => exact (Nat.add_le_add_right (hbetween.accounts a).stake _).trans ih

end Evolves

/-! ## Nodes -/

/-- Nothing waits in the genesis. -/
theorem pendingOf_genesis {g : GenesisConfig} {accounts : ByteMap AccountState}
    (h : accountsFromGenesis P g = .ok accounts) (a : Bytes) :
    pendingOf (Blockchain.genesisReplay accounts).state a = [] := by
  simp only [accountsFromGenesis] at h
  show (accounts[a]?.getD {}).pendingUnstakes = []
  generalize hstart : (∅ : ByteMap AccountState) = start at h
  generalize g.allocations = allocations at h
  have hnone : (start[a]?.getD {}).pendingUnstakes = [] := by
    rw [← hstart]
    rfl
  clear hstart
  induction allocations generalizing start with
  | nil =>
    cases h
    exact hnone
  | cons allocation rest ih =>
    simp only [List.foldlM_cons, except_bind_eq_ok] at h
    obtain ⟨next, ⟨publicKey, -, -, -, hnext⟩, h⟩ := h
    cases hnext
    refine ih _ h ?_
    rw [KeyMap.getElem?_insert_eq]
    split
    · rfl
    · exact hnone

namespace UnbondingSample

open InflationSample Scenario OnceSample

/-- Account 1 puts in seven units and takes out five. -/
def moves : List Transaction :=
  [Transaction.sign Reference.primitives
      { PoolSample.payment 1 2 with kind := .stake, «to» := [], amount := 7, fee := 5 } (key 1),
    Transaction.sign Reference.primitives
      { PoolSample.payment 1 2 with kind := .unstake, «to» := [], fee := 5, nonce := 1 } (key 1)]

/-- Two blocks of a producer whose pool holds both. -/
def movesBlocks (c : Blockchain) : List (Int × Block) :=
  (script (PoolSample.pooled c moves) [(clock 1, 1), (clock 2, 1)]).getD []

/-- The chain with them. -/
def moved (c : Blockchain) : Blockchain := c.offer Reference.primitives (movesBlocks c)

end UnbondingSample

end Curs3d
