import Curs3d.Proof.Conservation
import Curs3d.Proof.Linear
import Curs3d.Proof.Production

/-!
# The supply over whole runs

A block moves the supply in four places: unlocks move coins inside an account, a settlement mints
its rewards (and burns its penalties), a native transaction burns its fee, and the coinbase mints
the block reward and hands out the priority fees. The last is the one to watch: it is paid out of
fees that the same block charged, so what is needed is `fees + base fee * gas ≤ charged`, for the
block as a whole (`run_charges`).

Additions saturate, which only ever loses coins. The fee law of one transaction does need the
supply to fit in 64 bits, which the bound of the run provides.
-/

set_option autoImplicit false

namespace Curs3d

open U64 Outcome

/-! ## Unlocks -/

theorem foldl_released_le (l : List PendingUnstake) (n : Nat) :
    l.foldl (fun released p => satAdd released p.amount) n ≤
      n + (l.map PendingUnstake.amount).sum := by
  induction l generalizing n with
  | nil => simp
  | cons p rest ih =>
    have hstep := satAdd_le_add n p.amount
    have hrest := ih (satAdd n p.amount)
    rw [List.foldl_cons, List.map_cons, List.sum_cons]
    omega

/-- What is released and what stays pending is what was pending. -/
theorem sum_released_add_kept (l : List PendingUnstake) (height : Nat) :
    ((l.filter fun p => p.unlockHeight ≤ height).map PendingUnstake.amount).sum +
      ((l.filter fun p => height < p.unlockHeight).map PendingUnstake.amount).sum =
        (l.map PendingUnstake.amount).sum := by
  induction l with
  | nil => rfl
  | cons p rest ih =>
    by_cases h : p.unlockHeight ≤ height
    · have hnot : ¬ height < p.unlockHeight := by omega
      simp only [List.filter_cons, h, hnot, decide_true, decide_false, if_true, Bool.false_eq_true,
        if_false, List.map_cons, List.sum_cons]
      omega
    · have hlt : height < p.unlockHeight := by omega
      simp only [List.filter_cons, h, hlt, decide_true, decide_false, if_true, Bool.false_eq_true,
        if_false, List.map_cons, List.sum_cons]
      omega

theorem unlockAccount_total_le (height : Nat) (a : AccountState) :
    (unlockAccount height a).total ≤ a.total := by
  have hreleased := foldl_released_le
    (a.pendingUnstakes.filter fun p => p.unlockHeight ≤ height) 0
  have hsplit := sum_released_add_kept a.pendingUnstakes height
  have hsat := satAdd_le_add a.balance (releasedAmount a.pendingUnstakes height)
  unfold AccountState.total unlockAccount
  unfold releasedAmount at *
  dsimp only
  omega

/-- Unlocking mints nothing. -/
theorem totalCur_unlocks_le (accounts : ByteMap AccountState) (height : Nat) :
    totalCur (applyUnstakeUnlocks accounts height) ≤ totalCur accounts := by
  unfold totalCur KeyMap.sumBy applyUnstakeUnlocks
  rw [Std.ExtTreeMap.toList_map, List.map_map]
  apply List.sum_le_sum
  rintro e -
  exact unlockAccount_total_le height e.2

/-! ## Settlements -/

theorem totalCur_credit_le (accounts : ByteMap AccountState) (addr : Bytes) (amount : Nat) :
    totalCur (credit accounts addr amount) ≤ totalCur accounts + amount := by
  have hsum := KeyMap.sumBy_upsert AccountState.total accounts addr {}
    (fun a => { a with balance := satAdd a.balance amount }) AccountState.total_default
  unfold totalCur credit
  generalize accounts[addr]?.getD {} = a at hsum
  have hsat := satAdd_le_add a.balance amount
  have hcredit : ({ a with balance := satAdd a.balance amount } : AccountState).total ≤
      a.total + amount := by
    unfold AccountState.total
    dsimp only
    omega
  omega

theorem totalCur_rewards_le (rewards : List ValidatorReward) (accounts : ByteMap AccountState) :
    totalCur (rewards.foldl creditReward accounts) ≤
      totalCur accounts + (rewards.map ValidatorReward.amount).sum := by
  induction rewards generalizing accounts with
  | nil => simp
  | cons reward rest ih =>
    have hstep : totalCur (creditReward accounts reward) ≤ totalCur accounts + reward.amount :=
      totalCur_credit_le accounts reward.address reward.amount
    have hrest := ih (creditReward accounts reward)
    rw [List.foldl_cons, List.map_cons, List.sum_cons]
    omega

theorem totalCur_penalties_le (penalties : List ValidatorPenalty)
    (accounts : ByteMap AccountState) :
    totalCur (penalties.foldl deductPenalty accounts) ≤ totalCur accounts := by
  induction penalties generalizing accounts with
  | nil => exact le_rfl
  | cons penalty rest ih =>
    refine (ih (deductPenalty accounts penalty)).trans ?_
    have hsum := KeyMap.sumBy_upsert AccountState.total accounts penalty.address {}
      (fun a => { a with stakedBalance := a.stakedBalance - penalty.amount })
      AccountState.total_default
    unfold totalCur deductPenalty
    generalize accounts[penalty.address]?.getD {} = a at hsum
    have hless : ({ a with stakedBalance := a.stakedBalance - penalty.amount } :
        AccountState).total ≤ a.total := by
      unfold AccountState.total
      dsimp only
      omega
    omega

/-! ## The transactions of a block -/

section Charges

variable {P : Primitives} {g : GenesisConfig} {ctx : TxContext} {tx : Transaction}
  {s s' : ExecState}

/-- What the senders of `txs` pay for gas, applied in order from `s`. -/
def chargedFees (P : Primitives) (ctx : TxContext) : List Transaction → ExecState → Nat
  | [], _ => 0
  | tx :: rest, s =>
    if tx.isCoinbase then chargedFees P ctx rest s
    else match applyUserTransaction P ctx tx s with
      | .error _ _ => 0
      | .ok gasUsed s' =>
        gasUsed * (tx.effectiveGasPrice ctx.baseFeePerGas).getD 0 + chargedFees P ctx rest s'

/-- A sender that could pay has a fee cap below `2^64 - 1`, so its price did not saturate. -/
theorem baseFee_le_price {gasUsed price : Nat} (hmax : totalCur s.accounts < u64Max)
    (h : applyUserTransaction P ctx tx s = .ok gasUsed s')
    (hprice : tx.effectiveGasPrice ctx.baseFeePerGas = some price) :
    ctx.baseFeePerGas ≤ price := by
  obtain ⟨-, -, s₁, receipt, s₂, hdebit, -, -⟩ := apply_eq_ok.mp h
  obtain ⟨hneed, -⟩ := debitSender_total hmax hdebit
  have hcap : tx.totalFeeCap < u64Max := by
    have hsum := needed_eq_add hneed
    omega
  have hmul : tx.effectiveGasLimit * tx.maxFeePerGas' < u64Max := by
    have hcapEq : tx.totalFeeCap = tx.effectiveGasLimit * tx.maxFeePerGas' :=
      satMul_eq_mul_of_lt hcap
    omega
  have hgas : 1 ≤ tx.effectiveGasLimit :=
    le_trans (by decide) (gasBase_le_effectiveGasLimit tx)
  have hfee : tx.maxFeePerGas' ≤ tx.effectiveGasLimit * tx.maxFeePerGas' :=
    Nat.le_mul_of_pos_left _ hgas
  unfold Transaction.effectiveGasPrice at hprice
  split at hprice
  · exact absurd hprice (by simp)
  · next hle =>
    cases hprice
    unfold satAdd
    omega

/-- **One transaction**: the priority fee and the base fee come out of what its sender paid, and
what it paid is gone from the supply. -/
theorem charge_of_apply {gasUsed : Nat} (hnative : tx.isEvm = false)
    (hmax : totalCur s.accounts < u64Max)
    (h : applyUserTransaction P ctx tx s = .ok gasUsed s') :
    priorityFeeForTransaction tx gasUsed ctx.baseFeePerGas + gasUsed * ctx.baseFeePerGas ≤
        gasUsed * (tx.effectiveGasPrice ctx.baseFeePerGas).getD 0 ∧
      totalCur s'.accounts + gasUsed * (tx.effectiveGasPrice ctx.baseFeePerGas).getD 0 ≤
        totalCur s.accounts := by
  obtain ⟨price, hprice, hlaw⟩ := totalCur_apply hnative hmax h
  have hbase := baseFee_le_price hmax h hprice
  rw [hprice]
  dsimp only [Option.getD_some]
  constructor
  · have hpriority : priorityFeeForTransaction tx gasUsed ctx.baseFeePerGas ≤
        (price - ctx.baseFeePerGas) * gasUsed := by
      unfold priorityFeeForTransaction Transaction.priorityFeePerGas
      rw [hprice]
      exact satMul_le_mul _ _
    calc priorityFeeForTransaction tx gasUsed ctx.baseFeePerGas + gasUsed * ctx.baseFeePerGas
        ≤ (price - ctx.baseFeePerGas) * gasUsed + ctx.baseFeePerGas * gasUsed := by
          rw [Nat.mul_comm gasUsed]
          omega
      _ = (price - ctx.baseFeePerGas + ctx.baseFeePerGas) * gasUsed := (Nat.add_mul _ _ _).symm
      _ = gasUsed * price := by rw [Nat.sub_add_cancel hbase, Nat.mul_comm]
  · omega

/-- One turn of the loop remembers a coinbase or applies a transaction. -/
theorem stepBlockTransaction_cases {index : Nat} {p p' : BlockProgress}
    (h : stepBlockTransaction P g ctx index tx p = .ok p') :
    (tx.isCoinbase = true ∧
      p' = { p with txHashes := insert (tx.hash P) p.txHashes, coinbase := some tx }) ∨
    (tx.isCoinbase = false ∧ ∃ gasUsed s', applyUserTransaction P ctx tx p.state = .ok gasUsed s' ∧
      p' = { p with
        state := s'
        txHashes := insert (tx.hash P) p.txHashes
        totalGasUsed := satAdd p.totalGasUsed gasUsed
        priorityFees := satAdd p.priorityFees
          (priorityFeeForTransaction tx gasUsed ctx.baseFeePerGas) }) := by
  unfold stepBlockTransaction at h
  split at h
  · exact absurd h (by simp)
  split at h
  · exact absurd h (by simp)
  dsimp only at h
  split at h
  · next hcoinbase =>
    split at h
    · exact absurd h (by simp)
    split at h
    · exact absurd h (by simp)
    cases h
    exact .inl ⟨hcoinbase, rfl⟩
  · next hcoinbase =>
    split at h
    · exact absurd h (by simp)
    · next gasUsed s' happly =>
      split at h
      · exact absurd h (by simp)
      cases h
      exact .inr ⟨by simpa using hcoinbase, gasUsed, s', happly, rfl⟩

/-- What one turn collects comes out of what its sender paid. -/
theorem stepBlockTransaction_charges {index : Nat} {p p' : BlockProgress}
    (hnative : tx.isEvm = false) (hmax : totalCur p.state.accounts < u64Max)
    (h : stepBlockTransaction P g ctx index tx p = .ok p') (rest : List Transaction) :
    ∃ charged, chargedFees P ctx (tx :: rest) p.state = charged + chargedFees P ctx rest p'.state ∧
      p'.priorityFees + p'.totalGasUsed * ctx.baseFeePerGas ≤
        p.priorityFees + p.totalGasUsed * ctx.baseFeePerGas + charged ∧
      totalCur p'.state.accounts + charged ≤ totalCur p.state.accounts := by
  rw [chargedFees]
  rcases stepBlockTransaction_cases h with ⟨hcoinbase, rfl⟩ | ⟨hcoinbase, gasUsed, s', happly, rfl⟩
  · rw [if_pos hcoinbase]
    exact ⟨0, by simp, by simp, by simp⟩
  · rw [if_neg (by simp [hcoinbase]), happly]
    obtain ⟨hfee, htotal⟩ := charge_of_apply hnative hmax happly
    refine ⟨gasUsed * (tx.effectiveGasPrice ctx.baseFeePerGas).getD 0, rfl, ?_, htotal⟩
    have hfees := satAdd_le_add p.priorityFees
      (priorityFeeForTransaction tx gasUsed ctx.baseFeePerGas)
    have hgas := Nat.mul_le_mul_right ctx.baseFeePerGas (satAdd_le_add p.totalGasUsed gasUsed)
    rw [Nat.add_mul] at hgas
    dsimp only
    omega

/-- **The whole loop**: the fees it collects for the proposer, and the base fee on all its gas,
come out of what its senders paid. -/
theorem runBlockTransactions_charges {txs : List Transaction} {index : Nat}
    {p p' : BlockProgress} (hnative : ∀ tx ∈ txs, tx.isEvm = false)
    (hmax : totalCur p.state.accounts < u64Max)
    (h : runBlockTransactions P g ctx index txs p = .ok p') :
    p'.priorityFees + p'.totalGasUsed * ctx.baseFeePerGas ≤
        p.priorityFees + p.totalGasUsed * ctx.baseFeePerGas + chargedFees P ctx txs p.state ∧
      totalCur p'.state.accounts + chargedFees P ctx txs p.state ≤ totalCur p.state.accounts := by
  induction txs generalizing index p with
  | nil =>
    cases h
    exact ⟨le_rfl, le_rfl⟩
  | cons tx rest ih =>
    unfold runBlockTransactions at h
    split at h
    · exact absurd h (by simp)
    · next p₁ hstep =>
      obtain ⟨charged, hcharged, hfees, htotal⟩ :=
        stepBlockTransaction_charges (hnative tx (by simp)) hmax hstep rest
      obtain ⟨hfees', htotal'⟩ := ih (fun t ht => hnative t (by simp [ht])) (by omega) h
      rw [hcharged]
      omega

/-- The coinbase the loop remembers is one of its transactions. -/
theorem runBlockTransactions_coinbase {txs : List Transaction} {index : Nat}
    {p p' : BlockProgress} {coinbase : Transaction}
    (h : runBlockTransactions P g ctx index txs p = .ok p') (hsome : p'.coinbase = some coinbase) :
    p.coinbase = some coinbase ∨ coinbase ∈ txs ∧ coinbase.isCoinbase = true := by
  induction txs generalizing index p with
  | nil =>
    cases h
    exact .inl hsome
  | cons tx rest ih =>
    unfold runBlockTransactions at h
    split at h
    · exact absurd h (by simp)
    · next p₁ hstep =>
      rcases ih h with hfirst | ⟨hmem, hcoinbase⟩
      · rcases stepBlockTransaction_cases hstep with ⟨hc, rfl⟩ | ⟨-, gasUsed, s', -, rfl⟩
        · cases hfirst
          exact .inr ⟨by simp, hc⟩
        · exact .inl hfirst
      · exact .inr ⟨List.mem_cons_of_mem _ hmem, hcoinbase⟩

end Charges

namespace Blockchain

variable {P : Primitives} {g : GenesisConfig} {c : Blockchain} {now : Int} {block : Block}

/-- What the settlement at `height` pays out, `0` where nothing is settled. -/
def settlementRewards (P : Primitives) (c : Blockchain) (height : Nat) : Nat :=
  match settlingEpoch c.genesisConfig height with
  | none => 0
  | some prevEpoch =>
    match c.epochSnapshots[prevEpoch]? with
    | none => 0
    | some snapshot =>
      ((computeEpochSettlement snapshot
        (blockProducers (c.proposerAddressesForSettlingEpoch P height))
        c.validatorMissedEpochs).rewards.map ValidatorReward.amount).sum

theorem totalCur_settledAt_le (height : Nat) :
    totalCur (c.settledAt P height).1 ≤ totalCur c.accounts + c.settlementRewards P height := by
  unfold settledAt settlementRewards applyEpochSettlementForBlock
  cases settlingEpoch c.genesisConfig height with
  | none => exact le_rfl
  | some prevEpoch =>
    dsimp only
    cases c.epochSnapshots[prevEpoch]? with
    | none => exact le_rfl
    | some snapshot =>
      dsimp only [applyEpochSettlement]
      exact (totalCur_penalties_le _ _).trans (totalCur_rewards_le _ _)

/-! ## A block, and a run -/

/-- The state the transactions of `block` start from, on the tip of `c`. -/
def openingState (P : Primitives) (c : Blockchain) (block : Block) : ExecState :=
  startState { c.execState with accounts := (c.settledAt P block.header.height).1 }
    block.header.height

/-- What the senders of `block` pay for gas, on the tip of `c`. -/
def feesCharged (P : Primitives) (c : Blockchain) (block : Block) : Nat :=
  chargedFees P (c.txContext block.header.height block.header.baseFeePerGas) block.transactions
    (c.openingState P block)

/-- The coinbase of `block` credits the reward and fees that the block charged its senders on top
of the base fee; what it charged is gone from their accounts when the coinbase is paid. -/
structure PaidFromFees (P : Primitives) (c : Blockchain) (block : Block) (coinbase : Transaction)
    (fees : Nat) : Prop where
  mem : coinbase ∈ block.transactions
  isCoinbase : coinbase.isCoinbase = true
  amount : coinbase.amount = satAdd c.genesisConfig.blockReward fees
  covered : fees + block.header.gasUsed * block.header.baseFeePerGas ≤ c.feesCharged P block
  debited : ∃ p, runBlockTransactions P c.genesisConfig
      (c.txContext block.header.height block.header.baseFeePerGas) 0 block.transactions
      { state := c.openingState P block, txHashes := ∅, priorityFees := 0, totalGasUsed := 0
        coinbase := none } = .ok p ∧ p.priorityFees = fees ∧
    totalCur p.state.accounts + c.feesCharged P block ≤
      totalCur (c.openingState P block).accounts

theorem finishBlock_eq_ok {p : BlockProgress} {s : ExecState}
    (h : c.finishBlock P block p = .ok s) :
    ∃ coinbase, p.coinbase = some coinbase ∧ block.header.gasUsed = p.totalGasUsed ∧
      coinbase.amount = satAdd c.genesisConfig.blockReward p.priorityFees ∧
      s.accounts = credit p.state.accounts coinbase.to coinbase.amount := by
  unfold finishBlock at h
  simp only [except_bind_eq_ok, ensure_eq_ok, decide_eq_true_eq] at h
  obtain ⟨s₁, hgov, -, hgas, h⟩ := h
  cases hc : p.coinbase with
  | none => rw [hc] at h; exact absurd h (by simp)
  | some coinbase =>
    rw [hc] at h
    simp only [except_bind_eq_ok, ensure_eq_ok, decide_eq_true_eq] at h
    obtain ⟨-, -, -, hamount, accounts, hcredit, -, -, hs⟩ := h
    cases hs
    -- governance leaves the accounts alone
    have hacc : s₁.accounts = p.state.accounts := by
      unfold processGovernance at hgov
      split at hgov
      · cases hgov; rfl
      · exact absurd hgov (by simp)
    unfold applyCoinbaseTransaction at hcredit
    simp only [except_bind_eq_ok, ensure_eq_ok] at hcredit
    obtain ⟨-, -, -, -, hcredit⟩ := hcredit
    cases hcredit
    rw [hacc]
    exact ⟨coinbase, rfl, hgas, hamount, rfl⟩

/-- The end of a block is about accounts and governance. -/
theorem finishBlock_maps {p : BlockProgress} {s : ExecState} (h : c.finishBlock P block p = .ok s) :
    s.contracts = p.state.contracts ∧ s.tokenRegistry = p.state.tokenRegistry := by
  simp only [finishBlock, except_bind_eq_ok] at h
  obtain ⟨s₁, hgov, -, -, h⟩ := h
  have hkept : s₁.contracts = p.state.contracts ∧ s₁.tokenRegistry = p.state.tokenRegistry := by
    simp only [processGovernance] at hgov
    split at hgov
    · cases hgov
      exact ⟨rfl, rfl⟩
    · cases hgov
  split at h
  · cases h
  · simp only [except_bind_eq_ok] at h
    obtain ⟨-, -, -, -, accounts, -, -, -, hs⟩ := h
    cases hs
    exact hkept

/-- **An accepted block** mints its settlement and its reward, and no fee that was not paid. -/
theorem addBlock_supply (hok : (c.addBlock P now block).1 = .ok ())
    (hnative : ∀ tx ∈ block.transactions, tx.isEvm = false)
    (hmax : totalCur c.accounts + c.settlementRewards P block.header.height < u64Max) :
    totalCur (c.addBlock P now block).2.accounts ≤ totalCur c.accounts +
        c.genesisConfig.blockReward + c.settlementRewards P block.header.height ∧
      ∃ coinbase fees, PaidFromFees P c block coinbase fees := by
  obtain ⟨s, ha⟩ := accepted_of_addBlock hok
  obtain ⟨-, -, q, hrun, hfinish⟩ := validate_eq_ok.mp ha.valid
  obtain ⟨coinbase, hcoinbase, hgas, hamount, hcredit⟩ := finishBlock_eq_ok hfinish
  have hconfig : (c.prepareEpoch P block.header.height).genesisConfig = c.genesisConfig :=
    prepareEpoch_genesisConfig _
  have hctx : (c.prepareEpoch P block.header.height).txContext block.header.height
      block.header.baseFeePerGas = c.txContext block.header.height block.header.baseFeePerGas :=
    txContext_congr hconfig _ _
  rw [hctx, hconfig] at hrun
  rw [hconfig] at hamount
  have hopening : totalCur (c.openingState P block).accounts ≤
      totalCur c.accounts + c.settlementRewards P block.header.height :=
    (totalCur_unlocks_le _ _).trans (totalCur_settledAt_le _)
  have hcharges := runBlockTransactions_charges hnative (lt_of_le_of_lt hopening hmax) hrun
  have hfees : q.priorityFees + q.totalGasUsed * block.header.baseFeePerGas ≤
      0 + 0 * block.header.baseFeePerGas + c.feesCharged P block := hcharges.1
  have htotal : totalCur q.state.accounts + c.feesCharged P block ≤
      totalCur (c.openingState P block).accounts := hcharges.2
  have hafter : (c.addBlock P now block).2.accounts = s.accounts :=
    congrArg ExecState.accounts ha.execState
  constructor
  · have hmint := totalCur_credit_le q.state.accounts coinbase.to coinbase.amount
    have hsat := satAdd_le_add c.genesisConfig.blockReward q.priorityFees
    rw [hafter, hcredit]
    omega
  · refine ⟨coinbase, q.priorityFees, ?_⟩
    rcases runBlockTransactions_coinbase hrun hcoinbase with hnone | ⟨hmem, his⟩
    · exact absurd hnone (by simp)
    · refine ⟨hmem, his, hamount, ?_, q, hrun, rfl, htotal⟩
      rw [hgas]
      simpa using hfees

/-- What the settlements of a run pay out. -/
def settledRewards (P : Primitives) : Blockchain → List (Int × Block) → Nat
  | _, [] => 0
  | c, (now, block) :: rest =>
    c.settlementRewards P block.header.height +
      settledRewards P (c.addBlock P now block).2 rest

/-- The most a chain can hold after `calls`. -/
def supplyBound (P : Primitives) (c : Blockchain) (calls : List (Int × Block)) : Nat :=
  totalCur c.accounts + calls.length * c.genesisConfig.blockReward + c.settledRewards P calls

/-- **A run** stays within its bound, and so does every block of it. -/
theorem offer_supply {calls : List (Int × Block)} (hok : c.Accepts P calls)
    (hnative : ∀ call ∈ calls, ∀ tx ∈ call.2.transactions, tx.isEvm = false)
    (hmax : c.supplyBound P calls < u64Max) :
    totalCur (offer P c calls).accounts ≤ c.supplyBound P calls ∧
      ∀ before now block after, calls = before ++ (now, block) :: after →
        ∃ coinbase fees, PaidFromFees P (offer P c before) block coinbase fees := by
  induction calls generalizing c with
  | nil =>
    refine ⟨by simp [offer, supplyBound], ?_⟩
    intro before now block after h
    exact absurd h (by simp)
  | cons call rest ih =>
    obtain ⟨now, block⟩ := call
    obtain ⟨hfirst, hrest⟩ := hok
    unfold supplyBound settledRewards at hmax
    rw [List.length_cons, Nat.add_mul, Nat.one_mul] at hmax
    obtain ⟨s, ha⟩ := accepted_of_addBlock hfirst
    obtain ⟨hstep, hpaid⟩ := addBlock_supply hfirst (hnative _ List.mem_cons_self) (by omega)
    have hbound : (c.addBlock P now block).2.supplyBound P rest ≤
        c.supplyBound P ((now, block) :: rest) := by
      unfold supplyBound
      rw [settledRewards, ha.config, List.length_cons, Nat.add_mul, Nat.one_mul]
      omega
    have hmax' : (c.addBlock P now block).2.supplyBound P rest < u64Max := by
      refine lt_of_le_of_lt hbound ?_
      unfold supplyBound settledRewards
      rw [List.length_cons, Nat.add_mul, Nat.one_mul]
      exact hmax
    obtain ⟨hle, hblocks⟩ := ih hrest (fun call hcall => hnative call (List.mem_cons_of_mem _ hcall))
      hmax'
    refine ⟨hle.trans hbound, ?_⟩
    intro before now' block' after hsplit
    cases before with
    | nil =>
      cases hsplit
      exact hpaid
    | cons first before =>
      cases hsplit
      exact hblocks before now' block' after rfl

end Blockchain

open Blockchain in
/-- **No inflation.** After any accepted native blocks the supply is at most the genesis supply,
the block rewards and the settlement rewards, as long as that fits below `2^64 - 1`; and every
coinbase of the run hands out only fees that its block charged beyond the base fee. -/
theorem no_inflation {P : Primitives} {g : GenesisConfig} {c₀ : Blockchain}
    {calls : List (Int × Block)} (hstart : fromGenesis P g = .ok c₀) (hok : c₀.Accepts P calls)
    (hnative : ∀ call ∈ calls, ∀ tx ∈ call.2.transactions, tx.isEvm = false)
    (hmax : totalCur c₀.accounts + (offer P c₀ calls).height * g.blockReward +
      c₀.settledRewards P calls < u64Max) :
    totalCur (offer P c₀ calls).accounts ≤ totalCur c₀.accounts +
        (offer P c₀ calls).height * g.blockReward + c₀.settledRewards P calls ∧
      ∀ before now block after, calls = before ++ (now, block) :: after →
        ∃ coinbase fees, PaidFromFees P (offer P c₀ before) block coinbase fees := by
  obtain ⟨hone, hconfig⟩ := blocks_of_genesis hstart
  obtain ⟨accounts, -, hgenesis⟩ := recomputes_genesis hstart 0
  have hheight : (offer P c₀ calls).height = calls.length := by
    unfold height blockCount
    rw [(hgenesis.straight.offer hok).2, hone]
    simp
  have hbound : totalCur c₀.accounts + (offer P c₀ calls).height * g.blockReward +
      c₀.settledRewards P calls = c₀.supplyBound P calls := by
    unfold supplyBound
    rw [hheight, hconfig]
  rw [hbound] at hmax ⊢
  exact offer_supply hok hnative hmax

namespace InflationSample

open Scenario

/-- One validator with two coins at stake and some to spend, and epochs of two blocks. -/
def genesis : GenesisConfig where
  chainId := [1]
  minimumStake := 1
  epochLength := 2
  allocations := [allocation 1 1000000 2000000]

/-- Five units to account 2, with a tip on top of the base fee. -/
def payment : Transaction :=
  Transaction.sign Reference.primitives { PoolSample.payment 1 2 with fee := 5 } (key 1)

def steps : List (Int × UInt8) := [(clock 1, 1), (clock 2, 1), (clock 3, 1), (clock 4, 1)]

/-- The blocks a producer builds whose pool holds the payment. -/
def calls (c : Blockchain) : List (Int × Block) :=
  (script (PoolSample.pooled c [payment]) steps).getD []

/-- `Accepts`, computed. -/
def acceptsHere : Blockchain → List (Int × Block) → Bool
  | _, [] => true
  | c, (now, block) :: rest =>
    decide ((c.addBlock Reference.primitives now block).1 = .ok ()) &&
      acceptsHere (c.addBlock Reference.primitives now block).2 rest

theorem accepts_of_acceptsHere {c : Blockchain} {calls : List (Int × Block)}
    (h : acceptsHere c calls = true) : c.Accepts Reference.primitives calls := by
  induction calls generalizing c with
  | nil => trivial
  | cons call rest ih =>
    rw [acceptsHere, Bool.and_eq_true, decide_eq_true_eq] at h
    exact ⟨h.1, ih h.2⟩

end InflationSample

open InflationSample Scenario Blockchain in
/-- Four blocks, the first with the payment, over two boundaries: 203000400 units is the bound. -/
theorem no_inflation_sample : ∃ c₀, fromGenesis Reference.primitives genesis = .ok c₀ ∧
    totalCur (offer Reference.primitives c₀ (calls c₀)).accounts ≤ 203000400 ∧
    ∀ before now block after, calls c₀ = before ++ (now, block) :: after →
      ∃ coinbase fees,
        PaidFromFees Reference.primitives (offer Reference.primitives c₀ before) block coinbase
          fees := by
  have hrun : (fromGenesis Reference.primitives genesis).toOption.any (fun c₀ =>
      acceptsHere c₀ (calls c₀) &&
        decide ((∀ call ∈ calls c₀, ∀ tx ∈ call.2.transactions, tx.isEvm = false) ∧
          totalCur c₀.accounts + (offer Reference.primitives c₀ (calls c₀)).height *
            genesis.blockReward + c₀.settledRewards Reference.primitives (calls c₀) = 203000400)) =
      true := by
    decide +kernel
  obtain ⟨c₀, hstart, hrest⟩ := Outcome.ok_of_any hrun
  rw [Bool.and_eq_true, decide_eq_true_eq] at hrest
  obtain ⟨haccepts, hnative, hbound⟩ := hrest
  have h := no_inflation hstart (accepts_of_acceptsHere haccepts) hnative
    (by rw [hbound]; decide)
  rw [hbound] at h
  exact ⟨c₀, hstart, h.1, h.2⟩

end Curs3d
