import Curs3d.Proof.EvmMerge
import Curs3d.Proof.Once

/-!
# Nobody else spends an account's balance

A balance falls in two places only: the debit at the head of `apply_user_transaction`, which is the sender's, and
the merge of what revm reports. revm takes from an address without code when it is the caller, and then no more
than the gas limit and the value (`RevmSpends`). Everything else a node does to a balance is a credit, a reward or
an unlock; penalties and slashes are taken from the stake (`Between`). So what an address has at the end
is at least what it had, less what the transactions that it signed itself may cost (`Transaction.cost`).
-/

set_option autoImplicit false

namespace Curs3d

open U64 Outcome

/-- revm takes from `a`, where there is no code, only for its own transactions. -/
def RevmSpends (P : Primitives) (a : Bytes) : Prop :=
  ∀ (view : EvmStateView) (env : EvmTxEnv) (result : ExecutionResult) (post : ByteMap EvmAccount)
    (account : EvmAccount), P.revmTransact view env = some (result, post) → a ∉ view.contracts →
      post[a]? = some account →
        view.balanceOf a ≤ account.balance +
          if env.caller = a then env.gasLimit * env.gasPrice + env.value else 0

/-- The most that a transaction takes from its sender; revm charges an EVM transaction once more. -/
def Transaction.cost (tx : Transaction) : Nat :=
  if tx.isEvm then tx.needed + (tx.gasLimit * max tx.maxFeePerGas' 1 + tx.amount) else tx.needed

/-- What the transactions of `a` among `txs` may cost it. -/
def costOf (a : Bytes) (txs : List Transaction) : Nat :=
  ((txs.filter fun tx => tx.from = a).map Transaction.cost).sum

@[simp] theorem costOf_nil (a : Bytes) : costOf a [] = 0 := rfl

theorem costOf_concat (a : Bytes) (txs : List Transaction) (tx : Transaction) :
    costOf a (txs ++ [tx]) = costOf a txs + if tx.from = a then tx.cost else 0 := by
  simp only [costOf, List.filter_append, List.map_append, List.sum_append]
  by_cases h : tx.from = a
  · simp [h]
  · simp [h]

variable {P : Primitives} {ctx : TxContext} {tx : Transaction} {s s' : ExecState} {a : Bytes}

/-! ## Contracts stay -/

theorem mem_contracts_mergeContracts {contracts : ByteMap ContractState} {outcome : EvmOutcome}
    (ha : a ∈ contracts) : a ∈ mergeContracts contracts outcome := by
  obtain ⟨contract, hcontract⟩ := Option.isSome_iff_exists.mp (Std.ExtTreeMap.mem_iff_isSome_getElem?.mp ha)
  rw [Std.ExtTreeMap.mem_iff_isSome_getElem?, getElem?_mergeContracts, hcontract]
  cases outcome.contractsCreated[a]? with
  | some c => rfl
  | none =>
    cases outcome.storageUpdates[a]? with
    | none => rfl
    | some words => rfl

/-- No transaction removes a contract. -/
theorem mem_contracts_apply {gasUsed : Nat} (happly : applyUserTransaction P ctx tx s = .ok gasUsed s')
    (ha : a ∈ s.contracts) : a ∈ s'.contracts := by
  obtain ⟨-, -, s₁, receipt, s₂, hdebit, hexec, hsettle⟩ := apply_eq_ok.mp happly
  obtain ⟨sender, -, rfl⟩ := debitSender_eq_ok.mp hdebit
  obtain ⟨-, price, -, rfl⟩ := settleFees_eq_ok.mp hsettle
  by_cases hevm : tx.isEvm = true
  · obtain ⟨result, post, outcome, -, -, -, rfl⟩ := executeKind_evm hevm hexec
    exact mem_contracts_mergeContracts ha
  · have hnative : tx.isEvm = false := by simpa using hevm
    cases nativeRun_of_ok hnative hexec with
    | transfer _ => exact ha
    | idle _ => exact ha
    | deploy _ hdeploy =>
      obtain ⟨-, contract, rfl⟩ := executeDeploy_eq_ok hdeploy
      exact Std.ExtTreeMap.mem_insert.mpr (.inr ha)
    | call _ hcall =>
      obtain ⟨-, contract, contract', -, rfl⟩ := executeCall_eq_ok hcall
      exact Std.ExtTreeMap.mem_insert.mpr (.inr ha)
    | governance _ _ => exact ha
    | token _ _ => exact ha

/-! ## The stages of a transaction -/

/-- The debit is the sender's. -/
theorem balance_debitSender (h : debitSender ctx tx s = .ok () s') (a : Bytes) :
    balanceOf s' a + (if tx.from = a then tx.needed else 0) = balanceOf s a := by
  obtain ⟨sender, hentry, rfl⟩ := debitSender_eq_ok.mp h
  by_cases ha : tx.from = a
  · rw [if_pos ha, ← ha]
    obtain ⟨sender', hsender', hbalance⟩ := debitSender_balance h
    simp only [balanceOf] at hbalance ⊢
    rw [hsender']
    exact hbalance
  · simp only [balanceOf]
    rw [KeyMap.getElem?_insert_eq, if_neg ha, if_neg ha, Nat.add_zero]

/-- A native kind credits or does nothing. -/
theorem credited_native {gasUsed : Nat} {receipt : Option Receipt} (hnative : tx.isEvm = false)
    (h : executeKind P ctx tx s = .ok (gasUsed, receipt) s') : Credited s.accounts s'.accounts := by
  obtain ⟨-, haccounts⟩ := executeKind_native hnative h
  rw [haccounts]
  split
  · exact Credited.credit _ _ _
  · exact Credited.refl _

theorem credited_settleFees {gasUsed : Nat} {receipt : Option Receipt}
    (h : settleFees P ctx tx gasUsed receipt s = .ok () s') : Credited s.accounts s'.accounts := by
  obtain ⟨-, price, -, rfl⟩ := settleFees_eq_ok.mp h
  exact Credited.credit _ _ _

/-- revm's part of a transaction. -/
theorem balance_evm {gasUsed : Nat} {receipt : Option Receipt} {sender : AccountState}
    (hrevm : RevmSpends P a) (hlength : a.length = ADDRESS_LEN) (hplain : a ∉ s.contracts)
    (hmax : balanceOf s a ≤ u64Max) (hevm : tx.isEvm = true)
    (hshape : validateTransactionShape tx = .ok ()) (hsender : s.accounts[tx.from]? = some sender)
    (h : executeKind P ctx tx s = .ok (gasUsed, receipt) s') :
    balanceOf s a ≤ balanceOf s' a +
        (if tx.from = a then tx.gasLimit * max ctx.baseFeePerGas 1 + tx.amount else 0) ∧
      balanceOf s' a ≤ u64Max := by
  obtain ⟨hfrom, hkey⟩ := toArray20_sender hevm hshape
  obtain ⟨result, post, outcome, hrun, hfinish, -, rfl⟩ := executeKind_evm hevm h
  obtain ⟨-, -, hupdates, -, -⟩ := finishExecution_eq_ok hfinish
  have hview : (evmView tx s).balanceOf a = balanceOf s a := by
    simp only [EvmStateView.balanceOf, balanceOf]
    by_cases ha : tx.from = a
    · subst ha
      rw [evmView_caller hfrom hsender, hsender]
      rfl
    · rw [evmView_other hlength (by rwa [hkey])]
      cases s.accounts[a]? with
      | none => rfl
      | some account => rfl
  have hcode : a ∉ (evmView tx s).contracts := by
    have hsame : (evmView tx s).contracts = (evmStateView s.accounts s.contracts).contracts := by
      simp only [evmView]
      split
      · split <;> rfl
      · rfl
    rw [hsame]
    intro hmem
    exact hplain (Std.ExtTreeMap.mem_of_mem_filter hmem)
  simp only [balanceOf] at hmax ⊢
  rw [getElem?_mergeAccounts, hupdates, Std.ExtTreeMap.getElem?_map]
  cases hpost : post[a]? with
  | none => exact ⟨Nat.le_add_right _ _, hmax⟩
  | some account =>
    have hspent := hrevm _ _ result post account hrun hcode hpost
    rw [hview, show (evmEnv ctx tx (evmView tx s)).caller = toArray20 tx.from from rfl, hkey] at hspent
    simp only [balanceOf] at hspent
    refine ⟨?_, min_le_right _ _⟩
    change _ ≤ min account.balance u64Max + _
    rcases le_total account.balance u64Max with hle | hle
    · rw [min_eq_left hle]
      exact hspent
    · rw [min_eq_right hle]
      exact hmax.trans (Nat.le_add_right _ _)

/-! ## Transactions -/

/-- **A transaction takes from its sender only, and no more than its cost.** -/
theorem balance_apply {gasUsed : Nat} (hrevm : RevmSpends P a) (hlength : a.length = ADDRESS_LEN)
    (hplain : a ∉ s.contracts) (hmax : balanceOf s a ≤ u64Max)
    (happly : applyUserTransaction P ctx tx s = .ok gasUsed s') :
    balanceOf s a ≤ balanceOf s' a + (if tx.from = a then tx.cost else 0) ∧ balanceOf s' a ≤ u64Max := by
  obtain ⟨hshape, -, s₁, receipt, s₂, hdebit, hexec, hsettle⟩ := apply_eq_ok.mp happly
  obtain ⟨-, price, hprice, -⟩ := settleFees_eq_ok.mp hsettle
  have hbase : ctx.baseFeePerGas ≤ tx.maxFeePerGas' := by
    unfold Transaction.effectiveGasPrice at hprice
    split at hprice
    · exact absurd hprice (by simp)
    · next h => exact Nat.not_lt.mp h
  have hdebited := balance_debitSender hdebit a
  have hmax₁ : balanceOf s₁ a ≤ u64Max := (Nat.le.intro hdebited).trans hmax
  have hsettled := (credited_settleFees hsettle a).balance
  by_cases hevm : tx.isEvm = true
  · obtain ⟨sender, hsender, -⟩ := debitSender_balance hdebit
    have hplain₁ : a ∉ s₁.contracts := by
      obtain ⟨_, -, rfl⟩ := debitSender_eq_ok.mp hdebit
      exact hplain
    obtain ⟨hle₂, hmax₂⟩ := balance_evm hrevm hlength hplain₁ hmax₁ hevm hshape hsender hexec
    obtain ⟨hle, hmax'⟩ := hsettled hmax₂
    refine ⟨?_, hmax'⟩
    have hgas : tx.gasLimit * max ctx.baseFeePerGas 1 ≤ tx.gasLimit * max tx.maxFeePerGas' 1 :=
      Nat.mul_le_mul_left _ (max_le_max hbase le_rfl)
    rw [Transaction.cost, if_pos hevm]
    change balanceOf s₂ a ≤ balanceOf s' a at hle
    split at hle₂
    · next hfrom =>
      rw [if_pos hfrom] at hdebited ⊢
      omega
    · next hfrom =>
      rw [if_neg hfrom] at hdebited ⊢
      omega
  · have hnative : tx.isEvm = false := by simpa using hevm
    obtain ⟨hle₂, hmax₂⟩ := (credited_native hnative hexec a).balance hmax₁
    obtain ⟨hle, hmax'⟩ := hsettled hmax₂
    refine ⟨?_, hmax'⟩
    rw [Transaction.cost, if_neg hevm, ← hdebited]
    exact Nat.add_le_add_right (hle₂.trans hle) _

namespace Evolves

variable {delay n₀ n : Nat} {s₀ : ExecState} {executions : List (Nat × Transaction)}

theorem mem_contracts (h : Evolves P delay n₀ s₀ n executions s) (ha : a ∈ s₀.contracts) :
    a ∈ s.contracts := by
  induction h with
  | start => exact ha
  | unlocks _ _ ih => exact ih
  | apply _ _ happly ih => exact mem_contracts_apply happly ih
  | between _ hbetween ih => rwa [hbetween.contracts]

/-- **What an address has left**, after whatever was executed. -/
theorem balance (h : Evolves P delay n₀ s₀ n executions s) (hrevm : RevmSpends P a)
    (hlength : a.length = ADDRESS_LEN) (hplain : a ∉ s.contracts) (hmax : balanceOf s₀ a ≤ u64Max) :
    balanceOf s₀ a ≤ balanceOf s a + costOf a (executions.map Prod.snd) ∧ balanceOf s a ≤ u64Max := by
  induction h with
  | start => exact ⟨Nat.le_add_right _ _, hmax⟩
  | @unlocks _ n' _ s _ _ ih =>
    obtain ⟨hbefore, hmax₁⟩ := ih hplain
    have hunlocked : balanceOf (Blockchain.startState s n') a =
        satAdd (balanceOf s a) (releasedAmount (s.accounts[a]?.getD {}).pendingUnstakes n') :=
      congrArg AccountState.balance (account_startState s n' a)
    rw [hunlocked]
    obtain ⟨hle, hmax₂⟩ := le_satAdd hmax₁
    exact ⟨hbefore.trans (Nat.add_le_add_right hle _), hmax₂⟩
  | @apply _ s s' ctx tx gasUsed _ _ happly ih =>
    have hplain₁ : a ∉ s.contracts := fun hmem => hplain (mem_contracts_apply happly hmem)
    obtain ⟨hbefore, hmax₁⟩ := ih hplain₁
    obtain ⟨hafter, hmax₂⟩ := balance_apply hrevm hlength hplain₁ hmax₁ happly
    refine ⟨?_, hmax₂⟩
    rw [List.map_append, List.map_singleton, costOf_concat]
    dsimp only
    omega
  | between _ hbetween ih =>
    rw [hbetween.contracts] at hplain
    obtain ⟨hbefore, hmax₁⟩ := ih hplain
    obtain ⟨hle, hmax₂⟩ := (hbetween.accounts a).balance hmax₁
    exact ⟨hbefore.trans (Nat.add_le_add_right hle _), hmax₂⟩

/-- Whatever was executed was signed. -/
theorem authentic (h : Evolves P delay n₀ s₀ n executions s) :
    ∀ tx ∈ executions.map Prod.snd, authenticate P tx = .ok () := by
  induction h with
  | start => exact fun tx htx => absurd htx List.not_mem_nil
  | unlocks _ _ ih => exact ih
  | apply _ _ happly ih =>
    intro t ht
    rw [List.map_append] at ht
    rcases List.mem_append.mp ht with hin | hnew
    · exact ih t hin
    · rw [List.mem_singleton.mp hnew]
      exact (apply_eq_ok.mp happly).2.1
  | between _ _ ih => exact ih

end Evolves

/-! ## Nodes -/

namespace Blockchain

variable {g : GenesisConfig} {c₀ c c' : Blockchain}

theorem Archival.onwards (h : Archival P g c) (hcalls : Relation.ReflTransGen (Onward P) c c') :
    Archival P g c' := by
  induction hcalls with
  | refl => exact h
  | tail _ hcall ih =>
    cases hcall with
    | addTransaction now tx => exact ih.addTransaction now tx
    | addBlock now block => exact ih.addBlock now block
    | addFinalityVote vote => exact ih.addFinalityVote vote
    | processEquivocation evidence => exact ih.processEquivocation evidence

theorem execState_fromGenesis {accounts : ByteMap AccountState} (haccounts : accountsFromGenesis P g = .ok accounts)
    (hstart : fromGenesis P g = .ok c₀) : c₀.execState = (genesisReplay accounts).state := by
  unfold Curs3d.fromGenesis at hstart
  simp only [except_bind_eq_ok] at hstart
  obtain ⟨accounts', haccounts', hc⟩ := hstart
  cases hc
  obtain rfl : accounts = accounts' := by
    rw [haccounts] at haccounts'
    exact Except.ok.inj haccounts'
  rfl

end Blockchain

namespace CustodySample

open InflationSample Scenario Blockchain OnceSample

/-- Who signs the two payments. -/
def payer : Bytes := addressBytesFromPublicKey Reference.primitives (key 1).publicKey

theorem onward_offer {c : Blockchain} {calls : List (Int × Block)} :
    Relation.ReflTransGen (Onward Reference.primitives) c (offer Reference.primitives c calls) := by
  induction calls generalizing c with
  | nil => exact .refl
  | cons call rest ih => exact ih.head (.addBlock call.1 call.2)

theorem revmSpends (a : Bytes) : RevmSpends Reference.primitives a :=
  fun _ _ _ _ _ h => absurd h (by simp [Reference.primitives])

end CustodySample

end Curs3d
