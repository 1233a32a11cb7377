import Curs3d.Proof.Nonce

/-!
# What an EVM transaction costs its sender

The debit takes `amount + fee cap` before revm runs. revm then takes the price of its gas, and on success the
amount, from what is left, the merge writes that balance back, and the settlement only returns the fee cap less
the gas. So the sender pays the gas and the amount twice (`evm_charge`), and never what the receipt says.
-/

set_option autoImplicit false

namespace Curs3d

open U64 Outcome

def balanceOf (s : ExecState) (addr : Bytes) : Nat := (s.accounts[addr]?.getD {}).balance

def EvmStateView.balanceOf (view : EvmStateView) (addr : Bytes) : Nat :=
  (view.accounts[addr]?.map Prod.fst).getD 0

/-- What revm takes from the caller when the code sends nothing back: the price of the gas it used, within the
gas limit, and the value if it did not revert. -/
structure RevmDebits (view : EvmStateView) (env : EvmTxEnv) (result : ExecutionResult)
    (post : ByteMap EvmAccount) : Prop where
  uses_gas : 0 < Evm.resultGas result
  gas_le : Evm.resultGas result ≤ env.gasLimit
  caller : ∃ account, post[env.caller]? = some account ∧
    account.balance + Evm.resultGas result * env.gasPrice + (if result.isSuccess then env.value else 0) =
      view.balanceOf env.caller

/-- revm debits the sender on the view it is given for `tx`. -/
def DebitsSender (P : Primitives) (ctx : TxContext) (tx : Transaction) (s : ExecState) : Prop :=
  ∀ (debited : ExecState) (result : ExecutionResult) (post : ByteMap EvmAccount),
    debitSender ctx tx s = .ok () debited →
    P.revmTransact (evmView tx debited) (evmEnv ctx tx (evmView tx debited)) = some (result, post) →
    RevmDebits (evmView tx debited) (evmEnv ctx tx (evmView tx debited)) result post

/-- The charge law: the sender's balance falls by the gas at the effective price, and by the amount if the receipt
says that the execution succeeded. -/
def EvmCharged (P : Primitives) (tx : Transaction) (gasUsed price : Nat) (s s' : ExecState) : Prop :=
  ∃ receipt, s'.receipts[tx.hash P]? = some receipt ∧
    balanceOf s' tx.from + gasUsed * price + (if receipt.success then tx.amount else 0) = balanceOf s tx.from

variable {P : Primitives} {ctx : TxContext} {tx : Transaction} {s s' : ExecState}

/-! ## The stages -/

theorem senderEntry_balance {a a' : AccountState} (h : senderEntry ctx tx a = .ok () a') :
    a'.balance + tx.needed = a.balance := by
  obtain ⟨a₁, a₂, hbind, htake, hmove⟩ := senderEntry_eq_ok.mp h
  obtain ⟨hneeded, -, rfl⟩ := takeUpFront_eq_ok.mp htake
  have hbound : a₁.balance = a.balance := by rw [bindPublicKey_ok hbind]
  have hmoved : a'.balance = a₁.balance - tx.needed := by
    rcases moveStake_eq_ok.mp hmove with ⟨-, rfl⟩ | ⟨-, -, rfl⟩ | ⟨-, -, rfl⟩
    · rfl
    · rfl
    · rfl
  omega

/-- The gas of an EVM transaction is within its limit. -/
theorem evm_gas_le (hevm : tx.isEvm = true) {gas : Nat} (hgas : gas ≤ tx.gasLimit) :
    max gas GAS_BASE_TX ≤ tx.effectiveGasLimit := by
  have hlimit : tx.gasLimit ≤ tx.effectiveGasLimit := by
    simp only [Transaction.isEvm, decide_eq_true_eq] at hevm
    simp only [Transaction.effectiveGasLimit, Transaction.estimatedGasForAdmission]
    rcases hevm with hk | hk
    · rw [hk]
      exact le_max_left _ _
    · rw [hk]
      exact le_max_left _ _
  exact max_le (hgas.trans hlimit) (gasBase_le_effectiveGasLimit tx)

theorem debitSender_balance (h : debitSender ctx tx s = .ok () s') :
    ∃ sender, s'.accounts[tx.from]? = some sender ∧ sender.balance + tx.needed = balanceOf s tx.from := by
  obtain ⟨sender, hentry, rfl⟩ := debitSender_eq_ok.mp h
  refine ⟨sender, ?_, senderEntry_balance hentry⟩
  exact (KeyMap.getElem?_insert_eq _ _ _ _).trans (if_pos rfl)

/-- What the merge leaves of the sender's balance, and what revm had of it. -/
theorem executeEvm_balance {gasUsed : Nat} {receipt : Option Receipt} {sender : AccountState}
    (hevm : tx.isEvm = true) (hshape : validateTransactionShape tx = .ok ())
    (hsender : s.accounts[tx.from]? = some sender)
    (h : executeKind P ctx tx s = .ok (gasUsed, receipt) s') :
    ∃ result post, P.revmTransact (evmView tx s) (evmEnv ctx tx (evmView tx s)) = some (result, post) ∧
      gasUsed = max (Evm.resultGas result) GAS_BASE_TX ∧
      (∃ r, receipt = some r ∧ r.success = result.isSuccess) ∧
      (evmView tx s).balanceOf tx.from = sender.balance ∧
      ∀ account, post[tx.from]? = some account → balanceOf s' tx.from = min account.balance u64Max := by
  obtain ⟨hlength, -⟩ := toArray20_sender hevm hshape
  obtain ⟨result, post, outcome, hrun, hfinish, hreceipt, rfl⟩ := executeKind_evm hevm h
  obtain ⟨hgas, hsuccess, hupdates, -, -⟩ := finishExecution_eq_ok hfinish
  cases hreceipt
  refine ⟨result, post, hrun, ?_, ⟨_, rfl, hsuccess⟩, ?_, ?_⟩
  · rw [hgas]
  · rw [EvmStateView.balanceOf, evmView_caller hlength hsender]
    rfl
  · intro account hreported
    simp only [balanceOf]
    rw [getElem?_mergeAccounts, hupdates, Std.ExtTreeMap.getElem?_map, hreported]
    rfl

theorem settleFees_balance {gasUsed price : Nat} {r : Receipt}
    (hprice : tx.effectiveGasPrice ctx.baseFeePerGas = some price)
    (h : settleFees P ctx tx gasUsed (some r) s = .ok () s') :
    balanceOf s' tx.from = satAdd (balanceOf s tx.from) (gasRefund tx gasUsed price) ∧
      ∃ filed, s'.receipts[tx.hash P]? = some filed ∧ filed.success = r.success := by
  obtain ⟨-, price', hprice', rfl⟩ := settleFees_eq_ok.mp h
  obtain rfl : price = price' := Option.some.inj (hprice.symm.trans hprice')
  constructor
  · simp only [balanceOf, credit, KeyMap.getElem?_upsert, if_true, Option.getD_some]
  · exact ⟨_, (KeyMap.getElem?_insert_eq _ _ _ _).trans (if_pos rfl), rfl⟩

/-- **What the sender really pays**: on top of the charge, the gas at revm's price and the amount once more. -/
theorem evm_charge {gasUsed price : Nat} (hevm : tx.isEvm = true) (hmax : balanceOf s tx.from ≤ u64Max)
    (hrevm : DebitsSender P ctx tx s) (h : applyUserTransaction P ctx tx s = .ok gasUsed s')
    (hprice : tx.effectiveGasPrice ctx.baseFeePerGas = some price) :
    ∃ receipt gas, s'.receipts[tx.hash P]? = some receipt ∧ 0 < gas ∧
      balanceOf s' tx.from + gasUsed * price + (if receipt.success then tx.amount else 0) +
        (gas * max ctx.baseFeePerGas 1 + tx.amount) = balanceOf s tx.from := by
  obtain ⟨hshape, -, s₁, receipt, s₂, hdebit, hexec, hsettle⟩ := apply_eq_ok.mp h
  obtain ⟨-, hkey⟩ := toArray20_sender hevm hshape
  obtain ⟨sender, hsender, hneeded⟩ := debitSender_balance hdebit
  obtain ⟨result, post, hrun, hgas, ⟨r, rfl, hsuccess⟩, hview, hmerged⟩ :=
    executeEvm_balance hevm hshape hsender hexec
  obtain ⟨hpos, hle, account, hreported, hdebited⟩ := hrevm s₁ result post hdebit hrun
  rw [show (evmEnv ctx tx (evmView tx s₁)).caller = toArray20 tx.from from rfl, hkey] at hreported hdebited
  rw [hview] at hdebited
  change account.balance + Evm.resultGas result * max ctx.baseFeePerGas 1 +
    (if result.isSuccess then tx.amount else 0) = sender.balance at hdebited
  have hpaid : 0 < Evm.resultGas result * max ctx.baseFeePerGas 1 :=
    Nat.mul_pos hpos (lt_of_lt_of_le Nat.zero_lt_one (le_max_right _ _))
  obtain ⟨hafter, filed, hfiled, hfiledSuccess⟩ := settleFees_balance hprice hsettle
  refine ⟨filed, Evm.resultGas result, hfiled, hpos, ?_⟩
  rw [hafter, hmerged account hreported, hfiledSuccess, hsuccess]
  generalize hoverpaid : Evm.resultGas result * max ctx.baseFeePerGas 1 = overpaid at hdebited hpaid ⊢
  generalize (if result.isSuccess then tx.amount else 0) = sent at hdebited ⊢
  -- something is left after the debit, so neither the debit nor the fee cap saturated
  have hadd : tx.needed = tx.amount + tx.totalFeeCap := needed_eq_add (by omega)
  have hgasLimit : gasUsed ≤ tx.effectiveGasLimit := hgas ▸ evm_gas_le hevm hle
  have hrefund := gasRefund_eq hgasLimit (effectiveGasPrice_le hprice) (feeCap_le (by omega))
  rw [Nat.min_eq_left (by omega), satAdd_eq_add_of_le (by omega)]
  omega

namespace ChargeSample

open NonceSample

def context : TxContext := ConservationSample.context

/-- The payment debits its sender. -/
theorem debitsSender : DebitsSender primitives context call before := by
  intro debited result post hdebit hrun
  have hdebited : debited = stateOf (debitSender context call before) := by
    rw [hdebit]
    rfl
  rw [hdebited] at hrun ⊢
  set view := evmView call (stateOf (debitSender context call before)) with hview
  have htest : (primitives.revmTransact view (evmEnv context call view)).all (fun r =>
      decide (0 < Evm.resultGas r.1 ∧ Evm.resultGas r.1 ≤ call.gasLimit) &&
        (r.2[SignedSample.signer]?).any fun account => decide (account.balance +
          Evm.resultGas r.1 * 1 + (if r.1.isSuccess then 5 else 0) =
            view.balanceOf SignedSample.signer)) = true := by
    decide +kernel
  rw [hrun] at htest
  simp only [Option.all_some, Bool.and_eq_true, decide_eq_true_eq] at htest
  obtain ⟨⟨hpos, hle⟩, hcaller⟩ := htest
  obtain ⟨account, hreported, hdebits⟩ := (Option.any_eq_true _ _).mp hcaller
  exact ⟨hpos, hle, account, hreported, of_decide_eq_true hdebits⟩

theorem price : call.effectiveGasPrice context.baseFeePerGas = some 1 := by decide +kernel

end ChargeSample

end Curs3d
