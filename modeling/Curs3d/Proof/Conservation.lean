import Curs3d.Proof.Execute
import Curs3d.Crypto.Reference

/-!
# Where the CUR goes

The native supply an account map holds is the total of its liquid, staked and unlocking amounts.
Each stage of a transaction moves it by a known amount: the debit takes `amount + fee cap` (and
gives `amount` back to the stake of a `Stake`), the kind credits `amount` or nothing, the
settlement refunds the fee cap less `gas * price`. Only `Transfer`, `Stake` and `CallContract`
put `amount` anywhere, so every other kind destroys it.
-/

set_option autoImplicit false

namespace Curs3d

open U64 Outcome

/-- Everything one account holds: liquid, staked and unlocking. -/
def AccountState.total (a : AccountState) : Nat :=
  a.balance + a.stakedBalance + (a.pendingUnstakes.map PendingUnstake.amount).sum

/-- The native supply of an account map. -/
def totalCur (accounts : ByteMap AccountState) : Nat := KeyMap.sumBy AccountState.total accounts

variable {P : Primitives} {ctx : TxContext} {tx : Transaction} {s s' : ExecState}

theorem AccountState.total_default : AccountState.total {} = 0 := rfl

/-! ## Credits -/

theorem AccountState.balance_le_total (a : AccountState) : a.balance ≤ a.total := by
  unfold AccountState.total
  omega

theorem totalCur_credit {accounts : ByteMap AccountState} {addr : Bytes} {amount : Nat}
    (h : totalCur accounts + amount ≤ u64Max) :
    totalCur (credit accounts addr amount) = totalCur accounts + amount := by
  have hsum := KeyMap.sumBy_upsert AccountState.total accounts addr {}
    (fun a => { a with balance := satAdd a.balance amount }) AccountState.total_default
  have hle := KeyMap.getD_le_sumBy AccountState.total accounts addr {} AccountState.total_default
  unfold totalCur credit at *
  generalize accounts[addr]?.getD {} = a at hsum hle
  have hbal : satAdd a.balance amount = a.balance + amount :=
    satAdd_eq_add_of_le (by have := a.balance_le_total; omega)
  have hcredit : ({ a with balance := a.balance + amount } : AccountState).total =
      a.total + amount := by
    unfold AccountState.total
    dsimp only
    omega
  rw [hbal, hcredit] at hsum
  omega

/-! ## The debit -/

/-- What the debit takes out of the sender's account: a `Stake` keeps its amount. -/
def Transaction.taken (tx : Transaction) : Nat :=
  if tx.kind = .stake then tx.totalFeeCap else tx.amount + tx.totalFeeCap

theorem needed_eq_add (h : tx.needed < u64Max) : tx.needed = tx.amount + tx.totalFeeCap :=
  satAdd_eq_add_of_lt h

/-- The sender's entry loses `taken`. -/
theorem senderEntry_total {a a' : AccountState} (hmax : a.total < u64Max)
    (h : senderEntry ctx tx a = .ok () a') :
    tx.needed ≤ a.balance ∧ a'.total + tx.taken = a.total := by
  obtain ⟨a₁, a₂, hbind, htake, hmove⟩ := senderEntry_eq_ok.mp h
  have h₁ := bindPublicKey_ok hbind
  obtain ⟨hneed, -, rfl⟩ := takeUpFront_eq_ok.mp htake
  have hbal : a₁.balance = a.balance := by rw [h₁]
  have htot : a₁.total = a.total := by rw [h₁]; rfl
  rw [← htot] at hmax ⊢
  rw [← hbal]
  have hn : tx.needed = tx.amount + tx.totalFeeCap :=
    needed_eq_add (by have := a₁.balance_le_total; omega)
  refine ⟨hneed, ?_⟩
  unfold AccountState.total at hmax ⊢
  unfold Transaction.taken
  rcases moveStake_eq_ok.mp hmove with ⟨hk, rfl⟩ | ⟨hk, hst, rfl⟩ | ⟨hk, -, rfl⟩
  · have hst : satAdd a₁.stakedBalance tx.amount = a₁.stakedBalance + tx.amount :=
      satAdd_eq_add_of_le (by omega)
    simp only [hk, addStake, hst, if_true]
    omega
  · dsimp only at hst
    simp only [hk, List.map_append, List.map_singleton, List.sum_append, List.sum_singleton]
    rw [if_neg (by simp)]
    omega
  · simp only [hk, if_false]
    omega

theorem debitSender_total (hmax : totalCur s.accounts < u64Max)
    (h : debitSender ctx tx s = .ok () s') :
    tx.needed < u64Max ∧ totalCur s'.accounts + tx.taken = totalCur s.accounts := by
  obtain ⟨sender, hentry, rfl⟩ := debitSender_eq_ok.mp h
  have hle := KeyMap.getD_le_sumBy AccountState.total s.accounts tx.from {}
    AccountState.total_default
  have hsum := KeyMap.sumBy_upsert AccountState.total s.accounts tx.from {} (fun _ => sender)
    AccountState.total_default
  have hbefore : (senderBefore tx s).total < u64Max := lt_of_le_of_lt hle hmax
  obtain ⟨hneed, htot⟩ := senderEntry_total hbefore hentry
  unfold senderBefore at hneed htot hbefore
  constructor
  · unfold AccountState.total at hbefore
    omega
  · unfold totalCur KeyMap.upsert at *
    dsimp only at hsum ⊢
    omega

/-! ## The kinds -/

/-- The kinds that put `amount` somewhere, if it is not zero. -/
def TransactionKind.delivers (kind : TransactionKind) : Bool :=
  kind = .transfer ∨ kind = .callContract

theorem vmResult_eq_ok {α : Type} {r : Except VmError α} {a : α} :
    vmResult r s = .ok a s' ↔ r = .ok a ∧ s' = s := by
  cases r <;> simp [vmResult, eq_comm]

/-- A deployment costs at most its gas limit, and has the address of its deployer's nonce and height. -/
theorem Vm.deploy_eq_ok {code deployer : Bytes} {nonce gasLimit height : Nat}
    {contract : ContractState} {receipt : Receipt}
    (h : Vm.deploy P code deployer nonce gasLimit height = .ok (contract, receipt)) :
    receipt.gasUsed ≤ gasLimit ∧
      receipt.contractAddress = some (Vm.contractAddressFor P deployer nonce height) := by
  unfold Vm.deploy at h
  split at h
  · exact absurd h (by simp [bind, Except.bind, throw, throwThe, MonadExceptOf.throw])
  simp only [except_bind_eq_ok] at h
  obtain ⟨⟨_, _⟩, -, _, -, needed, -, h⟩ := h
  dsimp only at h
  split at h
  · exact absurd h (by simp [bind, Except.bind, throw, throwThe, MonadExceptOf.throw])
  next hle =>
  cases h
  exact ⟨Nat.le_of_not_lt hle, rfl⟩

/-- A call costs at most its gas limit, whatever the engine reports. -/
theorem Vm.call_gas_le {contract contract' : ContractState} {addr data caller : Bytes}
    {gasLimit : Nat} {receipt : Receipt}
    (h : Vm.call P contract addr data caller gasLimit = .ok (contract', receipt)) :
    receipt.gasUsed ≤ gasLimit := by
  unfold Vm.call at h
  simp only [except_bind_eq_ok] at h
  obtain ⟨_, -, ⟨_, _⟩, -, needed, -, h⟩ := h
  dsimp only at h
  split at h
  · exact absurd h (by simp [bind, Except.bind, throw, throwThe, MonadExceptOf.throw])
  obtain ⟨⟨_, _⟩, -, h⟩ := except_bind_eq_ok.mp h
  cases h
  exact Nat.sub_le _ _

theorem gasLimit_le_effectiveGasLimit
    (h : tx.kind = .deployContract ∨ tx.kind = .callContract) :
    tx.gasLimit ≤ tx.effectiveGasLimit := by
  unfold Transaction.effectiveGasLimit Transaction.estimatedGasForAdmission
  rcases h with h | h <;> rw [h] <;> exact le_max_left _ _

theorem executeDeploy_eq_ok {gasUsed : Nat} {receipt : Receipt}
    (h : executeDeploy P ctx tx s = .ok (gasUsed, receipt) s') :
    gasUsed ≤ tx.gasLimit ∧ ∃ contract, s' = { s with
      contracts := s.contracts.insert
        (Vm.contractAddressFor P tx.from (tx.nonce - 1) ctx.currentHeight) contract } := by
  unfold executeDeploy at h
  simp only [bind_eq_ok, vmResult_eq_ok] at h
  obtain ⟨⟨contract, r⟩, s₁, ⟨hvm, rfl⟩, _, s₂, hmod, hret⟩ := h
  cases hret
  cases hmod
  obtain ⟨hgas, haddress⟩ := Vm.deploy_eq_ok hvm
  refine ⟨hgas, contract, ?_⟩
  simp only [haddress]

theorem executeCall_eq_ok {gasUsed : Nat} {receipt : Receipt}
    (h : executeCall P tx s = .ok (gasUsed, receipt) s') :
    gasUsed ≤ tx.gasLimit ∧ ∃ contract contract', s.contracts[tx.to]? = some contract ∧ s' = { s with
      contracts := s.contracts.insert tx.to contract'
      accounts := if 0 < tx.amount then credit s.accounts tx.to tx.amount else s.accounts } := by
  unfold executeCall at h
  obtain ⟨st, s₀, hget, h⟩ := bind_eq_ok.mp h
  cases hget
  cases hc : s.contracts[tx.to]? with
  | none =>
    rw [hc] at h
    exact absurd h (by simp [throw, throwThe, MonadExceptOf.throw, EStateM.throw])
  | some contract =>
    simp only [hc, bind_eq_ok, vmResult_eq_ok] at h
    obtain ⟨⟨contract', r⟩, s₁, ⟨hvm, rfl⟩, _, s₂, hmod, hret⟩ := h
    cases hret
    cases hmod
    exact ⟨Vm.call_gas_le hvm, contract, contract', rfl, rfl⟩

/-- A token or governance kind writes the outcome of one governance action, or the tokens. -/
theorem applyTokenOrGovernanceTx_eq_ok (h : applyTokenOrGovernanceTx P ctx tx s = .ok () s') :
    (∃ g, (applySubmitProposal P ctx tx s = .ok g ∨ applyGovernanceVote P ctx tx s = .ok g) ∧
        s' = { s with governance := g }) ∨
      ∃ r, applyTokenTx P ctx tx s.tokenRegistry = .ok r ∧ s' = { s with tokenRegistry := r } := by
  unfold applyTokenOrGovernanceTx at h
  dsimp only at h
  split at h
  · next s₁ hres =>
    cases h
    split at hres
    · obtain ⟨g, hg, rfl⟩ := except_map_eq_ok.mp hres
      exact .inl ⟨g, .inl hg, rfl⟩
    · obtain ⟨g, hg, rfl⟩ := except_map_eq_ok.mp hres
      exact .inl ⟨g, .inr hg, rfl⟩
    · obtain ⟨r, hr, rfl⟩ := except_map_eq_ok.mp hres
      exact .inr ⟨r, hr, rfl⟩
  · exact absurd h (by simp)

/-- What the execution of a native kind can do: the gas, the receipt and the state after it. -/
inductive NativeRun (P : Primitives) (ctx : TxContext) (tx : Transaction) (s : ExecState) :
    Nat → Option Receipt → ExecState → Prop
  | transfer (hk : tx.kind = .transfer) :
    NativeRun P ctx tx s GAS_BASE_TX none { s with accounts := credit s.accounts tx.to tx.amount }
  | idle (hk : tx.kind.delivers = false) : NativeRun P ctx tx s GAS_BASE_TX none s
  | deploy {gasUsed : Nat} {receipt : Receipt} {s' : ExecState} (hk : tx.kind = .deployContract)
    (h : executeDeploy P ctx tx s = .ok (gasUsed, receipt) s') :
    NativeRun P ctx tx s gasUsed (some receipt) s'
  | call {gasUsed : Nat} {receipt : Receipt} {s' : ExecState} (hk : tx.kind = .callContract)
    (h : executeCall P tx s = .ok (gasUsed, receipt) s') :
    NativeRun P ctx tx s gasUsed (some receipt) s'
  | governance {g : GovernanceState} (hk : tx.kind.delivers = false)
    (h : applySubmitProposal P ctx tx s = .ok g ∨ applyGovernanceVote P ctx tx s = .ok g) :
    NativeRun P ctx tx s GAS_BASE_TX none { s with governance := g }
  | token {r : TokenRegistry} (hk : tx.kind.delivers = false)
    (h : applyTokenTx P ctx tx s.tokenRegistry = .ok r) :
    NativeRun P ctx tx s GAS_BASE_TX none { s with tokenRegistry := r }

theorem nativeRun_of_ok {gasUsed : Nat} {receipt : Option Receipt} (hnative : tx.isEvm = false)
    (h : executeKind P ctx tx s = .ok (gasUsed, receipt) s') :
    NativeRun P ctx tx s gasUsed receipt s' := by
  unfold executeKind at h
  unfold Transaction.isEvm at hnative
  cases hk : tx.kind
  all_goals simp only [hk] at h hnative
  case transfer =>
    cases h
    exact .transfer hk
  case stake | unstake =>
    cases h
    exact .idle (by simp [TransactionKind.delivers, hk])
  case coinbase => exact absurd h (by simp [throw, throwThe, MonadExceptOf.throw, EStateM.throw])
  case deployContract =>
    obtain ⟨⟨gas, r⟩, s₁, hdeploy, hret⟩ := bind_eq_ok.mp h
    cases hret
    exact .deploy hk hdeploy
  case callContract =>
    obtain ⟨⟨gas, r⟩, s₁, hcall, hret⟩ := bind_eq_ok.mp h
    cases hret
    exact .call hk hcall
  case deployEvmContract => exact absurd hnative (by simp)
  case callEvmContract => exact absurd hnative (by simp)
  all_goals
    obtain ⟨_, s₁, htoken, hret⟩ := bind_eq_ok.mp h
    cases hret
    have hquiet : tx.kind.delivers = false := by simp [TransactionKind.delivers, hk]
    obtain ⟨g, hg, rfl⟩ | ⟨r, hr, rfl⟩ := applyTokenOrGovernanceTx_eq_ok htoken
    · exact .governance hquiet hg
    · exact .token hquiet hr

/-- A native kind stays within the gas limit and credits `amount` or nothing. -/
theorem executeKind_native {gasUsed : Nat} {receipt : Option Receipt} (hnative : tx.isEvm = false)
    (h : executeKind P ctx tx s = .ok (gasUsed, receipt) s') :
    gasUsed ≤ tx.effectiveGasLimit ∧ s'.accounts =
      if tx.kind.delivers ∧ (tx.kind = .transfer ∨ 0 < tx.amount) then
        credit s.accounts tx.to tx.amount
      else s.accounts := by
  have hbase := gasBase_le_effectiveGasLimit tx
  cases nativeRun_of_ok hnative h with
  | transfer hk => exact ⟨hbase, by simp [TransactionKind.delivers, hk]⟩
  | idle hk => exact ⟨hbase, by simp [hk]⟩
  | deploy hk hdeploy =>
    obtain ⟨hgas, contract, rfl⟩ := executeDeploy_eq_ok hdeploy
    exact ⟨hgas.trans (gasLimit_le_effectiveGasLimit (.inl hk)), by simp [TransactionKind.delivers, hk]⟩
  | call hk hcall =>
    obtain ⟨hgas, contract, contract', -, rfl⟩ := executeCall_eq_ok hcall
    exact ⟨hgas.trans (gasLimit_le_effectiveGasLimit (.inr hk)), by simp [TransactionKind.delivers, hk]⟩
  | governance hk _ => exact ⟨hbase, by simp [hk]⟩
  | token hk _ => exact ⟨hbase, by simp [hk]⟩

/-! ## The whole transaction -/

/-- What a native transaction destroys besides its fee. -/
def Transaction.burned (tx : Transaction) : Nat :=
  if tx.kind.delivers ∨ tx.kind = .stake then 0 else tx.amount

/-- A fee cap that did not saturate covers the gas, and what it does not use is refunded. -/
theorem gasRefund_eq {gasUsed price : Nat} (hgas : gasUsed ≤ tx.effectiveGasLimit)
    (hprice : price ≤ tx.maxFeePerGas') (hcap : tx.effectiveGasLimit * tx.maxFeePerGas' ≤ u64Max) :
    gasRefund tx gasUsed price + gasUsed * price = tx.totalFeeCap := by
  have hfee : gasUsed * price ≤ tx.effectiveGasLimit * tx.maxFeePerGas' := Nat.mul_le_mul hgas hprice
  have hmul : tx.totalFeeCap = tx.effectiveGasLimit * tx.maxFeePerGas' := satMul_eq_mul_of_le hcap
  rw [gasRefund, satMul_eq_mul_of_le (by omega)]
  omega

theorem feeCap_le (hcap : tx.totalFeeCap < u64Max) :
    tx.effectiveGasLimit * tx.maxFeePerGas' ≤ u64Max := by
  have hmul : tx.totalFeeCap = tx.effectiveGasLimit * tx.maxFeePerGas' := satMul_eq_mul_of_lt hcap
  omega

/-- The account of one native transaction: the fee and the burned amount leave the supply. -/
theorem totalCur_apply {gasUsed : Nat} (hnative : tx.isEvm = false)
    (hmax : totalCur s.accounts < u64Max)
    (h : applyUserTransaction P ctx tx s = .ok gasUsed s') :
    ∃ price, tx.effectiveGasPrice ctx.baseFeePerGas = some price ∧
      totalCur s'.accounts + gasUsed * price + tx.burned = totalCur s.accounts := by
  obtain ⟨-, -, s₁, receipt, s₂, hdebit, hexec, hsettle⟩ := apply_eq_ok.mp h
  obtain ⟨-, price, hprice, rfl⟩ := settleFees_eq_ok.mp hsettle
  refine ⟨price, hprice, ?_⟩
  obtain ⟨hneed, htaken⟩ := debitSender_total hmax hdebit
  obtain ⟨hgas, hacc⟩ := executeKind_native hnative hexec
  have hcap : tx.totalFeeCap < u64Max := by
    have := needed_eq_add hneed
    omega
  -- the fee cap did not saturate, so it bounds what the gas costs
  have hrefund := gasRefund_eq hgas (effectiveGasPrice_le hprice) (feeCap_le hcap)
  have hexecuted : totalCur s₂.accounts + tx.totalFeeCap + tx.burned = totalCur s.accounts := by
    unfold Transaction.taken at htaken
    unfold Transaction.burned
    rw [hacc]
    by_cases hdel : tx.kind.delivers = true
    · have hstake : tx.kind ≠ .stake := by
        intro hk
        simp [TransactionKind.delivers, hk] at hdel
      rw [if_neg hstake] at htaken
      simp only [hdel, true_and, true_or, if_true]
      split
      · rw [totalCur_credit (by omega)]
        omega
      · omega
    · simp only [hdel, false_and, false_or, if_false, Bool.false_eq_true]
      split at htaken
      · next hk => rw [if_pos hk]; omega
      · next hk => rw [if_neg hk]; omega
  rw [totalCur_credit (by omega)]
  omega

/-- **The supply drops by the fee alone exactly for the kinds that deliver their amount**: a
transfer, a stake or a contract call, or any kind sent with amount zero. -/
theorem conserves_iff {gasUsed : Nat} (hnative : tx.isEvm = false)
    (hmax : totalCur s.accounts < u64Max)
    (h : applyUserTransaction P ctx tx s = .ok gasUsed s') :
    ∃ price, tx.effectiveGasPrice ctx.baseFeePerGas = some price ∧
      (totalCur s'.accounts + gasUsed * price = totalCur s.accounts ↔
        tx.amount = 0 ∨ tx.kind = .transfer ∨ tx.kind = .stake ∨ tx.kind = .callContract) := by
  obtain ⟨price, hprice, hlaw⟩ := totalCur_apply hnative hmax h
  refine ⟨price, hprice, ?_⟩
  have hburned : tx.burned = 0 ↔
      tx.amount = 0 ∨ tx.kind = .transfer ∨ tx.kind = .stake ∨ tx.kind = .callContract := by
    unfold Transaction.burned TransactionKind.delivers
    cases tx.kind <;> simp
  rw [← hburned]
  omega

namespace ConservationSample

def key : KeyPair := KeyPair.fromSeed Reference.primitives [7]

def address : Bytes := addressBytesFromPublicKey Reference.primitives key.publicKey

/-- The sender takes 400 of its 1000 staked units back. -/
def unstake : Transaction :=
  { chainId := [1], kind := .unstake, «from» := address, senderPublicKey := key.publicKey
    «to» := [], amount := 400, fee := 0, maxFeePerGas := 0, maxPriorityFeePerGas := 0, nonce := 0
    timestamp := 0, signature := none, gasLimit := 0, data := [], evmRawTx := []
    : Transaction }.sign Reference.primitives key

def context : TxContext where
  currentHeight := 1
  unstakeDelayBlocks := 10
  epochLength := 32
  minimumStake := 1000
  baseFeePerGas := 0

def before : ExecState where
  accounts := (∅ : ByteMap AccountState).insert address { balance := 1000, stakedBalance := 1000 }
  contracts := ∅
  receipts := ∅
  tokenRegistry := {}
  governance := {}

def after : ExecState :=
  stateOf (applyUserTransaction Reference.primitives context unstake before)

theorem applies :
    applyUserTransaction Reference.primitives context unstake before = .ok GAS_BASE_TX after :=
  eq_ok_of_valueOf (by decide +kernel)

end ConservationSample

open ConservationSample in
/-- The unstake of 400 units at price zero: the law fails, since 400 units are gone. -/
theorem conserves_iff_unstake : ∃ price, unstake.effectiveGasPrice 0 = some price ∧
    (totalCur after.accounts + GAS_BASE_TX * price = totalCur before.accounts ↔
      unstake.amount = 0 ∨ unstake.kind = .transfer ∨ unstake.kind = .stake ∨
        unstake.kind = .callContract) :=
  conserves_iff (by decide +kernel) (by decide +kernel) applies

open ConservationSample in
/-- The supply of 2000 is 1600 after the unstake, at a fee of zero. -/
theorem unstake_burns :
    ¬ ∀ (P : Primitives) (ctx : TxContext) (tx : Transaction) (s s' : ExecState)
        (gasUsed price : Nat), tx.isEvm = false → totalCur s.accounts < u64Max →
        applyUserTransaction P ctx tx s = .ok gasUsed s' →
        tx.effectiveGasPrice ctx.baseFeePerGas = some price →
        totalCur s'.accounts + gasUsed * price = totalCur s.accounts := by
  intro h
  have hlaw := h Reference.primitives context unstake before after GAS_BASE_TX 0
    (by decide +kernel) (by decide +kernel) applies (by decide +kernel)
  exact absurd hlaw (by decide +kernel)

end Curs3d
