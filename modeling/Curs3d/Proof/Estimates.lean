import Curs3d.Chain.Produce
import Curs3d.Proof.FeeSplit
import Curs3d.Proof.Pool
import Curs3d.Proof.Voting

/-!
# Whether an estimate is honoured

`estimate_transaction` applies the pool in its stored order to the live accounts and the new transaction last.
Admission then sorts the new transaction into the pool, and production starts from the unlocked and settled
accounts and passes over what fails. So the block applies the transaction to another state than the estimate did.
Most kinds cost the same on every state; a contract call costs what the engine charges on the contract it finds.
-/

set_option autoImplicit false

namespace Curs3d

open U64 Outcome

section Gas

variable (P : Primitives) (ctx : TxContext) (tx : Transaction) (s : ExecState)

/-- What `Vm::call` charges for `tx` on the contract that is stored at its target. -/
def callGas : Option Nat :=
  s.contracts[tx.to]?.bind fun contract =>
    (Vm.call P contract tx.to tx.data tx.from tx.gasLimit).toOption.map fun r => r.2.gasUsed

/-- What revm charges for `tx` on its view of the state, floor included. -/
def evmGas : Option Nat :=
  match debitSender ctx tx s with
  | .ok _ debited =>
    (P.revmTransact (evmView tx debited) (evmEnv ctx tx (evmView tx debited))).map fun r =>
      max (Evm.resultGas r.1) GAS_BASE_TX
  | .error _ _ => none

end Gas

/-- The engine charges `tx` the same on two states. Only contract calls and EVM transactions meet an engine whose
charge depends on the state. -/
def SameGas (P : Primitives) (tx : Transaction) (ctx : TxContext) (s : ExecState) (ctx' : TxContext)
    (s' : ExecState) : Prop :=
  (tx.kind = .callContract → callGas P tx s = callGas P tx s') ∧
    (tx.isEvm = true → evmGas P ctx tx s = evmGas P ctx' tx s')

instance (P : Primitives) (tx : Transaction) (ctx ctx' : TxContext) (s s' : ExecState) :
    Decidable (SameGas P tx ctx s ctx' s') :=
  inferInstanceAs (Decidable (_ ∧ _))

namespace Blockchain

variable (P : Primitives) (c : Blockchain)

/-- Executing `block` on the chain comes to `tx` in the state `s`, and charges it `gasUsed`. -/
def Charges (block : Block) (tx : Transaction) (s : ExecState) (gasUsed : Nat) : Prop :=
  ∃ (before after : List Transaction) (p : BlockProgress) (s' : ExecState),
    block.transactions = before ++ tx :: after ∧
    runBlockTransactions P c.genesisConfig (c.txContext block.header.height block.header.baseFeePerGas) 0 before
      { state := startState (c.prepareEpoch P block.header.height).execState block.header.height
        txHashes := ∅, priorityFees := 0, totalGasUsed := 0, coinbase := none } = .ok p ∧
    p.state = s ∧
    applyUserTransaction P (c.txContext block.header.height block.header.baseFeePerGas) tx s = .ok gasUsed s'

/-- The block charges `tx` the gas and the fees of the estimate. -/
def Honours (block : Block) (tx : Transaction) (e : TransactionEstimate) : Prop :=
  ∀ s gasUsed, c.Charges P block tx s gasUsed →
    ∃ price, tx.effectiveGasPrice block.header.baseFeePerGas = some price ∧
      tx.fees block.header.baseFeePerGas gasUsed price = e.fees

end Blockchain

variable {P : Primitives} {ctx ctx' : TxContext} {tx : Transaction} {s s' t t' : ExecState} {gasUsed gasUsed' : Nat}

/-! ## The gas of a kind -/

theorem executeCall_gas {receipt : Receipt} (h : executeCall P tx s = .ok (gasUsed, receipt) s') :
    callGas P tx s = some gasUsed := by
  simp only [executeCall] at h
  obtain ⟨st, s₀, hget, h⟩ := bind_eq_ok.mp h
  cases hget
  cases hc : s.contracts[tx.to]? with
  | none =>
    rw [hc] at h
    cases h
  | some contract =>
    rw [hc] at h
    simp only [bind_eq_ok, vmResult_eq_ok] at h
    obtain ⟨⟨contract', r⟩, _, ⟨hvm, rfl⟩, _, _, -, hret⟩ := h
    cases hret
    simp only [callGas, hc, Option.bind_some, hvm, Except.toOption, Option.map_some]

/-- A deployment costs what its code costs, whoever deploys it at whatever height. -/
theorem Vm.deploy_gas {code d d' : Bytes} {n n' g h h' : Nat} {r r' : ContractState × Receipt}
    (hrun : Vm.deploy P code d n g h = .ok r) (hrun' : Vm.deploy P code d' n' g h' = .ok r') :
    r.2.gasUsed = r'.2.gasUsed := by
  simp only [Vm.deploy] at hrun hrun'
  split at hrun
  · cases hrun
  split at hrun'
  · cases hrun'
  simp only [except_bind_eq_ok] at hrun hrun'
  obtain ⟨⟨wasm, hooked⟩, hcompile, byteGas, hbytes, needed, hneeded, hrun⟩ := hrun
  obtain ⟨⟨wasm', hooked'⟩, hcompile', byteGas', hbytes', needed', hneeded', hrun'⟩ := hrun'
  cases hcompile.symm.trans hcompile'
  cases hbytes.symm.trans hbytes'
  cases hneeded.symm.trans hneeded'
  dsimp only at hrun hrun'
  split at hrun
  · cases hrun
  split at hrun'
  · cases hrun'
  cases hrun
  cases hrun'
  rfl

theorem executeDeploy_gas {receipt receipt' : Receipt} (h : executeDeploy P ctx tx s = .ok (gasUsed, receipt) s')
    (h' : executeDeploy P ctx' tx t = .ok (gasUsed', receipt') t') : gasUsed = gasUsed' := by
  simp only [executeDeploy, bind_eq_ok, vmResult_eq_ok] at h h'
  obtain ⟨r, _, ⟨hvm, rfl⟩, _, _, -, hret⟩ := h
  obtain ⟨r', _, ⟨hvm', rfl⟩, _, _, -, hret'⟩ := h'
  cases hret
  cases hret'
  exact Vm.deploy_gas hvm hvm'

/-- The gas of a transaction, kind by kind. -/
structure ChargedGas (P : Primitives) (ctx : TxContext) (tx : Transaction) (s : ExecState) (gasUsed : Nat) : Prop where
  call : tx.kind = .callContract → callGas P tx s = some gasUsed
  evm : tx.isEvm = true → evmGas P ctx tx s = some gasUsed
  deploy : tx.kind = .deployContract → ∃ s₁ s₂ receipt, executeDeploy P ctx tx s₁ = .ok (gasUsed, receipt) s₂
  other : tx.kind ≠ .callContract → tx.isEvm = false → tx.kind ≠ .deployContract → gasUsed = GAS_BASE_TX

theorem chargedGas_of_apply (h : applyUserTransaction P ctx tx s = .ok gasUsed s') :
    ChargedGas P ctx tx s gasUsed := by
  obtain ⟨-, -, s₁, receipt, s₂, hdebit, hexec, -⟩ := apply_eq_ok.mp h
  refine ⟨?_, ?_, ?_, ?_⟩
  · intro hk
    simp only [executeKind, hk] at hexec
    obtain ⟨⟨gas, r⟩, _, hcall, hret⟩ := bind_eq_ok.mp hexec
    cases hret
    -- the debit is not about contracts
    obtain ⟨sender, -, rfl⟩ := debitSender_eq_ok.mp hdebit
    have hgas := executeCall_gas hcall
    exact hgas
  · intro hevm
    obtain ⟨result, post, outcome, hrun, hfinish, hreceipt, -⟩ := executeKind_evm hevm hexec
    obtain ⟨hgas, -⟩ := finishExecution_eq_ok hfinish
    cases hreceipt
    simp only [evmGas, hdebit, hrun, Option.map_some, hgas]
  · intro hk
    simp only [executeKind, hk] at hexec
    obtain ⟨⟨gas, r⟩, _, hdeploy, hret⟩ := bind_eq_ok.mp hexec
    cases hret
    exact ⟨s₁, _, r, hdeploy⟩
  · intro hcall hevm hdeploy
    cases nativeRun_of_ok hevm hexec with
    | transfer | idle | governance | token => rfl
    | deploy hk _ => exact absurd hk hdeploy
    | call hk _ => exact absurd hk hcall

/-- **Two applications of one transaction charge the same gas exactly when the engine does.** -/
theorem gas_eq_iff (h : applyUserTransaction P ctx tx s = .ok gasUsed s')
    (h' : applyUserTransaction P ctx' tx t = .ok gasUsed' t') :
    gasUsed = gasUsed' ↔ SameGas P tx ctx s ctx' t := by
  have hgas := chargedGas_of_apply h
  have hgas' := chargedGas_of_apply h'
  constructor
  · rintro rfl
    constructor
    · intro hk
      rw [hgas.call hk, hgas'.call hk]
    · intro hevm
      rw [hgas.evm hevm, hgas'.evm hevm]
  · rintro ⟨hcall, hevm⟩
    by_cases hk : tx.kind = .callContract
    · exact Option.some.inj ((hgas.call hk).symm.trans ((hcall hk).trans (hgas'.call hk)))
    by_cases he : tx.isEvm = true
    · exact Option.some.inj ((hgas.evm he).symm.trans ((hevm he).trans (hgas'.evm he)))
    have hnative : tx.isEvm = false := by simpa using he
    by_cases hd : tx.kind = .deployContract
    · obtain ⟨_, _, _, hdeploy⟩ := hgas.deploy hd
      obtain ⟨_, _, _, hdeploy'⟩ := hgas'.deploy hd
      exact executeDeploy_gas hdeploy hdeploy'
    · rw [hgas.other hk hnative hd, hgas'.other hk hnative hd]

/-- Contracts that agree at the target of a call cost the same. -/
theorem sameGas_of_contract (hcall : tx.kind = .callContract) (h : s.contracts[tx.to]? = t.contracts[tx.to]?) :
    SameGas P tx ctx s ctx' t := by
  constructor
  · intro _
    simp only [callGas, h]
  · intro hevm
    simp only [Transaction.isEvm, hcall] at hevm
    exact absurd hevm (by decide)

/-- Every other native kind costs the same on every state. -/
theorem sameGas_of_fixed (hcall : tx.kind ≠ .callContract) (hnative : tx.isEvm = false) :
    SameGas P tx ctx s ctx' t := by
  constructor
  · intro hk
    exact absurd hk hcall
  · intro hevm
    rw [hnative] at hevm
    cases hevm

namespace Blockchain

variable {c c' : Blockchain} {e : TransactionEstimate} {block : Block} {keypair : KeyPair} {now later : Int}
  {projected : ExecState}

/-- An estimate is an application on the projected state. -/
theorem estimate_applies (he : c.estimateTransaction P tx = .ok e) :
    ∃ projected s', c.projectedState P tx = .ok projected ∧ e.baseFeePerGas = c.pendingBaseFee ∧
      applyUserTransaction P (c.txContext (c.height + 1) c.pendingBaseFee) tx projected = .ok e.gasUsed s' := by
  simp only [estimateTransaction, except_bind_eq_ok] at he
  obtain ⟨-, -, -, -, projected, hprojected, he⟩ := he
  split at he
  · cases he
  · next gasUsed s' happly =>
    obtain ⟨price, -, hret⟩ := except_bind_eq_ok.mp he
    cases hret
    exact ⟨projected, s', hprojected, rfl, happly⟩

/-- The next block has the base fee the estimate was made with. -/
theorem createBlock_baseFee (h : c.createBlock P now keypair = .ok block) :
    block.header.baseFeePerGas = c.pendingBaseFee := by
  simp only [createBlock, except_bind_eq_ok] at h
  obtain ⟨-, -, accounts, -, hret⟩ := h
  cases hret
  rfl

/-- **An estimate is honoured exactly when the engine charges the transaction the same at its place in the block as
after the stored pool.** -/
theorem estimate_honoured_iff (he : c.estimateTransaction P tx = .ok e)
    (hprojected : c.projectedState P tx = .ok projected) (hadd : c.addTransaction P now tx = (.ok (), c'))
    (hblock : c'.createBlock P later keypair = .ok block) :
    c'.Honours P block tx e ↔ ∀ s gasUsed, c'.Charges P block tx s gasUsed →
      SameGas P tx (c'.txContext block.header.height block.header.baseFeePerGas) s
        (c.txContext (c.height + 1) c.pendingBaseFee) projected := by
  obtain ⟨projected', t', hprojected', hbase, hestimated⟩ := estimate_applies he
  cases hprojected.symm.trans hprojected'
  obtain ⟨price, hprice, hfees, -, -⟩ := estimate_fees he
  -- admission does not move the tip, so the base fee is the same
  have hsame : block.header.baseFeePerGas = e.baseFeePerGas := by
    obtain ⟨pool, hpool⟩ := @addTransaction_pool P c now tx
    rw [hadd] at hpool
    dsimp only at hpool
    rw [createBlock_baseFee hblock, hbase, hpool]
    rfl
  constructor
  · intro hhonours s gasUsed hcharges
    obtain ⟨price', hprice', hreported⟩ := hhonours s gasUsed hcharges
    obtain ⟨-, -, -, s', -, -, -, happly⟩ := hcharges
    rw [← gas_eq_iff happly hestimated]
    exact congrArg Fees.gasUsed hreported
  · intro hgas s gasUsed hcharges
    have hengine := hgas s gasUsed hcharges
    obtain ⟨-, -, -, s', -, -, -, happly⟩ := hcharges
    rw [← gas_eq_iff happly hestimated] at hengine
    refine ⟨price, ?_, ?_⟩
    · rw [hsame]
      exact hprice
    · rw [hsame, hfees, hengine]

end Blockchain

namespace EstimateSample

open Scenario

/-- A contract that initialises itself: its first call writes a key, which the later ones find. -/
def primitives : Primitives :=
  { Reference.primitives with
    wasmOperators := fun _ => ([], true)
    wasmFunctionImports := fun _ => some [(ascii "curs3d", ascii "consume_gas")]
    wasmModuleOk := fun _ => true
    wasmRun := fun _ ctx =>
      let cost := if ctx.storage.isEmpty then 1000 else 100
      if ctx.gasRemaining < cost then .error .execution
      else .ok ({ ctx with
        storage := ctx.storage.insert [0] [1]
        gasRemaining := ctx.gasRemaining - cost }, []) }

/-- Two funded accounts, nobody at stake. -/
def genesis : GenesisConfig where
  chainId := [1]
  allocations := [allocation 1 1000000 0, allocation 2 1000000 0]

def transaction (kind : TransactionKind) (sender : UInt8) («to» : Bytes) (amount fee nonce : Nat) :
    Transaction :=
  Transaction.sign primitives
    { chainId := [1]
      kind
      «from» := addressBytesFromPublicKey primitives (key sender).publicKey
      senderPublicKey := (key sender).publicKey
      «to»
      amount
      fee
      maxFeePerGas := 0
      maxPriorityFeePerGas := 0
      nonce
      timestamp := clock 1
      signature := none
      gasLimit := 60000
      data := []
      evmRawTx := [] }
    (key sender)

def deployment : Transaction := transaction .deployContract 1 [0] 0 1 0

def address : Bytes := Vm.contractAddressFor primitives deployment.from 0 1

/-- The call that is pending, and the one that is estimated and pays more. -/
def pending : Transaction := transaction .callContract 1 address 0 1 1

def call : Transaction := transaction .callContract 2 address 0 2 0

def add (c : Blockchain) (tx : Transaction) : Except ChainError Unit × Blockchain :=
  c.addTransaction primitives (clock 1) tx

/-- The chain with the contract mined and the first call pending. -/
def prepared (c : Blockchain) : Option Blockchain :=
  ((add c deployment).2.createBlock primitives (clock 1) (key 1)).toOption.map fun block =>
    (add ((add c deployment).2.addBlock primitives (clock 1) block).2 pending).2

theorem reachable_prepared {c c' : Blockchain} (h : c.Reachable primitives) (hc : prepared c = some c') :
    c'.Reachable primitives := by
  obtain ⟨block, -, rfl⟩ := Option.map_eq_some_iff.mp hc
  exact .addTransaction (clock 1) pending (.addBlock (clock 1) block (.addTransaction (clock 1) deployment h))

/-- What executing `block` up to its second transaction makes of the state. -/
def reached (c : Blockchain) (block : Block) : Except ChainError BlockProgress :=
  runBlockTransactions primitives c.genesisConfig (c.txContext block.header.height block.header.baseFeePerGas) 0
    (block.transactions.take 1)
    { state := Blockchain.startState (c.prepareEpoch primitives block.header.height).execState block.header.height
      txHashes := ∅, priorityFees := 0, totalGasUsed := 0, coinbase := none }

/-- `tx` is estimated, admitted and put next to the coinbase, and then costs what `check` says. -/
def observed (c : Blockchain) (tx : Transaction) (check : TransactionEstimate → Nat → Bool) : Bool :=
  (c.estimateTransaction primitives tx).toOption.any fun e =>
    decide ((add c tx).1 = .ok ()) &&
      ((add c tx).2.createBlock primitives (clock 1) (key 1)).toOption.any fun block =>
        decide (block.transactions.drop 1 = tx :: block.transactions.drop 2) &&
          (reached (add c tx).2 block).toOption.any fun p =>
            (valueOf (applyUserTransaction primitives ((add c tx).2.txContext block.header.height
              block.header.baseFeePerGas) tx p.state)).any (check e)

/-- The steps of an observation. -/
structure Observed (c c' : Blockchain) (tx : Transaction) (e : TransactionEstimate) (block : Block) (s : ExecState)
    (gasUsed : Nat) : Prop where
  estimate : c.estimateTransaction primitives tx = .ok e
  admitted : c.addTransaction primitives (clock 1) tx = (.ok (), c')
  built : c'.createBlock primitives (clock 1) (key 1) = .ok block
  contains : tx ∈ block.transactions
  charges : c'.Charges primitives block tx s gasUsed

theorem observed_steps {c : Blockchain} {tx : Transaction} {check : TransactionEstimate → Nat → Bool}
    (h : observed c tx check = true) :
    ∃ c' e block s gasUsed, Observed c c' tx e block s gasUsed ∧ check e gasUsed = true := by
  obtain ⟨e, he, h⟩ := ok_of_any h
  obtain ⟨hadd, h⟩ := Bool.and_eq_true_iff.mp h
  obtain ⟨block, hblock, h⟩ := ok_of_any h
  obtain ⟨hplace, h⟩ := Bool.and_eq_true_iff.mp h
  obtain ⟨p, hp, h⟩ := ok_of_any h
  obtain ⟨gasUsed, happly, hcheck⟩ := (Option.any_eq_true _ _).mp h
  have hdrop := of_decide_eq_true hplace
  have hplaced : block.transactions = block.transactions.take 1 ++ tx :: block.transactions.drop 2 := by
    rw [← hdrop]
    exact (List.take_append_drop 1 block.transactions).symm
  refine ⟨(add c tx).2, e, block, p.state, gasUsed, ⟨he, ?_, hblock, ?_, ?_⟩, hcheck⟩
  · exact Prod.ext (of_decide_eq_true hadd) rfl
  · rw [hplaced]
    exact List.mem_append_right _ List.mem_cons_self
  · exact ⟨_, _, p, _, hplaced, hp, rfl, eq_ok_of_valueOf happly⟩

/-- A transfer by the account that calls. -/
def payment : Transaction := transaction .transfer 2 (addressBytesFromPublicKey primitives (key 1).publicKey) 5 2 0

end EstimateSample

open EstimateSample in
/-- A transfer that overtakes the pending call is charged what was estimated. -/
theorem estimate_honoured_sample : ∃ (c c' : Blockchain) (e : TransactionEstimate) (block : Block),
    c.estimateTransaction primitives payment = .ok e ∧ payment ∈ block.transactions ∧
      c'.Honours primitives block payment e := by
  have hrun : (fromGenesis primitives genesis).toOption.any fun c₀ => (prepared c₀).any fun c =>
      observed c payment fun e gasUsed => e.gasUsed = gasUsed := by
    decide +kernel
  obtain ⟨c₀, -, hrun⟩ := ok_of_any hrun
  obtain ⟨c, -, hrun⟩ := (Option.any_eq_true _ _).mp hrun
  obtain ⟨c', e, block, s, gasUsed, h, -⟩ := observed_steps hrun
  obtain ⟨projected, -, hprojected, -, -⟩ := Blockchain.estimate_applies h.estimate
  refine ⟨c, c', e, block, h.estimate, h.contains, ?_⟩
  apply (Blockchain.estimate_honoured_iff h.estimate hprojected h.admitted h.built).mpr
  intro s gasUsed _
  exact sameGas_of_fixed (by decide) (by decide)

open EstimateSample Scenario in
/-- The estimate comes after the call that initialises the contract, the block puts it before: 23700 units are
estimated and 24600 charged. -/
theorem estimate_not_honoured : ¬ ∀ (P : Primitives) (c c' : Blockchain) (now later : Int) (tx : Transaction)
    (e : TransactionEstimate) (keypair : KeyPair) (block : Block), c.Reachable P →
      c.estimateTransaction P tx = .ok e → c.addTransaction P now tx = (.ok (), c') →
      c'.createBlock P later keypair = .ok block → tx ∈ block.transactions → c'.Honours P block tx e := by
  intro hall
  have hrun : (fromGenesis primitives genesis).toOption.any fun c₀ => (prepared c₀).any fun c =>
      observed c call fun e gasUsed => e.gasUsed = 23700 ∧ gasUsed = 24600 := by
    decide +kernel
  obtain ⟨c₀, hgenesis, hrun⟩ := ok_of_any hrun
  obtain ⟨c, hprepared, hrun⟩ := (Option.any_eq_true _ _).mp hrun
  obtain ⟨c', e, block, s, gasUsed, h, hcheck⟩ := observed_steps hrun
  obtain ⟨hestimated, hcharged⟩ := of_decide_eq_true hcheck
  have hreachable := reachable_prepared (Blockchain.Reachable.fromGenesis hgenesis) hprepared
  obtain ⟨price, -, hfees⟩ := hall primitives c c' (clock 1) (clock 1) call e (key 1) block hreachable h.estimate
    h.admitted h.built h.contains s gasUsed h.charges
  have hgas : gasUsed = e.gasUsed := congrArg Fees.gasUsed hfees
  omega

end Curs3d
