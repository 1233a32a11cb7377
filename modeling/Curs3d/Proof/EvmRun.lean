import Curs3d.Proof.Conservation

/-!
# What an EVM execution leaves

`apply_evm_deploy` and `apply_evm_call` hand revm a view of the chain state and write its post-state back.
`executeKind_evm` takes a successful execution apart: what revm was given, what it returned, and the two maps
after the merge. An account revm reports takes its balance and nonce over (`getElem?_mergeAccounts`).
-/

set_option autoImplicit false

namespace Curs3d

open U64 Outcome

variable {P : Primitives} {ctx : TxContext} {tx : Transaction} {s s' : ExecState}

/-! ## What revm is given -/

/-- `apply_evm_deploy` puts the transaction's own nonce back, `apply_evm_call` does not. -/
def evmView (tx : Transaction) (s : ExecState) : EvmStateView :=
  let view := evmStateView s.accounts s.contracts
  if tx.kind = .deployEvmContract then
    match view.accounts[toArray20 tx.from]? with
    | some (balance, _) =>
      { view with accounts := view.accounts.insert (toArray20 tx.from) (balance, tx.nonce) }
    | none => view
  else view

def evmEnv (ctx : TxContext) (tx : Transaction) (view : EvmStateView) : EvmTxEnv where
  caller := toArray20 tx.from
  gasLimit := tx.gasLimit
  gasPrice := max ctx.baseFeePerGas 1
  kind := if tx.kind = .deployEvmContract then .create else .call (toArray20 tx.to)
  value := tx.amount
  data := tx.data
  nonce := (view.accounts[toArray20 tx.from]?.map Prod.snd).getD 0
  blockHeight := ctx.currentHeight
  baseFeePerGas := ctx.baseFeePerGas
  blockGasLimit := DEFAULT_BLOCK_GAS_LIMIT

/-- `expected_creator`. -/
def evmCreator (tx : Transaction) : Option Bytes :=
  if tx.kind = .deployEvmContract then some (toArray20 tx.from) else none

theorem sender_of_ensureChainIdAndSender (h : ensureChainIdAndSender tx = .ok ()) :
    tx.from.length = ADDRESS_LEN := by
  simp only [ensureChainIdAndSender, except_bind_eq_ok, ensure_eq_ok, decide_eq_true_eq] at h
  obtain ⟨_, -, hlength⟩ := h
  exact hlength

theorem sender_of_ensurePayload {reason : String} (h : ensurePayload tx reason = .ok ()) :
    tx.from.length = ADDRESS_LEN := by
  simp only [ensurePayload, except_bind_eq_ok] at h
  obtain ⟨_, hsender, -⟩ := h
  exact sender_of_ensureChainIdAndSender hsender

/-- Whatever can be applied comes from a 20-byte address. -/
theorem sender_length (hkind : tx.kind ≠ .coinbase) (hshape : validateTransactionShape tx = .ok ()) :
    tx.from.length = ADDRESS_LEN := by
  simp only [validateTransactionShape, except_bind_eq_ok] at hshape
  obtain ⟨_, -, hshape⟩ := hshape
  cases hk : tx.kind
  all_goals simp only [hk, except_bind_eq_ok] at hshape
  case coinbase => exact absurd hk hkind
  case transfer =>
    simp only [ensure_eq_ok, decide_eq_true_eq] at hshape
    obtain ⟨_, -, _, hlength, -⟩ := hshape
    exact hlength.1
  case stake | unstake | deployContract | callContract | callEvmContract =>
    obtain ⟨_, hsender, -⟩ := hshape
    exact sender_of_ensureChainIdAndSender hsender
  case deployEvmContract =>
    obtain ⟨_, hpayload, -⟩ := hshape
    exact sender_of_ensurePayload hpayload
  all_goals exact sender_of_ensurePayload hshape

/-- So revm's caller is the sender. -/
theorem toArray20_sender (hevm : tx.isEvm = true) (hshape : validateTransactionShape tx = .ok ()) :
    tx.from.length = ADDRESS_LEN ∧ toArray20 tx.from = tx.from := by
  have hkind : tx.kind ≠ .coinbase := by
    intro hk
    simp [Transaction.isEvm, hk] at hevm
  have hlength := sender_length hkind hshape
  exact ⟨hlength, if_pos hlength⟩

theorem evmStateView_account {a : Bytes} (ha : a.length = ADDRESS_LEN) (accounts : ByteMap AccountState)
    (contracts : ByteMap ContractState) :
    (evmStateView accounts contracts).accounts[a]? = accounts[a]?.map fun x => (x.balance, x.nonce) := by
  simp only [evmStateView, Std.ExtTreeMap.getElem?_map, Std.ExtTreeMap.getElem?_filter']
  cases accounts[a]? with
  | none => rfl
  | some x => simp [ha, ADDRESS_LEN]

theorem evmView_other {a : Bytes} (ha : a.length = ADDRESS_LEN) (hne : toArray20 tx.from ≠ a) :
    (evmView tx s).accounts[a]? = s.accounts[a]?.map fun x => (x.balance, x.nonce) := by
  simp only [evmView]
  split
  · split
    · rw [KeyMap.getElem?_insert_eq, if_neg hne]
      exact evmStateView_account ha _ _
    · exact evmStateView_account ha _ _
  · exact evmStateView_account ha _ _

/-- The caller in the view: its balance after the debit, and a nonce that depends on the entry point. -/
theorem evmView_caller {a : AccountState} (hlength : tx.from.length = ADDRESS_LEN)
    (ha : s.accounts[tx.from]? = some a) :
    (evmView tx s).accounts[tx.from]? =
      some (a.balance, if tx.kind = .deployEvmContract then tx.nonce else a.nonce) := by
  have hview : (evmStateView s.accounts s.contracts).accounts[tx.from]? = some (a.balance, a.nonce) := by
    rw [evmStateView_account hlength, ha]
    rfl
  have hkey : toArray20 tx.from = tx.from := if_pos hlength
  simp only [evmView, hkey]
  by_cases hk : tx.kind = .deployEvmContract
  · rw [if_pos hk, if_pos hk, hview]
    exact (KeyMap.getElem?_insert_eq _ _ _ _).trans (if_pos rfl)
  · rw [if_neg hk, if_neg hk]
    exact hview

/-! ## What it returns -/

namespace ExecutionResult

def isSuccess : ExecutionResult → Bool
  | .success .. => true
  | _ => false

/-- The contract the outer transaction created. -/
def createdAddress : ExecutionResult → Option Bytes
  | .success _ _ (.create _ addr) => addr
  | _ => none

end ExecutionResult

variable {result : ExecutionResult} {post : ByteMap EvmAccount} {seed : EvmStateView}
  {creator : Option Bytes} {outcome : EvmOutcome}

/-- What `finish_execution` makes of a result that is not a halt. -/
theorem finishExecution_eq_ok (h : Evm.finishExecution P result post seed creator = .ok outcome) :
    outcome.gasUsed = Evm.resultGas result ∧ outcome.success = result.isSuccess ∧
      outcome.accountUpdates = post.map (fun _ account => (min account.balance u64Max, account.nonce)) ∧
      outcome.storageUpdates =
        (post.filter fun _ account => !account.storage.isEmpty).map (Evm.storageUpdateOf seed) ∧
      outcome.contractAddress = result.createdAddress := by
  cases result with
  | success gasUsed logs output =>
    cases output with
    | call data => cases h; exact ⟨rfl, rfl, rfl, rfl, rfl⟩
    | create data addr => cases h; exact ⟨rfl, rfl, rfl, rfl, rfl⟩
  | revert gasUsed data => cases h; exact ⟨rfl, rfl, rfl, rfl, rfl⟩
  | halt gasUsed => cases h

/-! ## The merge -/

theorem touches_mergeAccount : KeyMap.Touches Prod.fst
    (fun (e : Bytes × (Nat × Nat)) (a : Option AccountState) =>
      some { a.getD {} with balance := e.2.1, nonce := e.2.2 })
    (fun (m : ByteMap AccountState) (e : Bytes × (Nat × Nat)) =>
      KeyMap.upsert m e.1 {} fun a => { a with balance := e.2.1, nonce := e.2.2 }) := by
  intro m e a
  rw [KeyMap.getElem?_upsert]
  split
  · next h => rw [h]
  · rfl

/-- **A reported account takes its balance and nonce over, the others stay.** -/
theorem getElem?_mergeAccounts (accounts : ByteMap AccountState) (outcome : EvmOutcome) (a : Bytes) :
    (mergeAccounts accounts outcome)[a]? = (outcome.accountUpdates[a]?).elim accounts[a]? fun v =>
      some { accounts[a]?.getD {} with balance := v.1, nonce := v.2 } :=
  touches_mergeAccount.foldl_toList outcome.accountUpdates accounts a

theorem mergeEvm_eq_ok {r : Except EvmError EvmOutcome} :
    mergeEvm r s = .ok outcome s' ↔ r = .ok outcome ∧ s' = { s with
      accounts := mergeAccounts s.accounts outcome
      contracts := mergeContracts s.contracts outcome } := by
  cases r with
  | error e => simp [mergeEvm]
  | ok out =>
    simp only [mergeEvm, EStateM.Result.ok.injEq, Except.ok.injEq]
    constructor
    · rintro ⟨rfl, rfl⟩
      exact ⟨rfl, rfl⟩
    · rintro ⟨rfl, rfl⟩
      exact ⟨rfl, rfl⟩

theorem transact_eq_ok {view : EvmStateView} {env : EvmTxEnv} :
    Evm.transact P view env creator = .ok outcome ↔ ∃ result post,
      P.revmTransact view env = some (result, post) ∧
        Evm.finishExecution P result post view creator = .ok outcome := by
  simp only [Evm.transact]
  cases P.revmTransact view env with
  | none => simp
  | some r =>
    obtain ⟨result, post⟩ := r
    simp

/-- **A successful EVM execution**: revm ran on the view, its result was no halt, and was merged. -/
theorem executeKind_evm {gasUsed : Nat} {receipt : Option Receipt} (hevm : tx.isEvm = true)
    (h : executeKind P ctx tx s = .ok (gasUsed, receipt) s') :
    ∃ result post outcome,
      P.revmTransact (evmView tx s) (evmEnv ctx tx (evmView tx s)) = some (result, post) ∧
      Evm.finishExecution P result post (evmView tx s) (evmCreator tx) = .ok outcome ∧
      (gasUsed, receipt) = evmReceipt P ctx tx outcome ∧
      s' = { s with
        accounts := mergeAccounts s.accounts outcome
        contracts := mergeContracts s.contracts outcome } := by
  simp only [Transaction.isEvm, decide_eq_true_eq] at hevm
  rcases hevm with hk | hk
  · simp only [executeKind, hk, bind_eq_ok] at h
    obtain ⟨outcome, s₁, hrun, hret⟩ := h
    cases hret
    obtain ⟨hdeploy, rfl⟩ := mergeEvm_eq_ok.mp hrun
    simp only [Evm.deploy] at hdeploy
    split at hdeploy
    · cases hdeploy
    obtain ⟨result, post, hrevm, hfinish⟩ := transact_eq_ok.mp hdeploy
    refine ⟨result, post, outcome, ?_, ?_, rfl, rfl⟩
    · simp only [evmView, evmEnv, hk, if_true]
      exact hrevm
    · simp only [evmView, evmCreator, hk, if_true]
      exact hfinish
  · simp only [executeKind, hk, bind_eq_ok] at h
    obtain ⟨outcome, s₁, hrun, hret⟩ := h
    cases hret
    obtain ⟨hcall, rfl⟩ := mergeEvm_eq_ok.mp hrun
    obtain ⟨result, post, hrevm, hfinish⟩ := transact_eq_ok.mp hcall
    refine ⟨result, post, outcome, ?_, ?_, rfl, rfl⟩
    · simp only [evmView, evmEnv, hk, reduceCtorEq, if_false]
      exact hrevm
    · simp only [evmView, evmCreator, hk, reduceCtorEq, if_false]
      exact hfinish

end Curs3d
