import Curs3d.Proof.Authentic
import Curs3d.Proof.EvmRun

/-!
# The nonce of the sender

`apply_user_transaction` raises the nonce in the sender's entry. For the EVM kinds revm raises it once more from
what its view holds, and the merge writes revm's value over the entry. `apply_evm_deploy` gives revm the nonce
from before the debit, so both end at the same value; `apply_evm_call` gives it the raised one, and the sender
ends two above the nonce it signed.
-/

set_option autoImplicit false

namespace Curs3d

open U64 Outcome

/-- The nonce of an address, `0` when it has no account. -/
def nonceOf (s : ExecState) (addr : Bytes) : Nat := (s.accounts[addr]?.getD {}).nonce

def EvmStateView.nonceOf (view : EvmStateView) (addr : Bytes) : Nat :=
  (view.accounts[addr]?.map Prod.snd).getD 0

/-- What revm does to nonces: it reports the caller one above the view, in 64 bits, and nobody below it. -/
structure RevmNonces (P : Primitives) : Prop where
  raises : ∀ {view env result post}, P.revmTransact view env = some (result, post) →
    ∃ account, post[env.caller]? = some account ∧ account.nonce = view.nonceOf env.caller + 1 ∧
      account.nonce ≤ u64Max
  keeps : ∀ {view env result post addr account}, P.revmTransact view env = some (result, post) →
    post[addr]? = some account → view.nonceOf addr ≤ account.nonce

/-- What later transactions make of a state, as long as none of them has the last nonce there is. -/
inductive Later (P : Primitives) : ExecState → ExecState → Prop where
  | refl (s : ExecState) : Later P s s
  | apply {s s' s'' : ExecState} {ctx : TxContext} {tx : Transaction} {gasUsed : Nat} (h : Later P s s')
    (hnonce : tx.nonce < u64Max) (happly : applyUserTransaction P ctx tx s' = .ok gasUsed s'') : Later P s s''

/-- The nonce law for one applied transaction. -/
structure NonceLaw (P : Primitives) (tx : Transaction) (s s' : ExecState) : Prop where
  before : nonceOf s tx.from = tx.nonce
  after : nonceOf s' tx.from = tx.nonce + 1
  /-- The sender's next transaction in sequence has the nonce that is expected. -/
  next : ∀ (ctx : TxContext) (next : Transaction) (expected got : Nat) (left : ExecState),
    next.from = tx.from → next.nonce = tx.nonce + 1 →
      debitSender ctx next s' ≠ .error (.invalidNonce expected got) left
  /-- The applied transaction is refused from now on. -/
  once : ∀ (later left : ExecState) (ctx : TxContext) (gasUsed : Nat),
    Later P s' later → applyUserTransaction P ctx tx later ≠ .ok gasUsed left

variable {P : Primitives} {ctx : TxContext} {tx : Transaction} {s s' : ExecState}

/-! ## The debit -/

/-- The entry of the sender after the debit. -/
theorem senderEntry_nonce {a a' : AccountState} (h : senderEntry ctx tx a = .ok () a') :
    a.nonce = tx.nonce ∧ a'.nonce = wrapAdd tx.nonce 1 := by
  obtain ⟨a₁, a₂, hbind, htake, hmove⟩ := senderEntry_eq_ok.mp h
  obtain ⟨-, hnonce, rfl⟩ := takeUpFront_eq_ok.mp htake
  have hbound : a₁.nonce = a.nonce := by rw [bindPublicKey_ok hbind]
  have hmoved : a'.nonce = wrapAdd a₁.nonce 1 := by
    rcases moveStake_eq_ok.mp hmove with ⟨-, rfl⟩ | ⟨-, -, rfl⟩ | ⟨-, -, rfl⟩
    · rfl
    · rfl
    · rfl
  rw [← hbound, hmoved, hnonce]
  exact ⟨rfl, rfl⟩

theorem debitSender_nonce (h : debitSender ctx tx s = .ok () s') :
    nonceOf s tx.from = tx.nonce ∧
      ∃ sender, sender.nonce = wrapAdd tx.nonce 1 ∧
        s' = { s with accounts := s.accounts.insert tx.from sender } := by
  obtain ⟨sender, hentry, rfl⟩ := debitSender_eq_ok.mp h
  obtain ⟨hbefore, hafter⟩ := senderEntry_nonce hentry
  exact ⟨hbefore, sender, hafter, rfl⟩

/-- The nonce is the only reason for `InvalidNonce`. -/
theorem debitSender_invalidNonce {expected got : Nat} {left : ExecState}
    (h : debitSender ctx tx s = .error (.invalidNonce expected got) left) : nonceOf s tx.from ≠ tx.nonce := by
  simp only [debitSender] at h
  split at h
  · cases h
  next e sender hentry =>
  cases h
  simp only [senderEntry, bind_eq_error] at hentry
  rcases hentry with hbind | ⟨_, a₁, hbind, htake | ⟨_, a₂, -, hmove⟩⟩
  · simp only [bindPublicKey] at hbind
    split at hbind
    · cases hbind
    · split at hbind
      · split at hbind <;> cases hbind
      · cases hbind
  · have hbound : a₁.nonce = nonceOf s tx.from := by
      rw [bindPublicKey_ok hbind]
      rfl
    simp only [takeUpFront] at htake
    split at htake
    · cases htake
    · split at htake
      · next hne =>
        rw [← hbound]
        exact fun heq => hne heq.symm
      · cases htake
  · simp only [moveStake] at hmove
    split at hmove
    · cases hmove
    · split at hmove
      · split at hmove <;> cases hmove
      · cases hmove

/-! ## The other stages -/

/-- A change of an entry that keeps its nonce. -/
theorem nonce_upsert {f : AccountState → AccountState} (hf : ∀ a : AccountState, (f a).nonce = a.nonce)
    (accounts : ByteMap AccountState) (addr a : Bytes) :
    ((KeyMap.upsert accounts addr {} f)[a]?.getD {}).nonce = (accounts[a]?.getD {}).nonce := by
  simp only [KeyMap.getElem?_upsert]
  split
  · next h => rw [← h, Option.getD_some, hf]
  · rfl

theorem nonce_credit (accounts : ByteMap AccountState) (addr a : Bytes) (amount : Nat) :
    ((credit accounts addr amount)[a]?.getD {}).nonce = (accounts[a]?.getD {}).nonce := by
  apply nonce_upsert
  intro account
  rfl

theorem nonce_settleFees {gasUsed : Nat} {receipt : Option Receipt}
    (h : settleFees P ctx tx gasUsed receipt s = .ok () s') (a : Bytes) : nonceOf s' a = nonceOf s a := by
  obtain ⟨-, price, -, rfl⟩ := settleFees_eq_ok.mp h
  exact nonce_credit s.accounts tx.from a _

/-- No native kind is about nonces. -/
theorem nonce_native {gasUsed : Nat} {receipt : Option Receipt} (hnative : tx.isEvm = false)
    (h : executeKind P ctx tx s = .ok (gasUsed, receipt) s') (a : Bytes) : nonceOf s' a = nonceOf s a := by
  obtain ⟨-, haccounts⟩ := executeKind_native hnative h
  simp only [nonceOf, haccounts]
  split
  · exact nonce_credit s.accounts tx.to a _
  · rfl

/-- An EVM execution leaves a reported account with revm's nonce, the others with their own. -/
theorem nonce_evm {post : ByteMap EvmAccount} {outcome : EvmOutcome}
    (hupdates : outcome.accountUpdates = post.map (fun _ account => (min account.balance u64Max, account.nonce)))
    (accounts : ByteMap AccountState) (a : Bytes) :
    ((mergeAccounts accounts outcome)[a]?.getD {}).nonce =
      (post[a]?).elim (accounts[a]?.getD {}).nonce EvmAccount.nonce := by
  rw [getElem?_mergeAccounts, hupdates, Std.ExtTreeMap.getElem?_map]
  cases post[a]? with
  | none => rfl
  | some account => rfl

/-! ## One transaction -/

/-- Where the sender's nonce ends. -/
def nonceAfter (tx : Transaction) : Nat :=
  if tx.kind = .deployEvmContract then tx.nonce + 1
  else if tx.kind = .callEvmContract then wrapAdd tx.nonce 1 + 1
  else wrapAdd tx.nonce 1

theorem nonce_lt_nonceAfter (h : tx.nonce < u64Max) : tx.nonce < nonceAfter tx := by
  have hwrap : wrapAdd tx.nonce 1 = tx.nonce + 1 := by
    simp only [wrapAdd, modulus, u64Max] at *
    omega
  simp only [nonceAfter, hwrap]
  split
  · omega
  · split <;> omega

/-- **The sender's nonce, kind by kind.** -/
theorem nonce_apply {gasUsed : Nat} (hrevm : RevmNonces P) (h : applyUserTransaction P ctx tx s = .ok gasUsed s') :
    nonceOf s tx.from = tx.nonce ∧ nonceOf s' tx.from = nonceAfter tx ∧
      (tx.isEvm = true → nonceAfter tx ≤ u64Max) := by
  obtain ⟨hshape, -, s₁, receipt, s₂, hdebit, hexec, hsettle⟩ := apply_eq_ok.mp h
  obtain ⟨hbefore, sender, hsender, rfl⟩ := debitSender_nonce hdebit
  refine ⟨hbefore, ?_⟩
  rw [nonce_settleFees hsettle]
  have hentry : (s.accounts.insert tx.from sender)[tx.from]? = some sender := by
    simp
  by_cases hevm : tx.isEvm = true
  · obtain ⟨result, post, outcome, hrun, hfinish, -, rfl⟩ := executeKind_evm hevm hexec
    obtain ⟨-, -, hupdates, -, -⟩ := finishExecution_eq_ok hfinish
    obtain ⟨hlength, hkey⟩ := toArray20_sender hevm hshape
    obtain ⟨account, hreported, hraised, hmax⟩ := hrevm.raises hrun
    rw [show (evmEnv ctx tx _).caller = toArray20 tx.from from rfl, hkey] at hreported hraised
    have hnonce : account.nonce = nonceAfter tx := by
      rw [hraised, EvmStateView.nonceOf, evmView_caller hlength hentry]
      simp only [nonceAfter, Option.map_some, Option.getD_some, hsender]
      simp only [Transaction.isEvm, decide_eq_true_eq] at hevm
      rcases hevm with hk | hk
      · rw [if_pos hk, if_pos hk]
      · rw [hk, if_neg (by decide), if_neg (by decide), if_pos rfl]
    constructor
    · simp only [nonceOf]
      rw [nonce_evm hupdates, hreported]
      exact hnonce
    · intro _
      exact hnonce ▸ hmax
  · have hnative : tx.isEvm = false := by simpa using hevm
    refine ⟨?_, fun hcontra => absurd hcontra hevm⟩
    rw [nonce_native hnative hexec]
    simp only [nonceOf, hentry, Option.getD_some, hsender, nonceAfter]
    simp only [Transaction.isEvm, decide_eq_true_eq, not_or] at hevm
    rw [if_neg hevm.1, if_neg hevm.2]

/-- A transaction lowers no nonce, unless its sender used the last one there is. -/
theorem nonce_mono {gasUsed : Nat} {a : Bytes} (hrevm : RevmNonces P) (ha : a.length = ADDRESS_LEN)
    (hnonce : tx.from = a → tx.nonce < u64Max) (h : applyUserTransaction P ctx tx s = .ok gasUsed s') :
    nonceOf s a ≤ nonceOf s' a := by
  obtain ⟨hbefore, hafter, -⟩ := nonce_apply hrevm h
  by_cases hsame : tx.from = a
  · -- the sender itself
    have hlt := nonce_lt_nonceAfter (hnonce hsame)
    rw [← hsame, hbefore, hafter]
    exact hlt.le
  · -- anybody else
    obtain ⟨hshape, -, s₁, receipt, s₂, hdebit, hexec, hsettle⟩ := apply_eq_ok.mp h
    obtain ⟨-, sender, -, rfl⟩ := debitSender_nonce hdebit
    have hother : (s.accounts.insert tx.from sender)[a]? = s.accounts[a]? := by
      rw [KeyMap.getElem?_insert_eq, if_neg hsame]
    rw [nonce_settleFees hsettle]
    by_cases hevm : tx.isEvm = true
    · obtain ⟨result, post, outcome, hrun, hfinish, -, rfl⟩ := executeKind_evm hevm hexec
      obtain ⟨-, -, hupdates, -, -⟩ := finishExecution_eq_ok hfinish
      obtain ⟨hlength, hkey⟩ := toArray20_sender hevm hshape
      simp only [nonceOf]
      rw [nonce_evm hupdates]
      cases hreported : post[a]? with
      | none =>
        simp only [Option.elim_none, hother]
        exact le_rfl
      | some account =>
        refine le_trans (le_of_eq ?_) (hrevm.keeps hrun hreported)
        simp only [EvmStateView.nonceOf]
        rw [evmView_other ha (by rw [hkey]; exact hsame), hother]
        cases s.accounts[a]? with
        | none => rfl
        | some x => rfl
    · rw [nonce_native (by simpa using hevm) hexec]
      simp only [nonceOf, hother]
      exact le_rfl

theorem Later.nonce_le {a : Bytes} (hrevm : RevmNonces P) (ha : a.length = ADDRESS_LEN) (h : Later P s s') :
    nonceOf s a ≤ nonceOf s' a := by
  induction h with
  | refl => exact le_rfl
  | apply _ hnonce happly ih => exact ih.trans (nonce_mono hrevm ha (fun _ => hnonce) happly)

/-! ## The law -/

theorem kind_ne_coinbase {gasUsed : Nat} (h : applyUserTransaction P ctx tx s = .ok gasUsed s') :
    tx.kind ≠ .coinbase := by
  intro hk
  obtain ⟨-, -, s₁, receipt, s₂, -, hexec, -⟩ := apply_eq_ok.mp h
  simp only [executeKind, hk] at hexec
  cases hexec

/-- The nonce ends one above the transaction's, but for an EVM call and for the last nonce there is. -/
theorem nonceAfter_eq (hmax : tx.isEvm = true → nonceAfter tx ≤ u64Max) :
    nonceAfter tx = tx.nonce + 1 ↔ tx.kind ≠ .callEvmContract ∧ tx.nonce < u64Max := by
  by_cases hd : tx.kind = .deployEvmContract
  · have hle := hmax (by simp [Transaction.isEvm, hd])
    simp only [nonceAfter, if_pos hd] at hle ⊢
    simp only [hd, true_iff]
    exact ⟨by decide, by omega⟩
  · by_cases hc : tx.kind = .callEvmContract
    · simp only [nonceAfter, if_neg hd, if_pos hc, wrapAdd, modulus]
      simp only [hc, ne_eq, not_true_eq_false, false_and, iff_false]
      omega
    · simp only [nonceAfter, if_neg hd, if_neg hc, wrapAdd, modulus, u64Max]
      simp only [ne_eq, hc, not_false_eq_true, true_and]
      omega

/-- **The nonce law**: it holds of every applied transaction but an EVM call and one with the last nonce. -/
theorem nonce_law_iff {gasUsed : Nat} (hrevm : RevmNonces P)
    (h : applyUserTransaction P ctx tx s = .ok gasUsed s') :
    NonceLaw P tx s s' ↔ tx.kind ≠ .callEvmContract ∧ tx.nonce < u64Max := by
  obtain ⟨hbefore, hafter, hmax⟩ := nonce_apply hrevm h
  rw [← nonceAfter_eq hmax]
  constructor
  · intro hlaw
    rw [← hafter]
    exact hlaw.after
  · intro hnonce
    have hraised : nonceOf s' tx.from = tx.nonce + 1 := hafter.trans hnonce
    refine ⟨hbefore, hraised, ?_, ?_⟩
    · intro ctx' next expected got left hfrom hnext herror
      apply debitSender_invalidNonce herror
      rw [hfrom, hraised, hnext]
    · intro later left ctx' gas hlater happly
      obtain ⟨hshape, -⟩ := apply_eq_ok.mp h
      have hle := hlater.nonce_le hrevm (sender_length (kind_ne_coinbase h) hshape)
      obtain ⟨hagain, -, -⟩ := nonce_apply hrevm happly
      omega

namespace NonceSample

open SignedSample

/-- A payment by an account that has a nonce left. -/
def transact (view : EvmStateView) (env : EvmTxEnv) : Option (ExecutionResult × ByteMap EvmAccount) :=
  if view.nonceOf env.caller < u64Max then pay view env else none

def primitives : Primitives := { SignedSample.primitives with revmTransact := transact }

theorem touched_nonce (view : EvmStateView) (addr : Bytes) : (touched view addr).nonce = view.nonceOf addr := by
  simp only [touched, EvmStateView.nonceOf]
  cases view.accounts[addr]? with
  | none => rfl
  | some a => rfl

/-- The caller is reported one above the view, and nobody below it. -/
def Raised (view : EvmStateView) (caller : Bytes) (post : ByteMap EvmAccount) : Prop :=
  (∃ account, post[caller]? = some account ∧ account.nonce = view.nonceOf caller + 1) ∧
    ∀ a account, post[a]? = some account → view.nonceOf a ≤ account.nonce

/-- Neither the recipient's nor the beneficiary's credit is about nonces. -/
theorem Raised.credit {view : EvmStateView} {caller : Bytes} {post : ByteMap EvmAccount}
    (h : Raised view caller post) (addr : Bytes) (amount : Nat) :
    Raised view caller (KeyMap.upsert post addr (touched view addr)
      fun a => { a with balance := a.balance + amount }) := by
  obtain ⟨⟨account, hcaller, hraised⟩, hkeeps⟩ := h
  constructor
  · by_cases ha : addr = caller
    · refine ⟨{ account with balance := account.balance + amount }, ?_, hraised⟩
      rw [KeyMap.getElem?_upsert, if_pos ha, ha, hcaller]
      rfl
    · refine ⟨account, ?_, hraised⟩
      rw [KeyMap.getElem?_upsert, if_neg ha]
      exact hcaller
  · intro a found hfound
    rw [KeyMap.getElem?_upsert] at hfound
    split at hfound
    · next ha =>
      cases hfound
      rw [← ha]
      cases hpost : post[addr]? with
      | none => exact le_of_eq (touched_nonce view addr).symm
      | some old => exact hkeeps addr old hpost
    · exact hkeeps a found hfound

theorem revmNonces : RevmNonces primitives := by
  have hpay : ∀ {view env result post}, primitives.revmTransact view env = some (result, post) →
      view.nonceOf env.caller < u64Max ∧ Raised view env.caller post := by
    intro view env result post h
    simp only [primitives, transact] at h
    split at h
    · next hlt =>
      refine ⟨hlt, ?_⟩
      simp only [pay] at h
      split at h
      · cases h
      split at h
      · cases h
      cases h
      apply Raised.credit
      apply Raised.credit
      constructor
      · refine ⟨_, (KeyMap.getElem?_insert_eq _ _ _ _).trans (if_pos rfl), ?_⟩
        simp only [touched_nonce]
      · intro a account hfound
        rw [KeyMap.getElem?_insert_eq] at hfound
        split at hfound
        · next ha =>
          cases hfound
          rw [← ha]
          simp only [touched_nonce]
          omega
        · cases hfound
    · cases h
  constructor
  · intro view env result post h
    obtain ⟨hlt, ⟨account, hcaller, hraised⟩, -⟩ := hpay h
    exact ⟨account, hcaller, hraised, by omega⟩
  · intro view env result post addr account h hfound
    exact (hpay h).2.2 addr account hfound

/-- A call that pays 5 units to an account without code. -/
def call : Transaction where
  chainId := [1]
  kind := .callEvmContract
  «from» := signer
  senderPublicKey := []
  «to» := List.replicate 20 53
  amount := 5
  fee := 2
  maxFeePerGas := 2
  maxPriorityFeePerGas := 1
  nonce := 9
  timestamp := 0
  signature := none
  gasLimit := 30000
  data := []
  evmRawTx := raw

def transfer : Transaction :=
  { ConservationSample.unstake with
    kind := .transfer
    «to» := List.replicate 20 53
    signature := none
    : Transaction }.sign Reference.primitives ConservationSample.key

def before : ExecState :=
  { ConservationSample.before with
    accounts := ConservationSample.before.accounts.insert signer { balance := 1000000, nonce := 9 } }

def after (tx : Transaction) : ExecState :=
  stateOf (applyUserTransaction primitives ConservationSample.context tx before)

theorem applies_call : applyUserTransaction primitives ConservationSample.context call before =
    .ok GAS_BASE_TX (after call) :=
  eq_ok_of_valueOf (by decide +kernel)

theorem applies_transfer : applyUserTransaction primitives ConservationSample.context transfer before =
    .ok GAS_BASE_TX (after transfer) :=
  eq_ok_of_valueOf (by decide +kernel)

end NonceSample

open NonceSample in
theorem nonce_law_iff_transfer : NonceLaw primitives transfer before (after transfer) ↔
    transfer.kind ≠ .callEvmContract ∧ transfer.nonce < u64Max :=
  nonce_law_iff revmNonces applies_transfer

open NonceSample in
/-- A call with nonce 9 leaves the sender at nonce 11. -/
theorem call_skips_nonce : ¬ ∀ (P : Primitives) (ctx : TxContext) (tx : Transaction) (s s' : ExecState)
    (gasUsed : Nat), RevmNonces P → applyUserTransaction P ctx tx s = .ok gasUsed s' →
      nonceOf s tx.from = tx.nonce ∧ nonceOf s' tx.from = tx.nonce + 1 := by
  intro h
  have hlaw := h primitives ConservationSample.context call before (after call) GAS_BASE_TX revmNonces applies_call
  exact absurd hlaw.2 (by decide +kernel)

end Curs3d
