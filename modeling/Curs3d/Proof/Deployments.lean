import Curs3d.Proof.Cur20
import Curs3d.Proof.Encoding
import Curs3d.Proof.EvmMerge
import Curs3d.Proof.Inflation
import Curs3d.Proof.Nonce
import Curs3d.Proof.Validate

/-!
# Addresses of deployments

The address of a WASM contract is a truncated hash of the deployer, `nonce - 1` and the block height, that of a
token of the deployer and `nonce - 1`. The subtraction saturates, so the nonces 0 and 1 give one address: two
deployments by a new account can meet, a contract silently, a token with `AlreadyExists`. No other two can
(`deployment_is_fresh`): the nonce law makes the nonces of one sender rise, and everything in the two maps comes
from a deployment that was recorded.
-/

set_option autoImplicit false

namespace Curs3d

open U64 Outcome

/-- One applied transaction, with what it was applied under. -/
abbrev Applied := TxContext × Transaction

/-! ## What is hashed -/

/-- The message that `sha3_hash_domain` hashes. -/
def domainMessage (domain : Bytes) (parts : List Bytes) : Bytes :=
  Bincode.u32 domain.length ++ domain ++ parts.flatten

def contractMessage (deployer : Bytes) (nonce height : Nat) : Bytes :=
  domainMessage (ascii "curs3d-contract-addr-v2") [deployer, Bincode.u64 nonce, Bincode.u64 height]

def tokenMessage (deployer : Bytes) (nonce : Nat) : Bytes :=
  domainMessage (ascii "curs3d-derived-address") [deployer ++ Bincode.u64 nonce ++ ascii "cur20"]

namespace Applied

variable (P : Primitives) (e : Applied)

def contractAddress : Bytes := Vm.contractAddressFor P e.2.from (e.2.nonce - 1) e.1.currentHeight

def tokenAddress : Bytes := TokenRegistry.tokenAddressFor P e.2.from (e.2.nonce - 1)

/-- What the deployment hashes, if it is one. -/
def message : Option Bytes :=
  match e.2.kind with
  | .deployContract => some (contractMessage e.2.from (e.2.nonce - 1) e.1.currentHeight)
  | .deployToken => some (tokenMessage e.2.from (e.2.nonce - 1))
  | _ => none

/-- Heights are 64-bit, and the last nonce is not used. -/
def Fits : Prop := e.1.currentHeight ≤ u64Max ∧ e.2.nonce < u64Max

instance : Decidable e.Fits := inferInstanceAs (Decidable (_ ∧ _))

/-- Two deployments whose nonces saturate to one: the same sender with nonces 0 and 1, and for contracts in one
block. -/
def Clash (earlier later : Applied) : Prop :=
  earlier.2.from = later.2.from ∧ earlier.2.kind = later.2.kind ∧ earlier.2.nonce = 0 ∧ later.2.nonce = 1 ∧
    (later.2.kind = .deployToken ∨
      later.2.kind = .deployContract ∧ earlier.1.currentHeight = later.1.currentHeight)

instance (earlier later : Applied) : Decidable (Clash earlier later) :=
  inferInstanceAs (Decidable (_ ∧ _ ∧ _ ∧ _ ∧ _))

end Applied

/-- The history of applied transactions, newest first, meets the condition at every step. -/
def Spaced (history : List Applied) : Prop :=
  history.Pairwise (fun later earlier => ¬ Applied.Clash earlier later) ∧ ∀ e ∈ history, e.Fits

instance (history : List Applied) : Decidable (Spaced history) := inferInstanceAs (Decidable (_ ∧ _))

/-- No two different messages of the deployments have one truncated hash, and revm creates no contract at the
address of one. -/
structure AddressesApart (P : Primitives) (history : List Applied) : Prop where
  truncated : ∀ m ∈ history.filterMap Applied.message, ∀ m' ∈ history.filterMap Applied.message,
    (P.sha3 m).take ADDRESS_LEN = (P.sha3 m').take ADDRESS_LEN → m = m'
  revm : ∀ {view env result post addr}, P.revmTransact view env = some (result, post) →
    result.createdAddress = some addr → ∀ e ∈ history, e.2.kind = .deployContract → addr ≠ e.contractAddress P

/-- States that executions reach from one without contracts and tokens, with the transactions applied so far.
Between two transactions a block may change anything but contracts and tokens, as long as no nonce falls. -/
inductive Execution (P : Primitives) : List Applied → ExecState → Prop where
  | start {s : ExecState} (hcontracts : s.contracts = ∅) (htokens : s.tokenRegistry.tokens = ∅) : Execution P [] s
  | apply {history : List Applied} {s s' : ExecState} {e : Applied} {gasUsed : Nat} (h : Execution P history s)
    (happly : applyUserTransaction P e.1 e.2 s = .ok gasUsed s') : Execution P (e :: history) s'
  | between {history : List Applied} {s s' : ExecState} (h : Execution P history s)
    (hcontracts : s'.contracts = s.contracts) (htokens : s'.tokenRegistry = s.tokenRegistry)
    (hnonce : ∀ a : Bytes, nonceOf s a ≤ nonceOf s' a) : Execution P history s'

/-- The next transaction `e` does not collide with what was deployed before it. -/
structure DeploysFresh (P : Primitives) (history : List Applied) (s : ExecState) (e : Applied) : Prop where
  /-- Deployments by one sender with different nonces have different addresses. -/
  distinct : ∀ (gasUsed : Nat) (s' : ExecState), applyUserTransaction P e.1 e.2 s = .ok gasUsed s' →
    e.2.kind = .deployContract → ∀ earlier ∈ history, earlier.2.kind = .deployContract →
      earlier.2.from = e.2.from → earlier.2.nonce ≠ e.2.nonce → earlier.contractAddress P ≠ e.contractAddress P
  /-- A deployment that succeeds replaces nothing. -/
  replaces : ∀ (gasUsed : Nat) (s' : ExecState), applyUserTransaction P e.1 e.2 s = .ok gasUsed s' →
    e.2.kind = .deployContract → e.contractAddress P ∉ s.contracts
  /-- A token deployment that comes as far as the registry does not find its address taken. -/
  token : ∀ (s₁ : ExecState) (params : DeployTokenParams), e.2.kind = .deployToken →
    validateTransactionShape e.2 = .ok () → debitSender e.1 e.2 s = .ok () s₁ →
      s₁.tokenRegistry.deployToken P e.2.from (e.2.nonce - 1) params e.1.currentHeight ≠ .error .alreadyExists

variable {P : Primitives} {history : List Applied} {s s' : ExecState} {e : Applied}

/-! ## Messages -/

theorem contractMessage_inj {d d' : Bytes} {n n' h h' : Nat} (hd : d.length = ADDRESS_LEN)
    (hd' : d'.length = ADDRESS_LEN) (hn : n ≤ u64Max) (hn' : n' ≤ u64Max) (hh : h ≤ u64Max) (hh' : h' ≤ u64Max)
    (heq : contractMessage d n h = contractMessage d' n' h') : d = d' ∧ n = n' ∧ h = h' := by
  simp only [contractMessage, domainMessage, List.flatten_cons, List.flatten_nil, List.append_nil] at heq
  obtain ⟨-, heq⟩ := List.append_inj heq rfl
  obtain ⟨hdeployer, heq⟩ := List.append_inj heq (hd.trans hd'.symm)
  obtain ⟨hnonce, hheight⟩ := List.append_inj heq
    ((Bincode.length_leBytes 8 n).trans (Bincode.length_leBytes 8 n').symm)
  refine ⟨hdeployer, leBytes_inj ?_ ?_ hnonce, leBytes_inj ?_ ?_ hheight⟩
  all_goals
    simp only [u64Max] at *
    omega

theorem tokenMessage_inj {d d' : Bytes} {n n' : Nat} (hd : d.length = ADDRESS_LEN)
    (hd' : d'.length = ADDRESS_LEN) (hn : n ≤ u64Max) (hn' : n' ≤ u64Max)
    (heq : tokenMessage d n = tokenMessage d' n') : d = d' ∧ n = n' := by
  simp only [tokenMessage, domainMessage, List.flatten_cons, List.flatten_nil, List.append_nil,
    List.append_assoc] at heq
  have heq' := List.append_cancel_left (List.append_cancel_left heq)
  obtain ⟨hdeployer, heq'⟩ := List.append_inj heq' (hd.trans hd'.symm)
  obtain ⟨hnonce, -⟩ := List.append_inj heq'
    ((Bincode.length_leBytes 8 n).trans (Bincode.length_leBytes 8 n').symm)
  refine ⟨hdeployer, leBytes_inj ?_ ?_ hnonce⟩
  all_goals
    simp only [u64Max] at *
    omega

/-! ## What one transaction adds -/

/-- The contract at an address revm reports as created. -/
def RevmCreates (P : Primitives) (addr : Bytes) : Prop :=
  ∃ view env result post, P.revmTransact view env = some (result, post) ∧ result.createdAddress = some addr

theorem tokens_deployToken {r r' : TokenRegistry} {deployer : Bytes} {nonce height : Nat}
    {params : DeployTokenParams} (h : r.deployToken P deployer nonce params height = .ok r') {a : Bytes}
    (ha : a ∈ r'.tokens) : a = TokenRegistry.tokenAddressFor P deployer nonce ∨ a ∈ r.tokens := by
  simp only [TokenRegistry.deployToken] at h
  split at h
  · cases h
  split at h
  · cases h
  split at h
  · cases h
  split at h
  · cases h
  split at h
  · cases h
  cases h
  rw [Std.ExtTreeMap.mem_insert] at ha
  rcases ha with ha | ha
  · exact Or.inl (Std.LawfulEqCmp.compare_eq_iff_eq.mp ha).symm
  · exact Or.inr ha

/-- A token address is found taken only when it is. -/
theorem deployToken_ne_alreadyExists {r : TokenRegistry} {deployer : Bytes} {nonce height : Nat}
    {params : DeployTokenParams} (h : TokenRegistry.tokenAddressFor P deployer nonce ∉ r.tokens) :
    r.deployToken P deployer nonce params height ≠ .error .alreadyExists := by
  simp only [TokenRegistry.deployToken]
  split
  · exact fun heq => by cases heq
  split
  · exact fun heq => by cases heq
  split
  · exact fun heq => by cases heq
  split
  · exact fun heq => by cases heq
  · exact fun heq => by cases heq

theorem tokens_applyTokenTx {ctx : TxContext} {tx : Transaction} {r r' : TokenRegistry}
    (h : applyTokenTx P ctx tx r = .ok r') {a : Bytes} (ha : a ∈ r'.tokens) :
    (tx.kind = .deployToken ∧ a = TokenRegistry.tokenAddressFor P tx.from (tx.nonce - 1)) ∨ a ∈ r.tokens := by
  have hresult : ∀ {x : Except TokenError TokenRegistry}, tokenResult x = .ok r' → x = .ok r' := by
    intro x hx
    cases x with
    | ok registry => exact congrArg Except.ok (Except.ok.inj hx)
    | error e => cases hx
  simp only [applyTokenTx] at h
  split at h
  · next hk =>
    obtain ⟨params, -, hrun⟩ := except_bind_eq_ok.mp h
    rcases tokens_deployToken (hresult hrun) ha with ha | ha
    · exact Or.inl ⟨hk, ha⟩
    · exact Or.inr ha
  · obtain ⟨params, -, hrun⟩ := except_bind_eq_ok.mp h
    obtain ⟨-, -, rfl⟩ := TokenRegistry.transfer_ok (hresult hrun)
    exact Or.inr ha
  · obtain ⟨params, -, hrun⟩ := except_bind_eq_ok.mp h
    obtain rfl := TokenRegistry.approve_ok (hresult hrun)
    exact Or.inr ha
  · obtain ⟨params, -, hrun⟩ := except_bind_eq_ok.mp h
    obtain ⟨-, -, -, rfl⟩ := TokenRegistry.transferFrom_ok (hresult hrun)
    exact Or.inr ha
  · cases h
    exact Or.inr ha

/-- A merge adds the contract the outer transaction created, if any. -/
theorem contracts_mergeContracts {result : ExecutionResult} {post : ByteMap EvmAccount} {seed : EvmStateView}
    {creator : Option Bytes} {outcome : EvmOutcome} {contracts : ByteMap ContractState}
    (h : Evm.finishExecution P result post seed creator = .ok outcome) {a : Bytes}
    (ha : a ∈ mergeContracts contracts outcome) : result.createdAddress = some a ∨ a ∈ contracts := by
  rw [Std.ExtTreeMap.mem_iff_isSome_getElem?] at ha ⊢
  cases hpost : post[a]? with
  | none =>
    rw [merged_other h hpost] at ha
    exact Or.inr ha
  | some account =>
    by_cases hcreated : Created result creator a account
    · exact Or.inl hcreated.2.1
    · cases hc : contracts[a]? with
      | none =>
        rw [merged_absent h hpost hcreated hc] at ha
        cases ha
      | some c => exact Or.inr rfl

/-- Where the contracts and the tokens of a state come from. -/
structure Origins (P : Primitives) (e : Applied) (s s' : ExecState) : Prop where
  contracts : ∀ a ∈ s'.contracts,
    (e.2.kind = .deployContract ∧ a = e.contractAddress P) ∨ RevmCreates P a ∨ a ∈ s.contracts
  tokens : ∀ a ∈ s'.tokenRegistry.tokens,
    (e.2.kind = .deployToken ∧ a = e.tokenAddress P) ∨ a ∈ s.tokenRegistry.tokens

theorem Origins.of_eq (hcontracts : s'.contracts = s.contracts) (htokens : s'.tokenRegistry = s.tokenRegistry) :
    Origins P e s s' := by
  constructor
  · intro a ha
    exact Or.inr (Or.inr (hcontracts ▸ ha))
  · intro a ha
    exact Or.inr (htokens ▸ ha)

theorem origins_executeKind {gasUsed : Nat} {receipt : Option Receipt}
    (h : executeKind P e.1 e.2 s = .ok (gasUsed, receipt) s') : Origins P e s s' := by
  by_cases hevm : e.2.isEvm = true
  · obtain ⟨result, post, outcome, hrun, hfinish, -, rfl⟩ := executeKind_evm hevm h
    constructor
    · intro a ha
      rcases contracts_mergeContracts hfinish ha with hcreated | ha
      · exact Or.inr (Or.inl ⟨_, _, result, post, hrun, hcreated⟩)
      · exact Or.inr (Or.inr ha)
    · exact fun a ha => Or.inr ha
  · cases nativeRun_of_ok (by simpa using hevm) h with
    | transfer | idle | governance => exact .of_eq rfl rfl
    | deploy hk hdeploy =>
      obtain ⟨-, contract, rfl⟩ := executeDeploy_eq_ok hdeploy
      constructor
      · intro a ha
        rcases Std.ExtTreeMap.mem_insert.mp ha with ha | ha
        · exact Or.inl ⟨hk, (Std.LawfulEqCmp.compare_eq_iff_eq.mp ha).symm⟩
        · exact Or.inr (Or.inr ha)
      · exact fun a ha => Or.inr ha
    | call _ hcall =>
      obtain ⟨-, contract, contract', hc, rfl⟩ := executeCall_eq_ok hcall
      constructor
      · intro a ha
        right; right
        rcases Std.ExtTreeMap.mem_insert.mp ha with ha | ha
        · rw [← Std.LawfulEqCmp.compare_eq_iff_eq.mp ha, Std.ExtTreeMap.mem_iff_isSome_getElem?, hc]
          rfl
        · exact ha
      · exact fun a ha => Or.inr ha
    | token _ hr =>
      constructor
      · exact fun a ha => Or.inr (Or.inr ha)
      · exact fun a ha => tokens_applyTokenTx hr ha

theorem origins_apply {gasUsed : Nat} (h : applyUserTransaction P e.1 e.2 s = .ok gasUsed s') :
    Origins P e s s' := by
  obtain ⟨-, -, s₁, receipt, s₂, hdebit, hexec, hsettle⟩ := apply_eq_ok.mp h
  obtain ⟨sender, -, rfl⟩ := debitSender_eq_ok.mp hdebit
  obtain ⟨-, price, -, rfl⟩ := settleFees_eq_ok.mp hsettle
  obtain ⟨hcontracts, htokens⟩ := origins_executeKind hexec
  exact ⟨hcontracts, htokens⟩

/-! ## What is recorded -/

/-- **Everything in the two maps was deployed by a recorded transaction or by revm, and the sender's nonce is past
every recorded one.** -/
structure Recorded (P : Primitives) (history : List Applied) (s : ExecState) : Prop where
  contracts : ∀ a ∈ s.contracts,
    (∃ e ∈ history, e.2.kind = .deployContract ∧ a = e.contractAddress P) ∨ RevmCreates P a
  tokens : ∀ a ∈ s.tokenRegistry.tokens, ∃ e ∈ history, e.2.kind = .deployToken ∧ a = e.tokenAddress P
  nonces : ∀ e ∈ history, e.2.from.length = ADDRESS_LEN ∧ e.2.nonce < nonceOf s e.2.from

theorem Recorded.apply {gasUsed : Nat} (hrevm : RevmNonces P) (h : Recorded P history s)
    (hnonce : e.2.nonce < u64Max) (happly : applyUserTransaction P e.1 e.2 s = .ok gasUsed s') :
    Recorded P (e :: history) s' := by
  obtain ⟨hcontracts, htokens⟩ := origins_apply happly
  refine ⟨?_, ?_, ?_⟩
  · intro a ha
    rcases hcontracts a ha with ⟨hk, ha⟩ | ha | ha
    · exact Or.inl ⟨e, List.mem_cons_self, hk, ha⟩
    · exact Or.inr ha
    · rcases h.contracts a ha with ⟨e', he', hk, ha⟩ | ha
      · exact Or.inl ⟨e', List.mem_cons_of_mem e he', hk, ha⟩
      · exact Or.inr ha
  · intro a ha
    rcases htokens a ha with ⟨hk, ha⟩ | ha
    · exact ⟨e, List.mem_cons_self, hk, ha⟩
    · obtain ⟨e', he', hk, ha⟩ := h.tokens a ha
      exact ⟨e', List.mem_cons_of_mem e he', hk, ha⟩
  · intro e' he'
    obtain ⟨hshape, -⟩ := apply_eq_ok.mp happly
    rcases List.mem_cons.mp he' with rfl | he'
    · refine ⟨sender_length (kind_ne_coinbase happly) hshape, ?_⟩
      obtain ⟨-, hafter, -⟩ := nonce_apply hrevm happly
      rw [hafter]
      exact nonce_lt_nonceAfter hnonce
    · obtain ⟨hlength, hlt⟩ := h.nonces e' he'
      exact ⟨hlength, hlt.trans_le (nonce_mono hrevm hlength (fun _ => hnonce) happly)⟩

/-- In every state an execution reaches. -/
theorem Execution.recorded (hrevm : RevmNonces P) (h : Execution P history s) (hfits : ∀ e ∈ history, e.Fits) :
    Recorded P history s := by
  induction h with
  | start hcontracts htokens =>
    refine ⟨?_, ?_, ?_⟩
    · intro a ha
      rw [hcontracts] at ha
      exact absurd ha Std.ExtTreeMap.not_mem_empty
    · intro a ha
      rw [htokens] at ha
      exact absurd ha Std.ExtTreeMap.not_mem_empty
    · intro e he
      cases he
  | @apply history s s' e gasUsed h happly ih =>
    have hrest := ih fun e' he' => hfits e' (List.mem_cons_of_mem e he')
    exact hrest.apply hrevm (hfits e List.mem_cons_self).2 happly
  | between h hcontracts htokens hnonce ih =>
    have hrest := ih hfits
    refine ⟨?_, ?_, ?_⟩
    · rw [hcontracts]
      exact hrest.contracts
    · rw [htokens]
      exact hrest.tokens
    · intro e he
      obtain ⟨hlength, hlt⟩ := hrest.nonces e he
      exact ⟨hlength, hlt.trans_le (hnonce e.2.from)⟩

/-! ## Blocks -/

theorem nonce_unlocks (s : ExecState) (height : Nat) (a : Bytes) :
    nonceOf (Blockchain.startState s height) a = nonceOf s a := by
  simp only [nonceOf, Blockchain.startState, applyUnstakeUnlocks, Std.ExtTreeMap.getElem?_map]
  cases s.accounts[a]? with
  | none => rfl
  | some account => rfl

theorem nonce_settlement (accounts : ByteMap AccountState) (settlement : EpochSettlement) (a : Bytes) :
    ((applyEpochSettlement accounts settlement)[a]?.getD {}).nonce = (accounts[a]?.getD {}).nonce := by
  have hrewards : ((settlement.rewards.foldl creditReward accounts)[a]?.getD {}).nonce =
      (accounts[a]?.getD {}).nonce := by
    refine List.foldlRecOn (motive := fun m : ByteMap AccountState => (m[a]?.getD {}).nonce = _) _ _ rfl ?_
    intro m hm reward _
    rw [← hm]
    apply nonce_upsert
    intro account
    rfl
  refine List.foldlRecOn (motive := fun m : ByteMap AccountState => (m[a]?.getD {}).nonce = _) _ _ hrewards ?_
  intro m hm penalty _
  rw [← hm]
  apply nonce_upsert
  intro account
  rfl

/-- What a block applies, newest first: everything but its coinbase. -/
def appliedBy (ctx : TxContext) (txs : List Transaction) : List Applied :=
  ((txs.filter fun tx => !tx.isCoinbase).map fun tx => (ctx, tx)).reverse

/-- The loop of a block, turn by turn. -/
theorem Execution.run {g : GenesisConfig} {ctx : TxContext} {index : Nat} {txs : List Transaction}
    {p p' : BlockProgress} (h : Execution P history p.state)
    (hrun : runBlockTransactions P g ctx index txs p = .ok p') :
    Execution P (appliedBy ctx txs ++ history) p'.state := by
  induction txs generalizing index p history with
  | nil =>
    cases hrun
    exact h
  | cons tx rest ih =>
    simp only [runBlockTransactions] at hrun
    split at hrun
    · cases hrun
    next p₁ hstep =>
    obtain ⟨hcoinbase, rfl⟩ | ⟨hcoinbase, gasUsed, s', happly, rfl⟩ := stepBlockTransaction_cases hstep
    · have hsame : appliedBy ctx (tx :: rest) = appliedBy ctx rest := by
        simp only [appliedBy, List.filter_cons, hcoinbase, Bool.not_true, Bool.false_eq_true, if_false]
      rw [hsame]
      refine ih ?_ hrun
      exact h
    · have hmore : appliedBy ctx (tx :: rest) = appliedBy ctx rest ++ [(ctx, tx)] := by
        simp only [appliedBy, List.filter_cons, hcoinbase, Bool.not_false, if_true, List.map_cons,
          List.reverse_cons]
      have hnext : Execution P ((ctx, tx) :: history) s' := .apply h happly
      rw [hmore, List.append_assoc, List.singleton_append]
      refine ih ?_ hrun
      exact hnext

/-- **A block that validates continues an execution of its parent state.** -/
theorem Execution.block {c : Blockchain} {now : Int} {block parent : Block} (h : Execution P history s)
    (hvalid : c.validateBlockAgainstState P now block parent s = .ok s') :
    Execution P (appliedBy (c.txContext block.header.height block.header.baseFeePerGas) block.transactions ++
      history) s' := by
  obtain ⟨-, -, q, hrun, hfinish⟩ := Blockchain.validate_eq_ok.mp hvalid
  have hstart : Execution P history (Blockchain.startState s block.header.height) := by
    refine h.between rfl rfl ?_
    intro a
    exact (nonce_unlocks s block.header.height a).ge
  obtain ⟨hcontracts, htokens⟩ := Blockchain.finishBlock_maps hfinish
  obtain ⟨coinbase, -, -, -, haccounts⟩ := Blockchain.finishBlock_eq_ok hfinish
  apply (hstart.run hrun).between hcontracts htokens
  intro a
  simp only [nonceOf, haccounts]
  exact (nonce_credit q.state.accounts coinbase.to a coinbase.amount).ge

/-- The settlement of an epoch is one of the steps between. -/
theorem Execution.settlement (h : Execution P history s) (settlement : EpochSettlement) :
    Execution P history
      { s with accounts := applyEpochSettlement s.accounts settlement } := by
  refine h.between rfl rfl ?_
  intro a
  exact (nonce_settlement s.accounts settlement a).ge

/-! ## Freshness -/

section Fresh

variable {earlier : Applied}

/-- Two contract addresses that are equal come from the same deployer, saturated nonce and height. -/
theorem AddressesApart.contract (h : AddressesApart P history) (hearlier : earlier ∈ history) (he : e ∈ history)
    (hk : earlier.2.kind = .deployContract) (hk' : e.2.kind = .deployContract)
    (hlength : earlier.2.from.length = ADDRESS_LEN) (hlength' : e.2.from.length = ADDRESS_LEN)
    (hfits : earlier.Fits) (hfits' : e.Fits) (heq : earlier.contractAddress P = e.contractAddress P) :
    earlier.2.from = e.2.from ∧ earlier.2.nonce - 1 = e.2.nonce - 1 ∧
      earlier.1.currentHeight = e.1.currentHeight := by
  have hmessage : ∀ {x : Applied}, x.2.kind = .deployContract →
      x.message = some (contractMessage x.2.from (x.2.nonce - 1) x.1.currentHeight) := by
    intro x hx
    simp only [Applied.message, hx]
  have hsame := h.truncated _ (List.mem_filterMap.mpr ⟨earlier, hearlier, hmessage hk⟩)
    _ (List.mem_filterMap.mpr ⟨e, he, hmessage hk'⟩) heq
  apply contractMessage_inj hlength hlength' _ _ hfits.1 hfits'.1 hsame
  · have := hfits.2
    omega
  · have := hfits'.2
    omega

theorem AddressesApart.token (h : AddressesApart P history) (hearlier : earlier ∈ history) (he : e ∈ history)
    (hk : earlier.2.kind = .deployToken) (hk' : e.2.kind = .deployToken)
    (hlength : earlier.2.from.length = ADDRESS_LEN) (hlength' : e.2.from.length = ADDRESS_LEN)
    (hfits : earlier.Fits) (hfits' : e.Fits) (heq : earlier.tokenAddress P = e.tokenAddress P) :
    earlier.2.from = e.2.from ∧ earlier.2.nonce - 1 = e.2.nonce - 1 := by
  have hmessage : ∀ {x : Applied}, x.2.kind = .deployToken →
      x.message = some (tokenMessage x.2.from (x.2.nonce - 1)) := by
    intro x hx
    simp only [Applied.message, hx]
  have hsame := h.truncated _ (List.mem_filterMap.mpr ⟨earlier, hearlier, hmessage hk⟩)
    _ (List.mem_filterMap.mpr ⟨e, he, hmessage hk'⟩) heq
  apply tokenMessage_inj hlength hlength' _ _ hsame
  · have := hfits.2
    omega
  · have := hfits'.2
    omega

/-- The nonces that saturate to one are 0 and 1. -/
theorem saturated_nonces {m n : Nat} (hlt : m < n) (h : m - 1 = n - 1) : m = 0 ∧ n = 1 := by
  omega

end Fresh

/-- **Deployments never collide**, in any execution none of whose steps clashes with an earlier one. -/
theorem deployments_never_collide (hrevm : RevmNonces P) (h : Execution P history s)
    (hspaced : Spaced (e :: history)) (hapart : AddressesApart P (e :: history)) :
    DeploysFresh P history s e := by
  obtain ⟨hclash, hfits⟩ := hspaced
  obtain ⟨hclash, -⟩ := List.pairwise_cons.mp hclash
  have he : e.Fits := hfits e List.mem_cons_self
  have hrecorded := h.recorded hrevm fun e' he' => hfits e' (List.mem_cons_of_mem e he')
  -- two contracts at one address were deployed with the nonces 0 and 1
  have hcontract : e.2.kind = .deployContract → e.2.from.length = ADDRESS_LEN → nonceOf s e.2.from = e.2.nonce →
      ∀ earlier ∈ history, earlier.2.kind = .deployContract →
        earlier.contractAddress P ≠ e.contractAddress P := by
    intro hk hlength hnonce earlier hearlier hk' heq
    obtain ⟨hlength', hlt⟩ := hrecorded.nonces earlier hearlier
    obtain ⟨hfrom, hsaturated, hheight⟩ := hapart.contract (List.mem_cons_of_mem e hearlier)
      List.mem_cons_self hk' hk hlength' hlength (hfits earlier (List.mem_cons_of_mem e hearlier)) he heq
    rw [hfrom, hnonce] at hlt
    obtain ⟨hzero, hone⟩ := saturated_nonces hlt hsaturated
    exact hclash earlier hearlier ⟨hfrom, hk'.trans hk.symm, hzero, hone, Or.inr ⟨hk, hheight⟩⟩
  have happlied : ∀ {gasUsed : Nat} {s' : ExecState}, applyUserTransaction P e.1 e.2 s = .ok gasUsed s' →
      e.2.from.length = ADDRESS_LEN ∧ nonceOf s e.2.from = e.2.nonce := by
    intro gasUsed s' happly
    obtain ⟨hshape, -⟩ := apply_eq_ok.mp happly
    exact ⟨sender_length (kind_ne_coinbase happly) hshape, (nonce_apply hrevm happly).1⟩
  refine ⟨?_, ?_, ?_⟩
  · intro gasUsed s' happly hk earlier hearlier hk' _ _
    obtain ⟨hlength, hnonce⟩ := happlied happly
    exact hcontract hk hlength hnonce earlier hearlier hk'
  · intro gasUsed s' happly hk hmem
    obtain ⟨hlength, hnonce⟩ := happlied happly
    rcases hrecorded.contracts _ hmem with ⟨earlier, hearlier, hk', heq⟩ | ⟨_, _, _, _, hrun, hcreated⟩
    · exact hcontract hk hlength hnonce earlier hearlier hk' heq.symm
    · exact hapart.revm hrun hcreated e List.mem_cons_self hk rfl
  · intro s₁ params hk hshape hdebit
    obtain ⟨hnonce, sender, -, rfl⟩ := debitSender_nonce hdebit
    have hlength := sender_length (by rw [hk]; decide) hshape
    apply deployToken_ne_alreadyExists
    intro hmem
    obtain ⟨earlier, hearlier, hk', heq⟩ := hrecorded.tokens _ hmem
    obtain ⟨hlength', hlt⟩ := hrecorded.nonces earlier hearlier
    obtain ⟨hfrom, hsaturated⟩ := hapart.token (List.mem_cons_of_mem e hearlier) List.mem_cons_self hk' hk
      hlength' hlength (hfits earlier (List.mem_cons_of_mem e hearlier)) he heq.symm
    rw [hfrom, hnonce] at hlt
    obtain ⟨hzero, hone⟩ := saturated_nonces hlt hsaturated
    exact hclash earlier hearlier ⟨hfrom, hk'.trans hk.symm, hzero, hone, Or.inl hk⟩

namespace DeploymentSample

open NonceSample (transact)

/-- An engine that takes any module: no imports, no operators. -/
def primitives : Primitives :=
  { NonceSample.primitives with
    wasmOperators := fun _ => ([], true)
    wasmFunctionImports := fun _ => some []
    wasmModuleOk := fun _ => true }

theorem revmNonces : RevmNonces primitives := ⟨NonceSample.revmNonces.raises, NonceSample.revmNonces.keeps⟩

/-- A deployment of the empty module. -/
def deploy (nonce : Nat) : Transaction :=
  { ConservationSample.unstake with
    kind := .deployContract
    «to» := [0, 97, 115, 109, 1, 0, 0, 0]
    amount := 0
    nonce
    gasLimit := 60000
    signature := none
    : Transaction }.sign primitives ConservationSample.key

def deployAt (height nonce : Nat) : Applied :=
  ({ ConservationSample.context with currentHeight := height }, deploy nonce)

def before : ExecState := ConservationSample.before

def apply (e : Applied) (s : ExecState) : EStateM.Result ChainError ExecState Nat :=
  applyUserTransaction primitives e.1 e.2 s

def afterFirst : ExecState := stateOf (apply (deployAt 1 0) before)

theorem executes_first : Execution primitives [deployAt 1 0] afterFirst := by
  have happly : apply (deployAt 1 0) before = .ok 53128 afterFirst := eq_ok_of_valueOf (by decide +kernel)
  exact .apply (.start rfl rfl) happly

/-- A payment creates nothing. -/
theorem transact_creates_nothing {view : EvmStateView} {env : EvmTxEnv} {result : ExecutionResult}
    {post : ByteMap EvmAccount} (h : transact view env = some (result, post)) : result.createdAddress = none := by
  simp only [transact, SignedSample.pay] at h
  split at h
  · split at h
    · cases h
    split at h
    · cases h
    cases h
    rfl
  · cases h

theorem addressesApart (height : Nat)
    (htruncated : ∀ m ∈ [deployAt height 1, deployAt 1 0].filterMap Applied.message,
      ∀ m' ∈ [deployAt height 1, deployAt 1 0].filterMap Applied.message,
        (primitives.sha3 m).take ADDRESS_LEN = (primitives.sha3 m').take ADDRESS_LEN → m = m') :
    AddressesApart primitives [deployAt height 1, deployAt 1 0] := by
  refine ⟨htruncated, ?_⟩
  intro view env result post addr hrun hcreated
  rw [transact_creates_nothing hrun] at hcreated
  cases hcreated

end DeploymentSample

open DeploymentSample in
/-- Nonces 0 and 1 in two blocks. -/
theorem deployments_never_collide_sample :
    DeploysFresh primitives [deployAt 1 0] afterFirst (deployAt 2 1) ∧
      (valueOf (apply (deployAt 2 1) afterFirst)).isSome :=
  ⟨deployments_never_collide revmNonces executes_first (by decide +kernel)
    (addressesApart 2 (by decide +kernel)), by decide +kernel⟩

open DeploymentSample in
/-- Nonces 0 and 1 in one block: the second contract takes the place of the first. -/
theorem second_deployment_overwrites : ¬ ∀ (P : Primitives) (history : List Applied) (s : ExecState) (e : Applied),
    RevmNonces P → Execution P history s → (∀ x ∈ e :: history, x.Fits) → AddressesApart P (e :: history) →
      DeploysFresh P history s e := by
  intro h
  have hfresh := h primitives [deployAt 1 0] afterFirst (deployAt 1 1) revmNonces executes_first (by decide +kernel)
    (addressesApart 1 (by decide +kernel))
  have happly : apply (deployAt 1 1) afterFirst = .ok 53128 (stateOf (apply (deployAt 1 1) afterFirst)) :=
    eq_ok_of_valueOf (by decide +kernel)
  exact hfresh.replaces _ _ happly rfl (by decide +kernel)

end Curs3d
