import Curs3d.Proof.Inflation

/-!
# Every public key is its own account's

An account is stored under the hash of a public key, and the key it carries is that one: genesis
writes it so, and a native transaction binds the key its sender address was checked against.
Everything else that writes accounts leaves their keys alone. So the validators of a snapshot,
taken from accounts at different addresses, have different keys.
-/

set_option autoImplicit false

namespace Curs3d

open Outcome Blockchain

/-- The key of every account hashes to the address it is stored at. -/
def OwnKeys (P : Primitives) (accounts : ByteMap AccountState) : Prop :=
  ∀ addr a publicKey, accounts[addr]? = some a → a.publicKey = some publicKey →
    addr = addressBytesFromPublicKey P publicKey

namespace OwnKeys

variable {P : Primitives} {accounts : ByteMap AccountState} {addr : Bytes} {a : AccountState}

theorem empty : OwnKeys P ∅ := by
  intro addr a publicKey ha
  simp at ha

theorem insert (h : OwnKeys P accounts)
    (ha : ∀ publicKey, a.publicKey = some publicKey →
      addr = addressBytesFromPublicKey P publicKey) :
    OwnKeys P (accounts.insert addr a) := by
  intro addr' a' publicKey hget hkey
  rw [KeyMap.getElem?_insert_eq] at hget
  split at hget
  · next heq =>
    cases hget
    rw [← heq]
    exact ha publicKey hkey
  · exact h addr' a' publicKey hget hkey

/-- A change that leaves the key alone, at an address that may be new. -/
theorem upsert (h : OwnKeys P accounts) {f : AccountState → AccountState}
    (hf : ∀ a, (f a).publicKey = a.publicKey) : OwnKeys P (KeyMap.upsert accounts addr {} f) := by
  apply h.insert
  intro publicKey hkey
  rw [hf] at hkey
  cases hget : accounts[addr]? with
  | none => simp [hget] at hkey
  | some a => exact h addr a publicKey hget (by simpa [hget] using hkey)

theorem credit (h : OwnKeys P accounts) (amount : Nat) :
    OwnKeys P (credit accounts addr amount) := h.upsert fun _ => rfl

theorem unlocks (h : OwnKeys P accounts) (height : Nat) :
    OwnKeys P (applyUnstakeUnlocks accounts height) := by
  intro addr a publicKey hget hkey
  simp only [applyUnstakeUnlocks, Std.ExtTreeMap.getElem?_map, Option.map_eq_some_iff] at hget
  obtain ⟨a₀, hget, rfl⟩ := hget
  exact h addr a₀ publicKey hget hkey

theorem settlement (h : OwnKeys P accounts) (settlement : EpochSettlement) :
    OwnKeys P (applyEpochSettlement accounts settlement) := by
  have hrewards : OwnKeys P (settlement.rewards.foldl creditReward accounts) :=
    List.foldlRecOn _ _ h fun _ hm _ _ => hm.upsert fun _ => rfl
  exact List.foldlRecOn _ _ hrewards fun _ hm _ _ => hm.upsert fun _ => rfl

theorem mergeAccounts (h : OwnKeys P accounts) (outcome : EvmOutcome) :
    OwnKeys P (mergeAccounts accounts outcome) :=
  List.foldlRecOn _ _ h fun _ hm _ _ => hm.upsert fun _ => rfl

end OwnKeys

/-! ## Transactions -/

section

variable {P : Primitives} {ctx : TxContext} {tx : Transaction} {s s' : ExecState}

/-- The one place that binds a key: the sender's entry, whose address was checked against it. -/
theorem senderEntry_publicKey {a a' : AccountState} (h : senderEntry ctx tx a = .ok () a') :
    a'.publicKey = a.publicKey ∨ (tx.isEvm = false ∧ a'.publicKey = some tx.senderPublicKey) := by
  obtain ⟨a₁, a₂, hbind, htake, hmove⟩ := senderEntry_eq_ok.mp h
  obtain ⟨-, -, rfl⟩ := takeUpFront_eq_ok.mp htake
  have hkept : a'.publicKey = a₁.publicKey := by
    obtain ⟨-, rfl⟩ | ⟨-, -, rfl⟩ | ⟨-, -, rfl⟩ := moveStake_eq_ok.mp hmove
    · rfl
    · rfl
    · rfl
  rw [hkept]
  simp only [bindPublicKey] at hbind
  split at hbind
  · cases hbind
    exact .inl rfl
  · next hnative =>
    split at hbind
    · split at hbind
      · exact absurd hbind (by simp)
      · cases hbind
        exact .inl rfl
    · cases hbind
      exact .inr ⟨by simpa using hnative, rfl⟩

theorem OwnKeys.debitSender (h : OwnKeys P s.accounts) (hauth : authenticate P tx = .ok ())
    (hdebit : debitSender ctx tx s = .ok () s') : OwnKeys P s'.accounts := by
  obtain ⟨sender, hentry, rfl⟩ := debitSender_eq_ok.mp hdebit
  apply h.insert
  intro publicKey hkey
  obtain hold | ⟨hnative, hnew⟩ := senderEntry_publicKey hentry
  · rw [hold] at hkey
    cases hget : s.accounts[tx.from]? with
    | none => simp [senderBefore, hget] at hkey
    | some a => exact h tx.from a publicKey hget (by simpa [senderBefore, hget] using hkey)
  · rw [hnew] at hkey
    cases hkey
    obtain ⟨-, hevm | hfrom⟩ := authenticate_eq_ok.mp hauth
    · simp [hnative] at hevm
    · exact hfrom

theorem OwnKeys.executeKind {gasUsed : Nat} {receipt : Option Receipt} (h : OwnKeys P s.accounts)
    (hexec : executeKind P ctx tx s = .ok (gasUsed, receipt) s') : OwnKeys P s'.accounts := by
  cases hevm : tx.isEvm with
  | false =>
    rw [(executeKind_native hevm hexec).2]
    split
    · exact h.credit _
    · exact h
  | true =>
    -- revm's post-state moves balances and nonces only
    obtain ⟨_, _, outcome, -, -, -, rfl⟩ := executeKind_evm hevm hexec
    exact h.mergeAccounts _

theorem OwnKeys.apply {gasUsed : Nat} (h : OwnKeys P s.accounts)
    (happly : applyUserTransaction P ctx tx s = .ok gasUsed s') : OwnKeys P s'.accounts := by
  obtain ⟨-, hauth, s₁, receipt, s₂, hdebit, hexec, hsettle⟩ := apply_eq_ok.mp happly
  obtain ⟨-, price, -, rfl⟩ := settleFees_eq_ok.mp hsettle
  exact ((h.debitSender hauth hdebit).executeKind hexec).credit _

theorem OwnKeys.runBlockTransactions {g : GenesisConfig} {index : Nat} {txs : List Transaction}
    {p p' : BlockProgress} (h : OwnKeys P p.state.accounts)
    (hrun : runBlockTransactions P g ctx index txs p = .ok p') : OwnKeys P p'.state.accounts := by
  induction txs generalizing index p with
  | nil =>
    cases hrun
    exact h
  | cons tx rest ih =>
    simp only [Curs3d.runBlockTransactions] at hrun
    split at hrun
    · exact absurd hrun (by simp)
    · next p₁ hstep =>
      refine ih ?_ hrun
      obtain ⟨-, rfl⟩ | ⟨-, gasUsed, s', happly, rfl⟩ := stepBlockTransaction_cases hstep
      · exact h
      · exact h.apply happly

end

/-! ## Blocks -/

namespace Blockchain

variable {P : Primitives} {g : GenesisConfig} {c : Blockchain} {now : Int} {block : Block}

theorem ownKeys_validated {parent : Block} {parentState s : ExecState}
    (h : OwnKeys P parentState.accounts)
    (hs : c.validateBlockAgainstState P now block parent parentState = .ok s) :
    OwnKeys P s.accounts := by
  obtain ⟨-, -, q, hrun, hfinish⟩ := validate_eq_ok.mp hs
  obtain ⟨coinbase, -, -, -, hacc⟩ := finishBlock_eq_ok hfinish
  rw [hacc]
  exact (OwnKeys.runBlockTransactions (h.unlocks block.header.height) hrun).credit _

theorem ownKeys_settledAt (h : OwnKeys P c.accounts) (height : Nat) :
    OwnKeys P (c.settledAt P height).1 := by
  simp only [settledAt, applyEpochSettlementForBlock]
  split
  · exact h
  · split
    · exact h
    · exact h.settlement _

/-- A block keeps the keys where they are, whether it is accepted or refused. -/
theorem ownKeys_addBlock (h : OwnKeys P c.accounts) :
    OwnKeys P (c.addBlock P now block).2.accounts := by
  have hsettled := ownKeys_settledAt h block.header.height
  obtain ⟨e, he⟩ | ⟨s, hs, hok⟩ := addBlock_cases P c now block
  · rw [he, prepareEpoch_eq]
    exact hsettled
  · rw [hok]
    have hexec := congrArg ExecState.accounts
      (commitBlock_execState (P := P) (c.prepareEpoch P block.header.height) block s)
    rw [show ((c.prepareEpoch P block.header.height).commitBlock P block s).accounts = s.accounts
      from hexec]
    refine ownKeys_validated ?_ hs
    rw [prepareEpoch_eq]
    exact hsettled

theorem ownKeys_accountsFromGenesis {accounts : ByteMap AccountState}
    (h : accountsFromGenesis P g = .ok accounts) : OwnKeys P accounts := by
  simp only [accountsFromGenesis] at h
  generalize hstart : (∅ : ByteMap AccountState) = start at h
  generalize g.allocations = allocations at h
  have hown : OwnKeys P start := hstart ▸ OwnKeys.empty
  clear hstart
  induction allocations generalizing start with
  | nil =>
    cases h
    exact hown
  | cons allocation rest ih =>
    simp only [List.foldlM_cons, except_bind_eq_ok] at h
    obtain ⟨next, ⟨publicKey, -, -, -, hnext⟩, h⟩ := h
    cases hnext
    refine ih _ h (hown.insert ?_)
    intro key hkey
    cases hkey
    rfl

theorem ownKeys_genesis (h : fromGenesis P g = .ok c) : OwnKeys P c.accounts := by
  simp only [fromGenesis, except_bind_eq_ok] at h
  obtain ⟨accounts, haccounts, hc⟩ := h
  cases hc
  exact ownKeys_accountsFromGenesis haccounts

end Blockchain

/-! ## Validators -/

variable {P : Primitives} {accounts : ByteMap AccountState} {pos : ProofOfStake}

theorem validatorOf_eq_some {addr : Bytes} {a : AccountState} {v : Validator}
    (h : pos.validatorOf addr a = some v) :
    v.address = addr ∧ a.publicKey = some v.publicKey := by
  simp only [ProofOfStake.validatorOf] at h
  cases hk : a.publicKey with
  | none => simp [hk] at h
  | some publicKey =>
    simp only [hk, Option.ite_none_left_eq_some] at h
    obtain ⟨-, -, -, -, h⟩ := h
    cases h
    exact ⟨rfl, rfl⟩

theorem nodup_addresses_activeValidators :
    ((pos.activeValidators accounts).map Validator.address).Nodup := by
  simp only [ProofOfStake.activeValidators, List.map_filterMap]
  have hkeys := Std.ExtTreeMap.distinct_keys_toList (t := accounts)
  refine List.Pairwise.filterMap _ ?_ hkeys
  intro e e' hne addr hv addr' hv' hsame
  obtain ⟨v, hv, haddr⟩ := Option.map_eq_some_iff.mp hv
  obtain ⟨v', hv', haddr'⟩ := Option.map_eq_some_iff.mp hv'
  rw [(validatorOf_eq_some hv).1] at haddr
  rw [(validatorOf_eq_some hv').1] at haddr'
  rw [haddr, haddr', hsame] at hne
  exact hne Std.ReflCmp.compare_self

/-- No two validators share a key. -/
theorem OwnKeys.nodup_activeValidators (h : OwnKeys P accounts) :
    ((pos.activeValidators accounts).map Validator.publicKey).Nodup := by
  refine List.Nodup.of_map (addressBytesFromPublicKey P) ?_
  rw [List.map_map]
  have haddresses : (pos.activeValidators accounts).map
      (addressBytesFromPublicKey P ∘ Validator.publicKey) =
      (pos.activeValidators accounts).map Validator.address := by
    apply List.map_congr_left
    intro v hv
    obtain ⟨⟨addr, a⟩, hmem, hv⟩ := List.mem_filterMap.mp hv
    obtain ⟨rfl, hkey⟩ := validatorOf_eq_some hv
    rw [Std.ExtTreeMap.mem_toList_iff_getElem?_eq_some] at hmem
    exact (h _ a _ hmem hkey).symm
  rw [haddresses]
  exact nodup_addresses_activeValidators

end Curs3d
