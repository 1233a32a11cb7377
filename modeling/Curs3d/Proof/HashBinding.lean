import Curs3d.Proof.Encoding
import Curs3d.Proof.Inflation

/-!
# What a block hash binds

A block's hash covers its header and, through the Merkle root, the signed part of its transactions. The
rest (signatures, raw Ethereum bytes, the two raw fee fields) decides whether a transaction is accepted
but nothing of what it does: two accepted transactions with the same covered part do the same
(`applyUserTransaction_covered`). So two blocks of one hash that are valid on one state leave the same state
(`block_hash_binds_execution`).
-/

set_option autoImplicit false

namespace Curs3d

open U64 Outcome

variable {P : Primitives}

/-! ## Execution reads the covered part -/

section Covered

variable {tx tx' : Transaction} {ctx : TxContext}

namespace Transaction

@[simp] theorem signableBytes_covered : tx.covered.signableBytes = tx.signableBytes := by
  simp only [signableBytes, maxFeePerGas'_covered, maxPriorityFeePerGas'_covered]
  rfl

@[simp] theorem hash_covered : tx.covered.hash P = tx.hash P := by
  simp only [hash, signableBytes_covered]

@[simp] theorem needed_covered : tx.covered.needed = tx.needed := by
  simp only [needed, totalFeeCap, maxFeePerGas'_covered]
  rfl

@[simp] theorem totalFeeCap_covered : tx.covered.totalFeeCap = tx.totalFeeCap := by
  simp only [totalFeeCap, maxFeePerGas'_covered]
  rfl

@[simp] theorem effectiveGasPrice_covered (baseFee : Nat) :
    tx.covered.effectiveGasPrice baseFee = tx.effectiveGasPrice baseFee := by
  simp only [effectiveGasPrice, maxFeePerGas'_covered, maxPriorityFeePerGas'_covered]

end Transaction

theorem priorityFeeForTransaction_covered (gasUsed baseFee : Nat) :
    priorityFeeForTransaction tx.covered gasUsed baseFee = priorityFeeForTransaction tx gasUsed baseFee := by
  simp only [priorityFeeForTransaction, Transaction.priorityFeePerGas,
    Transaction.effectiveGasPrice_covered]

theorem takeUpFront_covered : takeUpFront tx.covered = takeUpFront tx := by
  funext sender
  simp only [takeUpFront, Transaction.needed_covered]
  rfl

theorem debitSender_covered : debitSender ctx tx.covered = debitSender ctx tx := by
  have hentry : senderEntry ctx tx.covered = senderEntry ctx tx := by
    simp only [senderEntry, takeUpFront_covered]
    rfl
  funext s
  simp only [debitSender, hentry]
  rfl

theorem executeKind_covered : executeKind P ctx tx.covered = executeKind P ctx tx := by
  simp only [executeKind, executeDeploy, executeCall, evmReceipt, Transaction.hash_covered]
  rfl

theorem settleFees_covered (gasUsed : Nat) (receipt : Option Receipt) :
    settleFees P ctx tx.covered gasUsed receipt = settleFees P ctx tx gasUsed receipt := by
  simp only [settleFees, ensureTransactionFeeCoversBase, effectivePrice, gasRefund,
    priorityFeeForTransaction_covered, Transaction.totalFeeCap_covered, Transaction.hash_covered,
    Transaction.effectiveGasPrice_covered, Transaction.maxFeePerGas'_covered]
  rfl

/-- **Two accepted transactions with one covered part do the same.** -/
theorem applyUserTransaction_covered (hsame : tx.covered = tx'.covered) {s s₁ s₂ : ExecState}
    {gas gas' : Nat} (h : applyUserTransaction P ctx tx s = .ok gas s₁)
    (h' : applyUserTransaction P ctx tx' s = .ok gas' s₂) : gas = gas' ∧ s₁ = s₂ := by
  obtain ⟨-, -, a, receipt, b, hdebit, hkind, hsettle⟩ := apply_eq_ok.mp h
  obtain ⟨-, -, a', receipt', b', hdebit', hkind', hsettle'⟩ := apply_eq_ok.mp h'
  rw [← debitSender_covered, hsame, debitSender_covered, hdebit'] at hdebit
  cases hdebit
  rw [← executeKind_covered, hsame, executeKind_covered, hkind'] at hkind
  cases hkind
  rw [← settleFees_covered, hsame, settleFees_covered, hsettle'] at hsettle
  cases hsettle
  exact ⟨rfl, rfl⟩

end Covered

/-! ## The two runs of the loop -/

/-- The two runs have done the same; their coinbases may differ in what hashes do not cover. -/
structure SameProgress (p p' : BlockProgress) : Prop where
  state : p.state = p'.state
  priorityFees : p.priorityFees = p'.priorityFees
  totalGasUsed : p.totalGasUsed = p'.totalGasUsed
  coinbase : p.coinbase.map Transaction.covered = p'.coinbase.map Transaction.covered

section Loop

variable {g : GenesisConfig} {ctx : TxContext} {index : Nat} {p p' q q' : BlockProgress}

theorem SameProgress.step {tx tx' : Transaction} (hp : SameProgress p p')
    (hsame : tx.covered = tx'.covered) (h : stepBlockTransaction P g ctx index tx p = .ok q)
    (h' : stepBlockTransaction P g ctx index tx' p' = .ok q') : SameProgress q q' := by
  have hkind : tx.covered.isCoinbase = tx'.covered.isCoinbase := by rw [hsame]
  replace hkind : tx.isCoinbase = tx'.isCoinbase := hkind
  rcases stepBlockTransaction_cases h with ⟨hcoinbase, rfl⟩ | ⟨hcoinbase, gas, s₁, happly, rfl⟩
  · rcases stepBlockTransaction_cases h' with ⟨-, rfl⟩ | ⟨hcoinbase', -⟩
    · exact ⟨hp.state, hp.priorityFees, hp.totalGasUsed, congrArg some hsame⟩
    · rw [hkind, hcoinbase'] at hcoinbase
      exact absurd hcoinbase (by simp)
  · rcases stepBlockTransaction_cases h' with ⟨hcoinbase', -⟩ | ⟨-, gas', s₂, happly', rfl⟩
    · rw [hkind, hcoinbase'] at hcoinbase
      exact absurd hcoinbase (by simp)
    · rw [← hp.state] at happly'
      obtain ⟨rfl, rfl⟩ := applyUserTransaction_covered hsame happly happly'
      refine ⟨rfl, ?_, ?_, hp.coinbase⟩
      · show satAdd _ _ = satAdd _ _
        rw [hp.priorityFees, ← priorityFeeForTransaction_covered, hsame,
          priorityFeeForTransaction_covered]
      · show satAdd _ _ = satAdd _ _
        rw [hp.totalGasUsed]

theorem SameProgress.run {txs txs' : List Transaction} (hp : SameProgress p p')
    (hsame : txs.map Transaction.covered = txs'.map Transaction.covered)
    (h : runBlockTransactions P g ctx index txs p = .ok q)
    (h' : runBlockTransactions P g ctx index txs' p' = .ok q') : SameProgress q q' := by
  induction txs generalizing txs' index p p' with
  | nil =>
    cases txs' with
    | nil =>
      cases h
      cases h'
      exact hp
    | cons tx' txs' => exact absurd hsame (by simp)
  | cons tx txs ih =>
    cases txs' with
    | nil => exact absurd hsame (by simp)
    | cons tx' txs' =>
      simp only [List.map_cons, List.cons.injEq] at hsame
      simp only [runBlockTransactions] at h h'
      split at h
      · exact absurd h (by simp)
      next p₁ hstep =>
      split at h'
      · exact absurd h' (by simp)
      next p₂ hstep' =>
      exact ih (hp.step hsame.1 hstep hstep') hsame.2 h h'

theorem fresh_of_step {tx : Transaction} (h : stepBlockTransaction P g ctx index tx p = .ok q) :
    tx.hash P ∉ p.txHashes := by
  simp only [stepBlockTransaction] at h
  split at h
  · exact absurd h (by simp)
  split at h
  · exact absurd h (by simp)
  · next hfresh => exact hfresh

/-- The loop lets no transaction hash in twice. -/
theorem nodup_of_run {txs : List Transaction}
    (h : runBlockTransactions P g ctx index txs p = .ok q) :
    (txs.map fun tx => tx.hash P).Nodup ∧ ∀ tx ∈ txs, tx.hash P ∉ p.txHashes := by
  induction txs generalizing index p with
  | nil => simp
  | cons tx txs ih =>
    simp only [runBlockTransactions] at h
    split at h
    · exact absurd h (by simp)
    next p₁ hstep =>
    obtain ⟨hnodup, hfresh⟩ := ih h
    have hhashes : p₁.txHashes = insert (tx.hash P) p.txHashes := by
      rcases stepBlockTransaction_cases hstep with ⟨-, rfl⟩ | ⟨-, _, _, -, rfl⟩
      · rfl
      · rfl
    rw [hhashes] at hfresh
    refine ⟨?_, ?_⟩
    · rw [List.map_cons, List.nodup_cons]
      refine ⟨?_, hnodup⟩
      intro hmem
      obtain ⟨t, ht, heq⟩ := List.mem_map.mp hmem
      exact hfresh t ht (heq ▸ Finset.mem_insert_self _ _)
    · intro t ht
      rcases List.mem_cons.mp ht with rfl | ht
      · exact fresh_of_step hstep
      · exact fun hmem => hfresh t ht (Finset.mem_insert_of_mem hmem)

end Loop

/-! ## Validation -/

namespace Blockchain

variable {c : Blockchain} {now : Int} {block block' parent : Block} {s s₁ s₂ : ExecState}

theorem finishBlock_result {p : BlockProgress} (h : c.finishBlock P block p = .ok s) :
    ∃ s' coinbase, c.processGovernance p.state block.header.height = .ok s' ∧
      p.coinbase = some coinbase ∧ s = { s' with
        accounts := credit s'.accounts coinbase.to coinbase.amount } := by
  simp only [finishBlock, except_bind_eq_ok] at h
  obtain ⟨s', hgov, _, -, h⟩ := h
  cases hc : p.coinbase with
  | none =>
    rw [hc] at h
    exact absurd h (by simp)
  | some coinbase =>
    rw [hc] at h
    simp only [except_bind_eq_ok] at h
    obtain ⟨_, -, _, -, accounts, hcredit, _, -, hs⟩ := h
    simp only [applyCoinbaseTransaction, except_bind_eq_ok] at hcredit
    obtain ⟨_, -, _, -, haccounts⟩ := hcredit
    cases hs
    cases haccounts
    exact ⟨s', coinbase, hgov, rfl, rfl⟩

theorem finishBlock_same {p p' : BlockProgress} (hp : SameProgress p p')
    (hheader : block.header = block'.header) (h : c.finishBlock P block p = .ok s₁)
    (h' : c.finishBlock P block' p' = .ok s₂) : s₁ = s₂ := by
  obtain ⟨a, coinbase, hgov, hcoinbase, rfl⟩ := finishBlock_result h
  obtain ⟨a', coinbase', hgov', hcoinbase', rfl⟩ := finishBlock_result h'
  rw [hp.state, hheader, hgov'] at hgov
  cases hgov
  have hsame := hp.coinbase
  rw [hcoinbase, hcoinbase', Option.map_some, Option.map_some, Option.some.injEq] at hsame
  have hcredit : credit a.accounts coinbase.covered.to coinbase.covered.amount =
      credit a.accounts coinbase'.covered.to coinbase'.covered.amount := by rw [hsame]
  exact congrArg (fun accounts => { a with accounts }) hcredit

/-- What a valid block says about its hash and its transactions. -/
theorem hashes_of_validate (h : c.validateBlockAgainstState P now block parent s = .ok s₁) :
    block.hash = Block.computeHash P block.header ∧ block.verifyMerkleRoot P = true ∧
      (block.transactions.map fun tx => tx.hash P).Nodup ∧ block.transactions ≠ [] := by
  obtain ⟨hheader, -, q, hrun, hfinish⟩ := validate_eq_ok.mp h
  simp only [checkHeader, except_bind_eq_ok, ensure_eq_ok, decide_eq_true_eq] at hheader
  obtain ⟨-, -, -, -, -, hhash, -, hroot, -⟩ := hheader
  refine ⟨of_decide_eq_true hhash, hroot, (nodup_of_run hrun).1, ?_⟩
  intro hnil
  obtain ⟨-, coinbase, -, hcoinbase, -⟩ := finishBlock_result hfinish
  rw [hnil] at hrun
  cases hrun
  exact absurd hcoinbase (by simp)

/-- **A block hash binds its execution**: two blocks with one hash that are valid on one state leave the
same accounts, contracts, receipts, token registry and governance. -/
theorem block_hash_binds_execution (P : Primitives) (h32 : ∀ m, (P.sha3 m).length = 32)
    (c : Blockchain) (now : Int) (parent : Block) (s s₁ s₂ : ExecState) (block block' : Block)
    (hfits : block.Fits) (hfits' : block'.Fits)
    (hno : CollisionFree P (block.messages P ++ block'.messages P)) (hhash : block.hash = block'.hash)
    (h : c.validateBlockAgainstState P now block parent s = .ok s₁)
    (h' : c.validateBlockAgainstState P now block' parent s = .ok s₂) : s₁ = s₂ := by
  obtain ⟨hown, hroot, hnodup, hne⟩ := hashes_of_validate h
  obtain ⟨hown', hroot', hnodup', hne'⟩ := hashes_of_validate h'
  rw [hown, hown'] at hhash
  obtain ⟨hheader, hcovered⟩ := covered_of_hash_eq h32 hfits hfits' hno hhash hroot hroot' hnodup
    hnodup' hne hne'
  obtain ⟨-, -, q, hrun, hfinish⟩ := validate_eq_ok.mp h
  obtain ⟨-, -, q', hrun', hfinish'⟩ := validate_eq_ok.mp h'
  rw [← hheader] at hrun'
  have hsame : SameProgress q q' :=
    SameProgress.run ⟨rfl, rfl, rfl, rfl⟩ hcovered hrun hrun'
  exact finishBlock_same hsame hheader hfinish hfinish'

end Blockchain

/-! ## Two blocks with one hash -/

namespace HashBindingSample

open Scenario PoolSample Blockchain

/-- A chain with one payment in its pool, and the block that takes it. -/
def start : Option (Blockchain × Block) :=
  (fromGenesis Reference.primitives genesis).toOption.bind fun c =>
    ((pooled c [payment 1 2]).createBlock Reference.primitives (clock 1) (key 1)).toOption.map
      fun block => (c, block)

/-- The block with every raw fee written out, and raw Ethereum bytes in every transaction. -/
def rewritten (block : Block) : Block :=
  { block with
    transactions := block.transactions.map fun tx => { tx with
      maxFeePerGas := tx.fee
      evmRawTx := [7] } }

def fits (block : Block) : Bool :=
  decide block.header.Fits && block.transactions.all fun tx => decide tx.Fits

theorem fits_eq_true {block : Block} (h : fits block = true) : block.Fits := by
  simp only [fits, Bool.and_eq_true, decide_eq_true_eq, List.all_eq_true] at h
  exact ⟨h.1, h.2⟩

def validated (c : Blockchain) (block : Block) : Except ChainError ExecState :=
  c.validateBlockAgainstState Reference.primitives (clock 1) block c.latestBlock c.execState

end HashBindingSample

open HashBindingSample PoolSample Scenario in
/-- A payment with its fee in another field: another block, the same hash, the same state. -/
theorem block_hash_binds_execution_sample : ∃ c block s,
    (rewritten block).transactions ≠ block.transactions ∧ (rewritten block).hash = block.hash ∧
      validated c block = .ok s ∧ validated c (rewritten block) = .ok s := by
  have hsample : start.any (fun e =>
      decide ((rewritten e.2).transactions ≠ e.2.transactions) && fits e.2 && fits (rewritten e.2) &&
        decide ((rewritten e.2).messages Reference.primitives = e.2.messages Reference.primitives) &&
        decide (((e.2.messages Reference.primitives).map Reference.primitives.sha3).Nodup) &&
        (validated e.1 e.2).toOption.any (fun _ => true) &&
        (validated e.1 (rewritten e.2)).toOption.any (fun _ => true)) = true := by
    decide +kernel
  obtain ⟨e, -, htest⟩ := (Option.any_eq_true _ _).mp hsample
  simp only [Bool.and_eq_true, decide_eq_true_eq] at htest
  obtain ⟨⟨⟨⟨⟨⟨hne, hfits⟩, hfits'⟩, hmessages⟩, hnodup⟩, hvalid⟩, hvalid'⟩ := htest
  obtain ⟨s, hs, -⟩ := ok_of_any hvalid
  obtain ⟨s', hs', -⟩ := ok_of_any hvalid'
  have hno : CollisionFree Reference.primitives
      (e.2.messages Reference.primitives ++ (rewritten e.2).messages Reference.primitives) := by
    rw [hmessages]
    exact (collisionFree_of_nodup hnodup).mono fun m hm => (List.mem_append.mp hm).elim id id
  have hsame := Blockchain.block_hash_binds_execution Reference.primitives Reference.length_sha3 e.1
    (clock 1) e.1.latestBlock e.1.execState s s' e.2 (rewritten e.2) (fits_eq_true hfits)
    (fits_eq_true hfits') hno rfl hs hs'
  exact ⟨e.1, e.2, s, hne, rfl, hs, hsame ▸ hs'⟩

end Curs3d
