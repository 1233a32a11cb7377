import Curs3d.Api.EthRpc
import Curs3d.Proof.Execute
import Curs3d.Crypto.Reference

/-!
# What an EVM transaction was signed for

An EVM transaction carries every field twice, once in its own struct and once in the signed
envelope. `verify_signature` compares the sender and nothing else, and no other check of
`apply_user_transaction` looks into the envelope. So one envelope of an account is enough to
execute any transaction of it: `forged` sends an amount the envelope does not name.

A transaction that `eth_sendRawTransaction` assembled is a copy of its envelope as far as 64 bits
and the fee rules allow, and takes any chain id (`assembled_authentic_iff`).
-/

set_option autoImplicit false

namespace Curs3d

open U64 Outcome

/-- What `tx` executes, field by field, is what `envelope` signs, for this chain. -/
structure Executes (P : Primitives) (tx : Transaction) (envelope : TxEnvelope) : Prop where
  signer : envelope.signer = some tx.from
  kind : tx.kind = if envelope.to.isSome then .callEvmContract else .deployEvmContract
  recipient : tx.to = envelope.to.getD []
  amount : tx.amount = envelope.value
  nonce : tx.nonce = envelope.nonce
  gasLimit : tx.gasLimit = envelope.gasLimit
  maxFee : tx.maxFeePerGas' = envelope.maxFeePerGas
  priorityFee : tx.maxPriorityFeePerGas' =
    envelope.maxPriorityFeePerGas.getD envelope.maxFeePerGas
  data : tx.data = envelope.input
  chainId : ∀ id ∈ envelope.chainId, id = numericChainId P tx.chainId

def Authentic (P : Primitives) (tx : Transaction) : Prop :=
  ∃ envelope, P.decode2718 tx.evmRawTx = some envelope ∧ Executes P tx envelope

variable {P : Primitives}

theorem decodeRawEthTx_eq_some {raw : Bytes} {decoded : DecodedRawTx} :
    decodeRawEthTx P raw = some decoded ↔ ∃ envelope signer, P.decode2718 raw = some envelope ∧
      envelope.signer = some signer ∧ decoded =
        { «from» := signer
          «to» := envelope.to
          value := u64FromU256Saturating envelope.value
          data := envelope.input
          gasLimit := envelope.gasLimit
          gasPrice := envelope.maxFeePerGas % modulus
          maxFeePerGas := envelope.maxFeePerGas % modulus
          maxPriorityFeePerGas :=
            envelope.maxPriorityFeePerGas.getD envelope.maxFeePerGas % modulus
          nonce := envelope.nonce
          chainId := envelope.chainId
          txHash := envelope.txHash } := by
  unfold decodeRawEthTx
  cases hd : P.decode2718 raw with
  | none => simp
  | some envelope =>
    cases hs : envelope.signer with
    | none => simp [hs]
    | some signer => simp [hs, eq_comm]

/-- All that `verify_signature` asks of an EVM transaction. -/
theorem verifySignature_of_evm {tx : Transaction} (hevm : tx.isEvm = true) :
    tx.verifySignature P = true ↔ tx.evmRawTx ≠ [] ∧
      ∃ decoded, decodeRawEthTx P tx.evmRawTx = some decoded ∧ decoded.from = tx.from := by
  have hnot : tx.isCoinbase = false := by
    simp only [Transaction.isEvm, Transaction.isCoinbase, decide_eq_true_eq] at hevm ⊢
    rcases hevm with h | h <;> simp [h]
  unfold Transaction.verifySignature
  rw [hnot, hevm]
  cases tx.evmRawTx with
  | nil => simp
  | cons b rest => cases decodeRawEthTx P (b :: rest) <;> simp

/-! ## revm on a plain payment -/

/-- The signer of a decoded envelope is an address. -/
def SignersAreAddresses (P : Primitives) : Prop :=
  ∀ raw envelope signer, P.decode2718 raw = some envelope → envelope.signer = some signer →
    signer.length = ADDRESS_LEN

/-- A payment with enough gas from a funded account without code to an address that has no code
and is no precompile succeeds and uses the base gas. -/
def PlainCallsSucceed (P : Primitives) : Prop :=
  ∀ (view : EvmStateView) (env : EvmTxEnv) (recipient : Bytes) (balance nonce : Nat),
    env.kind = .call recipient → recipient.length = 20 → recipient.head? ≠ some 0 →
    recipient ∉ view.contracts → env.caller ∉ view.contracts → env.data = [] →
    view.accounts[env.caller]? = some (balance, nonce) → env.nonce = nonce → nonce < u64Max →
    GAS_BASE_TX ≤ env.gasLimit → env.gasLimit ≤ env.blockGasLimit →
    env.baseFeePerGas ≤ env.gasPrice → env.gasLimit * env.gasPrice + env.value ≤ balance →
    ∃ post, P.revmTransact view env = some (.success GAS_BASE_TX [] (.call []), post)

/-! ## A forged transaction -/

/-- An address without code. -/
def bystander : Bytes := List.replicate 20 170

/-- A free payment of `amount` by `sender`, with somebody else's reading of `raw`. -/
def forged (raw sender : Bytes) (amount : Nat) : Transaction where
  chainId := [1]
  kind := .callEvmContract
  «from» := sender
  senderPublicKey := []
  «to» := bystander
  amount := amount
  fee := 0
  maxFeePerGas := 0
  maxPriorityFeePerGas := 0
  nonce := 0
  timestamp := 0
  signature := none
  gasLimit := 30000
  data := []
  evmRawTx := raw

/-- A state in which `sender` can pay. -/
def funded (sender : Bytes) : ExecState where
  accounts := (∅ : ByteMap AccountState).insert sender { balance := 100000 }
  contracts := ∅
  receipts := ∅
  tokenRegistry := {}
  governance := {}

def freeBlock : TxContext where
  currentHeight := 1
  unstakeDelayBlocks := 0
  epochLength := 1
  minimumStake := 1
  baseFeePerGas := 0

section Forgery

variable {raw sender : Bytes} {amount : Nat}

theorem validate_forged (hraw : raw ≠ []) (hlen : sender.length = ADDRESS_LEN) :
    validateTransactionShape (forged raw sender amount) = .ok () := by
  unfold validateTransactionShape
  simp only [except_bind_eq_ok, ensure_eq_ok]
  refine ⟨(), by simp [forged, Transaction.maxPriorityFeePerGas', Transaction.maxFeePerGas'], ?_⟩
  simp only [forged, except_bind_eq_ok, ensure_eq_ok, ensureChainIdAndSender]
  refine ⟨(), ⟨(), by simp, by simp [hlen]⟩, (), by simp [bystander, ADDRESS_LEN], (), by simp, ?_⟩
  simp [hraw]

/-- The entry of the sender after the debit. -/
def debited (amount : Nat) : AccountState := { balance := 100000 - amount, nonce := 1 }

theorem debit_forged (hamount : amount ≤ 1) :
    debitSender freeBlock (forged raw sender amount) (funded sender) = .ok ()
      { funded sender with
        accounts := (funded sender).accounts.insert sender (debited amount) } := by
  rw [debitSender_eq_ok]
  refine ⟨debited amount, ?_, rfl⟩
  have hbefore : senderBefore (forged raw sender amount) (funded sender) = { balance := 100000 } := by
    simp [senderBefore, funded, forged]
  have hneeded : (forged raw sender amount).needed = amount := by
    unfold Transaction.needed Transaction.totalFeeCap Transaction.maxFeePerGas' satAdd satMul u64Max
    simp only [forged, max_self, Nat.mul_zero, Nat.zero_min, Nat.add_zero]
    omega
  rw [senderEntry_eq_ok, hbefore]
  refine ⟨{ balance := 100000 }, debited amount, ?_, ?_, ?_⟩
  · rfl
  · rw [takeUpFront_eq_ok, hneeded]
    exact ⟨by simp; omega, rfl, rfl⟩
  · rw [moveStake_eq_ok]
    exact .inr (.inr ⟨by simp [forged], by simp [forged], rfl⟩)

/-- revm runs the payment. -/
theorem call_forged (hrevm : PlainCallsSucceed P) (hlen : sender.length = 20)
    (hamount : amount ≤ 1) (accounts : ByteMap AccountState)
    (hsender : accounts[sender]? = some (debited amount)) :
    ∃ outcome, outcome.gasUsed = GAS_BASE_TX ∧
      Evm.call P (evmStateView accounts ∅) sender bystander [] amount 30000 1 1 0
        DEFAULT_BLOCK_GAS_LIMIT = .ok outcome := by
  have hview : (evmStateView accounts ∅).accounts[sender]? = some (100000 - amount, 1) := by
    unfold evmStateView
    dsimp only
    rw [Std.ExtTreeMap.getElem?_map, Std.ExtTreeMap.getElem?_filter]
    simp [hsender, debited, hlen]
  have hnonce : ((evmStateView accounts ∅).accounts[sender]?.map Prod.snd).getD 0 = 1 := by
    rw [hview]
    rfl
  have hcode : ∀ addr, addr ∉ (evmStateView accounts ∅).contracts := by
    intro addr
    rw [Std.ExtTreeMap.mem_iff_isSome_getElem?]
    simp [evmStateView, Std.ExtTreeMap.getElem?_filter]
  unfold Evm.call Evm.transact
  rw [hnonce]
  obtain ⟨post, hpost⟩ := hrevm (evmStateView accounts ∅)
    { caller := sender, gasLimit := 30000, gasPrice := 1, kind := .call bystander, value := amount
      data := [], nonce := 1, blockHeight := 1, baseFeePerGas := 0
      blockGasLimit := DEFAULT_BLOCK_GAS_LIMIT }
    bystander (100000 - amount) 1 rfl (by decide) (by decide) (hcode _) (hcode _) rfl hview rfl
    (by decide) (show GAS_BASE_TX ≤ 30000 by decide)
    (show 30000 ≤ DEFAULT_BLOCK_GAS_LIMIT by decide) (Nat.zero_le _)
    (show 30000 * 1 + amount ≤ 100000 - amount by omega)
  rw [hpost]
  exact ⟨_, rfl, rfl⟩

theorem execute_forged (hrevm : PlainCallsSucceed P) (hlen : sender.length = 20)
    (hamount : amount ≤ 1) {s : ExecState} (hsender : s.accounts[sender]? = some (debited amount))
    (hcontracts : s.contracts = ∅) :
    ∃ receipt s', executeKind P freeBlock (forged raw sender amount) s =
      .ok (GAS_BASE_TX, receipt) s' := by
  obtain ⟨outcome, hgas, hcall⟩ := call_forged hrevm hlen hamount _ hsender
  have hcaller : toArray20 sender = sender := if_pos hlen
  have happly : applyEvmCall P freeBlock (forged raw sender amount) s = mergeEvm (.ok outcome) s := by
    unfold applyEvmCall
    rw [hcontracts]
    dsimp only [forged, freeBlock]
    rw [hcaller, show toArray20 bystander = bystander from rfl]
    exact congrArg (fun r => mergeEvm r s) hcall
  refine ⟨some (Evm.receiptFromOutcome outcome ((forged raw sender amount).hash P) 1),
    { s with
      accounts := mergeAccounts s.accounts outcome
      contracts := mergeContracts s.contracts outcome }, ?_⟩
  show (applyEvmCall P freeBlock (forged raw sender amount) >>= fun outcome =>
    pure (evmReceipt P freeBlock (forged raw sender amount) outcome)) s = _
  rw [bind_apply, happly]
  unfold mergeEvm evmReceipt
  dsimp only
  rw [hgas]
  rfl

/-- **One envelope is enough**: the forged payment executes. -/
theorem apply_forged (hrevm : PlainCallsSucceed P) (hraw : raw ≠ [])
    (hlen : sender.length = 20) (hamount : amount ≤ 1) {decoded : DecodedRawTx}
    (hdecode : decodeRawEthTx P raw = some decoded) (hfrom : decoded.from = sender) :
    ∃ s', applyUserTransaction P freeBlock (forged raw sender amount) (funded sender) =
      .ok GAS_BASE_TX s' := by
  obtain ⟨receipt, s₂, hexec⟩ := @execute_forged P raw sender amount hrevm hlen hamount
    { funded sender with accounts := (funded sender).accounts.insert sender (debited amount) }
    (by simp) rfl
  have hprice : (forged raw sender amount).effectiveGasPrice freeBlock.baseFeePerGas = some 0 := by
    simp [Transaction.effectiveGasPrice, Transaction.maxFeePerGas',
      Transaction.maxPriorityFeePerGas', forged, satAdd, freeBlock]
  refine ⟨_, apply_eq_ok.mpr ⟨validate_forged hraw hlen, ?_, _, receipt, s₂, debit_forged hamount,
    hexec, settleFees_eq_ok.mpr ⟨?_, 0, hprice, rfl⟩⟩⟩
  · rw [authenticate_eq_ok, verifySignature_of_evm rfl]
    exact ⟨⟨hraw, decoded, hdecode, hfrom⟩, .inl rfl⟩
  · rw [ensureTransactionFeeCoversBase_eq_ok]
    exact ⟨Nat.zero_le _, by simp [freeBlock, satMul]⟩

end Forgery

/-- **The transactions that execute with `raw` are authentic exactly when there are none**: the
code checks the claim of no envelope but its sender's. -/
theorem evm_authentic_iff (hsigner : SignersAreAddresses P) (hrevm : PlainCallsSucceed P)
    (raw : Bytes) :
    (∀ ctx tx s gas s', tx.isEvm = true → tx.evmRawTx = raw →
        applyUserTransaction P ctx tx s = .ok gas s' → Authentic P tx) ↔
      (raw = [] ∨ decodeRawEthTx P raw = none) := by
  constructor
  · intro h
    by_contra hnot
    rw [not_or] at hnot
    obtain ⟨hraw, hsome⟩ := hnot
    obtain ⟨decoded, hdecode⟩ := Option.ne_none_iff_exists'.mp hsome
    obtain ⟨envelope, signer, henvelope, hsig, rfl⟩ := decodeRawEthTx_eq_some.mp hdecode
    have hlen : signer.length = 20 := hsigner raw envelope signer henvelope hsig
    -- an amount the envelope does not name
    obtain ⟨amount, hamount, hne⟩ : ∃ amount, amount ≤ 1 ∧ amount ≠ envelope.value := by
      by_cases hz : envelope.value = 0
      · exact ⟨1, le_rfl, by omega⟩
      · exact ⟨0, Nat.zero_le _, by omega⟩
    obtain ⟨s', happly⟩ := apply_forged hrevm hraw hlen hamount hdecode rfl
    obtain ⟨envelope', henvelope', hexec⟩ := h _ _ _ _ _ rfl rfl happly
    rw [show (forged raw signer amount).evmRawTx = raw from rfl, henvelope] at henvelope'
    cases henvelope'
    exact hne hexec.amount
  · rintro hempty ctx tx s gas s' hevm rfl happly
    obtain ⟨-, hauth, -⟩ := apply_eq_ok.mp happly
    obtain ⟨hraw, decoded, hdecode, -⟩ :=
      (verifySignature_of_evm hevm).mp (authenticate_eq_ok.mp hauth).1
    rcases hempty with hempty | hnone
    · exact absurd hempty hraw
    · rw [hnone] at hdecode
      exact absurd hdecode (by simp)

/-! ## A signed transaction -/

namespace SignedSample

/-- A legacy transaction signed for chain 1. -/
def raw : Bytes :=
  [248, 108, 9, 133, 4, 168, 23, 200, 0, 130, 82, 8, 148, 53, 53, 53, 53, 53, 53, 53, 53, 53, 53,
   53, 53, 53, 53, 53, 53, 53, 53, 53, 53, 136, 13, 224, 182, 179, 167, 100, 0, 0, 128, 37, 160,
   40, 239, 97, 52, 11, 217, 57, 188, 33, 149, 254, 83, 117, 103, 134, 96, 3, 225, 161, 93, 60,
   113, 255, 99, 225, 89, 6, 32, 170, 99, 98, 118, 160, 103, 203, 233, 216, 153, 127, 118, 26,
   236, 183, 3, 48, 75, 56, 0, 204, 245, 85, 201, 243, 220, 100, 33, 75, 41, 127, 177, 150, 106,
   59, 109, 131]

def signer : Bytes :=
  [157, 138, 98, 246, 86, 168, 209, 97, 92, 18, 148, 253, 113, 233, 207, 179, 228, 133, 90, 79]

/-- One ether to `0x35…35`, for chain 1. -/
def envelope : TxEnvelope where
  signer := some signer
  «to» := some (List.replicate 20 53)
  value := 10 ^ 18
  input := []
  gasLimit := 21000
  maxFeePerGas := 20 * 10 ^ 9
  maxPriorityFeePerGas := none
  nonce := 9
  chainId := some 1
  txHash :=
    [51, 70, 155, 34, 233, 246, 54, 53, 108, 65, 96, 168, 126, 177, 157, 245, 43, 116, 18, 232,
     234, 195, 42, 74, 85, 255, 232, 142, 168, 53, 7, 136]

/-- An account of the view as revm's post-state has it. -/
def touched (view : EvmStateView) (addr : Bytes) : EvmAccount where
  balance := (view.accounts[addr]?.getD (0, 0)).1
  nonce := (view.accounts[addr]?.getD (0, 0)).2
  code := none
  storage := ∅

/-- A payment: the caller pays value and gas, the recipient gets the value, the beneficiary (the
zero address) what is above the base fee. Nothing else runs. -/
def pay (view : EvmStateView) (env : EvmTxEnv) :
    Option (ExecutionResult × ByteMap EvmAccount) :=
  match env.kind with
  | .create => none
  | .call recipient =>
    if recipient ∈ view.contracts ∨ env.data ≠ [] ∨ env.gasLimit < GAS_BASE_TX then none
    else
      let caller := touched view env.caller
      let debited : ByteMap EvmAccount := (∅ : ByteMap EvmAccount).insert env.caller
        { caller with
          balance := caller.balance - env.value - GAS_BASE_TX * env.gasPrice
          nonce := caller.nonce + 1 }
      let credited := KeyMap.upsert debited recipient (touched view recipient)
        fun a => { a with balance := a.balance + env.value }
      let rewarded := KeyMap.upsert credited (List.replicate 20 0)
        (touched view (List.replicate 20 0))
        fun a => { a with balance := a.balance + GAS_BASE_TX * (env.gasPrice - env.baseFeePerGas) }
      some (.success GAS_BASE_TX [] (.call []), rewarded)

def primitives : Primitives :=
  { Reference.primitives with
    decode2718 := fun bytes => if bytes = raw then some envelope else none
    revmTransact := pay }

theorem signersAreAddresses : SignersAreAddresses primitives := by
  intro bytes e s hdecode hs
  simp only [primitives] at hdecode
  split at hdecode
  · cases hdecode
    cases hs
    rfl
  · exact absurd hdecode (by simp)

theorem plainCallsSucceed : PlainCallsSucceed primitives := by
  intro view env recipient balance nonce hkind _ _ hcode _ hdata _ _ _ hgas _ _ _
  unfold primitives pay
  dsimp only
  rw [hkind]
  dsimp only
  rw [if_neg (by simp only [hcode, hdata, ne_eq, not_true_eq_false, false_or]; omega)]
  exact ⟨_, rfl⟩

theorem decode_raw : decodeRawEthTx primitives raw ≠ none := by
  simp [decodeRawEthTx, primitives, envelope]

end SignedSample

open SignedSample in
/-- The signed transaction lets a payment execute that it does not describe. -/
theorem evm_authentic_sample :
    ¬ ∀ ctx tx s gas s', tx.isEvm = true → tx.evmRawTx = raw →
      applyUserTransaction primitives ctx tx s = .ok gas s' → Authentic primitives tx := by
  rw [evm_authentic_iff signersAreAddresses plainCallsSucceed raw]
  exact fun h => h.elim (by decide) decode_raw

open SignedSample in
/-- Signed: one ether, nonce 9, at 20 gwei, for chain 1. Executed: nothing, nonce 0, for free, to
somebody else, on this chain. -/
theorem forged_payment_executes :
    ¬ ∀ ctx tx s gas s', tx.isEvm = true →
      applyUserTransaction primitives ctx tx s = .ok gas s' → Authentic primitives tx := by
  intro h
  obtain ⟨decoded, hdecode⟩ := Option.ne_none_iff_exists'.mp decode_raw
  obtain ⟨e, signer', he, hsig, rfl⟩ := decodeRawEthTx_eq_some.mp hdecode
  simp only [primitives, if_pos] at he
  cases he
  cases hsig
  obtain ⟨s', happly⟩ := apply_forged plainCallsSucceed (by decide) (by decide)
    (show 0 ≤ 1 by decide) hdecode rfl
  obtain ⟨e', he', hexec⟩ := h _ _ _ _ _ rfl happly
  simp only [primitives, forged, if_pos] at he'
  cases he'
  exact absurd hexec.amount (by decide)

/-! ## Transactions the node assembles itself -/

/-- The transaction assembled from an envelope executes what was signed exactly when value and
fees fit in 64 bits, the priority fee is at most the fee cap and not zero under a positive cap,
and the chain id, if there is one, is this chain's. -/
theorem assembled_authentic_iff {raw : Bytes} {decoded : DecodedRawTx} {e : TxEnvelope}
    (chainId : Text) (now : Int) (he : P.decode2718 raw = some e)
    (hdecode : decodeRawEthTx P raw = some decoded) :
    Authentic P (assembleRawTransaction chainId decoded raw now) ↔
      e.value < modulus ∧ e.maxFeePerGas < modulus ∧
        e.maxPriorityFeePerGas.getD e.maxFeePerGas ≤ e.maxFeePerGas ∧
        (e.maxPriorityFeePerGas.getD e.maxFeePerGas = 0 → e.maxFeePerGas = 0) ∧
        ∀ id ∈ e.chainId, id = numericChainId P chainId := by
  obtain ⟨e', signer, he', hsig, rfl⟩ := decodeRawEthTx_eq_some.mp hdecode
  rw [he] at he'
  cases he'
  have hvalue : u64FromU256Saturating e.value = e.value ↔ e.value < modulus := by
    unfold u64FromU256Saturating u64Max modulus
    split <;> omega
  have hfee : e.maxFeePerGas % modulus = e.maxFeePerGas ↔ e.maxFeePerGas < modulus := by
    unfold modulus
    omega
  generalize hp : e.maxPriorityFeePerGas.getD e.maxFeePerGas = p
  have hpriority : e.maxFeePerGas < modulus →
      ((if p % modulus = 0 then min e.maxFeePerGas e.maxFeePerGas
        else min (p % modulus) e.maxFeePerGas) = p ↔
        p ≤ e.maxFeePerGas ∧ (p = 0 → e.maxFeePerGas = 0)) := by
    intro hlt
    unfold modulus at hlt ⊢
    split <;> omega
  constructor
  · rintro ⟨e', he', hx⟩
    rw [show (assembleRawTransaction chainId _ raw now).evmRawTx = raw from rfl, he] at he'
    cases he'
    have hfits := hfee.mp (by simpa [assembleRawTransaction, Transaction.fromEvmRaw,
      Transaction.maxFeePerGas'] using hx.maxFee)
    refine ⟨hvalue.mp hx.amount, hfits, ?_⟩
    obtain ⟨hle, hz⟩ := (hpriority hfits).mp (by
      have := hx.priorityFee
      simpa [assembleRawTransaction, Transaction.fromEvmRaw, Transaction.maxPriorityFeePerGas',
        Transaction.maxFeePerGas', hp, Nat.mod_eq_of_lt hfits] using this)
    exact ⟨hle, hz, hx.chainId⟩
  · rintro ⟨hv, hf, hle, hz, hid⟩
    refine ⟨e, he, ⟨hsig, rfl, rfl, hvalue.mpr hv, rfl, rfl, ?_, ?_, rfl, hid⟩⟩
    · simp [assembleRawTransaction, Transaction.fromEvmRaw, Transaction.maxFeePerGas',
        Nat.mod_eq_of_lt hf]
    · have := (hpriority hf).mpr ⟨hle, hz⟩
      simpa [assembleRawTransaction, Transaction.fromEvmRaw, Transaction.maxPriorityFeePerGas',
        Transaction.maxFeePerGas', hp, Nat.mod_eq_of_lt hf] using this

end Curs3d
