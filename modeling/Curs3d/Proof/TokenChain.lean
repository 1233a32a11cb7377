import Curs3d.Proof.Cur20
import Curs3d.Proof.Once

/-!
# The tokens of a chain

The registry of a node is what the token transactions on its chain made of an empty one: each makes one call, in the
name of its sender, and a transaction whose call is refused is not on the chain. So what holds of the registry
after any calls holds of every node: the balances of a token add up to its supply, and nobody has moved
more of another's tokens than the owner approved last.
-/

set_option autoImplicit false

namespace Curs3d

open Outcome

/-- One of the four token kinds. -/
def Transaction.callsToken (tx : Transaction) : Bool :=
  tx.kind = .deployToken ∨ tx.kind = .tokenTransfer ∨ tx.kind = .tokenApprove ∨ tx.kind = .tokenTransferFrom

/-- The call a token transaction makes, its sender being the deployer, the source, the owner or the spender. -/
inductive MakesCall (P : Primitives) (tx : Transaction) : TokenCall → Prop where
  | deployToken {params : DeployTokenParams} (height : Nat) (hk : tx.kind = .deployToken)
    (hparams : P.parseDeployToken tx.data = some params) :
    MakesCall P tx (.deployToken tx.from (tx.nonce - 1) params height)
  | transfer {params : TokenTransferParams} (hk : tx.kind = .tokenTransfer)
    (hparams : P.parseTokenTransfer tx.data = some params) :
    MakesCall P tx (.transfer params.tokenAddress tx.from params.recipient params.amount)
  | approve {params : TokenApproveParams} (hk : tx.kind = .tokenApprove)
    (hparams : P.parseTokenApprove tx.data = some params) :
    MakesCall P tx (.approve params.tokenAddress tx.from params.spender params.amount)
  | transferFrom {params : TokenTransferFromParams} (hk : tx.kind = .tokenTransferFrom)
    (hparams : P.parseTokenTransferFrom tx.data = some params) :
    MakesCall P tx
      (.transferFrom params.tokenAddress tx.from params.from params.recipient params.amount)

variable {P : Primitives} {ctx : TxContext} {tx : Transaction} {s s' : ExecState} {r r' : TokenRegistry}

theorem parsed_eq_ok {α : Type} {result : Option α} {reason : String} {a : α} :
    parsed result reason = .ok a ↔ result = some a := by
  cases result with
  | none => simp [parsed]
  | some b => simp [parsed]

theorem tokenResult_eq_ok {result : Except TokenError TokenRegistry} :
    tokenResult result = .ok r ↔ result = .ok r := by
  cases result with
  | error e => simp [tokenResult]
  | ok r' => simp [tokenResult]

/-- A transaction of a token kind makes its call; the others leave the registry as it is. -/
theorem applyTokenTx_cases (h : applyTokenTx P ctx tx r = .ok r') :
    (tx.callsToken = false ∧ r' = r) ∨
      (tx.callsToken = true ∧ ∃ call, MakesCall P tx call ∧ r.call P call = .ok r') := by
  unfold applyTokenTx at h
  split at h
  · next hk =>
    simp only [except_bind_eq_ok, parsed_eq_ok, tokenResult_eq_ok] at h
    obtain ⟨params, hparams, hcall⟩ := h
    exact .inr ⟨by simp [Transaction.callsToken, hk], _, .deployToken ctx.currentHeight hk hparams, hcall⟩
  · next hk =>
    simp only [except_bind_eq_ok, parsed_eq_ok, tokenResult_eq_ok] at h
    obtain ⟨params, hparams, hcall⟩ := h
    exact .inr ⟨by simp [Transaction.callsToken, hk], _, .transfer hk hparams, hcall⟩
  · next hk =>
    simp only [except_bind_eq_ok, parsed_eq_ok, tokenResult_eq_ok] at h
    obtain ⟨params, hparams, hcall⟩ := h
    exact .inr ⟨by simp [Transaction.callsToken, hk], _, .approve hk hparams, hcall⟩
  · next hk =>
    simp only [except_bind_eq_ok, parsed_eq_ok, tokenResult_eq_ok] at h
    obtain ⟨params, hparams, hcall⟩ := h
    exact .inr ⟨by simp [Transaction.callsToken, hk], _, .transferFrom hk hparams, hcall⟩
  · next h₁ h₂ h₃ h₄ =>
    cases h
    have hno : tx.callsToken = false := by
      simpa [Transaction.callsToken] using ⟨h₁, h₂, h₃, h₄⟩
    exact .inl ⟨hno, rfl⟩

/-- The token kinds are executed by the registry. -/
theorem executeKind_token {gasUsed : Nat} {receipt : Option Receipt} (hcalls : tx.callsToken = true)
    (h : executeKind P ctx tx s = .ok (gasUsed, receipt) s') :
    applyTokenTx P ctx tx s.tokenRegistry = .ok s'.tokenRegistry := by
  simp only [Transaction.callsToken, decide_eq_true_eq] at hcalls
  rcases hcalls with hk | hk | hk | hk
  all_goals
    simp only [executeKind, hk] at h
    obtain ⟨_, s₁, happly, hret⟩ := bind_eq_ok.mp h
    cases hret
    simp only [applyTokenOrGovernanceTx, hk] at happly
    split at happly
    · next s₂ hres =>
      cases happly
      obtain ⟨r, hr, rfl⟩ := except_map_eq_ok.mp hres
      exact hr
    · exact absurd happly (by simp)

/-- No other native kind touches the registry. -/
theorem executeKind_tokenless {gasUsed : Nat} {receipt : Option Receipt} (hnative : tx.isEvm = false)
    (hcalls : tx.callsToken = false) (h : executeKind P ctx tx s = .ok (gasUsed, receipt) s') :
    s'.tokenRegistry = s.tokenRegistry := by
  cases nativeRun_of_ok hnative h with
  | transfer _ => rfl
  | idle _ => rfl
  | deploy _ hdeploy =>
    obtain ⟨-, contract, rfl⟩ := executeDeploy_eq_ok hdeploy
    rfl
  | call _ hcall =>
    obtain ⟨-, contract, contract', -, rfl⟩ := executeCall_eq_ok hcall
    rfl
  | governance _ _ => rfl
  | token _ htoken =>
    rcases applyTokenTx_cases htoken with ⟨-, heq⟩ | ⟨hyes, -⟩
    · exact heq
    · exact absurd (hcalls.symm.trans hyes) (by simp)

/-- What a transaction does to the registry. -/
theorem tokens_apply {gasUsed : Nat} (happly : applyUserTransaction P ctx tx s = .ok gasUsed s') :
    (tx.callsToken = false ∧ s'.tokenRegistry = s.tokenRegistry) ∨
      (tx.callsToken = true ∧
        ∃ call, MakesCall P tx call ∧ s.tokenRegistry.call P call = .ok s'.tokenRegistry) := by
  obtain ⟨-, -, s₁, receipt, s₂, hdebit, hexec, hsettle⟩ := apply_eq_ok.mp happly
  obtain ⟨sender, -, rfl⟩ := debitSender_eq_ok.mp hdebit
  obtain ⟨-, price, -, rfl⟩ := settleFees_eq_ok.mp hsettle
  cases hcalls : tx.callsToken with
  | true =>
    rcases applyTokenTx_cases (executeKind_token hcalls hexec) with ⟨hno, -⟩ | hmade
    · exact absurd (hcalls.symm.trans hno) (by simp)
    · exact .inr ⟨rfl, hmade.2⟩
  | false =>
    refine .inl ⟨rfl, ?_⟩
    by_cases hevm : tx.isEvm = true
    · obtain ⟨result, post, outcome, -, -, -, rfl⟩ := executeKind_evm hevm hexec
      rfl
    · have hsame := executeKind_tokenless (by simpa using hevm) hcalls hexec
      exact hsame

/-! ## Runs -/

namespace TokenRegistry

/-- Where no call is refused, the calls are a run. -/
theorem run_of_foldlM {calls : List TokenCall} (h : calls.foldlM (call P) r = .ok r') :
    r.run P calls = r' := by
  induction calls generalizing r with
  | nil =>
    cases h
    rfl
  | cons c rest ih =>
    rw [List.foldlM_cons, except_bind_eq_ok] at h
    obtain ⟨r₁, hcall, hrest⟩ := h
    have hstep : r.step P c = r₁ := by
      unfold step
      rw [hcall]
    rw [run, List.foldl_cons, hstep]
    exact ih hrest

/-- A call on the chain is in range when the parser reads a `u64`. -/
theorem inRange_of_makesCall {call : TokenCall} (hmade : MakesCall P tx call)
    (hparse : ∀ data params, P.parseDeployToken data = some params → params.totalSupply ≤ U64.u64Max) :
    call.InRange := by
  cases hmade with
  | deployToken height _ hparams => exact hparse _ _ hparams
  | transfer _ _ => trivial
  | approve _ _ => trivial
  | transferFrom _ _ => trivial

end TokenRegistry

/-- **The token transactions make the registry**, one call each. -/
theorem Evolves.tokens {delay n₀ n : Nat} {s₀ : ExecState} {executions : List (Nat × Transaction)}
    (h : Evolves P delay n₀ s₀ n executions s) :
    ∃ calls, List.Forall₂ (MakesCall P) ((executions.map Prod.snd).filter Transaction.callsToken) calls ∧
      calls.foldlM (TokenRegistry.call P) s₀.tokenRegistry = .ok s.tokenRegistry := by
  induction h with
  | start => exact ⟨[], .nil, rfl⟩
  | unlocks _ _ ih => exact ih
  | @apply _ s s' ctx tx gasUsed _ _ happly ih =>
    obtain ⟨calls, hmade, hrun⟩ := ih
    rw [List.map_append, List.map_singleton, List.filter_append]
    rcases tokens_apply happly with ⟨hcalls, hsame⟩ | ⟨hcalls, call, hmakes, hcall⟩
    · refine ⟨calls, ?_, hsame ▸ hrun⟩
      rwa [List.filter_cons_of_neg (by simp [hcalls]), List.filter_nil, List.append_nil]
    · refine ⟨calls ++ [call], ?_, ?_⟩
      · rw [List.filter_cons_of_pos hcalls, List.filter_nil]
        exact List.rel_append hmade (.cons hmakes .nil)
      · have hone : [call].foldlM (TokenRegistry.call P) s.tokenRegistry = .ok s'.tokenRegistry := by
          rw [List.foldlM_cons, hcall]
          rfl
        rw [List.foldlM_append, hrun]
        exact hone
  | between _ hbetween ih =>
    obtain ⟨calls, hmade, hrun⟩ := ih
    exact ⟨calls, hmade, hbetween.tokens ▸ hrun⟩

namespace TokenSample

open InflationSample Scenario Blockchain

/-- A token of a thousand units. -/
def params : DeployTokenParams where
  name := "A".toUTF8.toList
  symbol := "A".toUTF8.toList
  decimals := 0
  totalSupply := 1000

def text : Bytes :=
  "\x7b\"name\":\"A\",\"symbol\":\"A\",\"decimals\":0,\"total_supply\":1000\x7d".toUTF8.toList

/-- The parser reads that text, and here no other. -/
def primitives : Primitives :=
  { Reference.primitives with parseDeployToken := fun data => if data = text then some params else none }

def deployment : Transaction :=
  Transaction.sign primitives { PoolSample.payment 1 2 with kind := .deployToken, data := text, fee := 20 } (key 1)

/-- The chain after a block of a producer whose pool holds the deployment. -/
def deployed (c : Blockchain) : Blockchain :=
  match (c.addTransaction primitives (clock 1) deployment).2.createBlock primitives (clock 1) (key 1) with
  | .error _ => c
  | .ok block => (c.addBlock primitives (clock 1) block).2

theorem archival_deployed {g : GenesisConfig} {c : Blockchain} (h : Archival primitives g c) :
    Archival primitives g (deployed c) := by
  unfold deployed
  split
  · exact h
  · next block _ => exact h.addBlock (clock 1) block

theorem totalSupply_of_parse {data : Bytes} {parsed : DeployTokenParams}
    (h : primitives.parseDeployToken data = some parsed) : parsed.totalSupply ≤ U64.u64Max := by
  simp only [primitives] at h
  split at h
  · cases h
    decide
  · exact absurd h (by simp)

end TokenSample

end Curs3d
