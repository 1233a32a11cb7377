import Curs3d.Proof.Executed

/-!
# Nothing is executed twice

The nonce law is about one transaction. Here it is about a node: the chain it holds, however it came to hold it,
with refused blocks, votes, evidence, restarts and reorganisations on the way. Along the canonical chain the
nonces of a sender strictly increase and stay below the nonce of its account (`Spent`), so no transaction
is in the chain twice and none of them can be applied again.
-/

set_option autoImplicit false

namespace Curs3d

open U64 Outcome

/-- `txs` were applied one after the other on the way to `s`. -/
structure Spent (txs : List Transaction) (s : ExecState) : Prop where
  ordered : txs.Pairwise fun t u => t.from = u.from → t.nonce < u.nonce
  below : ∀ t ∈ txs, t.from.length = ADDRESS_LEN ∧ t.nonce < nonceOf s t.from

variable {P : Primitives} {ctx : TxContext} {tx : Transaction} {txs : List Transaction}
  {s s' : ExecState}

namespace Spent

theorem none (s : ExecState) : Spent [] s := ⟨List.Pairwise.nil, by simp⟩

theorem mono (h : Spent txs s) (hle : ∀ a, a.length = ADDRESS_LEN → nonceOf s a ≤ nonceOf s' a) :
    Spent txs s' := by
  refine ⟨h.ordered, fun t ht => ?_⟩
  obtain ⟨hlength, hlt⟩ := h.below t ht
  exact ⟨hlength, hlt.trans_le (hle t.from hlength)⟩

theorem congr (h : Spent txs s) (heq : ∀ a, nonceOf s' a = nonceOf s a) : Spent txs s' :=
  h.mono fun a _ => (heq a).ge

/-- **One transaction more.** -/
theorem apply {gasUsed : Nat} (h : Spent txs s) (hrevm : RevmNonces P) (hlast : tx.nonce < u64Max)
    (happly : applyUserTransaction P ctx tx s = .ok gasUsed s') : Spent (txs ++ [tx]) s' := by
  obtain ⟨hbefore, hafter, -⟩ := nonce_apply hrevm happly
  have hraised : tx.nonce < nonceOf s' tx.from := hafter ▸ nonce_lt_nonceAfter hlast
  have hlength : tx.from.length = ADDRESS_LEN :=
    sender_length (kind_ne_coinbase happly) (apply_eq_ok.mp happly).1
  have hold : Spent txs s' := h.mono fun a ha => nonce_mono hrevm ha (fun _ => hlast) happly
  constructor
  · rw [List.pairwise_append]
    refine ⟨h.ordered, List.pairwise_singleton _ _, ?_⟩
    intro t ht u hu hfrom
    rw [List.mem_singleton.mp hu] at hfrom ⊢
    rw [← hbefore, ← hfrom]
    exact (h.below t ht).2
  · intro t ht
    rcases List.mem_append.mp ht with hin | hnew
    · exact hold.below t hin
    · rw [List.mem_singleton.mp hnew]
      exact ⟨hlength, hraised⟩

end Spent

/-- Whatever was executed is spent; the last nonce there is wraps around. -/
theorem Evolves.spent {delay n₀ n : Nat} {s₀ : ExecState} {executions : List (Nat × Transaction)}
    (h : Evolves P delay n₀ s₀ n executions s) (hrevm : RevmNonces P)
    (hlast : ∀ tx ∈ executions.map Prod.snd, tx.nonce < u64Max) : Spent (executions.map Prod.snd) s := by
  induction h with
  | start => exact Spent.none _
  | unlocks _ _ ih =>
    refine (ih hlast).congr fun a => ?_
    rw [nonceOf, account_startState]
    rfl
  | @apply _ s s' ctx tx gasUsed _ _ happly ih =>
    rw [List.map_append] at hlast ⊢
    have hbefore := ih fun t ht => hlast t (List.mem_append_left _ ht)
    exact hbefore.apply hrevm (hlast tx (List.mem_append_right _ List.mem_cons_self)) happly
  | between _ hbetween ih => exact (ih hlast).congr fun a => (hbetween.accounts a).nonce

namespace OnceSample

open InflationSample Scenario Blockchain

/-- The sample payment and one after it. -/
def payments : List Transaction :=
  [payment, Transaction.sign Reference.primitives { PoolSample.payment 1 2 with fee := 5, nonce := 1 }
    (key 1)]

/-- Two blocks of a producer whose pool holds both. -/
def twoBlocks (c : Blockchain) : List (Int × Block) :=
  (script (PoolSample.pooled c payments) [(clock 1, 1), (clock 2, 1)]).getD []

theorem archival_offer {g : GenesisConfig} {c : Blockchain} {calls : List (Int × Block)}
    (h : Archival Reference.primitives g c) :
    Archival Reference.primitives g (offer Reference.primitives c calls) := by
  induction calls generalizing c with
  | nil => exact h
  | cons call rest ih => exact ih (h.addBlock call.1 call.2)

theorem revmNonces : RevmNonces Reference.primitives :=
  ⟨fun h => absurd h (by simp [Reference.primitives]), fun h => absurd h (by simp [Reference.primitives])⟩

end OnceSample

end Curs3d
