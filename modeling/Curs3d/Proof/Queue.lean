import Curs3d.Proof.Nonce
import Curs3d.Proof.Pressure

/-!
# Replacing a transaction that others wait for

The dry run leaves the replaced entry out and applies every other pending transaction before the new one. A later
nonce of the same sender then comes before the nonce it waits for, so only the last transaction of a sender can be
replaced (`replacement_accepted_iff`).
-/

set_option autoImplicit false

namespace Curs3d

open U64 Outcome Relation

namespace Blockchain

section Defs

variable (P : Primitives) (c : Blockchain) (now : Int) (tx : Transaction)

/-- `sender` has exactly the nonces `n` to `n + k` pending, and one more to come. -/
structure Queued (sender : Bytes) (n k : Nat) : Prop where
  pending : ∀ j ≤ k, ∃ p ∈ c.pendingTransactions, p.from = sender ∧ p.nonce = n + j
  only : ∀ p ∈ c.pendingTransactions, p.from = sender → n ≤ p.nonce ∧ p.nonce ≤ n + k
  fits : n + k < u64Max

/-- `tx` passes every check that is made of a replacement of the entry at `index`, and there is room for it. -/
structure MayReplace (index : Nat) : Prop where
  checks : c.checkAdmission now tx = .ok ()
  found : c.replacementIndex tx = some index
  fresh : (c.pendingTransactions.all fun p => p.hash P ≠ tx.hash P) = true
  bumps : ∀ existing, c.pendingTransactions[index]? = some existing → c.checkReplacement existing tx = .ok ()
  limits : (c.insertPending tx).WithinLimits

/-- `tx` is accepted, in the place of the entry at `index` and of nothing else. -/
def Replaced (index : Nat) : Prop :=
  (c.addTransaction P now tx).1 = .ok () ∧ (c.addTransaction P now tx).2.pendingTransactions.Perm
    (tx :: (c.prunePendingTransactions now).pendingTransactions.eraseIdx index)

end Defs

variable {P : Primitives} {c : Blockchain} {tx p : Transaction} {now : Int} {txs others : List Transaction}
  {s s' : ExecState} {index : Nat}

/-! ## Nonces along the pool -/

/-- One transaction ahead of the rest. -/
theorem applyPending_cons (h : c.applyPending P (tx :: txs) s = some s') :
    ∃ gasUsed s₁, applyUserTransaction P (c.txContext (c.height + 1) c.pendingBaseFee) tx s = .ok gasUsed s₁ ∧
      c.applyPending P txs s₁ = some s' := by
  simp only [applyPending] at h
  split at h
  · next gasUsed s₁ happly => exact ⟨gasUsed, s₁, happly, h⟩
  · cases h

theorem nonce_applyPending {a : Bytes} (hrevm : RevmNonces P) (ha : a.length = ADDRESS_LEN)
    (hfits : ∀ q ∈ txs, q.from = a → q.nonce < u64Max) (h : c.applyPending P txs s = some s') :
    nonceOf s a ≤ nonceOf s' a := by
  induction txs generalizing s with
  | nil =>
    cases h
    exact le_rfl
  | cons q rest ih =>
    obtain ⟨gasUsed, s₁, happly, hrest⟩ := applyPending_cons h
    have hfirst := nonce_mono hrevm ha (hfits q List.mem_cons_self) happly
    exact hfirst.trans (ih (fun r hr => hfits r (List.mem_cons_of_mem q hr)) hrest)

/-- Once a transaction is applied, its sender is past its nonce for good. -/
theorem nonce_lt_applyPending (hrevm : RevmNonces P) (hp : p ∈ txs)
    (hfits : ∀ q ∈ txs, q.from = p.from → q.nonce < u64Max) (h : c.applyPending P txs s = some s') :
    p.nonce < nonceOf s' p.from := by
  induction txs generalizing s with
  | nil => cases hp
  | cons q rest ih =>
    obtain ⟨gasUsed, s₁, happly, hrest⟩ := applyPending_cons h
    have hfitsRest : ∀ r ∈ rest, r.from = p.from → r.nonce < u64Max :=
      fun r hr => hfits r (List.mem_cons_of_mem q hr)
    rcases List.mem_cons.mp hp with rfl | hp
    · obtain ⟨-, hafter, -⟩ := nonce_apply hrevm happly
      obtain ⟨hshape, -⟩ := apply_eq_ok.mp happly
      have hlength := sender_length (kind_ne_coinbase happly) hshape
      calc p.nonce < nonceAfter p := nonce_lt_nonceAfter (hfits p List.mem_cons_self rfl)
        _ = nonceOf s₁ p.from := hafter.symm
        _ ≤ nonceOf s' p.from := nonce_applyPending hrevm hlength hfitsRest hrest
    · exact ih hp hfitsRest hrest

/-- **What applies last has the highest nonce of its sender.** -/
theorem nonce_lt_of_applies (hrevm : RevmNonces P) (h : c.Applies P (others ++ [tx])) (hp : p ∈ others)
    (hfrom : p.from = tx.from) (hfits : ∀ q ∈ others, q.from = p.from → q.nonce < u64Max) :
    p.nonce < tx.nonce := by
  simp only [Applies, applyPending_append, Option.isSome_iff_exists, Option.bind_eq_some_iff] at h
  obtain ⟨s', s₁, hothers, hlast⟩ := h
  obtain ⟨gasUsed, s₂, happly, -⟩ := applyPending_cons hlast
  obtain ⟨hnonce, -⟩ := nonce_apply hrevm happly
  have hlt := nonce_lt_applyPending hrevm hp hfits hothers
  rw [hfrom, hnonce] at hlt
  exact hlt

/-! ## The admission of a replacement -/

/-- A pool within its limits is left as it is. -/
theorem evicts_of_within {protectedHash : Bytes} {d : Blockchain} (hwithin : c.WithinLimits)
    (h : ReflTransGen (Evicts P protectedHash) c d) : d = c := by
  rcases h.cases_head with heq | ⟨_, hturn, -⟩
  · exact heq.symm
  · exact absurd hturn (not_evicts_of_within hwithin)

theorem MayReplace.admission_iff (h : c.MayReplace P now tx index) :
    c.admission P now tx = .ok () ↔ ((c.pendingTransactions.eraseIdx index).map fun p => p.hash P).Nodup ∧
      c.Applies P (c.pendingTransactions.eraseIdx index ++ [tx]) := by
  have hlt : index < c.pendingTransactions.length := (List.findIdx?_eq_some_iff_getElem.mp h.found).choose
  have hget : c.pendingTransactions[index]? = some c.pendingTransactions[index] := List.getElem?_eq_getElem hlt
  constructor
  · intro hadmission
    obtain ⟨hhashes, happlies⟩ := admission_ok hadmission
    rw [tried_of_some h.found] at hhashes happlies
    rw [List.map_append, List.nodup_append] at hhashes
    exact ⟨hhashes.1, happlies⟩
  · intro hruns
    simp only [admission, except_bind_eq_ok]
    refine ⟨(), h.checks, ?_⟩
    rw [h.found]
    simp only [except_bind_eq_ok, ensure_eq_ok, hget]
    exact ⟨(), h.fresh, (), h.bumps _ hget, dryRun_eq_ok.mpr hruns⟩

/-- With room for the replacement the admission is all that matters. -/
theorem replaced_iff (h : (c.prunePendingTransactions now).MayReplace P now tx index) :
    c.Replaced P now tx index ↔ (c.prunePendingTransactions now).admission P now tx = .ok () := by
  have hend := addTransaction_ends P c now tx
  simp only [Replaced]
  generalize c.addTransaction P now tx = r at hend ⊢
  cases hend with
  | @refused e hrefused =>
    constructor
    · rintro ⟨hok, -⟩
      cases hok
    · intro hadmission
      exact absurd (hadmission.symm.trans hrefused) (by simp)
  | @admitted d hadmission hd _ =>
    refine ⟨fun _ => hadmission, fun _ => ⟨rfl, ?_⟩⟩
    obtain rfl := evicts_of_within h.limits hd
    have hlt := (List.findIdx?_eq_some_iff_getElem.mp h.found).choose
    refine (List.perm_insertionSort _ _).trans ?_
    simp only [insertPending, h.found]
    exact List.set_perm_cons_eraseIdx hlt tx
  | @crowdedOut d e hadmission hd hnext =>
    obtain rfl := evicts_of_within h.limits hd
    obtain ⟨i, hi, -⟩ := nextVictim_eq_some.mp hnext
    exact absurd h.limits (nextVictimIndex_eq_some hi).1

/-- **A replacement is accepted exactly at the end of its sender's queue**, if the other pending transactions apply
without the entry it replaces and before it. -/
theorem replacement_accepted_iff {n k i : Nat} (hrevm : RevmNonces P)
    (hqueue : (c.prunePendingTransactions now).Queued tx.from n k) (hi : i ≤ k) (hnonce : tx.nonce = n + i)
    (h : (c.prunePendingTransactions now).MayReplace P now tx index) :
    c.Replaced P now tx index ↔ i = k ∧
      (((c.prunePendingTransactions now).pendingTransactions.eraseIdx index).map fun p => p.hash P).Nodup ∧
      c.Applies P ((c.prunePendingTransactions now).pendingTransactions.eraseIdx index ++ [tx]) := by
  rw [replaced_iff h, h.admission_iff, applies_prune]
  constructor
  · rintro ⟨hhashes, happlies⟩
    refine ⟨?_, hhashes, happlies⟩
    by_contra hne
    -- the last of the queue is one of the others, and was applied before `tx`
    obtain ⟨last, hlast, hfrom, hlastNonce⟩ := hqueue.pending k le_rfl
    obtain ⟨hlt, hfound, -⟩ := List.findIdx?_eq_some_iff_getElem.mp h.found
    have hother : last ∈ (c.prunePendingTransactions now).pendingTransactions.eraseIdx index := by
      obtain ⟨j, hj⟩ := List.mem_iff_getElem?.mp hlast
      apply List.mem_eraseIdx_iff_getElem?.mpr
      refine ⟨j, ?_, hj⟩
      rintro rfl
      rw [List.getElem?_eq_getElem hlt] at hj
      cases hj
      have hsame := (of_decide_eq_true hfound).2
      omega
    have hbefore := nonce_lt_of_applies hrevm happlies hother hfrom fun q hq hqfrom => by
      obtain ⟨-, hle⟩ := hqueue.only q ((List.eraseIdx_sublist _ _).subset hq) (hqfrom.trans hfrom)
      have hfits := hqueue.fits
      omega
    omega
  · rintro ⟨-, hruns⟩
    exact hruns

end Blockchain

namespace QueueSample

open Scenario PoolSample CrowdSample

theorem revmNonces : RevmNonces Reference.primitives := by
  constructor
  · intro view env result post h
    cases h
  · intro view env result post addr account h
    cases h

/-- The pool with two transfers of account 1. -/
def queued (c : Blockchain) : Blockchain := pooled c [transaction .transfer 1 20 0, transaction .transfer 1 20 1]

/-- A transfer of account 1 that pays more than the pending one. -/
def raised (nonce : Nat) : Transaction := transaction .transfer 1 30 nonce

/-- The hypotheses for a replacement of the entry at `index`, computed. -/
def mayReplaceHere (c : Blockchain) (index : Nat) : Bool :=
  let pool := c.prunePendingTransactions (clock 1)
  let tx := raised index
  decide (pool.pendingTransactions = [transaction .transfer 1 20 0, transaction .transfer 1 20 1]) &&
    decide (pool.replacementIndex tx = some index) && (pool.checkAdmission (clock 1) tx).toOption.isSome &&
    (pool.pendingTransactions.all fun p => p.hash Reference.primitives ≠ tx.hash Reference.primitives) &&
    (pool.pendingTransactions[index]?.all fun existing => (pool.checkReplacement existing tx).toOption.isSome) &&
    decide (pool.insertPending tx).WithinLimits

theorem mayReplace {c : Blockchain} {index : Nat} (h : mayReplaceHere c index = true) :
    (c.prunePendingTransactions (clock 1)).Queued (raised index).from 0 1 ∧
      (c.prunePendingTransactions (clock 1)).MayReplace Reference.primitives (clock 1) (raised index) index := by
  simp only [mayReplaceHere, Bool.and_eq_true, decide_eq_true_eq] at h
  obtain ⟨⟨⟨⟨⟨hpool, hfound⟩, hchecks⟩, hfresh⟩, hbumps⟩, hlimits⟩ := h
  constructor
  · refine ⟨?_, ?_, by decide⟩
    · intro j hj
      rw [hpool]
      obtain rfl | rfl : j = 0 ∨ j = 1 := by omega
      · exact ⟨_, List.mem_cons_self, rfl, rfl⟩
      · exact ⟨_, List.mem_cons_of_mem _ List.mem_cons_self, rfl, rfl⟩
    · intro p hp _
      rw [hpool] at hp
      rcases List.mem_cons.mp hp with rfl | hp
      · exact ⟨Nat.zero_le _, Nat.zero_le _⟩
      · obtain rfl := List.mem_singleton.mp hp
        exact ⟨Nat.zero_le _, le_rfl⟩
  · refine ⟨JamSample.eq_ok_of_isSome hchecks, hfound, hfresh, ?_, hlimits⟩
    intro existing hexisting
    rw [hexisting] at hbumps
    exact JamSample.eq_ok_of_isSome hbumps

end QueueSample

open QueueSample Scenario in
/-- The last of two transfers is replaced. -/
theorem replacement_accepted_last : ∃ c : Blockchain, c.pendingTransactions.length = 2 ∧
    c.Replaced Reference.primitives (clock 1) (raised 1) 1 := by
  have hrun : ((fromGenesis Reference.primitives CrowdSample.genesis).toOption.any fun c₀ =>
      mayReplaceHere (queued c₀) 1 && decide ((queued c₀).pendingTransactions.length = 2) &&
        decide ((((queued c₀).prunePendingTransactions (clock 1)).pendingTransactions.eraseIdx 1).map fun p =>
          p.hash Reference.primitives).Nodup &&
        decide ((queued c₀).Applies Reference.primitives
          (((queued c₀).prunePendingTransactions (clock 1)).pendingTransactions.eraseIdx 1 ++ [raised 1]))) =
      true := by
    decide +kernel
  obtain ⟨c₀, -, hrun⟩ := ok_of_any hrun
  simp only [Bool.and_eq_true, decide_eq_true_eq] at hrun
  obtain ⟨⟨⟨hmay, hlength⟩, hhashes⟩, happlies⟩ := hrun
  obtain ⟨hqueue, hreplace⟩ := mayReplace hmay
  refine ⟨queued c₀, hlength, ?_⟩
  exact (Blockchain.replacement_accepted_iff revmNonces hqueue le_rfl rfl hreplace).mpr ⟨rfl, hhashes, happlies⟩

open QueueSample Scenario in
/-- The first of two transfers is not: the second one is tried without it. -/
theorem first_replacement_refused : ¬ ∀ (P : Primitives) (c : Blockchain) (now : Int) (tx : Transaction)
    (n k i index : Nat), c.Reachable P → (c.prunePendingTransactions now).Queued tx.from n k → i ≤ k →
      tx.nonce = n + i → (c.prunePendingTransactions now).MayReplace P now tx index →
        c.Applies P ((c.prunePendingTransactions now).pendingTransactions.set index tx) →
          c.Replaced P now tx index := by
  intro hreplaced
  have hrun : ((fromGenesis Reference.primitives CrowdSample.genesis).toOption.any fun c₀ =>
      mayReplaceHere (queued c₀) 0 && decide ((queued c₀).Applies Reference.primitives
          (((queued c₀).prunePendingTransactions (clock 1)).pendingTransactions.set 0 (raised 0))) &&
        decide (((queued c₀).addTransaction Reference.primitives (clock 1) (raised 0)).1 ≠ .ok ())) = true := by
    decide +kernel
  obtain ⟨c₀, hgenesis, hrun⟩ := ok_of_any hrun
  simp only [Bool.and_eq_true, decide_eq_true_eq] at hrun
  obtain ⟨⟨hmay, happlies⟩, hrefused⟩ := hrun
  obtain ⟨hqueue, hreplace⟩ := mayReplace hmay
  exact hrefused (hreplaced Reference.primitives (queued c₀) (clock 1) (raised 0) 0 1 0 0
    (PoolSample.reachable_pooled (.fromGenesis hgenesis) _) hqueue (by decide) rfl hreplace happlies).1

end Curs3d
