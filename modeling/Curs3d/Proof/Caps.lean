import Curs3d.Proof.Eviction

/-!
# The caps of the pool

Five caps, enforced at different places: the slots of each class and the gas of the whole pool by the eviction that
follows an insertion, the slots and the gas of one sender by checks that a replacement passes. A call that fails on
the eviction leaves a pool over a cap, and a replacement may raise its sender's gas. Every other call keeps all five
(`caps_kept`).
-/

set_option autoImplicit false

namespace Curs3d

open U64 Outcome Relation

/-- The estimated gas of a list of transactions. -/
def gasOf (txs : List Transaction) : Nat := (txs.map Transaction.estimatedGasForAdmission).sum

def fromSender (sender : Bytes) (txs : List Transaction) : List Transaction := txs.filter fun p => p.from = sender

/-- The caps of a pool, over a block gas limit. -/
structure WithinCaps (blockGasLimit : Nat) (txs : List Transaction) : Prop where
  user : (txs.filter fun p => p.mempoolClass = .user).length ≤ MAX_PENDING_TRANSACTIONS_USER
  system : (txs.filter fun p => p.mempoolClass = .system).length ≤ RESERVED_SYSTEM_SLOTS
  gas : gasOf txs ≤ 8 * blockGasLimit
  senderCount : ∀ sender, (fromSender sender txs).length ≤ MAX_PENDING_TRANSACTIONS_PER_ACCOUNT
  senderGas : ∀ sender, gasOf (fromSender sender txs) ≤ 2 * blockGasLimit

namespace Blockchain

variable (P : Primitives)

/-- A call that keeps the caps: the arithmetic of the block gas limit does not wrap, the limits do not come to `tx`,
and if `tx` replaces an entry, its sender stays within its gas. -/
structure KeepsCaps (c : Blockchain) (now : Int) (tx : Transaction) : Prop where
  limit : 9 * c.genesisConfig.blockGasLimit < modulus
  spared : (c.prunePendingTransactions now).admission P now tx = .ok () →
    ¬ ((c.prunePendingTransactions now).insertPending tx).Takes P (tx.hash P) tx
  budget : (c.prunePendingTransactions now).admission P now tx = .ok () →
    ((c.prunePendingTransactions now).replacementIndex tx).isSome →
      gasOf (fromSender tx.from ((c.prunePendingTransactions now).tried tx)) ≤ 2 * c.genesisConfig.blockGasLimit

/-- The chains that calls of `add_transaction` lead to from an empty pool, when each of them keeps the caps. -/
inductive Filled : Blockchain → Prop where
  | empty {c : Blockchain} (h : c.pendingTransactions = []) : Filled c
  | add {c : Blockchain} (now : Int) (tx : Transaction) (h : Filled c) (hkeeps : KeepsCaps P c now tx) :
    Filled (c.addTransaction P now tx).2

end Blockchain

variable {P : Primitives} {limit : Nat} {txs txs' : List Transaction} {tx : Transaction} {sender : Bytes}

/-! ## Fewer transactions -/

theorem gasOf_subperm (h : txs'.Subperm txs) : gasOf txs' ≤ gasOf txs := by
  obtain ⟨l, hperm, hsub⟩ := h
  calc gasOf txs' = gasOf l := ((hperm.map _).sum_eq).symm
    _ ≤ gasOf txs := (hsub.map _).sum_le_sum fun _ _ => Nat.zero_le _

theorem gasOf_append (txs : List Transaction) (tx : Transaction) :
    gasOf (txs ++ [tx]) = gasOf txs + tx.estimatedGasForAdmission := by
  simp only [gasOf, List.map_append, List.sum_append, List.map_cons, List.map_nil, List.sum_singleton]

/-- Whatever is taken out of a pool, the caps stay. -/
theorem WithinCaps.subperm (h : WithinCaps limit txs) (hsub : txs'.Subperm txs) : WithinCaps limit txs' where
  user := ((hsub.filter _).length_le).trans h.user
  system := ((hsub.filter _).length_le).trans h.system
  gas := (gasOf_subperm hsub).trans h.gas
  senderCount sender := ((hsub.filter _).length_le).trans (h.senderCount sender)
  senderGas sender := (gasOf_subperm (hsub.filter _)).trans (h.senderGas sender)

theorem withinCaps_nil (limit : Nat) : WithinCaps limit [] :=
  ⟨Nat.zero_le _, Nat.zero_le _, Nat.zero_le _, fun _ => Nat.zero_le _, fun _ => Nat.zero_le _⟩

namespace Blockchain

variable {c d : Blockchain} {now : Int} {index : Nat}

theorem prune_subperm (c : Blockchain) (now : Int) :
    (c.prunePendingTransactions now).pendingTransactions.Subperm c.pendingTransactions := by
  simp only [prunePendingTransactions, sortPendingTransactions]
  exact (List.perm_insertionSort _ _).subperm.trans List.filter_sublist.subperm

theorem sort_subperm (d : Blockchain) :
    d.sortPendingTransactions.pendingTransactions.Subperm d.pendingTransactions := by
  simp only [sortPendingTransactions]
  exact (List.perm_insertionSort _ _).subperm

/-! ## What the checks say about the caps -/

theorem admission_gas (h : c.admission P now tx = .ok ()) :
    tx.estimatedGasForAdmission ≤ c.genesisConfig.blockGasLimit := by
  simp only [admission, checkAdmission, except_bind_eq_ok, ensure_eq_ok, decide_eq_true_eq] at h
  obtain ⟨-, ⟨-, -, -, -, -, -, -, hgas, -⟩, -⟩ := h
  exact hgas

theorem admission_capacity (h : c.admission P now tx = .ok ()) (hnone : c.replacementIndex tx = none) :
    (fromSender tx.from c.pendingTransactions).length < MAX_PENDING_TRANSACTIONS_PER_ACCOUNT ∧
      satAdd (wrapSum ((fromSender tx.from c.pendingTransactions).map Transaction.estimatedGasForAdmission))
        tx.estimatedGasForAdmission ≤
          satMul c.genesisConfig.blockGasLimit MAX_PENDING_GAS_PER_ACCOUNT_MULTIPLIER := by
  simp only [admission, hnone, checkCapacity, except_bind_eq_ok, ensure_eq_ok, decide_eq_true_eq] at h
  obtain ⟨-, -, -, ⟨-, -, -, hcount, hgas⟩, -⟩ := h
  exact ⟨hcount, hgas⟩

/-! ## The pool with the new transaction -/

/-- What is tried is `tx` behind the others: all of the pool, or all but the entry `tx` replaces. -/
theorem tried_eq (c : Blockchain) (tx : Transaction) :
    ∃ others, c.tried tx = others ++ [tx] ∧ others.Sublist c.pendingTransactions ∧
      (c.replacementIndex tx = none → others = c.pendingTransactions) ∧
      ((c.replacementIndex tx).isSome →
        (fromSender tx.from others).length + 1 = (fromSender tx.from c.pendingTransactions).length) := by
  cases hindex : c.replacementIndex tx with
  | none =>
    refine ⟨c.pendingTransactions, tried_of_none hindex, List.Sublist.refl _, fun _ => rfl, ?_⟩
    intro hsome
    cases hsome
  | some index =>
    refine ⟨c.pendingTransactions.eraseIdx index, tried_of_some hindex, List.eraseIdx_sublist _ _, ?_, ?_⟩
    · intro hnone
      cases hnone
    · intro _
      obtain ⟨hlt, hfound, -⟩ := List.findIdx?_eq_some_iff_getElem.mp hindex
      -- the entry that is left out is one of this sender
      have hfrom : c.pendingTransactions[index].from = tx.from := (of_decide_eq_true hfound).1
      have hperm := ((List.getElem_cons_eraseIdx_perm hlt).filter fun p => p.from = tx.from).length_eq
      simp only [List.filter_cons, hfrom, decide_true, if_true, List.length_cons] at hperm
      exact hperm

theorem fromSender_of_ne (hother : sender ≠ tx.from) (others : List Transaction) :
    fromSender sender (others ++ [tx]) = fromSender sender others := by
  simp only [fromSender, List.filter_append, List.filter_cons, decide_eq_true_eq, if_neg hother.symm,
    List.filter_nil, List.append_nil]

theorem fromSender_self (others : List Transaction) :
    fromSender tx.from (others ++ [tx]) = fromSender tx.from others ++ [tx] := by
  simp only [fromSender, List.filter_append, List.filter_cons, decide_true, if_true, List.filter_nil]

/-- **A transaction the checks let in keeps the caps of every sender**, a replacement if it is within budget. -/
theorem senderCaps_tried (hcaps : WithinCaps c.genesisConfig.blockGasLimit c.pendingTransactions)
    (hlimit : 9 * c.genesisConfig.blockGasLimit < modulus) (h : c.admission P now tx = .ok ())
    (hbudget : (c.replacementIndex tx).isSome →
      gasOf (fromSender tx.from (c.tried tx)) ≤ 2 * c.genesisConfig.blockGasLimit) (sender : Bytes) :
    (fromSender sender (c.tried tx)).length ≤ MAX_PENDING_TRANSACTIONS_PER_ACCOUNT ∧
      gasOf (fromSender sender (c.tried tx)) ≤ 2 * c.genesisConfig.blockGasLimit := by
  obtain ⟨others, htried, hsub, hall, hone⟩ := tried_eq c tx
  rw [htried] at hbudget ⊢
  by_cases hsender : sender = tx.from
  · subst hsender
    rw [fromSender_self] at hbudget ⊢
    rw [List.length_append, List.length_singleton]
    cases hindex : c.replacementIndex tx with
    | none =>
      obtain ⟨hcount, hgas⟩ := admission_capacity h hindex
      rw [hall hindex, gasOf_append]
      have hown : gasOf (fromSender tx.from c.pendingTransactions) ≤ 2 * c.genesisConfig.blockGasLimit :=
        hcaps.senderGas tx.from
      have hnew := admission_gas h
      have hmul := satMul_le_mul c.genesisConfig.blockGasLimit MAX_PENDING_GAS_PER_ACCOUNT_MULTIPLIER
      rw [wrapSum_eq_sum (lt_of_le_of_lt hown (by omega))] at hgas
      simp only [gasOf] at hown ⊢
      rw [satAdd_eq_add_of_le (by simp only [modulus, u64Max] at *; omega)] at hgas
      refine ⟨hcount, hgas.trans (hmul.trans ?_)⟩
      rw [Nat.mul_comm]
      exact le_rfl
    | some index =>
      have hsome : (c.replacementIndex tx).isSome := by rw [hindex]; rfl
      rw [hone hsome]
      exact ⟨hcaps.senderCount tx.from, hbudget hsome⟩
  · rw [fromSender_of_ne hsender]
    have hfewer := hcaps.subperm hsub.subperm
    exact ⟨hfewer.senderCount sender, hfewer.senderGas sender⟩

/-! ## The eviction -/

theorem evicts_config {protectedHash : Bytes} (h : ReflTransGen (Evicts P protectedHash) c d) :
    d.genesisConfig = c.genesisConfig := by
  induction h with
  | refl => rfl
  | tail _ hturn ih =>
    cases hturn with
    | turn _ _ _ => exact (poolWithin_evict _ _).genesisConfig.trans ih

/-- Within its limits a pool whose gas did not wrap is within its gas. -/
theorem WithinLimits.gas (h : d.WithinLimits) (hwrap : gasOf d.pendingTransactions < modulus) :
    gasOf d.pendingTransactions ≤ 8 * d.genesisConfig.blockGasLimit := by
  obtain ⟨-, -, hgas⟩ := h
  simp only [pendingGasUsage] at hgas
  rw [wrapSum_eq_sum hwrap] at hgas
  calc gasOf d.pendingTransactions ≤ d.pendingGasBudget := hgas
    _ ≤ d.genesisConfig.blockGasLimit * 8 := satMul_le_mul _ _
    _ = 8 * d.genesisConfig.blockGasLimit := Nat.mul_comm _ _

/-- The caps are at least what the eviction stops at. -/
theorem withinLimits_of_caps (hcaps : WithinCaps d.genesisConfig.blockGasLimit d.pendingTransactions)
    (hlimit : 9 * d.genesisConfig.blockGasLimit < modulus) : d.WithinLimits := by
  have hgas := hcaps.gas
  have hbudget : d.pendingGasBudget = d.genesisConfig.blockGasLimit * 8 := by
    simp only [modulus] at hlimit
    exact satMul_eq_mul_of_le (by simp only [u64Max, MAX_PENDING_GAS_BUDGET_MULTIPLIER]; omega)
  refine ⟨hcaps.user, hcaps.system, ?_⟩
  rw [hbudget, pendingGasUsage, wrapSum_eq_sum (lt_of_le_of_lt hgas (by omega)), Nat.mul_comm]
  exact hgas

/-! ## Calls -/

/-- One call that keeps the caps. -/
theorem KeepsCaps.caps (hkeeps : KeepsCaps P c now tx)
    (hcaps : WithinCaps c.genesisConfig.blockGasLimit c.pendingTransactions) :
    WithinCaps (c.addTransaction P now tx).2.genesisConfig.blockGasLimit
      (c.addTransaction P now tx).2.pendingTransactions := by
  obtain ⟨hlimit, hspared, hbudget⟩ := hkeeps
  have hpruned := hcaps.subperm (prune_subperm c now)
  have hend := addTransaction_ends P c now tx
  generalize c.addTransaction P now tx = r at hend ⊢
  cases hend with
  | refused _ => exact hpruned
  | crowdedOut hadmission hd hnext => exact absurd ⟨_, hd, hnext⟩ (hspared hadmission)
  | @admitted d hadmission hd hwithin =>
    have hconfig : d.genesisConfig = ((c.prunePendingTransactions now).insertPending tx).genesisConfig :=
      evicts_config hd
    change d.genesisConfig = c.genesisConfig at hconfig
    have hleft : d.pendingTransactions.Subperm ((c.prunePendingTransactions now).tried tx) :=
      (evicts_pool hd).subperm.trans insertPending_perm.subperm
    have hsenders :=
      senderCaps_tried (c := c.prunePendingTransactions now) hpruned hlimit hadmission (hbudget hadmission)
    have hwrap : gasOf d.pendingTransactions < modulus := by
      obtain ⟨others, htried, hsub, -⟩ := tried_eq (c.prunePendingTransactions now) tx
      have hgas := gasOf_subperm hleft
      rw [htried, gasOf_append] at hgas
      have hothers := (gasOf_subperm hsub.subperm).trans hpruned.gas
      have hnew := admission_gas hadmission
      change tx.estimatedGasForAdmission ≤ c.genesisConfig.blockGasLimit at hnew
      omega
    have hd : WithinCaps c.genesisConfig.blockGasLimit d.pendingTransactions := by
      refine ⟨hwithin.1, hwithin.2.1, hconfig ▸ hwithin.gas hwrap, ?_, ?_⟩
      · intro sender
        exact ((hleft.filter _).length_le).trans (hsenders sender).1
      · intro sender
        exact (gasOf_subperm (hleft.filter _)).trans (hsenders sender).2
    show WithinCaps d.genesisConfig.blockGasLimit _
    rw [hconfig]
    exact hd.subperm (sort_subperm d)

/-- **The caps are kept over every run whose calls keep them.** -/
theorem caps_kept (h : Filled P c) : WithinCaps c.genesisConfig.blockGasLimit c.pendingTransactions := by
  induction h with
  | empty h =>
    rw [h]
    exact withinCaps_nil _
  | add now tx _ hkeeps ih => exact hkeeps.caps ih

/-- A call that fails on the limits leaves a pool over a cap. -/
theorem not_caps_of_takes (hlimit : 9 * c.genesisConfig.blockGasLimit < modulus)
    (hadmission : (c.prunePendingTransactions now).admission P now tx = .ok ())
    (htakes : ((c.prunePendingTransactions now).insertPending tx).Takes P (tx.hash P) tx) :
    ¬ WithinCaps (c.addTransaction P now tx).2.genesisConfig.blockGasLimit
      (c.addTransaction P now tx).2.pendingTransactions := by
  obtain ⟨e, d, hadd, hnext⟩ := crowdedOut_of_takes hadmission htakes
  obtain ⟨index, hindex, -⟩ := nextVictim_eq_some.mp hnext
  obtain ⟨hover, -⟩ := nextVictimIndex_eq_some hindex
  obtain ⟨pool, hpool⟩ := @addTransaction_pool P c now tx
  rw [hadd] at hpool ⊢
  dsimp only at hpool ⊢
  intro hcaps
  apply hover
  apply withinLimits_of_caps hcaps
  rw [hpool]
  exact hlimit

end Blockchain

namespace CrowdSample

open Scenario PoolSample

/-- Each of the calls succeeds and replaces nothing. -/
def keepsHere : Blockchain → List Transaction → Bool
  | _, [] => true
  | c, tx :: rest =>
    decide (9 * c.genesisConfig.blockGasLimit < modulus ∧
      (c.addTransaction Reference.primitives (clock 1) tx).1 = .ok () ∧
      (c.prunePendingTransactions (clock 1)).replacementIndex tx = none) &&
    keepsHere (c.addTransaction Reference.primitives (clock 1) tx).2 rest

theorem filled_pooled {c : Blockchain} {txs : List Transaction} (h : c.Filled Reference.primitives)
    (hkeeps : keepsHere c txs = true) : (pooled c txs).Filled Reference.primitives := by
  induction txs generalizing c with
  | nil => exact h
  | cons tx rest ih =>
    simp only [keepsHere, Bool.and_eq_true, decide_eq_true_eq] at hkeeps
    obtain ⟨⟨hlimit, hok, hnone⟩, hrest⟩ := hkeeps
    apply ih (.add (clock 1) tx h ?_) hrest
    refine ⟨hlimit, ?_, ?_⟩
    · intro hadmission htakes
      obtain ⟨e, d, hadd, -⟩ := Blockchain.crowdedOut_of_takes hadmission htakes
      rw [hadd] at hok
      cases hok
    · intro _ hsome
      rw [hnone] at hsome
      cases hsome

end CrowdSample

open CrowdSample Scenario in
/-- Eight transfers into a pool with room for eight. -/
theorem caps_kept_sample : ∃ c : Blockchain, c.pendingTransactions.length = 8 ∧
    WithinCaps c.genesisConfig.blockGasLimit c.pendingTransactions := by
  have hrun : ((fromGenesis Reference.primitives genesis).toOption.any fun c₀ =>
      decide (c₀.pendingTransactions = []) && keepsHere c₀ crowd &&
        decide ((crowded c₀).pendingTransactions.length = 8)) = true := by
    decide +kernel
  obtain ⟨c₀, -, hrun⟩ := ok_of_any hrun
  simp only [Bool.and_eq_true, decide_eq_true_eq] at hrun
  obtain ⟨⟨hempty, hkeeps⟩, hlength⟩ := hrun
  have hfilled := filled_pooled (.empty hempty) hkeeps
  exact ⟨crowded c₀, hlength, Blockchain.caps_kept hfilled⟩

open CrowdSample Scenario in
/-- The ninth is refused, and the pool is over its gas. -/
theorem refused_over_caps : ¬ ∀ (P : Primitives) (c : Blockchain) (calls : List (Int × Transaction)),
    c.pendingTransactions = [] → WithinCaps c.genesisConfig.blockGasLimit
      (calls.foldl (fun c call => (c.addTransaction P call.1 call.2).2) c).pendingTransactions := by
  intro hcaps
  have hrun : ((fromGenesis Reference.primitives genesis).toOption.any fun c₀ =>
      decide (c₀.pendingTransactions = []) && decide (8 * c₀.genesisConfig.blockGasLimit <
        gasOf (((crowd ++ [cheap]).map fun tx => (clock 1, tx)).foldl
          (fun c call => (c.addTransaction Reference.primitives call.1 call.2).2) c₀).pendingTransactions)) = true := by
    decide +kernel
  obtain ⟨c₀, -, hrun⟩ := ok_of_any hrun
  simp only [Bool.and_eq_true, decide_eq_true_eq] at hrun
  obtain ⟨hempty, hover⟩ := hrun
  exact absurd (hcaps Reference.primitives c₀ _ hempty).gas (Nat.not_le_of_lt hover)

end Curs3d
