import Curs3d.Lib.Reorder
import Curs3d.Proof.Pool
import Curs3d.Proof.Production

/-!
# Whether the pool can still be applied

`add_transaction` tries the pool in its stored order with the new transaction at the end, and then
sorts the pool. Sorting keeps the nonces of one sender in order and orders senders by class and fee, so
a transaction that spends what another sender's pending transfer brings can come to stand ahead of that
transfer. It then fails, and stays: every later `add_transaction` fails on it (`payee_jams_pool`).

A call is `Untangled` when whatever it rearranges does not matter: what the limits may leave behind
applies without what they evict, and neighbours that the sort inverts can change places. Over a run
of such calls the pool stays applicable in its stored order, and an unrelated sender is not
turned away on its account.
-/

set_option autoImplicit false

namespace Curs3d

open Outcome Reorder

namespace Blockchain

variable (P : Primitives) (c : Blockchain)

/-! ## Applying a list of transactions -/

/-- `apply_user_transaction` for one after the other, at the next height. -/
def applyPending : List Transaction → ExecState → Option ExecState
  | [], s => some s
  | tx :: rest, s =>
    match applyUserTransaction P (c.txContext (c.height + 1) c.pendingBaseFee) tx s with
    | .ok _ s' => applyPending rest s'
    | .error _ _ => none

/-- All of `txs` succeed in this order on the current accounts, contracts, tokens and governance. -/
def Applies (txs : List Transaction) : Prop :=
  (c.applyPending P txs { c.execState with receipts := ∅ }).isSome

instance (txs : List Transaction) : Decidable (c.Applies P txs) :=
  inferInstanceAs (Decidable (_ = true))

/-- What the dry run tries for `tx`: the pool less the entry `tx` replaces, and `tx`. -/
def tried (tx : Transaction) : List Transaction :=
  match c.replacementIndex tx with
  | none => c.pendingTransactions ++ [tx]
  | some index => c.pendingTransactions.eraseIdx index ++ [tx]

/-! ## Calls whose rearrangements do not matter -/

/-- The pool is within every limit. -/
def WithinLimits : Prop :=
  c.countPendingInClass .user ≤ MAX_PENDING_TRANSACTIONS_USER ∧
    c.countPendingInClass .system ≤ RESERVED_SYSTEM_SLOTS ∧ c.pendingGasUsage ≤ c.pendingGasBudget

instance : Decidable c.WithinLimits := inferInstanceAs (Decidable (_ ∧ _ ∧ _))

/-- A set the limits may leave of the pool: with a transaction, the earlier ones of its sender; all of
the pool if it is within the limits. -/
structure MayLeave (kept : Transaction → Bool) : Prop where
  closed : ∀ a ∈ c.pendingTransactions, ∀ b ∈ c.pendingTransactions,
    a.from = b.from → a.nonce < b.nonce → kept b → kept a
  all : c.WithinLimits → ∀ tx ∈ c.pendingTransactions, kept tx

/-- **Nothing that `add_transaction` rearranges for `tx` matters to whether the pool applies.** -/
structure Untangled (now : Int) (tx : Transaction) : Prop where
  drop : ∀ kept, ((c.prunePendingTransactions now).insertPending tx).MayLeave kept →
    c.Applies P ((c.prunePendingTransactions now).tried tx) →
    c.Applies P (((c.prunePendingTransactions now).tried tx).filter kept)
  swap : ∀ kept, ((c.prunePendingTransactions now).insertPending tx).MayLeave kept →
    ∀ a b, [a, b].Sublist ((c.prunePendingTransactions now).tried tx) →
      [b, a].Sublist ((c.prunePendingTransactions now).insertPending tx).pendingTransactions ∨
        comparePending c.pendingBaseFee a b = .gt →
      Swappable (c.Applies P) (((c.prunePendingTransactions now).tried tx).filter kept) a b

variable {P : Primitives} {c c' : Blockchain} {tx : Transaction} {now : Int}

/-! ## The dry run -/

theorem applyPending_append (txs rest : List Transaction) (s : ExecState) :
    c.applyPending P (txs ++ rest) s = (c.applyPending P txs s).bind (c.applyPending P rest) := by
  induction txs generalizing s with
  | nil => rfl
  | cons tx txs ih =>
    simp only [List.cons_append, applyPending]
    split
    · exact ih _
    · rfl

theorem applyPending_congr
    (h : c'.txContext (c'.height + 1) c'.pendingBaseFee = c.txContext (c.height + 1) c.pendingBaseFee)
    (txs : List Transaction) (s : ExecState) : c'.applyPending P txs s = c.applyPending P txs s := by
  induction txs generalizing s with
  | nil => rfl
  | cons tx txs ih =>
    simp only [applyPending]
    rw [h]
    split
    · exact ih _
    · rfl

/-- The pool is not part of what transactions are applied to. -/
theorem applies_pool {pool txs : List Transaction} :
    Blockchain.Applies P { c with pendingTransactions := pool } txs ↔ c.Applies P txs := by
  simp only [Applies]
  rw [@applyPending_congr P c { c with pendingTransactions := pool } rfl]
  exact Iff.rfl

theorem applies_prune {txs : List Transaction} :
    (c.prunePendingTransactions now).Applies P txs ↔ c.Applies P txs :=
  @applies_pool P c (c.prunePendingTransactions now).pendingTransactions txs

theorem Applies.of_append {txs rest : List Transaction} (h : c.Applies P (txs ++ rest)) :
    c.Applies P txs := by
  simp only [Applies] at h ⊢
  rw [applyPending_append] at h
  exact Option.isSome_of_isSome_bind h

variable (P c) in
/-- The dry run of one pending transaction. -/
def dryStep (acc : ExecState × List Bytes) (pending : Transaction) :
    Except ChainError (ExecState × List Bytes) := do
  ensure (pending.hash P ∉ acc.2) .duplicateTransaction
  match applyUserTransaction P (c.txContext (c.height + 1) c.pendingBaseFee) pending acc.1 with
  | .error e _ => .error e
  | .ok _ s => .ok (s, pending.hash P :: acc.2)

theorem dryStep_eq_ok {acc acc' : ExecState × List Bytes} {pending : Transaction} :
    c.dryStep P acc pending = .ok acc' ↔ pending.hash P ∉ acc.2 ∧
      c.applyPending P [pending] acc.1 = some acc'.1 ∧ acc'.2 = pending.hash P :: acc.2 := by
  simp only [dryStep, except_bind_eq_ok, ensure_eq_ok, decide_eq_true_eq, applyPending]
  split
  · next hrun => simp [hrun]
  · next hrun => simp [hrun, Prod.ext_iff, eq_comm]

theorem foldlM_dryStep_eq_ok {others : List Transaction} {acc acc' : ExecState × List Bytes} :
    others.foldlM (c.dryStep P) acc = .ok acc' ↔
      ((others.map fun p => p.hash P).Nodup ∧ ∀ p ∈ others, p.hash P ∉ acc.2) ∧
        c.applyPending P others acc.1 = some acc'.1 ∧
        acc'.2 = (others.map fun p => p.hash P).reverse ++ acc.2 := by
  induction others generalizing acc with
  | nil => simp [applyPending, pure, Except.pure, Prod.ext_iff, eq_comm]
  | cons p others ih =>
    rw [List.foldlM_cons, except_bind_eq_ok]
    rw [show p :: others = [p] ++ others from rfl, applyPending_append]
    constructor
    · intro h
      obtain ⟨mid, hstep, hrest⟩ := h
      obtain ⟨hfresh, happly, hseen⟩ := dryStep_eq_ok.mp hstep
      obtain ⟨⟨hnodup, hothers⟩, hall, hseen'⟩ := ih.mp hrest
      rw [hseen] at hothers hseen'
      refine ⟨⟨?_, ?_⟩, ?_, ?_⟩
      · rw [List.singleton_append, List.map_cons, List.nodup_cons]
        refine ⟨?_, hnodup⟩
        intro hmem
        obtain ⟨q, hq, heq⟩ := List.mem_map.mp hmem
        exact hothers q hq (by simp [heq])
      · intro q hq
        rcases List.mem_cons.mp hq with rfl | hq
        · exact hfresh
        · exact fun hmem => hothers q hq (List.mem_cons_of_mem _ hmem)
      · rw [happly]
        exact hall
      · simp [hseen']
    · intro h
      obtain ⟨⟨hnodup, hfresh⟩, happly, hseen⟩ := h
      obtain ⟨s, hs, hall⟩ := Option.bind_eq_some_iff.mp happly
      rw [List.singleton_append, List.map_cons, List.nodup_cons] at hnodup
      refine ⟨(s, p.hash P :: acc.2), dryStep_eq_ok.mpr ⟨hfresh p (by simp), hs, rfl⟩, ih.mpr ?_⟩
      refine ⟨⟨hnodup.2, ?_⟩, hall, by simp [hseen]⟩
      intro q hq hmem
      rcases List.mem_cons.mp hmem with heq | hmem
      · exact hnodup.1 (heq ▸ List.mem_map_of_mem (f := fun p : Transaction => p.hash P) hq)
      · exact hfresh q (by simp [hq]) hmem

/-- **The dry run passes when no two of the others have one hash and the whole list applies.** -/
theorem dryRun_eq_ok {others : List Transaction} :
    c.dryRun P others tx = .ok () ↔
      (others.map fun p => p.hash P).Nodup ∧ c.Applies P (others ++ [tx]) := by
  have hrun : c.dryRun P others tx = .ok () ↔ ∃ acc gas s,
      others.foldlM (c.dryStep P) ({ c.execState with receipts := ∅ }, []) = .ok acc ∧
      applyUserTransaction P (c.txContext (c.height + 1) c.pendingBaseFee) tx acc.1 = .ok gas s := by
    simp only [dryRun]
    constructor
    · intro h
      split at h
      · exact absurd h (by simp)
      next acc hacc =>
      split at h
      · exact absurd h (by simp)
      next gas s hs => exact ⟨acc, gas, s, hacc, hs⟩
    · rintro ⟨acc, gas, s, hacc, hs⟩
      split
      · next hfail => exact absurd (hacc.symm.trans hfail) (by simp)
      next acc' hacc' =>
      obtain rfl : acc = acc' := Except.ok.inj (hacc.symm.trans hacc')
      split
      · next hfail => exact absurd (hs.symm.trans hfail) (by simp)
      · rfl
  rw [hrun]
  simp only [Applies, applyPending_append, Option.isSome_iff_exists, Option.bind_eq_some_iff]
  constructor
  · rintro ⟨acc, gas, s, hacc, hs⟩
    obtain ⟨⟨hnodup, -⟩, hall, -⟩ := foldlM_dryStep_eq_ok.mp hacc
    refine ⟨hnodup, s, acc.1, hall, ?_⟩
    simp only [applyPending]
    rw [hs]
  · intro h
    obtain ⟨hnodup, s, s', hall, hlast⟩ := h
    have hfold := (@foldlM_dryStep_eq_ok P c others ({ c.execState with receipts := ∅ }, [])
      (s', (others.map fun p => p.hash P).reverse ++ [])).mpr ⟨⟨hnodup, by simp⟩, hall, rfl⟩
    simp only [applyPending] at hlast
    split at hlast
    · next gas _ hok => exact ⟨_, gas, _, hfold, hok⟩
    · exact absurd hlast (by simp)

/-! ## What the limits leave -/

theorem withinLimits_iff : c.WithinLimits ↔
    ¬ MAX_PENDING_TRANSACTIONS_USER < c.countPendingInClass .user ∧
      ¬ RESERVED_SYSTEM_SLOTS < c.countPendingInClass .system ∧
      ¬ c.pendingGasBudget < c.pendingGasUsage := by
  simp only [WithinLimits, not_lt]

theorem evict_sublist (index : Nat) :
    (c.evictTransactionAndDependents index).pendingTransactions.Sublist c.pendingTransactions := by
  simp only [evictTransactionAndDependents]
  split
  · exact List.Sublist.refl _
  · exact List.filter_sublist.trans (List.eraseIdx_sublist _ _)

/-- An eviction takes the later transactions of the same sender along. -/
theorem evict_closed {index : Nat} {a b : Transaction} (ha : a ∈ c.pendingTransactions)
    (hb : b ∈ (c.evictTransactionAndDependents index).pendingTransactions)
    (hfrom : a.from = b.from) (hnonce : a.nonce < b.nonce) :
    a ∈ (c.evictTransactionAndDependents index).pendingTransactions := by
  simp only [evictTransactionAndDependents] at hb ⊢
  split at hb
  · exact ha
  next evicted hevicted =>
  simp only [List.mem_filter, Bool.not_eq_true', decide_eq_false_iff_not, not_and] at hb ⊢
  obtain ⟨-, hb⟩ := hb
  constructor
  · obtain ⟨i, hi⟩ := List.mem_iff_getElem?.mp ha
    apply List.mem_eraseIdx_iff_getElem?.mpr
    refine ⟨i, ?_, hi⟩
    rintro rfl
    rw [hevicted] at hi
    cases hi
    exact hb hfrom.symm hnonce
  · intro heq hlt
    exact hb (hfrom.symm.trans heq) (hlt.trans hnonce)

/-- **What the limits leave is a set they may leave.** -/
theorem enforceMempoolLimits_mayLeave {protectedHash : Bytes} {fuel : Nat}
    (h : enforceMempoolLimits P protectedHash fuel c = (.ok (), c')) :
    c'.pendingTransactions.Sublist c.pendingTransactions ∧
      c.MayLeave fun tx => tx ∈ c'.pendingTransactions := by
  induction fuel generalizing c with
  | zero =>
    cases h
    exact ⟨List.Sublist.refl _, fun a ha _ _ _ _ _ => by simpa using ha, by simp⟩
  | succ fuel ih =>
    simp only [enforceMempoolLimits] at h
    split at h
    · cases h
      exact ⟨List.Sublist.refl _, fun a ha _ _ _ _ _ => by simpa using ha, by simp⟩
    next hover =>
    rw [← withinLimits_iff] at hover
    split at h
    · cases h
      exact ⟨List.Sublist.refl _, fun a ha _ _ _ _ _ => by simpa using ha, by simp⟩
    next index _ =>
    split at h
    · exact absurd h (by simp)
    obtain ⟨hsub, hleave⟩ := ih h
    refine ⟨hsub.trans (evict_sublist index), ⟨?_, fun hwithin => absurd hwithin hover⟩⟩
    intro a ha b _ hfrom hnonce hkept
    have hb := hsub.subset (of_decide_eq_true hkept)
    exact hleave.closed a (evict_closed ha hb hfrom hnonce) b hb hfrom hnonce hkept

/-! ## One call -/

theorem tried_of_none (h : c.replacementIndex tx = none) :
    c.tried tx = c.pendingTransactions ++ [tx] := by
  simp only [tried, h]

theorem tried_of_some {index : Nat} (h : c.replacementIndex tx = some index) :
    c.tried tx = c.pendingTransactions.eraseIdx index ++ [tx] := by
  simp only [tried, h]

theorem admission_ok (h : c.admission P now tx = .ok ()) :
    ((c.tried tx).map fun p => p.hash P).Nodup ∧ c.Applies P (c.tried tx) := by
  have hjoin : ∀ others : List Transaction, others ⊆ c.pendingTransactions →
      (c.pendingTransactions.all fun p => p.hash P ≠ tx.hash P) = true →
      c.dryRun P others tx = .ok () →
      ((others ++ [tx]).map fun p => p.hash P).Nodup ∧ c.Applies P (others ++ [tx]) := by
    intro others hsub hfresh hrun
    obtain ⟨hnodup, happlies⟩ := dryRun_eq_ok.mp hrun
    refine ⟨?_, happlies⟩
    rw [List.map_append, List.nodup_append]
    refine ⟨hnodup, List.nodup_singleton _, ?_⟩
    intro k hk k' hk'
    obtain ⟨p, hp, rfl⟩ := List.mem_map.mp hk
    rw [List.mem_singleton.mp hk']
    simpa using List.all_eq_true.mp hfresh p (hsub hp)
  simp only [admission, except_bind_eq_ok] at h
  obtain ⟨_, -, h⟩ := h
  split at h
  · next hnone =>
    simp only [except_bind_eq_ok, ensure_eq_ok] at h
    obtain ⟨_, -, _, hfresh, hrun⟩ := h
    rw [tried_of_none hnone]
    exact hjoin _ (fun _ hp => hp) hfresh hrun
  · next index hindex =>
    rw [tried_of_some hindex]
    simp only [except_bind_eq_ok, ensure_eq_ok] at h
    obtain ⟨_, hfresh, h⟩ := h
    split at h
    · next hnone =>
      rw [List.eraseIdx_of_length_le (List.getElem?_eq_none_iff.mp hnone)]
      exact hjoin _ (fun _ hp => hp) hfresh h
    · simp only [except_bind_eq_ok] at h
      obtain ⟨_, -, hrun⟩ := h
      exact hjoin _ (List.eraseIdx_sublist _ _).subset hfresh hrun

/-- What goes into the pool is what was tried, in the pool's order. -/
theorem insertPending_perm : (c.insertPending tx).pendingTransactions.Perm (c.tried tx) := by
  cases hindex : c.replacementIndex tx with
  | none =>
    rw [tried_of_none hindex]
    simp only [insertPending, hindex]
    exact .refl _
  | some index =>
    rw [tried_of_some hindex]
    simp only [insertPending, hindex]
    have hlt : index < c.pendingTransactions.length :=
      (List.findIdx?_eq_some_iff_getElem.mp hindex).choose
    exact (List.set_perm_cons_eraseIdx hlt tx).trans (List.perm_append_singleton tx _).symm

theorem addTransaction_eq_ok (h : c.addTransaction P now tx = (.ok (), c')) :
    (c.prunePendingTransactions now).admission P now tx = .ok () ∧
      ∃ limited : Blockchain, limited.pendingTransactions.Sublist
          ((c.prunePendingTransactions now).insertPending tx).pendingTransactions ∧
        ((c.prunePendingTransactions now).insertPending tx).MayLeave
          (fun p => p ∈ limited.pendingTransactions) ∧
        c' = { c with
          pendingTransactions := limited.pendingTransactions.insertionSort
            fun a b => comparePending c.pendingBaseFee a b ≠ .gt } := by
  simp only [Blockchain.addTransaction] at h
  split at h
  · exact absurd h (by simp)
  next hadmission =>
  refine ⟨hadmission, ?_⟩
  split at h
  · exact absurd h (by simp)
  next limited hlimits =>
  obtain ⟨hsub, hleave⟩ := enforceMempoolLimits_mayLeave hlimits
  refine ⟨limited, hsub, hleave, ?_⟩
  obtain ⟨pool, hpool⟩ := @enforceMempoolLimits_pool P
    ((c.prunePendingTransactions now).insertPending tx) (tx.hash P)
    (((c.prunePendingTransactions now).insertPending tx).pendingTransactions.length + 1)
  rw [hlimits] at hpool
  obtain rfl : limited = _ := hpool
  cases h
  rfl

/-- **An untangled call leaves a pool that applies.** -/
theorem Untangled.applies (hcall : c.Untangled P now tx)
    (h : c.addTransaction P now tx = (.ok (), c')) :
    c'.Applies P c'.pendingTransactions ∧
      (c'.pendingTransactions.map fun p => p.hash P).Nodup := by
  obtain ⟨hadmission, limited, hsub, hleave, rfl⟩ := addTransaction_eq_ok h
  obtain ⟨hhashes, htried⟩ := admission_ok hadmission
  have hnodup : ((c.prunePendingTransactions now).tried tx).Nodup := List.Nodup.of_map _ hhashes
  have hinserted := @insertPending_perm (c.prunePendingTransactions now) tx
  set kept : Transaction → Bool := fun p => p ∈ limited.pendingTransactions with hkept
  -- what the limits leave is the inserted pool filtered, and so what was tried filtered
  have hlimited : limited.pendingTransactions.Perm
      (((c.prunePendingTransactions now).tried tx).filter kept) := by
    rw [List.perm_ext_iff_of_nodup ((hinserted.nodup_iff.mpr hnodup).sublist hsub)
      (hnodup.filter kept)]
    intro p
    rw [List.mem_filter, hkept, decide_eq_true_eq, ← hinserted.mem_iff]
    exact ⟨fun hp => ⟨hsub.subset hp, hp⟩, fun hp => hp.2⟩
  have hsorted := (List.perm_insertionSort
    (fun a b => comparePending c.pendingBaseFee a b ≠ .gt) limited.pendingTransactions).trans hlimited
  constructor
  · rw [applies_pool]
    apply good_of_perm (hnodup.filter kept) hsorted
    · intro a b hab hba
      apply hcall.swap kept hleave a b (hab.trans List.filter_sublist)
      rcases inverted_of_insertionSort _ hba with hba | ⟨-, hgt⟩
      · exact .inl (hba.trans hsub)
      · exact .inr (not_not.mp hgt)
    · exact hcall.drop kept hleave (applies_prune.mp htried)
  · exact (hsorted.map _).nodup_iff.mpr ((List.filter_sublist.map _).nodup hhashes)

/-! ## Runs -/

/-- What successful calls at one clock reading make of a chain, none of them tangled. -/
inductive Admitted (P : Primitives) (now : Int) : Blockchain → Blockchain → Prop where
  | start (c : Blockchain) : Admitted P now c c
  | call {c c' c'' : Blockchain} {tx : Transaction} (h : Admitted P now c c')
    (hcall : c'.Untangled P now tx) (hok : c'.addTransaction P now tx = (.ok (), c'')) :
    Admitted P now c c''

/-- Pruning takes nothing that a kept transaction needs, and the sort after it inverts nothing that
matters. -/
structure PrunesCleanly (P : Primitives) (now : Int) (c : Blockchain) : Prop where
  drop : c.Applies P c.pendingTransactions → c.Applies P (c.pendingTransactions.filter fun p =>
    p ∈ (c.prunePendingTransactions now).pendingTransactions)
  swap : ∀ a b, [a, b].Sublist c.pendingTransactions → comparePending c.pendingBaseFee a b = .gt →
    Swappable (c.Applies P) (c.pendingTransactions.filter fun p =>
      p ∈ (c.prunePendingTransactions now).pendingTransactions) a b

/-- Another sender's transaction, from which nothing of the pool takes what it needs. -/
structure Unrelated (P : Primitives) (now : Int) (c : Blockchain) (tx : Transaction) : Prop where
  sender : ∀ p ∈ c.pendingTransactions, p.from ≠ tx.from
  hash : ∀ p ∈ c.pendingTransactions, p.hash P ≠ tx.hash P
  needs : ∀ pre p, pre ++ [p] <+: (c.prunePendingTransactions now).pendingTransactions →
    c.Applies P (pre ++ [tx]) → c.Applies P (pre ++ [p]) → c.Applies P (pre ++ [p, tx])

/-- The pool's fee floors, caps and limits have room for `tx`. -/
structure HasRoom (now : Int) (c : Blockchain) (tx : Transaction) : Prop where
  admits : (c.prunePendingTransactions now).checkAdmission now tx = .ok ()
  capacity : (c.prunePendingTransactions now).checkCapacity tx = .ok ()
  limits : ((c.prunePendingTransactions now).insertPending tx).WithinLimits

theorem PrunesCleanly.applies (hprune : c.PrunesCleanly P now)
    (h : c.Applies P c.pendingTransactions)
    (hhashes : (c.pendingTransactions.map fun p => p.hash P).Nodup) :
    c.Applies P (c.prunePendingTransactions now).pendingTransactions ∧
      ((c.prunePendingTransactions now).pendingTransactions.map fun p => p.hash P).Nodup := by
  set left := c.pendingTransactions.filter fun p =>
    p ∈ (c.prunePendingTransactions now).pendingTransactions with hleft
  have hsorted : (c.prunePendingTransactions now).pendingTransactions = left.insertionSort
      fun a b => comparePending c.pendingBaseFee a b ≠ .gt := by
    rw [hleft]
    simp only [prunePendingTransactions, sortPendingTransactions, List.mem_insertionSort]
    congr 1
    apply List.filter_congr
    intro p hp
    simp [List.mem_filter, hp]
  have hnodup : left.Nodup := (List.Nodup.of_map _ hhashes).filter _
  rw [hsorted]
  constructor
  · apply good_insertionSort _ hnodup
    · intro a b hab hgt
      exact hprune.swap a b (hab.trans List.filter_sublist) (not_not.mp hgt)
    · exact hprune.drop h
  · exact ((List.perm_insertionSort _ left).map _).nodup_iff.mpr
      ((List.filter_sublist.map _).nodup hhashes)

/-- What is accepted on its own still applies after each entry of the pool. -/
theorem Unrelated.applies (hother : c.Unrelated P now tx) (halone : c.Applies P [tx])
    (h : c.Applies P (c.prunePendingTransactions now).pendingTransactions) :
    c.Applies P ((c.prunePendingTransactions now).pendingTransactions ++ [tx]) := by
  have hall : ∀ l, l <+: (c.prunePendingTransactions now).pendingTransactions →
      c.Applies P (l ++ [tx]) := by
    intro l
    induction l using List.reverseRecOn with
    | nil => exact fun _ => halone
    | append_singleton pre p ih =>
      intro hl
      have hpre := (List.prefix_append pre [p]).trans hl
      obtain ⟨rest, hrest⟩ := hl
      rw [← hrest] at h
      have hstep := hother.needs pre p ⟨rest, hrest⟩ (ih hpre) h.of_append
      rwa [List.append_assoc]
  exact hall _ (List.prefix_refl _)

theorem Admitted.applies {c₀ : Blockchain} (hempty : c₀.pendingTransactions = [])
    (hrun : Admitted P now c₀ c) : c.Applies P c.pendingTransactions ∧
      (c.pendingTransactions.map fun p => p.hash P).Nodup := by
  cases hrun with
  | start =>
    rw [hempty]
    exact ⟨rfl, List.nodup_nil⟩
  | call _ hcall hok => exact hcall.applies hok

/-- **Over calls that tangle nothing the pool stays applicable in its stored order, and an unrelated
transaction that would be accepted on its own is accepted.** -/
theorem pool_stays_applicable {c₀ : Blockchain} (hempty : c₀.pendingTransactions = [])
    (hrun : Admitted P now c₀ c) :
    c.Applies P c.pendingTransactions ∧
      ∀ tx, c.PrunesCleanly P now → c.Unrelated P now tx → c.HasRoom now tx →
        (Blockchain.addTransaction P { c with pendingTransactions := [] } now tx).1 = .ok () →
        (c.addTransaction P now tx).1 = .ok () := by
  obtain ⟨happlies, hhashes⟩ := hrun.applies hempty
  refine ⟨happlies, ?_⟩
  intro tx hprune hother hroom halone
  obtain ⟨hpruned, hdistinct⟩ := hprune.applies happlies hhashes
  have htx : c.Applies P [tx] := by
    have hok := (addTransaction_eq_ok (Prod.ext halone rfl)).1
    exact applies_pool.mp (applies_prune.mp (admission_ok hok).2)
  have hin : ∀ p ∈ (c.prunePendingTransactions now).pendingTransactions,
      p ∈ c.pendingTransactions := fun p hp => (poolWithin_prune c now).pending hp
  have hnew : (c.prunePendingTransactions now).replacementIndex tx = none := by
    simp only [replacementIndex, List.findIdx?_eq_none_iff]
    intro p hp
    simp [hother.sender p (hin p hp)]
  have hadmission : (c.prunePendingTransactions now).admission P now tx = .ok () := by
    simp only [admission, except_bind_eq_ok]
    refine ⟨(), hroom.admits, ?_⟩
    rw [hnew]
    simp only [except_bind_eq_ok, ensure_eq_ok]
    refine ⟨(), hroom.capacity, (), ?_, ?_⟩
    · rw [List.all_eq_true]
      intro p hp
      simpa using hother.hash p (hin p hp)
    · exact dryRun_eq_ok.mpr ⟨hdistinct, applies_prune.mpr (hother.applies htx hpruned)⟩
  simp only [Blockchain.addTransaction]
  rw [hadmission]
  simp only [enforceMempoolLimits]
  rw [if_pos (withinLimits_iff.mp hroom.limits)]

/-- With room for all of the pool only the sort rearranges anything. -/
theorem untangled_of_within
    (hnew : (c.prunePendingTransactions now).replacementIndex tx = none)
    (hlimits : ((c.prunePendingTransactions now).insertPending tx).WithinLimits)
    (hnodup : ((c.prunePendingTransactions now).tried tx).Nodup)
    (hswap : ∀ a b, [a, b].Sublist ((c.prunePendingTransactions now).tried tx) →
      comparePending c.pendingBaseFee a b = .gt →
      Swappable (c.Applies P) ((c.prunePendingTransactions now).tried tx) a b) :
    c.Untangled P now tx := by
  have hinserted : ((c.prunePendingTransactions now).insertPending tx).pendingTransactions =
      (c.prunePendingTransactions now).tried tx := by
    simp only [insertPending, tried]
    rw [hnew]
  have hall : ∀ kept, ((c.prunePendingTransactions now).insertPending tx).MayLeave kept →
      ((c.prunePendingTransactions now).tried tx).filter kept =
        (c.prunePendingTransactions now).tried tx := by
    intro kept hkept
    rw [List.filter_eq_self]
    intro p hp
    exact hkept.all hlimits p (hinserted ▸ hp)
  constructor
  · intro kept hkept happlies
    rw [hall kept hkept]
    exact happlies
  · intro kept hkept a b hab hba
    rw [hall kept hkept]
    apply hswap a b hab
    rcases hba with hba | hgt
    · rw [hinserted] at hba
      exact absurd hba (not_inverted hnodup hab)
    · exact hgt

end Blockchain

namespace JamSample

open Scenario PoolSample

/-- Accounts 1 and 3 are rich, account 2 has what it is given. -/
def genesis (balance : Nat) : GenesisConfig where
  chainId := [1]
  allocations := [allocation 1 1000000 0, allocation 2 balance 0, allocation 3 1000000 0]

def transfer (sender recipient : UInt8) (amount fee : Nat) : Transaction :=
  Transaction.sign Reference.primitives
    { chainId := [1]
      kind := .transfer
      «from» := addressOf sender
      senderPublicKey := (key sender).publicKey
      «to» := addressOf recipient
      amount := amount
      fee := fee
      maxFeePerGas := 0
      maxPriorityFeePerGas := 0
      nonce := 0
      timestamp := clock 1
      signature := none
      gasLimit := 0
      data := []
      evmRawTx := [] }
    (key sender)

def paid : Transaction := transfer 1 2 500000 1

def spent : Transaction := transfer 2 1 100 2

def other : Transaction := transfer 3 4 100 1

/-- `add_transaction` at the samples' one clock reading. -/
def add (c : Blockchain) (tx : Transaction) : Except ChainError Unit × Blockchain :=
  c.addTransaction Reference.primitives (clock 1) tx

/-- What the limits and the sort make of `a` and then `b` on an empty pool. -/
def sorted (c : Blockchain) (a b : Transaction) : Bool :=
  let before := c.prunePendingTransactions (clock 1)
  before.replacementIndex b = none ∧ (before.insertPending b).WithinLimits ∧ before.tried b = [a, b] ∧
    a ≠ b ∧ c.Applies Reference.primitives [b, a]

/-- The parts of a call with room, in a pool that pruning leaves as it is. -/
def roomy (c : Blockchain) (tx : Transaction) : Bool :=
  let before := c.prunePendingTransactions (clock 1)
  before.pendingTransactions = c.pendingTransactions ∧
    c.pendingTransactions.Pairwise (fun a b => comparePending c.pendingBaseFee a b ≠ .gt) ∧
    (∀ p ∈ c.pendingTransactions,
      p.from ≠ tx.from ∧ p.hash Reference.primitives ≠ tx.hash Reference.primitives) ∧
    (∀ l ∈ c.pendingTransactions.inits, c.Applies Reference.primitives (l ++ [tx])) ∧
    (before.checkAdmission (clock 1) tx).toOption.isSome ∧
    (before.checkCapacity tx).toOption.isSome ∧ (before.insertPending tx).WithinLimits

theorem eq_ok_of_isSome {x : Except ChainError Unit} (h : x.toOption.isSome = true) :
    x = .ok () := by
  rcases x with e | u
  · exact absurd h (by simp [Except.toOption])
  · rfl

theorem untangled_sorted {c : Blockchain} {a b : Transaction} (h : sorted c a b = true) :
    c.Untangled Reference.primitives (clock 1) b := by
  simp only [sorted, decide_eq_true_eq] at h
  obtain ⟨hnew, hlimits, htried, hne, happlies⟩ := h
  apply Blockchain.untangled_of_within hnew hlimits
  · rw [htried]
    simpa using hne
  · rw [htried]
    intro x y hpair _
    cases hpair.eq_of_length rfl
    exact swappable_pair happlies

theorem prunesCleanly_roomy {c : Blockchain} {tx : Transaction} (h : roomy c tx = true) :
    c.PrunesCleanly Reference.primitives (clock 1) := by
  simp only [roomy, decide_eq_true_eq] at h
  obtain ⟨hpool, hordered, -⟩ := h
  constructor
  · intro happlies
    rw [hpool, List.filter_eq_self.mpr (fun p hp => decide_eq_true hp)]
    exact happlies
  · intro a b hpair hgt
    exact absurd hgt (List.pairwise_pair.mp (hordered.sublist hpair))

theorem unrelated_roomy {c : Blockchain} {tx : Transaction} (h : roomy c tx = true) :
    c.Unrelated Reference.primitives (clock 1) tx := by
  simp only [roomy, decide_eq_true_eq] at h
  obtain ⟨hpool, -, hother, hinits, -⟩ := h
  refine ⟨fun p hp => (hother p hp).1, fun p hp => (hother p hp).2, ?_⟩
  intro pre p hprefix _ _
  rw [hpool] at hprefix
  have happlies := hinits (pre ++ [p]) ((List.mem_inits _ _).mpr hprefix)
  rwa [List.append_assoc] at happlies

theorem hasRoom_roomy {c : Blockchain} {tx : Transaction} (h : roomy c tx = true) :
    c.HasRoom (clock 1) tx := by
  simp only [roomy, decide_eq_true_eq] at h
  obtain ⟨-, -, -, -, hadmits, hcapacity, hlimits⟩ := h
  exact ⟨eq_ok_of_isSome hadmits, eq_ok_of_isSome hcapacity, hlimits⟩

theorem add_eq_ok {c : Blockchain} {tx : Transaction} (h : (add c tx).1.toOption.isSome = true) :
    c.addTransaction Reference.primitives (clock 1) tx = (.ok (), (add c tx).2) :=
  Prod.ext (eq_ok_of_isSome h) rfl

end JamSample

open JamSample Scenario in
/-- Account 2 spends, at a higher fee, what account 1's pending transfer brings it: the sort puts it
first, where it fails, and account 3's transfer is turned away as well. -/
theorem payee_jams_pool : ∃ c₀ c₁ c₂ : Blockchain,
    fromGenesis Reference.primitives (genesis 0) = .ok c₀ ∧
      c₀.addTransaction Reference.primitives (clock 1) paid = (.ok (), c₁) ∧
      c₁.addTransaction Reference.primitives (clock 1) spent = (.ok (), c₂) ∧
      ¬ c₂.Applies Reference.primitives c₂.pendingTransactions ∧
      (c₀.addTransaction Reference.primitives (clock 1) other).1 = .ok () ∧
      (c₂.addTransaction Reference.primitives (clock 1) other).1 ≠ .ok () := by
  have hrun : (fromGenesis Reference.primitives (genesis 0)).toOption.any (fun c₀ =>
      let c₁ := (add c₀ paid).2
      let c₂ := (add c₁ spent).2
      decide ((add c₀ paid).1.toOption.isSome ∧ (add c₁ spent).1.toOption.isSome ∧
        ¬ c₂.Applies Reference.primitives c₂.pendingTransactions ∧
        (add c₀ other).1.toOption.isSome ∧ (add c₂ other).1.toOption.isNone)) = true := by
    decide +kernel
  obtain ⟨c₀, hc₀, hall⟩ := Outcome.ok_of_any hrun
  obtain ⟨hpaid, hspent, hfails, halone, hlast⟩ := of_decide_eq_true hall
  refine ⟨c₀, _, _, hc₀, add_eq_ok hpaid, add_eq_ok hspent, hfails, eq_ok_of_isSome halone, ?_⟩
  intro hok
  rw [show (add (add (add c₀ paid).2 spent).2 other).1 = .ok () from hok] at hlast
  exact absurd hlast (by simp [Except.toOption])

open JamSample Scenario Blockchain Reorder in
/-- With an account 2 that has the money already, the sort inverts the two transfers and nothing
happens: both apply, and account 3's transfer is accepted behind them. -/
theorem pool_stays_applicable_transfers : ∃ c₀ c : Blockchain,
    fromGenesis Reference.primitives (genesis 1000000) = .ok c₀ ∧
      Admitted Reference.primitives (clock 1) c₀ c ∧ c.pendingTransactions = [spent, paid] ∧
      c.Applies Reference.primitives c.pendingTransactions ∧
      (c.addTransaction Reference.primitives (clock 1) other).1 = .ok () := by
  have hrun : (fromGenesis Reference.primitives (genesis 1000000)).toOption.any (fun c₀ =>
      let c₁ := (add c₀ paid).2
      let c₂ := (add c₁ spent).2
      let before := c₀.prunePendingTransactions (clock 1)
      decide (c₀.pendingTransactions = [] ∧ before.replacementIndex paid = none ∧
        (before.insertPending paid).WithinLimits ∧ before.tried paid = [paid] ∧
        (add c₀ paid).1.toOption.isSome ∧ (add c₁ spent).1.toOption.isSome ∧
        sorted c₁ paid spent ∧ c₂.pendingTransactions = [spent, paid] ∧ roomy c₂ other ∧
        (add { c₂ with pendingTransactions := [] } other).1.toOption.isSome)) = true := by
    decide +kernel
  obtain ⟨c₀, hc₀, hall⟩ := Outcome.ok_of_any hrun
  obtain ⟨hempty, hnew, hlimits, htried, hpaid, hspent, hsorted, hpool, hroomy, halone⟩ :=
    of_decide_eq_true hall
  have hfirst : c₀.Untangled Reference.primitives (clock 1) paid := by
    apply untangled_of_within hnew hlimits
    · simp [htried]
    · rw [htried]
      intro a b hpair
      exact absurd hpair.length_le (by simp)
  have hadmitted : Admitted Reference.primitives (clock 1) c₀ (add (add c₀ paid).2 spent).2 :=
    ((Admitted.start c₀).call hfirst (add_eq_ok hpaid)).call (untangled_sorted hsorted)
      (add_eq_ok hspent)
  obtain ⟨happlies, hother⟩ := pool_stays_applicable hempty hadmitted
  exact ⟨c₀, _, hc₀, hadmitted, hpool, happlies, hother other (prunesCleanly_roomy hroomy)
    (unrelated_roomy hroomy) (hasRoom_roomy hroomy) (eq_ok_of_isSome halone)⟩

end Curs3d
