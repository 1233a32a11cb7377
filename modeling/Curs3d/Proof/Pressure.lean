import Curs3d.Proof.Caps

/-!
# What user pressure takes from the System class

A victim of the limits is a User transaction as long as there is one. With it goes whatever its sender has pending
behind it, a stake or a vote as well. No other way leads from a User transaction to the loss of somebody else's
System transaction (`system_spared_iff`).
-/

set_option autoImplicit false

namespace Curs3d

open U64 Outcome Relation

namespace Blockchain

def systemOf (txs : List Transaction) : List Transaction := txs.filter fun p => p.mempoolClass = .system

variable {P : Primitives} {c d : Blockchain} {tx v p : Transaction} {now : Int} {index : Nat}

/-! ## Who is a victim -/

/-- The System transactions fit the pool by themselves. -/
def SystemFits (c : Blockchain) (txs : List Transaction) : Prop :=
  (systemOf txs).length ≤ RESERVED_SYSTEM_SLOTS ∧ gasOf (systemOf txs) ≤ c.pendingGasBudget

instance (c : Blockchain) (txs : List Transaction) : Decidable (c.SystemFits txs) :=
  inferInstanceAs (Decidable (_ ∧ _))

theorem SystemFits.subperm {txs txs' : List Transaction} (h : c.SystemFits txs)
    (hsub : (systemOf txs').Subperm (systemOf txs)) : c.SystemFits txs' :=
  ⟨hsub.length_le.trans h.1, (gasOf_subperm hsub).trans h.2⟩

/-- Where the System transactions fit, the next victim is a User transaction. -/
theorem nextVictim_user (hfits : d.SystemFits d.pendingTransactions) (h : d.nextVictim = some v) :
    v.mempoolClass = .user := by
  obtain ⟨index, hindex, hv⟩ := nextVictim_eq_some.mp h
  obtain ⟨hover, -⟩ := nextVictimIndex_eq_some hindex
  simp only [nextVictimIndex, if_neg hover] at hindex
  rcases Option.or_eq_some_iff.mp hindex with huser | ⟨hnone, -⟩
  · obtain ⟨w, hw, hcls⟩ := worst_eq_some huser
    rw [hv] at hw
    cases hw
    exact hcls
  · -- only System transactions are left, and they fit
    exfalso
    have hall : systemOf d.pendingTransactions = d.pendingTransactions := by
      apply List.filter_eq_self.mpr
      intro q hq
      apply decide_eq_true
      cases hcls : q.mempoolClass with
      | user => exact absurd hcls (worst_eq_none hnone q hq)
      | system => rfl
    obtain ⟨hslots, hgas⟩ := hfits
    apply hover
    refine ⟨?_, hslots, ?_⟩
    · simp only [countPendingInClass]
      rw [List.filter_eq_nil_iff.mpr fun q hq => by simpa using worst_eq_none hnone q hq]
      exact Nat.zero_le _
    · rw [hall] at hgas
      exact (wrapSum_le_sum _).trans hgas

theorem evicts_budget {protectedHash : Bytes} (h : ReflTransGen (Evicts P protectedHash) c d) :
    d.pendingGasBudget = c.pendingGasBudget := by
  simp only [pendingGasBudget, evicts_config h]

/-! ## What an eviction leaves -/

/-- An eviction takes its victim and what the victim's sender has pending behind it. -/
theorem mem_evict (hv : d.pendingTransactions[index]? = some v) (hp : p ∈ d.pendingTransactions) (hne : p ≠ v)
    (hlater : p.from = v.from → ¬ v.nonce < p.nonce) :
    p ∈ (d.evictTransactionAndDependents index).pendingTransactions := by
  simp only [evictTransactionAndDependents, hv]
  apply List.mem_filter.mpr
  constructor
  · obtain ⟨i, hi⟩ := List.mem_iff_getElem?.mp hp
    apply List.mem_eraseIdx_iff_getElem?.mpr
    refine ⟨i, ?_, hi⟩
    rintro rfl
    rw [hv] at hi
    exact hne (Option.some.inj hi).symm
  · simp only [Bool.not_eq_true', decide_eq_false_iff_not, not_and]
    exact hlater

theorem not_mem_evict (hv : d.pendingTransactions[index]? = some v) (hfrom : p.from = v.from)
    (hlater : v.nonce < p.nonce) : p ∉ (d.evictTransactionAndDependents index).pendingTransactions := by
  intro hp
  simp only [evictTransactionAndDependents, hv] at hp
  obtain ⟨-, hkept⟩ := List.mem_filter.mp hp
  simp [hfrom, hlater] at hkept

/-- What the limits leave of a pool is within every pool they come through. -/
theorem subset_of_evicts {protectedHash : Bytes} {mid : Blockchain} (hstop : ∀ d', ¬ Evicts P protectedHash d d')
    (hd : ReflTransGen (Evicts P protectedHash) c d) (hmid : ReflTransGen (Evicts P protectedHash) c mid) :
    d.pendingTransactions ⊆ mid.pendingTransactions := by
  rcases hd.total_of_right_unique evicts_rightUnique hmid with h | h
  · rcases h.cases_head with rfl | ⟨d', hturn, -⟩
    · exact fun _ hq => hq
    · exact absurd hturn (hstop d')
  · exact (evicts_pool h).subset

/-! ## The pool with the new transaction -/

/-- The other senders' transactions are in the pool when the limits begin. -/
theorem mem_insertPending_of_ne (hp : p ∈ c.pendingTransactions) (hother : p.from ≠ tx.from) :
    p ∈ (c.insertPending tx).pendingTransactions := by
  apply insertPending_perm.mem_iff.mpr
  cases hindex : c.replacementIndex tx with
  | none =>
    rw [tried_of_none hindex]
    exact List.mem_append_left _ hp
  | some index =>
    rw [tried_of_some hindex]
    apply List.mem_append_left
    obtain ⟨hlt, hfound, -⟩ := List.findIdx?_eq_some_iff_getElem.mp hindex
    obtain ⟨i, hi⟩ := List.mem_iff_getElem?.mp hp
    apply List.mem_eraseIdx_iff_getElem?.mpr
    refine ⟨i, ?_, hi⟩
    rintro rfl
    rw [List.getElem?_eq_getElem hlt] at hi
    cases hi
    exact hother (of_decide_eq_true hfound).1

/-- A User transaction adds nothing to the System class. -/
theorem systemOf_insertPending (huser : tx.mempoolClass = .user) :
    (systemOf (c.insertPending tx).pendingTransactions).Subperm (systemOf c.pendingTransactions) := by
  obtain ⟨others, htried, hsub, -⟩ := tried_eq c tx
  have hperm : (systemOf (c.insertPending tx).pendingTransactions).Perm (systemOf (c.tried tx)) :=
    insertPending_perm.filter _
  have hnone : systemOf (c.tried tx) = systemOf others := by
    rw [htried]
    simp only [systemOf, List.filter_append, List.filter_cons, huser, List.filter_nil]
    exact List.append_nil _
  rw [hnone] at hperm
  exact hperm.subperm.trans (hsub.filter _).subperm

/-- **User pressure takes somebody else's System transaction exactly when it takes an earlier transaction of the
same sender.** -/
theorem system_spared_iff (huser : tx.mempoolClass = .user)
    (hfits : c.SystemFits c.pendingTransactions) :
    (∀ p ∈ (c.prunePendingTransactions now).pendingTransactions, p.mempoolClass = .system → p.from ≠ tx.from →
      p ∈ (c.addTransaction P now tx).2.pendingTransactions) ↔
    ((c.prunePendingTransactions now).admission P now tx = .ok () → ∀ v,
      ((c.prunePendingTransactions now).insertPending tx).Takes P (tx.hash P) v → v.from ≠ tx.from →
        ∀ p ∈ (c.prunePendingTransactions now).pendingTransactions, p.mempoolClass = .system →
          p.from = v.from → ¬ v.nonce < p.nonce) := by
  constructor
  · intro hspared hadmission v htakes hother p hp hsystem hfrom hlater
    obtain ⟨mid, hmid, hnext⟩ := htakes
    obtain ⟨d, hd, hstop, hleft⟩ := addTransaction_left hadmission
    obtain ⟨index, hindex, hv⟩ := nextVictim_eq_some.mp hnext
    -- the victim is not the new transaction, so the limits go on past it
    have hhash : v.hash P ≠ tx.hash P := by
      intro heq
      have hmem := (evicts_pool hmid).subset (nextVictim_mem hnext)
      exact hother (congrArg Transaction.from (eq_of_hash hadmission hmem heq))
    have hkept := hleft.mem_iff.mp (hspared p hp hsystem (by rw [hfrom]; exact hother))
    have hpast := subset_of_evicts hstop hd (hmid.tail (.turn hindex hv hhash)) hkept
    exact not_mem_evict hv hfrom hlater hpast
  · intro hvictims p hp hsystem hother
    cases hchecks : (c.prunePendingTransactions now).admission P now tx with
    | error e =>
      have hend := addTransaction_ends P c now tx
      generalize c.addTransaction P now tx = r at hend ⊢
      cases hend with
      | refused _ => exact hp
      | admitted hadmission _ _ => exact absurd (hadmission.symm.trans hchecks) (by simp)
      | crowdedOut hadmission _ _ => exact absurd (hadmission.symm.trans hchecks) (by simp)
    | ok u =>
      obtain ⟨d, hd, -, hleft⟩ := addTransaction_left hchecks
      apply hleft.mem_iff.mpr
      have hbegin := mem_insertPending_of_ne hp hother
      have hfitsAll : ((c.prunePendingTransactions now).insertPending tx).SystemFits
          ((c.prunePendingTransactions now).insertPending tx).pendingTransactions := by
        have hsub := (systemOf_insertPending huser).trans ((prune_subperm c now).filter _)
        exact hfits.subperm hsub
      -- at every turn the victim is a User transaction, and not one that `p` waits for
      have hturns : ∀ {e}, ReflTransGen (Evicts P (tx.hash P))
          ((c.prunePendingTransactions now).insertPending tx) e → p ∈ e.pendingTransactions := by
        intro e he
        induction he with
        | refl => exact hbegin
        | @tail mid _ hmid hturn ih =>
          cases hturn with
          | @turn index v hindex hv _ =>
            have hnext := nextVictim_eq_some.mpr ⟨index, hindex, hv⟩
            have hfitsMid : mid.SystemFits mid.pendingTransactions := by
              have hfewer := hfitsAll.subperm ((evicts_pool hmid).filter _).subperm
              simp only [SystemFits, evicts_budget hmid]
              exact hfewer
            have hclass := nextVictim_user hfitsMid hnext
            apply mem_evict hv ih
            · rintro rfl
              rw [hsystem] at hclass
              cases hclass
            · intro hfrom
              exact hvictims hchecks v ⟨mid, hmid, hnext⟩ (by rw [← hfrom]; exact hother) p hp hsystem hfrom
      exact hturns hd

end Blockchain

namespace CrowdSample

open Scenario

/-- The stake that waits for the cheapest transfer. -/
def stake : Transaction := transaction .stake 1 30 1

end CrowdSample

open CrowdSample Scenario in
/-- A cheap transfer takes no System transaction along: whatever the limits come to has none behind it. -/
theorem system_spared_cheap : ∃ c : Blockchain, c.countPendingInClass .system = 1 ∧
    ((c.prunePendingTransactions (clock 1)).admission Reference.primitives (clock 1) cheap = .ok () → ∀ v,
      ((c.prunePendingTransactions (clock 1)).insertPending cheap).Takes Reference.primitives
        (cheap.hash Reference.primitives) v → v.from ≠ cheap.from →
        ∀ p ∈ (c.prunePendingTransactions (clock 1)).pendingTransactions, p.mempoolClass = .system →
          p.from = v.from → ¬ v.nonce < p.nonce) := by
  have hrun : ((fromGenesis Reference.primitives genesis).toOption.any fun c₀ =>
      decide ((crowded c₀).SystemFits (crowded c₀).pendingTransactions) && decide ((crowded c₀).countPendingInClass .system = 1) &&
        decide (∀ p ∈ ((crowded c₀).prunePendingTransactions (clock 1)).pendingTransactions,
          p.mempoolClass = .system → p.from ≠ cheap.from →
            p ∈ ((crowded c₀).addTransaction Reference.primitives (clock 1) cheap).2.pendingTransactions)) = true := by
    decide +kernel
  obtain ⟨c₀, -, hrun⟩ := ok_of_any hrun
  simp only [Bool.and_eq_true, decide_eq_true_eq] at hrun
  obtain ⟨⟨hfits, hone⟩, hspared⟩ := hrun
  refine ⟨crowded c₀, hone, ?_⟩
  exact (Blockchain.system_spared_iff (by decide) hfits).mp hspared

open CrowdSample Scenario in
/-- A dear transfer pushes out the cheapest one, and with it the stake of its sender. -/
theorem user_pressure_evicts_stake : ¬ ∀ (P : Primitives) (c : Blockchain) (now : Int) (tx p : Transaction),
    c.Reachable P → tx.mempoolClass = .user → c.SystemFits c.pendingTransactions →
      p ∈ (c.prunePendingTransactions now).pendingTransactions → p.mempoolClass = .system → p.from ≠ tx.from →
        p ∈ (c.addTransaction P now tx).2.pendingTransactions := by
  intro hspared
  have hrun : ((fromGenesis Reference.primitives genesis).toOption.any fun c₀ =>
      decide ((crowded c₀).SystemFits (crowded c₀).pendingTransactions) &&
        decide (stake ∈ ((crowded c₀).prunePendingTransactions (clock 1)).pendingTransactions) &&
        decide (stake ∉ ((crowded c₀).addTransaction Reference.primitives (clock 1) dear).2.pendingTransactions)) =
      true := by
    decide +kernel
  obtain ⟨c₀, hgenesis, hrun⟩ := ok_of_any hrun
  simp only [Bool.and_eq_true, decide_eq_true_eq] at hrun
  obtain ⟨⟨hfits, hpending⟩, hgone⟩ := hrun
  exact hgone (hspared Reference.primitives (crowded c₀) (clock 1) dear stake
    (PoolSample.reachable_pooled (.fromGenesis hgenesis) crowd) (by decide) hfits hpending
    (by decide) (by decide +kernel))

end Curs3d
