import Curs3d.Proof.Applicable

/-!
# The eviction loop and how an admission ends

`add_transaction` puts the transaction into the pool first. `enforce_mempool_limits` then evicts the worst candidate,
with the later transactions of its sender, until the pool is within every limit, and fails when the worst candidate
is the transaction just put in. Nothing undoes what was done up to there (`admission_atomic_iff`).
-/

set_option autoImplicit false

namespace Curs3d

open Outcome Relation

namespace Blockchain

section Defs

variable (P : Primitives) (c : Blockchain)

/-- Where the transaction stands that the limits take next, as long as one of them is exceeded. -/
def nextVictimIndex : Option Nat :=
  if c.WithinLimits then none
  else (c.worstPendingTransactionIndexInClass .user).or (c.worstPendingTransactionIndexInClass .system)

/-- The transaction the limits take next. -/
def nextVictim : Option Transaction := c.nextVictimIndex.bind fun index => c.pendingTransactions[index]?

/-- One turn of the limits, on a victim that is not the protected transaction. -/
inductive Evicts (protectedHash : Bytes) : Blockchain → Blockchain → Prop where
  | turn {c : Blockchain} {index : Nat} {v : Transaction} (hindex : c.nextVictimIndex = some index)
    (hv : c.pendingTransactions[index]? = some v) (hother : v.hash P ≠ protectedHash) :
    Evicts protectedHash c (c.evictTransactionAndDependents index)

/-- Sooner or later the limits come to `v`. -/
def Takes (protectedHash : Bytes) (v : Transaction) : Prop :=
  ∃ d, ReflTransGen (Evicts P protectedHash) c d ∧ d.nextVictim = some v

end Defs

variable {P : Primitives} {c c' d : Blockchain} {tx v : Transaction} {now : Int} {protectedHash : Bytes}
  {cls : MempoolClass} {index : Nat}

/-! ## The worst candidate -/

/-- What the search does with one more candidate. -/
def worse (baseFee : Nat) (best : Option (Transaction × Nat)) (e : Transaction × Nat) : Option (Transaction × Nat) :=
  match best with
  | none => some e
  | some b => if compareWorst baseFee b.1 e.1 = .gt then some e else some b

theorem worse_isSome (baseFee : Nat) (best : Option (Transaction × Nat)) (e : Transaction × Nat) :
    (worse baseFee best e).isSome = true := by
  cases best with
  | none => rfl
  | some b =>
    simp only [worse]
    split <;> rfl

theorem worse_mem {baseFee : Nat} {best : Option (Transaction × Nat)} {e x : Transaction × Nat}
    (h : worse baseFee best e = some x) : best = some x ∨ e = x := by
  cases best with
  | none => exact Or.inr (Option.some.inj h)
  | some b =>
    simp only [worse] at h
    split at h
    · exact Or.inr (Option.some.inj h)
    · exact Or.inl h

theorem foldl_worse_mem {baseFee : Nat} {l : List (Transaction × Nat)} {x : Transaction × Nat}
    (h : l.foldl (worse baseFee) none = some x) : x ∈ l := by
  have hall : ∀ y, l.foldl (worse baseFee) none = some y → y ∈ l := by
    refine List.foldlRecOn (motive := fun best => ∀ y, best = some y → y ∈ l) _ _ (fun y hy => by cases hy) ?_
    intro best hbest e he y hy
    rcases worse_mem hy with hy | rfl
    · exact hbest y hy
    · exact he
  exact hall x h

theorem foldl_worse_none {baseFee : Nat} {l : List (Transaction × Nat)}
    (h : l.foldl (worse baseFee) none = none) : l = [] := by
  cases l with
  | nil => rfl
  | cons e rest =>
    exfalso
    have hsome : ((e :: rest).foldl (worse baseFee) none).isSome = true := by
      rw [List.foldl_cons]
      refine List.foldlRecOn (motive := fun best : Option (Transaction × Nat) => best.isSome = true) _ _ rfl ?_
      intro best _ e' _
      exact worse_isSome baseFee best e'
    rw [h] at hsome
    cases hsome

theorem worst_eq : c.worstPendingTransactionIndexInClass cls =
    ((c.pendingTransactions.zipIdx.filter fun e => e.1.mempoolClass = cls).foldl (worse c.pendingBaseFee)
      none).map Prod.snd := rfl

/-- The worst candidate of a class is a pending transaction of the class. -/
theorem worst_eq_some (h : c.worstPendingTransactionIndexInClass cls = some index) :
    ∃ v, c.pendingTransactions[index]? = some v ∧ v.mempoolClass = cls := by
  rw [worst_eq] at h
  obtain ⟨⟨v, i⟩, hfold, rfl⟩ := Option.map_eq_some_iff.mp h
  obtain ⟨hmem, hcls⟩ := List.mem_filter.mp (foldl_worse_mem hfold)
  exact ⟨v, List.mem_zipIdx_iff_getElem?.mp hmem, of_decide_eq_true hcls⟩

theorem worst_eq_none (h : c.worstPendingTransactionIndexInClass cls = none) :
    ∀ v ∈ c.pendingTransactions, v.mempoolClass ≠ cls := by
  rw [worst_eq, Option.map_eq_none_iff] at h
  intro v hv hcls
  obtain ⟨i, hi⟩ := List.mem_iff_getElem?.mp hv
  have hmem : (v, i) ∈ c.pendingTransactions.zipIdx.filter fun e => e.1.mempoolClass = cls := by
    apply List.mem_filter.mpr
    exact ⟨List.mem_zipIdx_iff_getElem?.mpr hi, decide_eq_true hcls⟩
  rw [foldl_worse_none h] at hmem
  cases hmem

/-! ## Turns -/

theorem nextVictimIndex_eq_some (h : c.nextVictimIndex = some index) :
    ¬ c.WithinLimits ∧ ∃ v, c.pendingTransactions[index]? = some v := by
  simp only [nextVictimIndex] at h
  split at h
  · cases h
  next hover =>
  refine ⟨hover, ?_⟩
  rcases Option.or_eq_some_iff.mp h with huser | ⟨-, hsystem⟩
  · obtain ⟨v, hv, -⟩ := worst_eq_some huser
    exact ⟨v, hv⟩
  · obtain ⟨v, hv, -⟩ := worst_eq_some hsystem
    exact ⟨v, hv⟩

/-- Only a pool within its limits has no victim. -/
theorem withinLimits_of_none (h : c.nextVictimIndex = none) : c.WithinLimits := by
  by_contra hover
  simp only [nextVictimIndex, if_neg hover, Option.or_eq_none_iff] at h
  obtain ⟨huser, hsystem⟩ := h
  have hempty : c.pendingTransactions = [] := by
    apply List.eq_nil_iff_forall_not_mem.mpr
    intro v hv
    cases hcls : v.mempoolClass with
    | user => exact worst_eq_none huser v hv hcls
    | system => exact worst_eq_none hsystem v hv hcls
  apply hover
  simp only [WithinLimits, countPendingInClass, pendingGasUsage, hempty]
  exact ⟨Nat.zero_le _, Nat.zero_le _, Nat.zero_le _⟩

theorem nextVictim_eq_some : c.nextVictim = some v ↔
    ∃ index, c.nextVictimIndex = some index ∧ c.pendingTransactions[index]? = some v :=
  Option.bind_eq_some_iff

theorem nextVictim_mem (h : c.nextVictim = some v) : v ∈ c.pendingTransactions := by
  obtain ⟨index, -, hv⟩ := nextVictim_eq_some.mp h
  exact List.mem_of_getElem? hv

theorem length_evict (hv : c.pendingTransactions[index]? = some v) :
    (c.evictTransactionAndDependents index).pendingTransactions.length < c.pendingTransactions.length := by
  simp only [evictTransactionAndDependents, hv]
  have hlt : index < c.pendingTransactions.length := (List.getElem?_eq_some_iff.mp hv).choose
  refine lt_of_le_of_lt (List.length_filter_le _ _) ?_
  rw [List.length_eraseIdx_of_lt hlt]
  omega

/-- The limits are deterministic. -/
theorem evicts_rightUnique : Relator.RightUnique (Evicts P protectedHash) := by
  intro c d d' h h'
  cases h with
  | turn hindex _ _ =>
    cases h' with
    | turn hindex' _ _ =>
      rw [hindex] at hindex'
      cases hindex'
      rfl

/-- The limits stop before the protected transaction. -/
theorem not_evicts (h : c.nextVictim = some v) (hprotected : v.hash P = protectedHash) :
    ¬ Evicts P protectedHash c d := by
  intro hturn
  cases hturn with
  | turn hindex hv hother =>
    have hnext := nextVictim_eq_some.mpr ⟨_, hindex, hv⟩
    rw [h] at hnext
    cases hnext
    exact hother hprotected

/-- The limits stop at a pool within them. -/
theorem not_evicts_of_within (h : c.WithinLimits) : ¬ Evicts P protectedHash c d := by
  intro hturn
  cases hturn with
  | turn hindex _ _ => exact (nextVictimIndex_eq_some hindex).1 h

theorem evicts_pool (h : ReflTransGen (Evicts P protectedHash) c d) :
    d.pendingTransactions.Sublist c.pendingTransactions := by
  induction h with
  | refl => exact List.Sublist.refl _
  | tail _ hturn ih =>
    cases hturn with
    | turn _ _ _ => exact (evict_sublist _).trans ih

/-- **What the loop comes to**: a pool within its limits, or the protected transaction as the next victim. -/
theorem enforceMempoolLimits_spec {fuel : Nat} (hfuel : c.pendingTransactions.length < fuel) :
    ∃ d, ReflTransGen (Evicts P protectedHash) c d ∧
      (enforceMempoolLimits P protectedHash fuel c = (.ok (), d) ∧ d.WithinLimits ∨
        ∃ e v, enforceMempoolLimits P protectedHash fuel c = (.error e, d) ∧ d.nextVictim = some v ∧
          v.hash P = protectedHash) := by
  induction fuel generalizing c with
  | zero => exact absurd hfuel (Nat.not_lt_zero _)
  | succ fuel ih =>
    cases hindex : c.nextVictimIndex with
    | none =>
      have hwithin := withinLimits_of_none hindex
      refine ⟨c, .refl, Or.inl ⟨?_, hwithin⟩⟩
      simp only [enforceMempoolLimits]
      rw [if_pos (withinLimits_iff.mp hwithin)]
    | some index =>
      obtain ⟨hover, v, hv⟩ := nextVictimIndex_eq_some hindex
      have hworst := hindex
      simp only [nextVictimIndex, if_neg hover] at hworst
      rw [withinLimits_iff] at hover
      simp only [enforceMempoolLimits, if_neg hover, hworst, hv, Option.map_some, Option.some.injEq]
      by_cases hprotected : v.hash P = protectedHash
      · rw [if_pos hprotected]
        exact ⟨c, .refl, Or.inr ⟨_, v, rfl, nextVictim_eq_some.mpr ⟨index, hindex, hv⟩, hprotected⟩⟩
      · rw [if_neg hprotected]
        have hturn : Evicts P protectedHash c (c.evictTransactionAndDependents index) := .turn hindex hv hprotected
        have hshorter := length_evict hv
        obtain ⟨d, hd, hend⟩ := @ih (c.evictTransactionAndDependents index) (by omega)
        exact ⟨d, .head hturn hd, hend⟩

/-! ## How an admission ends -/

variable (P c tx now) in
/-- The three ends of `add_transaction`: a check refuses it, the limits are met, or the limits come to `tx`. -/
inductive AdmissionEnd : Except ChainError Unit × Blockchain → Prop where
  | refused {e : ChainError} (hadmission : (c.prunePendingTransactions now).admission P now tx = .error e) :
    AdmissionEnd (.error e, c.prunePendingTransactions now)
  | admitted {d : Blockchain} (hadmission : (c.prunePendingTransactions now).admission P now tx = .ok ())
    (hd : ReflTransGen (Evicts P (tx.hash P)) ((c.prunePendingTransactions now).insertPending tx) d)
    (hwithin : d.WithinLimits) : AdmissionEnd (.ok (), d.sortPendingTransactions)
  | crowdedOut {d : Blockchain} {e : ChainError}
    (hadmission : (c.prunePendingTransactions now).admission P now tx = .ok ())
    (hd : ReflTransGen (Evicts P (tx.hash P)) ((c.prunePendingTransactions now).insertPending tx) d)
    (hnext : d.nextVictim = some tx) : AdmissionEnd (.error e, d)

theorem mem_insertPending_self : tx ∈ (c.insertPending tx).pendingTransactions := by
  apply insertPending_perm.mem_iff.mpr
  simp only [tried]
  split
  · exact List.mem_append_right _ (List.mem_singleton_self tx)
  · exact List.mem_append_right _ (List.mem_singleton_self tx)

/-- After the checks no other pending transaction has the hash of `tx`. -/
theorem eq_of_hash (h : c.admission P now tx = .ok ()) (hv : v ∈ (c.insertPending tx).pendingTransactions)
    (hhash : v.hash P = tx.hash P) : v = tx := by
  obtain ⟨hnodup, -⟩ := admission_ok h
  have hinserted := ((@insertPending_perm c tx).map fun p => p.hash P).nodup_iff.mpr hnodup
  exact List.inj_on_of_nodup_map hinserted hv mem_insertPending_self hhash

theorem addTransaction_ends (P : Primitives) (c : Blockchain) (now : Int) (tx : Transaction) :
    AdmissionEnd P c tx now (c.addTransaction P now tx) := by
  simp only [addTransaction]
  split
  · next e hadmission => exact .refused hadmission
  next hadmission =>
  obtain ⟨d, hd, ⟨hrun, hwithin⟩ | ⟨e, v, hrun, hnext, hhash⟩⟩ := @enforceMempoolLimits_spec P
    ((c.prunePendingTransactions now).insertPending tx) (tx.hash P) _ (Nat.lt_succ_self _)
  · rw [hrun]
    exact .admitted hadmission hd hwithin
  · rw [hrun]
    have hv := (evicts_pool hd).subset (nextVictim_mem hnext)
    rw [eq_of_hash hadmission hv hhash] at hnext
    exact .crowdedOut hadmission hd hnext

/-- What an admission that passes the checks leaves is where the limits stop. -/
theorem addTransaction_left (hadmission : (c.prunePendingTransactions now).admission P now tx = .ok ()) :
    ∃ d, ReflTransGen (Evicts P (tx.hash P)) ((c.prunePendingTransactions now).insertPending tx) d ∧
      (∀ d', ¬ Evicts P (tx.hash P) d d') ∧
      (c.addTransaction P now tx).2.pendingTransactions.Perm d.pendingTransactions := by
  have hend := addTransaction_ends P c now tx
  generalize c.addTransaction P now tx = r at hend ⊢
  cases hend with
  | refused hrefused => exact absurd (hadmission.symm.trans hrefused) (by simp)
  | @admitted d _ hd hwithin => exact ⟨d, hd, fun _ => not_evicts_of_within hwithin, List.perm_insertionSort _ _⟩
  | @crowdedOut d e _ hd hnext => exact ⟨d, hd, fun _ => not_evicts hnext rfl, List.Perm.refl _⟩

/-- The limits come to the new transaction. -/
theorem crowdedOut_of_takes (hadmission : (c.prunePendingTransactions now).admission P now tx = .ok ())
    (htakes : ((c.prunePendingTransactions now).insertPending tx).Takes P (tx.hash P) tx) :
    ∃ e d, c.addTransaction P now tx = (.error e, d) ∧ d.nextVictim = some tx := by
  obtain ⟨d, hd, hnext⟩ := htakes
  have hstuck : ∀ {d'}, ¬ Evicts P (tx.hash P) d d' := not_evicts hnext rfl
  have hend := addTransaction_ends P c now tx
  generalize c.addTransaction P now tx = r at hend
  cases hend with
  | refused hrefused => exact absurd (hadmission.symm.trans hrefused) (by simp)
  | @admitted d' _ hd' hwithin =>
    -- a pool within its limits has no victim, and the run to `d` cannot go past it
    exfalso
    have hstop : ∀ {d''}, ¬ Evicts P (tx.hash P) d' d'' := not_evicts_of_within hwithin
    have hsame : d = d' := by
      rcases hd.total_of_right_unique evicts_rightUnique hd' with h | h
      · rcases h.cases_head with h | ⟨_, hturn, -⟩
        · exact h
        · exact absurd hturn hstuck
      · rcases h.cases_head with h | ⟨_, hturn, -⟩
        · exact h.symm
        · exact absurd hturn hstop
    obtain ⟨index, hindex, -⟩ := nextVictim_eq_some.mp hnext
    rw [hsame] at hindex
    exact (nextVictimIndex_eq_some hindex).1 hwithin
  | @crowdedOut d' e _ _ hnext' => exact ⟨e, d', rfl, hnext'⟩

/-- **An admission that fails leaves the pruned pool exactly when it does not fail on the limits.** -/
theorem admission_atomic_iff (hnew : tx ∉ c.pendingTransactions) :
    (∀ e c', c.addTransaction P now tx = (.error e, c') → c' = c.prunePendingTransactions now) ↔
      ((c.prunePendingTransactions now).admission P now tx = .ok () →
        ¬ ((c.prunePendingTransactions now).insertPending tx).Takes P (tx.hash P) tx) := by
  constructor
  · intro hatomic hadmission htakes
    obtain ⟨e, d, hadd, hnext⟩ := crowdedOut_of_takes hadmission htakes
    apply hnew
    apply (poolWithin_prune c now).pending
    rw [← hatomic e d hadd]
    exact nextVictim_mem hnext
  · intro hspared e c' hadd
    have hend := addTransaction_ends P c now tx
    rw [hadd] at hend
    cases hend with
    | refused _ => rfl
    | crowdedOut hadmission hd hnext => exact absurd ⟨c', hd, hnext⟩ (hspared hadmission)

end Blockchain

namespace CrowdSample

open Scenario PoolSample

/-- Room for eight transfers in the pool, and two for each account. -/
def genesis : GenesisConfig where
  chainId := [1]
  blockGasLimit := 21000
  allocations := [1, 2, 3, 4, 5].map fun n => allocation n 10000000 0

def transaction (kind : TransactionKind) (sender : UInt8) (fee nonce : Nat) : Transaction :=
  Transaction.sign Reference.primitives
    { chainId := [1]
      kind
      «from» := addressOf sender
      senderPublicKey := (key sender).publicKey
      «to» := if kind = .transfer then addressOf 9 else []
      amount := 5
      fee
      maxFeePerGas := 0
      maxPriorityFeePerGas := 0
      nonce
      timestamp := clock 1
      signature := none
      gasLimit := 0
      data := []
      evmRawTx := [] }
    (key sender)

/-- Two transactions of each of four accounts fill the pool; the cheapest transfer has a stake behind it. -/
def crowd : List Transaction :=
  [transaction .transfer 1 20 0, transaction .stake 1 30 1, transaction .transfer 2 30 0, transaction .transfer 2 30 1,
    transaction .transfer 3 30 0, transaction .transfer 3 30 1, transaction .transfer 4 30 0,
    transaction .transfer 4 30 1]

def cheap : Transaction := transaction .transfer 5 15 0

def dear : Transaction := transaction .transfer 5 40 0

/-- The chain whose pool is full. -/
def crowded (c : Blockchain) : Blockchain := pooled c crowd

end CrowdSample

open CrowdSample Scenario in
/-- A dear transfer comes into the full pool: another one makes room. -/
theorem admission_atomic_dear : ∃ c : Blockchain, c.Reachable Reference.primitives ∧
    c.pendingTransactions.length = 8 ∧
    ((c.prunePendingTransactions (clock 1)).admission Reference.primitives (clock 1) dear = .ok () →
      ¬ ((c.prunePendingTransactions (clock 1)).insertPending dear).Takes Reference.primitives
        (dear.hash Reference.primitives) dear) := by
  have hrun : ((fromGenesis Reference.primitives genesis).toOption.any fun c₀ =>
      decide ((crowded c₀).pendingTransactions.length = 8) && decide (dear ∉ (crowded c₀).pendingTransactions) &&
        decide (((crowded c₀).addTransaction Reference.primitives (clock 1) dear).1 = .ok ())) = true := by
    decide +kernel
  obtain ⟨c₀, hgenesis, hrun⟩ := ok_of_any hrun
  simp only [Bool.and_eq_true, decide_eq_true_eq] at hrun
  obtain ⟨⟨hlength, hnew⟩, hok⟩ := hrun
  refine ⟨crowded c₀, PoolSample.reachable_pooled (.fromGenesis hgenesis) crowd, hlength, ?_⟩
  apply (Blockchain.admission_atomic_iff hnew).mp
  intro e c' hadd
  rw [hadd] at hok
  cases hok

open CrowdSample Scenario in
/-- A cheap transfer is refused with `FeeTooLow` and stays: the pool of eight is one of nine. -/
theorem refused_transaction_stays : ¬ ∀ (P : Primitives) (c c' : Blockchain) (now : Int) (tx : Transaction)
    (e : ChainError), c.Reachable P → tx ∉ c.pendingTransactions → c.addTransaction P now tx = (.error e, c') →
      c'.pendingTransactions = (c.prunePendingTransactions now).pendingTransactions := by
  intro hatomic
  have hrun : ((fromGenesis Reference.primitives genesis).toOption.any fun c₀ =>
      decide (cheap ∉ (crowded c₀).pendingTransactions) &&
        decide (((crowded c₀).addTransaction Reference.primitives (clock 1) cheap).1 = .error .feeTooLow) &&
        decide (cheap ∈ ((crowded c₀).addTransaction Reference.primitives (clock 1) cheap).2.pendingTransactions)) =
      true := by
    decide +kernel
  obtain ⟨c₀, hgenesis, hrun⟩ := ok_of_any hrun
  simp only [Bool.and_eq_true, decide_eq_true_eq] at hrun
  obtain ⟨⟨hnew, herror⟩, hstays⟩ := hrun
  have hpool := hatomic Reference.primitives (crowded c₀) _ (clock 1) cheap .feeTooLow
    (PoolSample.reachable_pooled (.fromGenesis hgenesis) crowd) hnew (Prod.ext herror rfl)
  rw [hpool] at hstays
  exact hnew ((Blockchain.poolWithin_prune (crowded c₀) (clock 1)).pending hstays)

end Curs3d
