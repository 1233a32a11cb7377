import Curs3d.Chain.Mempool
import Curs3d.Lib.Blend
import Curs3d.Lib.Reorder
import Mathlib.Algebra.Order.Field.Rat
import Mathlib.Data.Prod.Lex

/-!
# The order of the pending pool

`sort_pending_transactions` compares two transactions of one sender by nonce and fee: their place. It
compares those of different senders by class, fee rate, fee and time: their rank. Both are linear
orders, and their blend is a total preorder on a pool just when they are aligned (`Lib/Blend`): where a
sender's later transaction does not rank after an earlier one, nobody else's transaction may rank
between the two. Otherwise the three go round in a circle, and what a sort makes of them is anybody's
guess.

On an aligned pool nonces stay in order, and so do the classes, except that a user transaction with
the nonce of a system transaction of its own sender goes by the fee.
-/

set_option autoImplicit false

namespace Curs3d

open U64 Blend

/-- Nonces first, the higher fee first under one nonce. -/
def place (tx : Transaction) : Nat ×ₗ Natᵒᵈ := toLex (tx.nonce, OrderDual.toDual tx.maxFeePerGas')

/-- System transactions first. -/
def classRank (tx : Transaction) : Nat :=
  match tx.mempoolClass with
  | .system => 0
  | .user => 1

/-- The priority fee for each unit of gas. -/
def feeRate (baseFeePerGas : Nat) (tx : Transaction) : ℚ :=
  tx.priorityFee baseFeePerGas / max tx.estimatedGasForAdmission 1

/-- Class, fee rate, fee, time. -/
def rank (baseFeePerGas : Nat) (tx : Transaction) : Nat ×ₗ ℚᵒᵈ ×ₗ Natᵒᵈ ×ₗ Int :=
  toLex (classRank tx, toLex (OrderDual.toDual (feeRate baseFeePerGas tx),
    toLex (OrderDual.toDual tx.maxFeePerGas', tx.timestamp)))

/-- The list as `sort_by` leaves it, where the comparator is a total preorder. -/
def sortedPending (baseFeePerGas : Nat) (l : List Transaction) : List Transaction :=
  l.insertionSort fun a b => comparePending baseFeePerGas a b ≠ .gt

/-- The comparator is a total preorder on the list, and the sorted list keeps nonces and classes. -/
structure WellOrdered (baseFeePerGas : Nat) (l : List Transaction) : Prop where
  swap : ∀ a ∈ l, ∀ b ∈ l,
    comparePending baseFeePerGas b a = (comparePending baseFeePerGas a b).swap
  trans : ∀ a ∈ l, ∀ b ∈ l, ∀ c ∈ l, comparePending baseFeePerGas a b ≠ .gt →
    comparePending baseFeePerGas b c ≠ .gt → comparePending baseFeePerGas a c ≠ .gt
  nonces : (sortedPending baseFeePerGas l).Pairwise fun a b => a.from = b.from → a.nonce ≤ b.nonce
  classes : (sortedPending baseFeePerGas l).Pairwise fun a b =>
    a.mempoolClass = .user → b.mempoolClass = .system → a.from = b.from ∧ a.nonce < b.nonce

/-- A user and a system transaction of one sender with one nonce: the system transaction has the
higher fee, or an equal one and stands first. -/
def TwinsInOrder (l : List Transaction) : Prop :=
  l.Pairwise fun a b => a.from = b.from → a.nonce = b.nonce →
    (a.mempoolClass = .user → b.mempoolClass = .system → a.maxFeePerGas' < b.maxFeePerGas') ∧
    (a.mempoolClass = .system → b.mempoolClass = .user → b.maxFeePerGas' ≤ a.maxFeePerGas')

instance (l : List Transaction) : Decidable (TwinsInOrder l) :=
  inferInstanceAs (Decidable (l.Pairwise _))

/-! ## Place and rank -/

section Keys

variable {baseFeePerGas : Nat} {a b : Transaction}

theorem compare_place : compare (place a) (place b) =
    (compare a.nonce b.nonce).then (compare b.maxFeePerGas' a.maxFeePerGas') := rfl

theorem compare_rank : compare (rank baseFeePerGas a) (rank baseFeePerGas b) =
    (compare (classRank a) (classRank b)).then
      ((compare (feeRate baseFeePerGas b) (feeRate baseFeePerGas a)).then
        ((compare b.maxFeePerGas' a.maxFeePerGas').then (compare a.timestamp b.timestamp))) := rfl

theorem place_le_iff : place a ≤ place b ↔
    a.nonce < b.nonce ∨ (a.nonce = b.nonce ∧ b.maxFeePerGas' ≤ a.maxFeePerGas') := by
  rw [place, place, Prod.Lex.toLex_le_toLex]
  rfl

theorem priorityFee_le : a.priorityFee baseFeePerGas ≤ u64Max := by
  unfold Transaction.priorityFee Transaction.priorityFeePerGas Transaction.effectiveGasPrice
  split
  · exact Nat.zero_le _
  · exact (Nat.sub_le _ _).trans (satAdd_le_u64Max _ _)

/-- The gas limit is a 64-bit field. -/
theorem estimatedGas_le (h : a.gasLimit ≤ u64Max) : max a.estimatedGasForAdmission 1 ≤ u64Max := by
  have hintrinsic : a.intrinsicGas ≤ u64Max := satAdd_le_u64Max _ _
  have hone : 1 ≤ u64Max := by decide
  unfold Transaction.estimatedGasForAdmission
  split
  all_goals omega

/-- Products of 64-bit numbers do not saturate in 128 bits. -/
theorem rate_le (h : b.gasLimit ≤ u64Max) :
    a.priorityFee baseFeePerGas * max b.estimatedGasForAdmission 1 ≤ u128Max :=
  (Nat.mul_le_mul priorityFee_le (estimatedGas_le h)).trans (by decide)

/-- Fee rates, multiplied crosswise. -/
theorem compare_crosswise : compare
    (b.priorityFee baseFeePerGas * max a.estimatedGasForAdmission 1)
    (a.priorityFee baseFeePerGas * max b.estimatedGasForAdmission 1) =
    compare (feeRate baseFeePerGas b) (feeRate baseFeePerGas a) := by
  unfold feeRate
  have ha : (0 : ℚ) < (max a.estimatedGasForAdmission 1 : Nat) := by
    rw [Nat.cast_pos]
    omega
  have hb : (0 : ℚ) < (max b.estimatedGasForAdmission 1 : Nat) := by
    rw [Nat.cast_pos]
    omega
  generalize max a.estimatedGasForAdmission 1 = p at *
  generalize max b.estimatedGasForAdmission 1 = q at *
  rcases lt_trichotomy (b.priorityFee baseFeePerGas * p) (a.priorityFee baseFeePerGas * q) with
    h | h | h
  · rw [compare_lt_iff_lt.mpr h, eq_comm, compare_lt_iff_lt, div_lt_div_iff₀ hb ha]
    exact_mod_cast h
  · rw [compare_eq_iff_eq.mpr h, eq_comm, compare_eq_iff_eq, div_eq_div_iff hb.ne' ha.ne']
    exact_mod_cast h
  · rw [compare_gt_iff_gt.mpr h, eq_comm, compare_gt_iff_gt, div_lt_div_iff₀ ha hb]
    exact_mod_cast h

/-- The fee, once compared, does not decide again. -/
theorem then_then_self (rate fee time : Ordering) :
    ((rate.then fee).then time).then fee = rate.then (fee.then time) := by
  cases rate <;> cases fee <;> cases time <;> rfl

/-- **The comparator is a blend of two linear orders.** -/
theorem comparePending_eq (ha : a.gasLimit ≤ u64Max) (hb : b.gasLimit ≤ u64Max) :
    comparePending baseFeePerGas a b =
      blend Transaction.from place (rank baseFeePerGas) a b := by
  unfold comparePending blend
  rw [compare_place, compare_rank]
  split
  · rfl
  · have hfee : compareFeePriority a b baseFeePerGas =
        (compare (feeRate baseFeePerGas b) (feeRate baseFeePerGas a)).then
          (compare b.maxFeePerGas' a.maxFeePerGas') := by
      unfold compareFeePriority
      dsimp only
      rw [Nat.min_eq_left (rate_le ha), Nat.min_eq_left (rate_le hb), compare_crosswise]
    rw [hfee, then_then_self]
    unfold classRank
    cases a.mempoolClass <;> cases b.mempoolClass <;> rfl

theorem comparePending_of_sender (h : a.from = b.from) :
    comparePending baseFeePerGas a b ≠ .gt ↔ place a ≤ place b := by
  rw [comparePending, if_pos h, ← compare_place]
  exact compare_le_iff_le

/-- A user transaction of somebody else never comes before a system transaction. -/
theorem comparePending_user_system (hsender : a.from ≠ b.from) (ha : a.mempoolClass = .user)
    (hb : b.mempoolClass = .system) : comparePending baseFeePerGas a b = .gt := by
  rw [comparePending, if_neg hsender, ha, hb]

end Keys

/-! ## Sorted pools -/

section Sorted

variable {baseFeePerGas : Nat} {l : List Transaction} {a b : Transaction}

theorem comparePending_swap (ha : a.gasLimit ≤ u64Max) (hb : b.gasLimit ≤ u64Max) :
    comparePending baseFeePerGas b a = (comparePending baseFeePerGas a b).swap := by
  rw [comparePending_eq hb ha, comparePending_eq ha hb]
  exact blend_swap

theorem transOn_iff_aligned (hfits : ∀ tx ∈ l, tx.gasLimit ≤ u64Max) :
    TransOn (comparePending baseFeePerGas) l ↔
      Aligned Transaction.from place (rank baseFeePerGas) l := by
  rw [← trans_iff_aligned]
  have heq : ∀ a ∈ l, ∀ b ∈ l, comparePending baseFeePerGas a b =
      blend Transaction.from place (rank baseFeePerGas) a b := by
    intro a ha b hb
    exact comparePending_eq (hfits a ha) (hfits b hb)
  exact ⟨fun h => h.congr heq, fun h => h.congr fun a ha b hb => (heq a ha b hb).symm⟩

/-- An order on the pool sorts it. -/
theorem pairwise_sortedPending (hfits : ∀ tx ∈ l, tx.gasLimit ≤ u64Max)
    (htrans : TransOn (comparePending baseFeePerGas) l) :
    (sortedPending baseFeePerGas l).Pairwise fun a b => comparePending baseFeePerGas a b ≠ .gt := by
  refine Reorder.pairwise_insertionSort_of_mem _ ?_ htrans
  intro a ha b hb
  by_cases hgt : comparePending baseFeePerGas a b = .gt
  · right
    rw [comparePending_swap (hfits a ha) (hfits b hb), hgt]
    simp
  · exact .inl hgt

/-- A sorted pool has its nonces in order. -/
theorem nonces_sorted (hsorted : (sortedPending baseFeePerGas l).Pairwise
      fun a b => comparePending baseFeePerGas a b ≠ .gt) :
    (sortedPending baseFeePerGas l).Pairwise fun a b => a.from = b.from → a.nonce ≤ b.nonce := by
  refine hsorted.imp fun {a b} hle hsender => ?_
  rw [comparePending_of_sender hsender, place_le_iff] at hle
  omega

/-- A sorted pool has its classes in order when the twins are. -/
theorem classes_sorted (hsorted : (sortedPending baseFeePerGas l).Pairwise
      fun a b => comparePending baseFeePerGas a b ≠ .gt) (htwins : TwinsInOrder l) :
    (sortedPending baseFeePerGas l).Pairwise fun a b =>
      a.mempoolClass = .user → b.mempoolClass = .system → a.from = b.from ∧ a.nonce < b.nonce := by
  rw [List.pairwise_iff_forall_sublist]
  intro a b hab hauser hbsystem
  have hle := List.pairwise_iff_forall_sublist.mp hsorted hab
  have hsender : a.from = b.from := by
    by_contra hne
    exact hle (comparePending_user_system hne hauser hbsystem)
  rw [comparePending_of_sender hsender, place_le_iff] at hle
  refine ⟨hsender, ?_⟩
  rcases hle with hlt | ⟨hnonce, hfee⟩
  · exact hlt
  · -- one nonce: the pair stood like this before, or the sort had a reason to turn it round
    rcases Reorder.inverted_of_insertionSort _ hab with hbefore | ⟨hbefore, hgt⟩
    · have := (List.pairwise_iff_forall_sublist.mp htwins hbefore hsender hnonce).1 hauser hbsystem
      omega
    · have hother := (List.pairwise_iff_forall_sublist.mp htwins hbefore hsender.symm
        hnonce.symm).2 hbsystem hauser
      rw [comparePending_of_sender hsender.symm] at hgt
      exact absurd (place_le_iff.mpr (.inr ⟨hnonce.symm, hother⟩)) hgt

/-- Twins out of order stay so. -/
theorem twins_of_classes (hsorted : (sortedPending baseFeePerGas l).Pairwise
      fun a b => comparePending baseFeePerGas a b ≠ .gt)
    (hclasses : (sortedPending baseFeePerGas l).Pairwise fun a b =>
      a.mempoolClass = .user → b.mempoolClass = .system → a.from = b.from ∧ a.nonce < b.nonce) :
    TwinsInOrder l := by
  rw [TwinsInOrder, List.pairwise_iff_forall_sublist]
  intro a b hab hsender hnonce
  constructor
  · intro hauser hbsystem
    by_contra hfee
    have hle : comparePending baseFeePerGas a b ≠ .gt := by
      rw [comparePending_of_sender hsender, place_le_iff]
      omega
    have hpair : [a, b].Sublist (sortedPending baseFeePerGas l) :=
      List.pair_sublist_insertionSort hle hab
    have hlt := (List.pairwise_iff_forall_sublist.mp hclasses hpair hauser hbsystem).2
    omega
  · intro hasystem hbuser
    by_contra hfee
    have hne : b ≠ a := by
      rintro rfl
      rw [hasystem] at hbuser
      exact absurd hbuser (by simp)
    have hgt : ¬ comparePending baseFeePerGas a b ≠ .gt := by
      rw [comparePending_of_sender hsender, place_le_iff]
      omega
    have hmem : ∀ x ∈ [a, b], x ∈ sortedPending baseFeePerGas l :=
      fun x hx => (List.mem_insertionSort _).mpr (hab.subset hx)
    rcases Reorder.pair_or_pair (hmem b (by simp)) (hmem a (by simp)) hne with hpair | hpair
    · have hlt := (List.pairwise_iff_forall_sublist.mp hclasses hpair hbuser hasystem).2
      omega
    · exact hgt (List.pairwise_iff_forall_sublist.mp hsorted hpair)

end Sorted

/-- The pools that the comparator orders, and the sort leaves as it is meant to: the senders' orders
and the rank are aligned, and so are user and system transactions of one nonce. -/
theorem pending_order_iff {baseFeePerGas : Nat} {l : List Transaction}
    (hfits : ∀ tx ∈ l, tx.gasLimit ≤ u64Max) :
    WellOrdered baseFeePerGas l ↔
      Aligned Transaction.from place (rank baseFeePerGas) l ∧ TwinsInOrder l := by
  constructor
  · intro h
    have hsorted := pairwise_sortedPending hfits h.trans
    exact ⟨(transOn_iff_aligned hfits).mp h.trans, twins_of_classes hsorted h.classes⟩
  · rintro ⟨haligned, htwins⟩
    have htrans := (transOn_iff_aligned hfits).mpr haligned
    have hsorted := pairwise_sortedPending hfits htrans
    exact ⟨fun a ha b hb => comparePending_swap (hfits a ha) (hfits b hb), htrans,
      nonces_sorted hsorted, classes_sorted hsorted htwins⟩

namespace OrderSample

def transaction (kind : TransactionKind) (sender : UInt8) (fee nonce : Nat) : Transaction where
  chainId := [1]
  kind
  «from» := [sender]
  senderPublicKey := []
  «to» := []
  amount := 5
  fee
  maxFeePerGas := fee
  maxPriorityFeePerGas := fee
  nonce
  timestamp := 100
  signature := none
  gasLimit := 21000
  data := []
  evmRawTx := []

/-- The sender's second transaction pays less than its first, and a stranger's fee lies between. -/
def steady : List Transaction :=
  [transaction .transfer 1 20 1, transaction .transfer 2 30 0, transaction .stake 3 10 0,
    transaction .transfer 1 40 0]

/-- The sender's second transaction pays more than its first, and a stranger's fee lies between. -/
def circle : List Transaction :=
  [transaction .transfer 1 20 0, transaction .transfer 1 40 1, transaction .transfer 2 30 0]

end OrderSample

open OrderSample in
/-- A stake, the first transfer, the stranger's, the second. -/
theorem pending_order_steady : (∀ tx ∈ steady, tx.gasLimit ≤ u64Max) ∧ WellOrdered 1 steady ∧
    (sortedPending 1 steady).map (fun tx => (tx.from, tx.nonce)) =
      [([3], 0), ([1], 0), ([2], 0), ([1], 1)] := by
  have hfits : ∀ tx ∈ steady, tx.gasLimit ≤ u64Max := by decide
  exact ⟨hfits, (pending_order_iff hfits).mpr (by decide +kernel), by decide +kernel⟩

open OrderSample in
/-- **The comparator is not transitive:** the first comes before the second by its nonce, the second
before the stranger's by its fee, and the stranger's before the first. -/
theorem pending_order_circles : ¬ ∀ (baseFeePerGas : Nat) (l : List Transaction),
    (∀ tx ∈ l, tx.gasLimit ≤ u64Max) → WellOrdered baseFeePerGas l := by
  intro horder
  have htrans := (horder 1 circle (by decide)).trans
  have hnot : ¬ TransOn (comparePending 1) circle := by
    unfold TransOn
    decide +kernel
  exact hnot htrans

end Curs3d
