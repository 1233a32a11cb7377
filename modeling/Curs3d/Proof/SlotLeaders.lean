import Curs3d.Consensus.Stake
import Curs3d.Crypto.Reference
import Curs3d.Lib.Draws

/-!
# The ranks of a slot

The walk over the ranks of a slot draws validators without replacement (`Lib/Draws`): whatever the hashes
are, the ticket of a rank falls on a validator that no earlier rank took (`slotLeader_fair`), as long as the
stakes are positive and their sum does not wrap. So the ranks below the size of the set are the validators
in some order, and higher ranks repeat the last one (`slot_leaders_permute`).
-/

set_option autoImplicit false

namespace Curs3d

open Bincode U64 Draws

/-! ## The ticket walk -/

section Tickets

variable {validators : List Validator} {selector : Nat} {v : Validator}

theorem mem_of_pickByStake (h : pickByStake validators selector = some v) : v ∈ validators := by
  induction validators generalizing selector with
  | nil => exact absurd h (by simp [pickByStake])
  | cons w rest ih =>
    simp only [pickByStake] at h
    split at h
    · cases h
      exact List.mem_cons_self
    · exact List.mem_cons_of_mem _ (ih h)

/-- A selector below the total falls into somebody's range. -/
theorem isSome_pickByStake (h : selector < (validators.map Validator.stake).sum) :
    (pickByStake validators selector).isSome := by
  induction validators generalizing selector with
  | nil => exact absurd h (by simp)
  | cons w rest ih =>
    rw [List.map_cons, List.sum_cons] at h
    simp only [pickByStake]
    split
    · rfl
    · exact ih (by omega)

end Tickets

/-! ## One rank -/

section Ranks

variable (P : Primitives) (snapshot : EpochSnapshot) (height : Nat) (parentHash : Bytes)

def slotCandidates (excluded : List Bytes) : List Validator :=
  snapshot.validators.filter fun v => v.address ∉ excluded

/-- The validator the ticket of a rank falls on. -/
def slotTicket (rank : Nat) (excluded : List Bytes) : Option Validator :=
  pickByStake (slotCandidates snapshot excluded)
    (leNat 16 (sha3HashDomain P (ascii "curs3d-slot-leader-v1") [u64 height, parentHash, u32 rank]) %
      totalStakeOf (slotCandidates snapshot excluded))

/-- The fallback is what stands in the last branch. -/
theorem slotLeaderExcluding_eq (rank : Nat) (excluded : List Bytes) :
    slotLeaderExcluding P snapshot height parentHash rank excluded =
      if totalStakeOf (slotCandidates snapshot excluded) = 0 then none
      else match slotTicket P snapshot height parentHash rank excluded with
        | some v => some v.address
        | none => (slotCandidates snapshot excluded).getLast?.map Validator.address := rfl

/-- Distinct addresses, and positive stakes whose sum fits in 64 bits. -/
structure EpochSnapshot.Electable (snapshot : EpochSnapshot) : Prop where
  nodup : (snapshot.validators.map Validator.address).Nodup
  positive : ∀ v ∈ snapshot.validators, 0 < v.stake
  bound : (snapshot.validators.map Validator.stake).sum < modulus

variable {P snapshot height parentHash} {rank : Nat} {excluded : List Bytes}

theorem totalStakeOf_candidates (h : snapshot.Electable) :
    totalStakeOf (slotCandidates snapshot excluded) =
      ((slotCandidates snapshot excluded).map Validator.stake).sum := by
  have hsub : (slotCandidates snapshot excluded).Sublist snapshot.validators := List.filter_sublist
  have hle := (hsub.map Validator.stake).sum_le_sum fun _ _ => Nat.zero_le _
  exact wrapSum_eq_sum (Nat.lt_of_le_of_lt hle h.bound)

theorem mem_slotCandidates {v : Validator} :
    v ∈ slotCandidates snapshot excluded ↔ v ∈ snapshot.validators ∧ v.address ∉ excluded := by
  rw [slotCandidates, List.mem_filter, decide_eq_true_eq]

theorem totalStakeOf_candidates_pos (h : snapshot.Electable) {v : Validator}
    (hv : v ∈ slotCandidates snapshot excluded) :
    0 < totalStakeOf (slotCandidates snapshot excluded) := by
  rw [totalStakeOf_candidates h]
  have hle : v.stake ≤ ((slotCandidates snapshot excluded).map Validator.stake).sum :=
    List.le_sum_of_mem (List.mem_map_of_mem hv)
  have hpos := h.positive v (mem_slotCandidates.mp hv).1
  omega

/-- **The ticket of a rank falls on a candidate**, whatever the hash. -/
theorem isSome_slotTicket (h : snapshot.Electable) {v : Validator}
    (hv : v ∈ slotCandidates snapshot excluded) :
    (slotTicket P snapshot height parentHash rank excluded).isSome := by
  apply isSome_pickByStake
  rw [← totalStakeOf_candidates h]
  exact Nat.mod_lt _ (totalStakeOf_candidates_pos h hv)

/-- The walk over the ranks draws without replacement. -/
theorem slotLeader_fair (h : snapshot.Electable) :
    Fair (snapshot.validators.map Validator.address)
      (slotLeaderExcluding P snapshot height parentHash) where
  draws := by
    rintro k taken ⟨a, ha, hnew⟩
    obtain ⟨v, hv, rfl⟩ := List.mem_map.mp ha
    have hcandidate := mem_slotCandidates.mpr ⟨hv, hnew⟩
    have hpos := totalStakeOf_candidates_pos h hcandidate
    have hticket : (slotTicket P snapshot height parentHash k taken).isSome :=
      isSome_slotTicket h hcandidate
    obtain ⟨w, hw⟩ := Option.isSome_iff_exists.mp hticket
    have hmem := mem_slotCandidates.mp (mem_of_pickByStake hw)
    refine ⟨w.address, ?_, List.mem_map_of_mem hmem.1, hmem.2⟩
    rw [slotLeaderExcluding_eq, if_neg (Nat.ne_of_gt hpos), hw]
  stops := by
    intro k taken hall
    have hnone : slotCandidates snapshot taken = [] := by
      apply List.filter_eq_nil_iff.mpr
      intro v hv
      simpa using hall v.address (List.mem_map_of_mem hv)
    rw [slotLeaderExcluding_eq, hnone]
    rfl

/-! ## All ranks -/

/-- The walk ends at the newest draw. -/
theorem slotLeaderWalk_eq (h : snapshot.Electable) (k n : Nat) :
    slotLeaderWalk P snapshot height parentHash k n
        (drawn (slotLeaderExcluding P snapshot height parentHash) k)
        (drawn (slotLeaderExcluding P snapshot height parentHash) k).head? =
      (drawn (slotLeaderExcluding P snapshot height parentHash) (k + n)).head? := by
  induction n generalizing k with
  | zero => rfl
  | succ n ih =>
    rw [slotLeaderWalk]
    split
    · next leader hleader =>
      have hnext := ih (k + 1)
      rw [drawn_succ_of_some hleader, Nat.add_right_comm] at hnext
      exact hnext
    · next hnone =>
      -- nobody is left, so the later ranks draw nothing either
      have hfair := @slotLeader_fair P snapshot height parentHash h
      have hused : snapshot.validators.length ≤ k := by
        by_contra hlt
        have hlength := hfair.length_drawn h.nodup (k := k + 1)
          (by simpa using Nat.lt_of_not_le hlt)
        rw [drawn_succ_of_none hnone] at hlength
        have hle := hfair.length_drawn h.nodup (k := k) (by simpa using Nat.le_of_not_le hlt)
        omega
      rw [hfair.drawn_of_le h.nodup (n := k) (by simpa using hused),
        hfair.drawn_of_le h.nodup (n := k + (n + 1)) (by simpa using Nat.le_add_right_of_le hused)]

theorem slotLeaderAtRank_eq (h : snapshot.Electable) (hne : snapshot.validators ≠ []) :
    slotLeaderAtRank P snapshot height parentHash rank =
      (drawn (slotLeaderExcluding P snapshot height parentHash) (rank + 1)).head? := by
  rw [slotLeaderAtRank, if_neg (by simpa using hne)]
  have hwalk := @slotLeaderWalk_eq P snapshot height parentHash h 0 (rank + 1)
  rw [Nat.zero_add] at hwalk
  exact hwalk

end Ranks

/-- **The leaders of a slot are the validators in some order**, ranks above the last repeat it, and the
fallback behind the ticket walk is never reached. -/
theorem slot_leaders_permute (P : Primitives) (snapshot : EpochSnapshot) (height : Nat)
    (parentHash : Bytes) (hne : snapshot.validators ≠ []) (h : snapshot.Electable) :
    ((List.range snapshot.validators.length).map
        (slotLeaderAtRank P snapshot height parentHash)).Perm
      (snapshot.validators.map fun v => some v.address) ∧
      (∀ rank, snapshot.validators.length ≤ rank →
        slotLeaderAtRank P snapshot height parentHash rank =
          slotLeaderAtRank P snapshot height parentHash (snapshot.validators.length - 1)) ∧
      ∀ rank excluded, slotCandidates snapshot excluded ≠ [] →
        (slotTicket P snapshot height parentHash rank excluded).isSome := by
  have hfair := @slotLeader_fair P snapshot height parentHash h
  have hsize : (snapshot.validators.map Validator.address).length = snapshot.validators.length :=
    List.length_map _
  refine ⟨?_, ?_, ?_⟩
  · have hperm := hfair.map_drawn_perm h.nodup
    have hleaders : slotLeaderAtRank P snapshot height parentHash =
        fun rank => (drawn (slotLeaderExcluding P snapshot height parentHash) (rank + 1)).head? :=
      funext fun _ => slotLeaderAtRank_eq h hne
    rw [hsize, List.map_map] at hperm
    rw [hleaders]
    exact hperm
  · intro rank hrank
    have hpos : 0 < snapshot.validators.length := List.length_pos_iff.mpr hne
    rw [slotLeaderAtRank_eq h hne, slotLeaderAtRank_eq h hne, Nat.sub_add_cancel hpos,
      hfair.drawn_of_le h.nodup (hsize.le.trans (Nat.le_succ_of_le hrank)), hsize]
  · intro rank excluded hcandidates
    obtain ⟨v, hv⟩ := List.exists_mem_of_ne_nil _ hcandidates
    exact isSome_slotTicket h hv

/-- Three validators with stakes 1, 2 and 3. -/
def electableSample : EpochSnapshot where
  epoch := 0
  startHeight := 0
  validators := [1, 2, 3].map fun n =>
    { address := [UInt8.ofNat n], publicKey := [UInt8.ofNat n], stake := n }
  totalStake := 6

theorem slot_leaders_permute_sample :
    ((List.range 3).map (slotLeaderAtRank Reference.primitives electableSample 1 [])).Perm
      [some [1], some [2], some [3]] :=
  (slot_leaders_permute Reference.primitives electableSample 1 [] (by decide)
    ⟨by decide, by decide, by decide⟩).1

end Curs3d
