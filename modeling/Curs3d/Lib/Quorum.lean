import Mathlib

/-!
# Weighted quorums

Members carry weights and a quorum is a set that holds at least two thirds of the total. Two
quorums overlap in at least one third (`third_le_of_two_thirds`); when the total is positive
they have a member of positive weight in common (`exists_common_of_two_thirds`).

A quorum usually comes as a list of distinct members with a weight looked up for each;
`sum_map_eq_weight` turns the sum along such a list into the weight of a set.
-/

set_option autoImplicit false

namespace Quorum

variable {α : Type} [DecidableEq α]

/-- The total of `w` over a set. -/
def weight (w : α → Nat) (s : Finset α) : Nat := ∑ a ∈ s, w a

omit [DecidableEq α] in
theorem weight_mono (w : α → Nat) {s t : Finset α} (h : s ⊆ t) : weight w s ≤ weight w t :=
  Finset.sum_le_sum_of_subset h

/-- Two sets inside `s` weigh together at most `s` and what they share. -/
theorem weight_add_le (w : α → Nat) {s a b : Finset α} (ha : a ⊆ s) (hb : b ⊆ s) :
    weight w a + weight w b ≤ weight w s + weight w (a ∩ b) := by
  have h : weight w (a ∪ b) + weight w (a ∩ b) = weight w a + weight w b :=
    Finset.sum_union_inter
  have hu : weight w (a ∪ b) ≤ weight w s := weight_mono w (Finset.union_subset ha hb)
  omega

/-- **Two two-third quorums share a third.** -/
theorem third_le_of_two_thirds (w : α → Nat) {s a b : Finset α} (ha : a ⊆ s) (hb : b ⊆ s)
    (qa : 2 * weight w s ≤ 3 * weight w a) (qb : 2 * weight w s ≤ 3 * weight w b) :
    weight w s ≤ 3 * weight w (a ∩ b) := by
  have h := weight_add_le w ha hb
  omega

theorem exists_common_of_two_thirds (w : α → Nat) {s a b : Finset α} (ha : a ⊆ s) (hb : b ⊆ s)
    (hs : 0 < weight w s) (qa : 2 * weight w s ≤ 3 * weight w a)
    (qb : 2 * weight w s ≤ 3 * weight w b) : ∃ x, x ∈ a ∧ x ∈ b := by
  have h := third_le_of_two_thirds w ha hb qa qb
  have hne : (a ∩ b).Nonempty := by
    rw [Finset.nonempty_iff_ne_empty]
    intro he
    rw [he] at h
    simp only [weight, Finset.sum_empty] at h hs
    omega
  obtain ⟨x, hx⟩ := hne
  exact ⟨x, Finset.mem_inter.mp hx⟩

theorem sum_map_eq_weight (w : α → Nat) {l : List α} (h : l.Nodup) :
    (l.map w).sum = weight w l.toFinset :=
  (List.sum_toFinset w h).symm

end Quorum
