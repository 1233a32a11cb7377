import Mathlib.Order.Basic
import Mathlib.Order.Interval.Set.Basic

/-!
# Two orders blended by blocks

Elements lie in blocks. Inside a block their places decide, between blocks their ranks. Places and
ranks are linear orders, and yet the blend of the two need not be transitive: two of one block whose
places and ranks disagree, and one of another block that ranks between them, go round in a circle.
Nothing else goes wrong (`trans_iff_aligned`).
-/

set_option autoImplicit false

namespace Blend

variable {α σ β γ : Type} [DecidableEq σ] [LinearOrder β] [LinearOrder γ]

/-- By place inside a block, by rank between blocks. -/
def blend (block : α → σ) (place : α → β) (rank : α → γ) (a b : α) : Ordering :=
  if block a = block b then compare (place a) (place b) else compare (rank a) (rank b)

/-- The order is transitive on the elements of `l`. -/
def TransOn (cmp : α → α → Ordering) (l : List α) : Prop :=
  ∀ a ∈ l, ∀ b ∈ l, ∀ c ∈ l, cmp a b ≠ .gt → cmp b c ≠ .gt → cmp a c ≠ .gt

/-- Where a later place does not go with a later rank, nobody of another block ranks between the two. -/
def Aligned (block : α → σ) (place : α → β) (rank : α → γ) (l : List α) : Prop :=
  ∀ a ∈ l, ∀ b ∈ l, ∀ c ∈ l, block a = block b → block c ≠ block a → place a ≤ place b →
    rank c ∈ Set.Icc (rank b) (rank a) → place a = place b ∧ rank a = rank b

instance (block : α → σ) (place : α → β) (rank : α → γ) (l : List α) :
    Decidable (Aligned block place rank l) :=
  inferInstanceAs (Decidable (∀ a ∈ l, ∀ b ∈ l, ∀ c ∈ l, block a = block b → block c ≠ block a →
    place a ≤ place b → rank b ≤ rank c ∧ rank c ≤ rank a → place a = place b ∧ rank a = rank b))

variable {block : α → σ} {place : α → β} {rank : α → γ} {cmp cmp' : α → α → Ordering}
  {l : List α} {a b c : α}

theorem blend_swap : blend block place rank b a = (blend block place rank a b).swap := by
  by_cases h : block a = block b
  · rw [blend, blend, if_pos h, if_pos h.symm]
    exact Std.OrientedCmp.eq_swap
  · rw [blend, blend, if_neg h, if_neg (Ne.symm h)]
    exact Std.OrientedCmp.eq_swap

theorem blend_of_eq (h : block a = block b) :
    blend block place rank a b ≠ .gt ↔ place a ≤ place b := by
  rw [blend, if_pos h]
  exact compare_le_iff_le

theorem blend_of_ne (h : block a ≠ block b) :
    blend block place rank a b ≠ .gt ↔ rank a ≤ rank b := by
  rw [blend, if_neg h]
  exact compare_le_iff_le

theorem TransOn.congr (h : TransOn cmp l) (heq : ∀ a ∈ l, ∀ b ∈ l, cmp a b = cmp' a b) :
    TransOn cmp' l := by
  intro a ha b hb c hc
  rw [← heq a ha b hb, ← heq b hb c hc, ← heq a ha c hc]
  exact h a ha b hb c hc

omit [DecidableEq σ] in
/-- Two of one block rank alike for everybody in another block. -/
theorem Aligned.rank_le (h : Aligned block place rank l) (ha : a ∈ l) (hb : b ∈ l) (hc : c ∈ l)
    (hab : block a = block b) (hca : block c ≠ block a) (hplace : place a ≤ place b) :
    (rank b ≤ rank c → rank a ≤ rank c) ∧ (rank c ≤ rank a → rank c ≤ rank b) := by
  constructor
  · intro hbc
    by_contra hlt
    have hrank := (h a ha b hb c hc hab hca hplace ⟨hbc, le_of_not_ge hlt⟩).2
    exact hlt (hrank ▸ hbc)
  · intro hca'
    by_contra hlt
    have hrank := (h a ha b hb c hc hab hca hplace ⟨le_of_not_ge hlt, hca'⟩).2
    exact hlt (hrank ▸ hca')

/-- **The blend is transitive on a list exactly when places and ranks are aligned.** -/
theorem trans_iff_aligned : TransOn (blend block place rank) l ↔ Aligned block place rank l := by
  constructor
  · rintro h a ha b hb c hc hab hca hplace ⟨hbc, hca'⟩
    have hcb : block c ≠ block b := fun heq => hca (heq.trans hab.symm)
    -- `b` comes before `c` and `c` before `a`, so `b` comes before `a` as well
    have hba := h b hb c hc a ha ((blend_of_ne hcb.symm).mpr hbc) ((blend_of_ne hca).mpr hca')
    rw [blend_of_eq hab.symm] at hba
    have hac := h a ha b hb c hc ((blend_of_eq hab).mpr hplace) ((blend_of_ne hcb.symm).mpr hbc)
    have hcb' := h c hc a ha b hb ((blend_of_ne hca).mpr hca') ((blend_of_eq hab).mpr hplace)
    rw [blend_of_ne hca.symm] at hac
    rw [blend_of_ne hcb] at hcb'
    exact ⟨le_antisymm hplace hba, le_antisymm (hac.trans hcb') (hbc.trans hca')⟩
  · intro h a ha b hb c hc hab hbc
    by_cases hblockab : block a = block b
    · rw [blend_of_eq hblockab] at hab
      by_cases hblockbc : block b = block c
      · rw [blend_of_eq hblockbc] at hbc
        rw [blend_of_eq (hblockab.trans hblockbc)]
        exact hab.trans hbc
      · have hca : block c ≠ block a := fun heq => hblockbc (hblockab.symm.trans heq.symm)
        rw [blend_of_ne hblockbc] at hbc
        rw [blend_of_ne hca.symm]
        exact (h.rank_le ha hb hc hblockab hca hab).1 hbc
    · rw [blend_of_ne hblockab] at hab
      by_cases hblockbc : block b = block c
      · have hac : block a ≠ block c := fun heq => hblockab (heq.trans hblockbc.symm)
        rw [blend_of_eq hblockbc] at hbc
        rw [blend_of_ne hac]
        exact (h.rank_le hb hc ha hblockbc hblockab hbc).2 hab
      · rw [blend_of_ne hblockbc] at hbc
        by_cases hblockac : block a = block c
        · -- `b` ranks between two of one block
          rw [blend_of_eq hblockac]
          by_contra hplace
          have hplaces := h c hc a ha b hb hblockac.symm hblockbc (le_of_not_ge hplace) ⟨hab, hbc⟩
          exact hplace hplaces.1.ge
        · rw [blend_of_ne hblockac]
          exact hab.trans hbc

end Blend
