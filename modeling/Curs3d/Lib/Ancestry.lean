import Mathlib.Logic.Relation
import Mathlib.Data.Nat.Basic

/-!
# Walking towards a root

A relation `step child parent` in which every child has at most one parent, one rank lower, is a
forest seen from its leaves. `Reaches` is the walk. What a fork choice needs of it: a walk goes
down in rank, it stays put when the rank does, and two stops of one walk are on one walk
themselves (`Reaches.of_rank_le`). A walk survives in a part of the forest that holds its start
and is closed under parents (`Reaches.restrict`).
-/

set_option autoImplicit false

namespace Ancestry

variable {κ : Type}

/-- `d` is `a` or has it as an ancestor. -/
def Reaches (step : κ → κ → Prop) (d a : κ) : Prop := Relation.ReflTransGen step d a

/-- One parent at most, one rank lower. -/
structure Ranked (step : κ → κ → Prop) (rank : κ → Nat) : Prop where
  unique : Relator.RightUnique step
  descends : ∀ {child parent}, step child parent → rank child = rank parent + 1

variable {step : κ → κ → Prop} {rank : κ → Nat} {d a b : κ}

theorem Reaches.rank_le (hr : Ranked step rank) (h : Reaches step d a) : rank a ≤ rank d := by
  induction h with
  | refl => exact Nat.le_refl _
  | tail _ hs ih =>
    have := hr.descends hs
    omega

theorem Reaches.eq_of_rank_le (hr : Ranked step rank) (h : Reaches step d a)
    (hrank : rank d ≤ rank a) : d = a := by
  rcases Relation.ReflTransGen.cases_head h with rfl | ⟨p, hs, hp⟩
  · rfl
  · have hle := Reaches.rank_le hr hp
    have := hr.descends hs
    omega

/-- Of two ancestors of one descendant the higher reaches the lower. -/
theorem Reaches.of_rank_le (hr : Ranked step rank) (ha : Reaches step d a) (hb : Reaches step d b)
    (hrank : rank a ≤ rank b) : Reaches step b a := by
  rcases Relation.ReflTransGen.total_of_right_unique hr.unique ha hb with hab | hba
  · rw [Reaches.eq_of_rank_le hr hab hrank]
    exact Relation.ReflTransGen.refl
  · exact hba

/-- A walk from `d` other than to itself goes through any parent of `d`. -/
theorem Reaches.through_parent (hr : Ranked step rank) {p : κ} (h : Reaches step d a)
    (hp : step d p) (hne : d ≠ a) : Reaches step p a := by
  rcases Relation.ReflTransGen.cases_head h with rfl | ⟨q, hs, hq⟩
  · exact absurd rfl hne
  · rw [hr.unique hp hs]
    exact hq

theorem Reaches.mono {step' : κ → κ → Prop} (h : Reaches step d a)
    (hstep : ∀ {child parent}, step child parent → step' child parent) : Reaches step' d a := by
  induction h with
  | refl => exact Relation.ReflTransGen.refl
  | tail _ hs ih => exact ih.tail (hstep hs)

/-- A walk stays inside a set that holds its start and is closed under parents. -/
theorem Reaches.restrict {step' : κ → κ → Prop} {kept : κ → Prop} (h : Reaches step d a)
    (hd : kept d) (hclosed : ∀ {child parent}, kept child → step child parent → kept parent)
    (hstep : ∀ {child parent}, kept child → step child parent → step' child parent) :
    Reaches step' d a ∧ kept a := by
  induction h with
  | refl => exact ⟨Relation.ReflTransGen.refl, hd⟩
  | tail _ hs ih => exact ⟨ih.1.tail (hstep ih.2 hs), hclosed ih.2 hs⟩

end Ancestry
