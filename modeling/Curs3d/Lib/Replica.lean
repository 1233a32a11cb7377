import Mathlib

/-!
# Copies of one log

One place, the leader, appends to a log. Everybody else copies it from slices: where a slice starts and the
items from there. Any copy sends slices of what it has, and a slice may arrive late, twice or never. A
receiver keeps what it has and takes from a slice what comes next, all of it or a part, unless the
slice starts past its end (`Slice.extend`). Every copy is then a prefix of the leader's log (`Consistent`), whatever
arrives in whatever order.
-/

set_option autoImplicit false

namespace Replica

variable {ι α : Type}

structure Slice (α : Type) where
  start : Nat
  items : List α

namespace Slice

/-- The items stand one after the other in `l`, from `start` on. -/
def Of (s : Slice α) (l : List α) : Prop := s.items <+: l.drop s.start

/-- `own` with what the slice has beyond it. -/
def extend (s : Slice α) (own : List α) : List α := own ++ s.items.drop (own.length - s.start)

variable {s : Slice α} {l l' own : List α}

theorem of_take (l : List α) (start n : Nat) : (Slice.mk start ((l.drop start).take n)).Of l :=
  List.take_prefix _ _

theorem Of.grow (h : s.Of l) (hl : l <+: l') : s.Of l' := h.trans (hl.drop s.start)

theorem Of.getElem? (h : s.Of l) {k : Nat} {a : α} (hk : s.items[k]? = some a) :
    l[s.start + k]? = some a := by
  obtain ⟨rest, hrest⟩ := h
  rw [← List.getElem?_drop, ← hrest,
    List.getElem?_append_left (List.getElem?_eq_some_iff.mp hk).1, hk]

/-- **Taking a slice of the log leaves a prefix of the log.** -/
theorem Of.extend_isPrefix (h : s.Of l) (hown : own <+: l) (hstart : s.start ≤ own.length) :
    s.extend own <+: l := by
  obtain ⟨rest, rfl⟩ := hown
  have hbeyond : s.items.drop (own.length - s.start) <+: rest := by
    have hdrop := List.IsPrefix.drop h (own.length - s.start)
    rwa [List.drop_drop, Nat.add_sub_cancel' hstart, List.drop_left] at hdrop
  exact (List.prefix_append_right_inj own).mpr hbeyond

end Slice

/-! ## The system -/

/-- The logs, and every slice ever sent with the one it is for. -/
structure System (ι α : Type) where
  log : ι → List α
  sent : List (ι × Slice α)

variable [DecidableEq ι] {leader : ι} {s s' : System ι α}

inductive Step (leader : ι) (s : System ι α) : System ι α → Prop
  | append (items : List α) :
    Step leader s { s with log := Function.update s.log leader (s.log leader ++ items) }
  | send (i target : ι) (start n : Nat) :
    Step leader s { s with sent := s.sent ++ [(target, ⟨start, ((s.log i).drop start).take n⟩)] }
  | receive (i : ι) (slice : Slice α) (l : List α) (hsent : (i, slice) ∈ s.sent)
    (hstart : slice.start ≤ (s.log i).length) (hkeeps : s.log i <+: l)
    (htakes : l <+: slice.extend (s.log i)) :
    Step leader s { s with log := Function.update s.log i l }

/-- Every log and every slice is part of the leader's log. -/
structure Consistent (leader : ι) (s : System ι α) : Prop where
  logs : ∀ i, s.log i <+: s.log leader
  sent : ∀ m ∈ s.sent, m.2.Of (s.log leader)

/-- **Every copy stays a prefix of the leader's log.** -/
theorem Consistent.step (h : Consistent leader s) (hs : Step leader s s') :
    Consistent leader s' := by
  cases hs with
  | append items =>
    have hgrow : s.log leader <+: s.log leader ++ items := List.prefix_append _ _
    constructor
    · intro i
      simp only [Function.update_self]
      by_cases hi : i = leader
      · rw [hi, Function.update_self]
      · rw [Function.update_of_ne hi]
        exact (h.logs i).trans hgrow
    · intro m hm
      simp only [Function.update_self]
      exact (h.sent m hm).grow hgrow
  | send i target start n =>
    refine ⟨h.logs, ?_⟩
    intro m hm
    rcases List.mem_append.mp hm with hold | hnew
    · exact h.sent m hold
    · rw [List.mem_singleton.mp hnew]
      exact (Slice.of_take (s.log i) start n).grow (h.logs i)
  | receive i slice l hsent hstart hkeeps htakes =>
    have hl : l <+: s.log leader :=
      htakes.trans ((h.sent _ hsent).extend_isPrefix (h.logs i) hstart)
    -- the leader has nothing to learn
    have hleader : Function.update s.log i l leader = s.log leader := by
      by_cases hi : leader = i
      · subst hi
        rw [Function.update_self]
        exact hl.eq_of_length (le_antisymm hl.length_le hkeeps.length_le)
      · rw [Function.update_of_ne hi]
    constructor
    · intro j
      dsimp only
      rw [hleader]
      by_cases hj : j = i
      · rw [hj, Function.update_self]
        exact hl
      · rw [Function.update_of_ne hj]
        exact h.logs j
    · intro m hm
      dsimp only
      rw [hleader]
      exact h.sent m hm

end Replica
