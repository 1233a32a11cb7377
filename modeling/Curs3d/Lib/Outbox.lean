import Mathlib

/-!
# An outbox with room for so many

Messages are handed in. One goes out at once, or waits; what waits is tried again, and when there is no room left, the
oldest makes place. `Outbox` keeps the account of every message, and `Step` is all that may happen to it. What
follows holds of every implementation that takes such steps (`Accounted.run`): each message handed in is sent, waits,
or was dropped, and only one of these; and what was dropped was handed in before what waits.
-/

set_option autoImplicit false

/-- Every message, by what became of it. -/
structure Outbox (α : Type) where
  submitted : List α := []
  sent : List α := []
  waiting : List α := []
  dropped : List α := []

namespace Outbox

variable {α : Type} {capacity : Nat} {o o' : Outbox α}

inductive Step (capacity : Nat) (o : Outbox α) : Outbox α → Prop
  | send (m : α) : Step capacity o { o with submitted := o.submitted ++ [m], sent := o.sent ++ [m] }
  | keep (m : α) (hroom : o.waiting.length < capacity) :
    Step capacity o { o with submitted := o.submitted ++ [m], waiting := o.waiting ++ [m] }
  | overflow (m oldest : α) (rest : List α) (hwaiting : o.waiting = oldest :: rest)
    (hfull : capacity ≤ o.waiting.length) :
    Step capacity o { o with
      submitted := o.submitted ++ [m]
      waiting := rest ++ [m]
      dropped := o.dropped ++ [oldest] }
  | resend (remaining gone : List α) (hall : o.waiting.Perm (gone ++ remaining))
    (hkept : remaining.Sublist o.waiting) :
    Step capacity o { o with waiting := remaining, sent := o.sent ++ gone }

/-- Each message is in one place, what waits is in order and behind what was dropped, and there is room for it. -/
structure Accounted (capacity : Nat) (o : Outbox α) : Prop where
  each : o.submitted.Perm (o.sent ++ (o.dropped ++ o.waiting))
  order : (o.dropped ++ o.waiting).Sublist o.submitted
  bounded : o.waiting.length ≤ capacity

theorem accounted_empty (capacity : Nat) : Accounted capacity ({} : Outbox α) :=
  ⟨.refl _, .refl _, Nat.zero_le _⟩

/-- **A step keeps the account.** -/
theorem Accounted.step (h : Accounted capacity o) (hstep : Step capacity o o') : Accounted capacity o' := by
  cases hstep with
  | send m =>
    refine ⟨?_, h.order.trans (List.sublist_append_left _ _), h.bounded⟩
    calc o.submitted ++ [m]
        |>.Perm (o.sent ++ (o.dropped ++ o.waiting) ++ [m]) := h.each.append_right [m]
      _ |>.Perm (o.sent ++ [m] ++ (o.dropped ++ o.waiting)) := by
        rw [List.append_assoc, List.append_assoc o.sent]
        exact List.perm_append_comm.append_left o.sent
  | keep m hroom =>
    refine ⟨?_, ?_, ?_⟩
    · have hmore := h.each.append_right [m]
      rwa [List.append_assoc, List.append_assoc] at hmore
    · have hmore := h.order.append_right [m]
      rwa [List.append_assoc] at hmore
    · rw [List.length_append]
      exact hroom
  | overflow m oldest rest hwaiting hfull =>
    have heach := h.each
    have horder := h.order
    have hbounded := h.bounded
    rw [hwaiting] at heach horder hbounded
    refine ⟨?_, ?_, ?_⟩
    · have hmore := heach.append_right [m]
      simpa only [List.append_assoc, List.cons_append, List.nil_append] using hmore
    · have hmore := horder.append_right [m]
      simpa only [List.append_assoc, List.cons_append, List.nil_append] using hmore
    · rw [List.length_append]
      exact hbounded
  | resend remaining gone hall hkept =>
    refine ⟨?_, ?_, hkept.length_le.trans h.bounded⟩
    · refine h.each.trans ?_
      have hmoved : (o.dropped ++ o.waiting).Perm (gone ++ (o.dropped ++ remaining)) :=
        (hall.append_left o.dropped).trans (by
          rw [← List.append_assoc, ← List.append_assoc]
          exact List.perm_append_comm.append_right remaining)
      rw [List.append_assoc]
      exact hmoved.append_left o.sent
    · exact (hkept.append_left o.dropped).trans h.order

/-- **And so does every run.** -/
theorem Accounted.run (h : Accounted capacity o) (hrun : Relation.ReflTransGen (Step capacity) o o') :
    Accounted capacity o' := by
  induction hrun with
  | refl => exact h
  | tail _ hstep ih => exact ih.step hstep

end Outbox
