import Mathlib.Data.List.Induction
import Mathlib.Data.List.Sort
import Mathlib.Data.List.TakeWhile

/-!
# Orders that do not matter

A list of operations is good as it stands. It stays good under another order when every two
operations that the other order puts the other way round can change places wherever they are
neighbours (`Swappable`): the new order is reached by moving its elements to the front one after the
other, and each move is a row of exchanges of neighbours (`good_of_perm`).

An insertion sort puts two elements the other way round only when its relation does not allow them as
they stand (`inverted_of_insertionSort`), whether or not that relation is transitive; so only such pairs
have to be swappable (`good_insertionSort`).

A relation need not be an order to sort a list: it is enough that it orders the elements of that list
(`pairwise_insertionSort_of_mem`).
-/

set_option autoImplicit false

namespace Reorder

open List

variable {α : Type} {good : List α → Prop} {l l' : List α}

/-- In every order of `l`, neighbours `a b` can change places. -/
def Swappable (good : List α → Prop) (l : List α) (a b : α) : Prop :=
  ∀ pre post, pre ++ a :: b :: post ~ l → good (pre ++ a :: b :: post) →
    good (pre ++ b :: a :: post)

/-- Two elements alone have one order to change. -/
theorem swappable_pair {a b : α} (h : good [b, a]) : Swappable good [a, b] a b := by
  intro pre post hperm _
  have hlength := hperm.length_eq
  simp only [List.length_append, List.length_cons, List.length_nil] at hlength
  have hpre : pre = [] := List.eq_nil_of_length_eq_zero (by omega)
  have hpost : post = [] := List.eq_nil_of_length_eq_zero (by omega)
  rw [hpre, hpost]
  exact h

/-- `x` moves ahead of `ahead`. -/
theorem good_ahead {x : α} {pre ahead post : List α} (hswap : ∀ a ∈ ahead, Swappable good l a x)
    (hperm : pre ++ (ahead ++ x :: post) ~ l) (hgood : good (pre ++ (ahead ++ x :: post))) :
    good (pre ++ x :: (ahead ++ post)) := by
  induction ahead using List.reverseRecOn generalizing post with
  | nil => exact hgood
  | append_singleton front a ih =>
    have hpre : pre ++ (front ++ [a] ++ x :: post) = pre ++ front ++ a :: x :: post := by simp
    have hnext : pre ++ front ++ x :: a :: post = pre ++ (front ++ x :: a :: post) := by simp
    rw [hpre] at hperm hgood
    have hgood' : good (pre ++ front ++ x :: a :: post) := by
      apply hswap a (by simp) (pre ++ front) post hperm hgood
    rw [hnext] at hgood'
    have hperm' : pre ++ (front ++ x :: a :: post) ~ l := by
      rw [← hnext]
      exact ((Perm.swap a x post).append_left (pre ++ front)).trans hperm
    have hmoved := ih (fun a' ha' => hswap a' (List.mem_append_left _ ha')) hperm' hgood'
    simpa using hmoved

/-- **Reordering, behind what is already in place.** -/
theorem good_append_of_perm {pre : List α} {whole : List α} (hnodup : l.Nodup) (hperm : l' ~ l)
    (hswap : ∀ a b, [a, b] <+ l → [b, a] <+ l' → Swappable good whole a b)
    (hwhole : pre ++ l ~ whole) (hgood : good (pre ++ l)) : good (pre ++ l') := by
  -- on the wanted order: its head moves to the front of what is left
  induction l' generalizing pre l with
  | nil =>
    rw [hperm.nil_eq]
    exact hgood
  | cons x rest ih =>
    obtain ⟨ahead, post, rfl⟩ := List.append_of_mem (hperm.mem_iff.mp List.mem_cons_self)
    have hrest : rest ~ ahead ++ post := (hperm.trans List.perm_middle).cons_inv
    have hx : x ∉ ahead ++ post := (List.nodup_cons.mp (List.perm_middle.nodup_iff.mp hnodup)).1
    have hahead : ∀ a ∈ ahead, Swappable good whole a x := by
      intro a ha
      apply hswap
      · have hpair : [a] ++ [x] <+ ahead ++ x :: post :=
          (List.singleton_sublist.mpr ha).append (List.singleton_sublist.mpr List.mem_cons_self)
        exact hpair
      · apply Sublist.cons_cons
        exact List.singleton_sublist.mpr (hrest.mem_iff.mpr (List.mem_append_left _ ha))
    have hmoved := good_ahead hahead hwhole hgood
    have hsub : ahead ++ post <+ ahead ++ x :: post :=
      (List.Sublist.refl ahead).append (List.sublist_cons_self x post)
    have hstep := @ih (ahead ++ post) (pre ++ [x]) (hnodup.sublist hsub) hrest
      (fun a b hab hba => hswap a b (hab.trans hsub) (hba.trans (List.sublist_cons_self x rest)))
      (by
        rw [List.append_assoc]
        exact ((@List.perm_middle _ x ahead post).symm.append_left pre).trans hwhole)
      (by rwa [List.append_assoc])
    rwa [List.append_assoc] at hstep

/-- **A good list stays good in another order when every inverted pair is swappable.** -/
theorem good_of_perm (hnodup : l.Nodup) (hperm : l' ~ l)
    (hswap : ∀ a b, [a, b] <+ l → [b, a] <+ l' → Swappable good l a b) (hgood : good l) :
    good l' :=
  @good_append_of_perm α good l l' [] l hnodup hperm hswap (Perm.refl l) hgood

/-! ## What an insertion sort inverts -/

theorem pair_of_insert {a b x : α} {u v : List α} (h : [b, a] <+ u ++ x :: v) :
    [b, a] <+ u ++ v ∨ (b ∈ u ∧ a = x) ∨ (b = x ∧ a ∈ v) := by
  induction u with
  | nil =>
    cases h with
    | cons _ h => exact .inl h
    | cons_cons _ h => exact .inr (.inr ⟨rfl, List.singleton_sublist.mp h⟩)
  | cons y u ih =>
    cases h with
    | cons _ h =>
      rcases ih h with h | ⟨hb, ha⟩ | h
      · exact .inl (h.cons y)
      · exact .inr (.inl ⟨List.mem_cons_of_mem y hb, ha⟩)
      · exact .inr (.inr h)
    | cons_cons _ h =>
      rcases List.mem_append.mp (List.singleton_sublist.mp h) with ha | ha
      · exact .inl ((List.singleton_sublist.mpr (List.mem_append_left v ha)).cons_cons b)
      · rcases List.mem_cons.mp ha with rfl | ha
        · exact .inr (.inl ⟨List.mem_cons_self, rfl⟩)
        · exact .inl ((List.singleton_sublist.mpr (List.mem_append_right u ha)).cons_cons b)

variable (r : α → α → Prop) [DecidableRel r]

/-- **A pair of the sorted list stood so before, or stood the other way round against the relation.** -/
theorem inverted_of_insertionSort {a b : α} (h : [b, a] <+ l.insertionSort r) :
    [b, a] <+ l ∨ ([a, b] <+ l ∧ ¬ r a b) := by
  induction l with
  | nil => exact .inl h
  | cons x rest ih =>
    rw [List.insertionSort_cons_eq_take_drop] at h
    rcases pair_of_insert h with h | ⟨hb, rfl⟩ | ⟨rfl, ha⟩
    · rw [List.takeWhile_append_dropWhile] at h
      rcases ih h with h | ⟨h, hr⟩
      · exact .inl (h.cons x)
      · exact .inr ⟨h.cons x, hr⟩
    · -- `b` was passed over when `a` went in
      have hr : ¬ r a b := by simpa using List.mem_takeWhile_imp hb
      have hmem : b ∈ rest := by
        rw [← List.mem_insertionSort r]
        exact (List.takeWhile_sublist _).subset hb
      exact .inr ⟨(List.singleton_sublist.mpr hmem).cons_cons a, hr⟩
    · have hmem : a ∈ rest := by
        rw [← List.mem_insertionSort r]
        exact (List.dropWhile_sublist _).subset ha
      exact .inl ((List.singleton_sublist.mpr hmem).cons_cons b)

/-- A relation that orders the list sorts it, whatever it does elsewhere. -/
theorem pairwise_insertionSort_of_mem (htotal : ∀ a ∈ l, ∀ b ∈ l, r a b ∨ r b a)
    (htrans : ∀ a ∈ l, ∀ b ∈ l, ∀ c ∈ l, r a b → r b c → r a c) :
    (l.insertionSort r).Pairwise r := by
  let s : {x // x ∈ l} → {x // x ∈ l} → Prop := fun x y => r x.1 y.1
  have hs : Std.Total s := ⟨fun x y => htotal x.1 x.2 y.1 y.2⟩
  have ht : IsTrans {x // x ∈ l} s := ⟨fun x y z => htrans x.1 x.2 y.1 y.2 z.1 z.2⟩
  have hmap : (l.attach.insertionSort s).map Subtype.val = l.insertionSort r := by
    rw [List.map_insertionSort s r Subtype.val l.attach fun _ _ _ _ => Iff.rfl,
      List.attach_map_subtype_val]
  rw [← hmap, List.pairwise_map]
  exact List.pairwise_insertionSort s l.attach

/-- Two different elements stand one way or the other. -/
theorem pair_or_pair {a b : α} (ha : a ∈ l) (hb : b ∈ l) (hne : a ≠ b) :
    [a, b] <+ l ∨ [b, a] <+ l := by
  induction l with
  | nil => exact absurd ha (by simp)
  | cons x rest ih =>
    rw [List.mem_cons] at ha hb
    rcases ha with rfl | ha
    · rcases hb with rfl | hb
      · exact absurd rfl hne
      · exact .inl ((List.singleton_sublist.mpr hb).cons_cons a)
    · rcases hb with rfl | hb
      · exact .inr ((List.singleton_sublist.mpr ha).cons_cons b)
      · rcases ih ha hb with h | h
        · exact .inl (h.cons x)
        · exact .inr (h.cons x)

/-- Of two different places one comes first. -/
theorem not_inverted {a b : α} (hnodup : l.Nodup) (h : [a, b] <+ l) : ¬ [b, a] <+ l := by
  intro h'
  induction l with
  | nil => exact absurd h (by simp)
  | cons x rest ih =>
    obtain ⟨hx, hrest⟩ := List.nodup_cons.mp hnodup
    cases h with
    | cons _ h =>
      cases h' with
      | cons _ h' => exact ih hrest h h'
      | cons_cons _ _ => exact hx (h.subset (by simp))
    | cons_cons _ h =>
      cases h' with
      | cons _ h' => exact hx (h'.subset (by simp))
      | cons_cons _ _ => exact hx (List.singleton_sublist.mp h)

/-- **Sorting keeps a list good when every pair the relation does not allow is swappable.** -/
theorem good_insertionSort (hnodup : l.Nodup)
    (hswap : ∀ a b, [a, b] <+ l → ¬ r a b → Swappable good l a b) (hgood : good l) :
    good (l.insertionSort r) := by
  apply good_of_perm hnodup (List.perm_insertionSort r l)
  · intro a b hab hba
    rcases inverted_of_insertionSort r hba with hba | ⟨-, hr⟩
    · exact absurd hba (not_inverted hnodup hab)
    · exact hswap a b hab hr
  · exact hgood

end Reorder
