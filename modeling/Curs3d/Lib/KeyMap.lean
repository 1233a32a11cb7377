import Mathlib

/-!
# Finite maps with entries, and totals over them

Finite maps are `Std.ExtTreeMap`: two maps with the same lookups are *equal*, so "the state is
exactly as before" can be an equation, and `toList` is sorted by key, so code that sorts its
entries before reading them is modelled by reading them.

What is added here is the little that the standard library does not state in the form the
proofs use it:

* `getElem?_insert_eq`, `getElem?_erase_eq`: the two read-after-write laws with key *equality*
  in place of a comparison result;
* `upsert`, the "entry, or a default, then change it" idiom;
* `sumBy`, a total over all values, with its one law `sumBy_insert`: writing one key moves the
  total by exactly the difference at that key.
-/

set_option autoImplicit false

namespace KeyMap

open Std

variable {α β : Type} {cmp : α → α → Ordering} [TransCmp cmp] [LawfulEqCmp cmp]
  [DecidableEq α]

theorem getElem?_insert_eq (m : ExtTreeMap α β cmp) (k a : α) (v : β) :
    (m.insert k v)[a]? = if k = a then some v else m[a]? := by
  rw [ExtTreeMap.getElem?_insert]
  by_cases h : k = a
  · subst h
    simp
  · simp [h, LawfulEqCmp.compare_eq_iff_eq]

theorem getElem?_erase_eq (m : ExtTreeMap α β cmp) (k a : α) :
    (m.erase k)[a]? = if k = a then none else m[a]? := by
  rw [ExtTreeMap.getElem?_erase]
  by_cases h : k = a
  · subst h
    simp
  · simp [h, LawfulEqCmp.compare_eq_iff_eq]

theorem getElem?_insert_ne (m : ExtTreeMap α β cmp) {k a : α} (v : β) (h : k ≠ a) :
    (m.insert k v)[a]? = m[a]? := by
  simp [getElem?_insert_eq, h]

/-- Writing back the value a key already has changes nothing. -/
theorem insert_eq_self {m : ExtTreeMap α β cmp} {k : α} {v : β} (h : m[k]? = some v) :
    m.insert k v = m := by
  refine ExtTreeMap.ext_getElem? fun a => ?_
  rw [getElem?_insert_eq]
  split
  · next hk => rw [← hk, h]
  · rfl

theorem insert_comm (m : ExtTreeMap α β cmp) {k l : α} (v w : β) (h : k ≠ l) :
    (m.insert k v).insert l w = (m.insert l w).insert k v := by
  refine ExtTreeMap.ext_getElem? fun a => ?_
  simp only [getElem?_insert_eq]
  split
  · next hl =>
    split
    · next hk => exact absurd (hk.trans hl.symm) h
    · rfl
  · rfl

/-! ## Maps collected from a list -/

/-- A value found afterwards was written by the list or there before. -/
theorem getElem?_foldl_insert_eq_some {γ : Type} (key : γ → α) (val : γ → β) {l : List γ}
    {m : ExtTreeMap α β cmp} {k : α} {v : β}
    (h : (l.foldl (fun m x => m.insert (key x) (val x)) m)[k]? = some v) :
    (∃ x ∈ l, key x = k ∧ val x = v) ∨ m[k]? = some v := by
  induction l generalizing m with
  | nil => exact .inr h
  | cons x l ih =>
    rcases ih h with ⟨y, hy, hk, hv⟩ | hm
    · exact .inl ⟨y, List.mem_cons_of_mem _ hy, hk, hv⟩
    · rw [getElem?_insert_eq] at hm
      split at hm
      · next hk => exact .inl ⟨x, List.mem_cons_self, hk, Option.some.inj hm⟩
      · exact .inr hm

/-- A key the list does not write keeps its old value. -/
theorem getElem?_foldl_insert_of_notMem {γ : Type} (key : γ → α) (val : γ → β) (l : List γ)
    (m : ExtTreeMap α β cmp) {k : α} (hk : k ∉ l.map key) :
    (l.foldl (fun m x => m.insert (key x) (val x)) m)[k]? = m[k]? := by
  induction l generalizing m with
  | nil => rfl
  | cons y ys ih =>
    rw [List.map_cons, List.mem_cons, not_or] at hk
    rw [List.foldl_cons, ih _ hk.2, getElem?_insert_ne _ _ (Ne.symm hk.1)]

/-- With distinct keys every entry of the list is in the map. -/
theorem getElem?_foldl_insert_of_mem {γ : Type} (key : γ → α) (val : γ → β) (l : List γ)
    (m : ExtTreeMap α β cmp) (hnd : (l.map key).Nodup) {x : γ} (hx : x ∈ l) :
    (l.foldl (fun m x => m.insert (key x) (val x)) m)[key x]? = some (val x) := by
  induction l generalizing m with
  | nil => exact absurd hx (by simp)
  | cons y ys ih =>
    rw [List.map_cons, List.nodup_cons] at hnd
    rw [List.foldl_cons]
    rcases List.mem_cons.mp hx with rfl | hx
    · rw [getElem?_foldl_insert_of_notMem key val ys _ hnd.1, getElem?_insert_eq, if_pos rfl]
    · exact ih _ hnd.2 hx

/-- Every key the list writes is in the map. -/
theorem getElem?_foldl_insert_isSome {γ : Type} (key : γ → α) (val : γ → β) (l : List γ)
    (m : ExtTreeMap α β cmp) {k : α} (hk : k ∈ l.map key) :
    ∃ v, (l.foldl (fun m x => m.insert (key x) (val x)) m)[k]? = some v := by
  induction l generalizing m with
  | nil => exact absurd hk (by simp)
  | cons y ys ih =>
    rw [List.foldl_cons]
    by_cases hys : k ∈ ys.map key
    · exact ih _ hys
    · obtain rfl : k = key y := by simpa [hys] using hk
      exact ⟨val y, by
        rw [getElem?_foldl_insert_of_notMem key val ys _ hys, getElem?_insert_eq, if_pos rfl]⟩

/-! ## Folds that touch one key at a time -/

/-- A step that changes the entry of its own key and no other. -/
def Touches {γ : Type} (key : γ → α) (upd : γ → Option β → Option β)
    (step : ExtTreeMap α β cmp → γ → ExtTreeMap α β cmp) : Prop :=
  ∀ m x a, (step m x)[a]? = if key x = a then upd x m[a]? else m[a]?

section Touches

variable {γ : Type} {key : γ → α} {upd : γ → Option β → Option β}
  {step : ExtTreeMap α β cmp → γ → ExtTreeMap α β cmp}

omit [LawfulEqCmp cmp] in
theorem Touches.foldl_of_notMem (h : Touches key upd step) {l : List γ} {a : α}
    (ha : a ∉ l.map key) (m : ExtTreeMap α β cmp) : (l.foldl step m)[a]? = m[a]? := by
  induction l generalizing m with
  | nil => rfl
  | cons x l ih =>
    rw [List.map_cons, List.mem_cons, not_or] at ha
    rw [List.foldl_cons, ih ha.2, h m x a, if_neg (Ne.symm ha.1)]

omit [LawfulEqCmp cmp] in
theorem Touches.foldl_of_mem (h : Touches key upd step) {l : List γ} (hnd : (l.map key).Nodup)
    {x : γ} (hx : x ∈ l) (m : ExtTreeMap α β cmp) :
    (l.foldl step m)[key x]? = upd x m[key x]? := by
  induction l generalizing m with
  | nil => exact absurd hx (by simp)
  | cons y l ih =>
    rw [List.map_cons, List.nodup_cons] at hnd
    rw [List.foldl_cons]
    rcases List.mem_cons.mp hx with rfl | hx
    · rw [h.foldl_of_notMem hnd.1, h m x (key x), if_pos rfl]
    · rw [ih hnd.2 hx, h m y (key x), if_neg]
      intro heq
      exact hnd.1 (heq ▸ List.mem_map_of_mem hx)

end Touches

omit [DecidableEq α] in
theorem nodup_keys_toList {γ : Type} (m : ExtTreeMap α γ cmp) : (m.toList.map Prod.fst).Nodup := by
  rw [List.Nodup, List.pairwise_map]
  refine List.Pairwise.imp ?_ (ExtTreeMap.distinct_keys_toList (t := m))
  intro a b hab heq
  exact hab (LawfulEqCmp.compare_eq_iff_eq.mpr heq)

/-- The entries of one map written into another, one after the other. -/
theorem Touches.foldl_toList {γ : Type} {upd : α × γ → Option β → Option β}
    {step : ExtTreeMap α β cmp → α × γ → ExtTreeMap α β cmp} (h : Touches Prod.fst upd step)
    (src : ExtTreeMap α γ cmp) (m : ExtTreeMap α β cmp) (a : α) :
    (src.toList.foldl step m)[a]? = (src[a]?).elim m[a]? fun v => upd (a, v) m[a]? := by
  cases hsrc : src[a]? with
  | none =>
    apply h.foldl_of_notMem
    intro hmem
    obtain ⟨⟨k, v⟩, hkv, rfl⟩ := List.mem_map.mp hmem
    rw [ExtTreeMap.mem_toList_iff_getElem?_eq_some] at hkv
    exact absurd (hsrc.symm.trans hkv) (by simp)
  | some v =>
    have hmem : (a, v) ∈ src.toList := ExtTreeMap.mem_toList_iff_getElem?_eq_some.mpr hsrc
    exact h.foldl_of_mem (nodup_keys_toList src) hmem m

theorem touches_insert {γ : Type} (key : γ → α) (val : γ → β) :
    Touches key (fun x _ => some (val x))
      (fun (m : ExtTreeMap α β cmp) x => m.insert (key x) (val x)) :=
  fun m x a => getElem?_insert_eq m (key x) a (val x)

/-! ## `entry(k).or_default()`, then a change -/

/-- The value stored at `k`, or `d`, changed by `f` and written back. -/
def upsert (m : ExtTreeMap α β cmp) (k : α) (d : β) (f : β → β) : ExtTreeMap α β cmp :=
  m.insert k (f (m[k]?.getD d))

theorem getElem?_upsert (m : ExtTreeMap α β cmp) (k a : α) (d : β)
    (f : β → β) : (upsert m k d f)[a]? = if k = a then some (f (m[k]?.getD d)) else m[a]? :=
  getElem?_insert_eq m k a _

/-! ## Totals -/

/-- The total of `f` over all values of the map. -/
def sumBy (f : β → Nat) (m : ExtTreeMap α β cmp) : Nat :=
  (m.toList.map fun e => f e.2).sum

omit [DecidableEq α] in
theorem nodup_toList (m : ExtTreeMap α β cmp) : m.toList.Nodup := by
  refine List.Pairwise.imp ?_ (ExtTreeMap.distinct_keys_toList (t := m))
  rintro a b hab rfl
  exact hab (LawfulEqCmp.compare_eq_iff_eq.mpr rfl)

/-- After a write the entries are the written one and those of the other keys. -/
theorem toList_insert_perm (m : ExtTreeMap α β cmp) (k : α) (v : β) :
    (m.insert k v).toList.Perm ((k, v) :: (m.erase k).toList) := by
  have hmem : ∀ w, (k, w) ∉ (m.erase k).toList := by
    intro w hw
    rw [ExtTreeMap.mem_toList_iff_getElem?_eq_some, getElem?_erase_eq] at hw
    simp at hw
  refine (List.perm_ext_iff_of_nodup (nodup_toList _) ?_).mpr ?_
  · exact List.nodup_cons.mpr ⟨hmem v, nodup_toList _⟩
  · rintro ⟨a, w⟩
    simp only [List.mem_cons, ExtTreeMap.mem_toList_iff_getElem?_eq_some, getElem?_insert_eq,
      getElem?_erase_eq, Prod.mk.injEq]
    by_cases h : k = a
    · subst h
      simp [eq_comm]
    · simp [h, Ne.symm h]

theorem toList_perm_of_some {m : ExtTreeMap α β cmp} {k : α} {v : β} (h : m[k]? = some v) :
    m.toList.Perm ((k, v) :: (m.erase k).toList) := by
  have hp := toList_insert_perm m k v
  rwa [insert_eq_self h] at hp

theorem erase_eq_self_of_none {m : ExtTreeMap α β cmp} {k : α} (h : m[k]? = none) :
    m.erase k = m := by
  refine ExtTreeMap.ext_getElem? fun a => ?_
  rw [getElem?_erase_eq]
  split
  · next hk => rw [← hk, h]
  · rfl

/-- **Writing one key moves the total by the difference at that key.** -/
theorem sumBy_insert (f : β → Nat) (m : ExtTreeMap α β cmp) (k : α) (v : β) :
    sumBy f (m.insert k v) + (m[k]?.elim 0 f) = sumBy f m + f v := by
  have hnew : sumBy f (m.insert k v) = f v + sumBy f (m.erase k) := by
    simpa [sumBy] using ((toList_insert_perm m k v).map fun e => f e.2).sum_eq
  cases hk : m[k]? with
  | none =>
    rw [hnew, erase_eq_self_of_none hk]
    simp [Nat.add_comm]
  | some w =>
    have hold : sumBy f m = f w + sumBy f (m.erase k) := by
      simpa [sumBy] using ((toList_perm_of_some hk).map fun e => f e.2).sum_eq
    rw [hnew, hold]
    simp
    omega

/-- Any one value is within the total. -/
theorem le_sumBy (f : β → Nat) {m : ExtTreeMap α β cmp} {k : α} {v : β} (h : m[k]? = some v) :
    f v ≤ sumBy f m := by
  have hp := ((toList_perm_of_some h).map fun e => f e.2).sum_eq
  simp only [List.map_cons, List.sum_cons] at hp
  unfold sumBy
  omega

/-- The total after an `upsert`, from the value that was there. -/
theorem sumBy_upsert (f : β → Nat) (m : ExtTreeMap α β cmp) (k : α) (d : β) (g : β → β)
    (hd : f d = 0) :
    sumBy f (upsert m k d g) + f (m[k]?.getD d) = sumBy f m + f (g (m[k]?.getD d)) := by
  have h := sumBy_insert f m k (g (m[k]?.getD d))
  have he : m[k]?.elim 0 f = f (m[k]?.getD d) := by
    cases m[k]? with
    | none => simp [hd]
    | some w => rfl
  rwa [he] at h

theorem getD_le_sumBy (f : β → Nat) (m : ExtTreeMap α β cmp) (k : α) (d : β) (hd : f d = 0) :
    f (m[k]?.getD d) ≤ sumBy f m := by
  cases hk : m[k]? with
  | none => simp [hd]
  | some w => exact le_sumBy f hk

theorem sumBy_eq_erase (f : β → Nat) (m : ExtTreeMap α β cmp) (k : α) :
    sumBy f m = m[k]?.elim 0 f + sumBy f (m.erase k) := by
  cases hk : m[k]? with
  | none =>
    rw [erase_eq_self_of_none hk]
    simp
  | some w => simpa [sumBy] using ((toList_perm_of_some hk).map fun e => f e.2).sum_eq

/-- The values under distinct keys are within the total together. -/
theorem sum_map_le_sumBy (f : β → Nat) {m : ExtTreeMap α β cmp} {l : List α} (hnd : l.Nodup) :
    (l.map fun k => m[k]?.elim 0 f).sum ≤ sumBy f m := by
  induction l generalizing m with
  | nil => exact Nat.zero_le _
  | cons k l ih =>
    rw [List.nodup_cons] at hnd
    have hrest : l.map (fun a => m[a]?.elim 0 f) = l.map fun a => (m.erase k)[a]?.elim 0 f := by
      refine List.map_congr_left fun a ha => ?_
      have hne : k ≠ a := fun heq => hnd.1 (heq ▸ ha)
      rw [getElem?_erase_eq, if_neg hne]
    rw [List.map_cons, List.sum_cons, hrest, sumBy_eq_erase f m k]
    exact Nat.add_le_add_left (ih hnd.2) _

end KeyMap
