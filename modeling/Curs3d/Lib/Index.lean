import Curs3d.Lib.KeyMap

/-!
# Indexes

An index is a map in which items are filed one after another, each under its key; a later item
replaces an earlier one of the same key. It is a function of the list it was filed from, so an index
mirrors a list of items exactly when it is the one filed from them and no two of them
contend for a key (`mirrors_iff`).
-/

set_option autoImplicit false

namespace Index

open Std

variable {ι κ α β : Type} {cmp : α → α → Ordering} [TransCmp cmp] {key : ι → α} {val : ι → β} {m : ExtTreeMap α β cmp} {items : List ι}

/-- `m` after the items were filed in it. -/
def file (key : ι → α) (val : ι → β) (m : ExtTreeMap α β cmp) (items : List ι) :
    ExtTreeMap α β cmp :=
  items.foldl (fun m x => m.insert (key x) (val x)) m

/-- The index has an entry for each item and no other. -/
def Mirrors (key : ι → α) (val : ι → β) (m : ExtTreeMap α β cmp) (items : List ι) : Prop :=
  ∀ k v, m[k]? = some v ↔ ∃ x ∈ items, key x = k ∧ val x = v

/-- The value of the last item of a key. -/
def newest (key : ι → α) (val : ι → β) (items : List ι) [DecidableEq α] (k : α) : Option β :=
  (items.reverse.find? fun x => key x = k).map val

/-- Items of one key have one value. -/
def Unambiguous (key : ι → α) (val : ι → β) (items : List ι) : Prop :=
  ∀ x ∈ items, ∀ y ∈ items, key x = key y → val x = val y

instance [DecidableEq α] [DecidableEq β] : Decidable (Unambiguous key val items) :=
  inferInstanceAs (Decidable (∀ x ∈ items, ∀ y ∈ items, key x = key y → val x = val y))

theorem Unambiguous.subset {others : List ι} (h : Unambiguous key val items)
    (hsub : ∀ x ∈ others, x ∈ items) : Unambiguous key val others := by
  intro x hx y hy hkey
  exact h x (hsub x hx) y (hsub y hy) hkey

theorem file_append (more : List ι) :
    file key val m (items ++ more) = file key val (file key val m items) more := by
  simp [file]

theorem file_cons (x : ι) :
    file key val m (x :: items) = file key val (m.insert (key x) (val x)) items := rfl

/-! ## Mirrors -/

theorem Mirrors.unambiguous (h : Mirrors key val m items) : Unambiguous key val items := by
  intro x hx y hy hkey
  have hfirst : m[key x]? = some (val x) := (h _ _).mpr ⟨x, hx, rfl, rfl⟩
  have hsecond : m[key x]? = some (val y) := (h _ _).mpr ⟨y, hy, hkey.symm, rfl⟩
  exact Option.some.inj (hfirst.symm.trans hsecond)

variable [LawfulEqCmp cmp]

/-- Two indexes that mirror the same items are the same. -/
theorem Mirrors.unique {m' : ExtTreeMap α β cmp} (h : Mirrors key val m items)
    (h' : Mirrors key val m' items) : m = m' := by
  apply ExtTreeMap.ext_getElem?
  intro k
  apply Option.ext
  intro v
  rw [h k v, h' k v]

variable [DecidableEq α]

/-- An index answers with the last item of a key. -/
theorem getElem?_file (k : α) :
    (file key val (∅ : ExtTreeMap α β cmp) items)[k]? = newest key val items k := by
  induction items using List.reverseRecOn with
  | nil => simp [file, newest]
  | append_singleton items x ih =>
    rw [file_append, file_cons, file, List.foldl_nil, KeyMap.getElem?_insert_eq, ih, newest, newest,
      List.reverse_append, List.reverse_singleton, List.singleton_append, List.find?_cons]
    by_cases hk : key x = k
    · simp [hk]
    · simp [hk]

/-- Two lists file the same index when they agree on the last item of every key. -/
theorem file_eq_file_iff {others : List ι} :
    file key val (∅ : ExtTreeMap α β cmp) items = file key val ∅ others ↔
      ∀ k, newest key val items k = newest key val others k := by
  constructor
  · intro h k
    have hleft := @getElem?_file _ _ _ cmp _ key val items _ _ k
    rw [← hleft, h, getElem?_file]
  · intro h
    apply ExtTreeMap.ext_getElem?
    intro k
    rw [getElem?_file, getElem?_file, h k]

/-- **The index filed from unambiguous items mirrors them.** -/
theorem mirrors_file (h : Unambiguous key val items) :
    Mirrors key val (file key val (∅ : ExtTreeMap α β cmp) items) items := by
  intro k v
  constructor
  · intro hk
    obtain hitem | hempty := KeyMap.getElem?_foldl_insert_eq_some key val hk
    · exact hitem
    · simp at hempty
  · intro hitem
    obtain ⟨x, hx, rfl, rfl⟩ := hitem
    obtain ⟨w, hw⟩ := KeyMap.getElem?_foldl_insert_isSome key val items
      (∅ : ExtTreeMap α β cmp) (List.mem_map_of_mem hx)
    -- the value found there is that of some item of the same key
    obtain ⟨y, hy, hkey, hval⟩ | hempty := KeyMap.getElem?_foldl_insert_eq_some key val hw
    · rw [file, hw, ← hval, h x hx y hy hkey.symm]
    · simp at hempty

/-- **An index mirrors some items exactly when it is the one filed from them** and they do not
contend for a key. -/
theorem mirrors_iff : Mirrors key val m items ↔
    Unambiguous key val items ∧ m = file key val ∅ items := by
  constructor
  · intro h
    exact ⟨h.unambiguous, h.unique (mirrors_file h.unambiguous)⟩
  · intro h
    obtain ⟨hone, rfl⟩ := h
    exact mirrors_file hone

end Index
