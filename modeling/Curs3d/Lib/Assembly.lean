import Curs3d.Lib.KeyMap

/-!
# Numbered parts

Parts of a whole arrive in any order and are kept under their numbers. Counting them tells that the
whole is there only as long as no part has a number beyond it: with all numbers below `n`
there are `n` parts exactly when none is missing (`size_eq_iff`); with one number too high, `n` parts
leave a gap (`missing_of_stray`).
-/

set_option autoImplicit false

namespace Assembly

variable {α : Type}

abbrev Parts (α : Type) := Std.ExtTreeMap Nat α compare

variable {parts : Parts α} {n : Nat}

/-! ## Counting -/

theorem keys_card (parts : Parts α) : parts.keys.toFinset.card = parts.size := by
  rw [List.toFinset_card_of_nodup parts.nodup_keys, Std.ExtTreeMap.length_keys]

theorem keys_subset (hbelow : ∀ i ∈ parts, i < n) : parts.keys.toFinset ⊆ Finset.range n := by
  intro i hi
  rw [List.mem_toFinset, Std.ExtTreeMap.mem_keys] at hi
  exact Finset.mem_range.mpr (hbelow i hi)

/-- **With no number beyond the whole, counting the parts is enough.** -/
theorem size_eq_iff (hbelow : ∀ i ∈ parts, i < n) : parts.size = n ↔ ∀ i < n, i ∈ parts := by
  have hsub := keys_subset hbelow
  rw [← keys_card]
  constructor
  · intro hcard i hi
    have heq := Finset.eq_of_subset_of_card_le hsub (by rw [Finset.card_range, hcard])
    have hmem : i ∈ parts.keys.toFinset := by
      rw [heq]
      exact Finset.mem_range.mpr hi
    rwa [List.mem_toFinset, Std.ExtTreeMap.mem_keys] at hmem
  · intro hall
    have heq : parts.keys.toFinset = Finset.range n := by
      apply Finset.Subset.antisymm hsub
      intro i hi
      rw [List.mem_toFinset, Std.ExtTreeMap.mem_keys]
      exact hall i (Finset.mem_range.mp hi)
    rw [heq, Finset.card_range]

/-- **With a number beyond it, the right count hides a gap.** -/
theorem missing_of_stray {k : Nat} (hstray : k ∈ parts) (hk : n ≤ k) (hsize : parts.size = n) :
    ∃ i < n, i ∉ parts := by
  by_contra hall
  simp only [not_exists, not_and, not_not] at hall
  have hsub : insert k (Finset.range n) ⊆ parts.keys.toFinset := by
    intro i hi
    rw [List.mem_toFinset, Std.ExtTreeMap.mem_keys]
    obtain rfl | hi := Finset.mem_insert.mp hi
    · exact hstray
    · exact hall i (Finset.mem_range.mp hi)
  have hcard := Finset.card_le_card hsub
  rw [Finset.card_insert_of_notMem (by simpa using hk), Finset.card_range, keys_card] at hcard
  omega

/-! ## Taking the parts out in order -/

/-- The parts `start, start + 1, ..` (`count` of them), taken out one by one up to the first that is
missing: what was taken, what is left, and whether none was missing. -/
def takeFrom : Nat → Nat → Parts α → List α × Parts α × Bool
  | 0, _, parts => ([], parts, true)
  | count + 1, start, parts =>
    match parts[start]? with
    | none => ([], parts, false)
    | some part =>
      let (taken, left, complete) := takeFrom count (start + 1) (parts.erase start)
      (part :: taken, left, complete)

theorem takeFrom_of_some {count start : Nat} {part : α} (h : parts[start]? = some part) :
    takeFrom (count + 1) start parts =
      (part :: (takeFrom count (start + 1) (parts.erase start)).1,
        (takeFrom count (start + 1) (parts.erase start)).2) := by
  rw [takeFrom, h]

theorem takeFrom_of_none {count start : Nat} (h : parts[start]? = none) :
    takeFrom (count + 1) start parts = ([], parts, false) := by
  rw [takeFrom, h]

/-- Parts that are all there come out in order. -/
theorem takeFrom_of_whole {whole : List α} {start : Nat}
    (h : ∀ i < whole.length, parts[start + i]? = whole[i]?) :
    (takeFrom whole.length start parts).1 = whole ∧
      (takeFrom whole.length start parts).2.2 = true := by
  induction whole generalizing start parts with
  | nil => exact ⟨rfl, rfl⟩
  | cons part rest ih =>
    have hfirst : parts[start]? = some part := h 0 (by simp)
    have hrest : ∀ i < rest.length, (parts.erase start)[start + 1 + i]? = rest[i]? := by
      intro i hi
      rw [KeyMap.getElem?_erase_eq, if_neg (by omega), show start + 1 + i = start + (i + 1) by omega]
      have hnext := h (i + 1) (by simpa using hi)
      simpa using hnext
    obtain ⟨htaken, hcomplete⟩ := ih hrest
    rw [List.length_cons, takeFrom_of_some hfirst]
    exact ⟨by rw [htaken], hcomplete⟩

theorem takeFrom_incomplete {count start i : Nat} (hi : i < count) (hmissing : start + i ∉ parts) :
    (takeFrom count start parts).2.2 = false := by
  induction count generalizing start parts i with
  | zero => exact absurd hi (Nat.not_lt_zero i)
  | succ count ih =>
    cases hfirst : parts[start]? with
    | none => rw [takeFrom_of_none hfirst]
    | some part =>
      rw [takeFrom_of_some hfirst]
      cases i with
      | zero =>
        rw [Nat.add_zero, Std.ExtTreeMap.mem_iff_isSome_getElem?, hfirst] at hmissing
        exact absurd rfl hmissing
      | succ i =>
        apply ih (i := i) (by omega)
        rw [Std.ExtTreeMap.mem_iff_isSome_getElem?] at hmissing ⊢
        rw [KeyMap.getElem?_erase_eq, if_neg (by omega),
          show start + 1 + i = start + (i + 1) by omega]
        exact hmissing

/-- A number beyond the whole stays. -/
theorem getElem?_takeFrom {count start k : Nat} (hk : start + count ≤ k) :
    (takeFrom count start parts).2.1[k]? = parts[k]? := by
  induction count generalizing start parts with
  | zero => rfl
  | succ count ih =>
    cases hfirst : parts[start]? with
    | none => rw [takeFrom_of_none hfirst]
    | some part =>
      rw [takeFrom_of_some hfirst]
      rw [ih (by omega), KeyMap.getElem?_erase_eq, if_neg (by omega)]

end Assembly
