import Mathlib

/-!
# Merkle trees paired from the left

A level is paired from the left, an odd last entry with itself, until one entry is left, the root
(`root`). Pairing the last entry with itself makes two lists with one root in general. Without
duplicates it does not: if no two of the pairs that occur have the same parent, then two lists with
the same root are levels of one tree (`above_of_root_eq`), and if entries of the lists are never parents
they are the same (`eq_of_root_eq`).

A proof is walked up from an entry, one sibling a level (`climb`), and the siblings are anybody's. If
they combine to a parent in the tree only as its own children do, then a walk that ends at the root began at
an entry of the list, and at the one of its index where there is one (`entry_of_climb_eq_root`).
-/

set_option autoImplicit false

namespace Merkle

variable {α : Type} (node : α → α → α)

/-- The pairs a level is cut into. -/
def pairs : List α → List (α × α)
  | [] => []
  | [a] => [(a, a)]
  | a :: b :: rest => (a, b) :: pairs rest

def level (l : List α) : List α := (pairs l).map fun p => node p.1 p.2

/-- The last list of one entry, within `fuel` levels. -/
def root [Inhabited α] : Nat → List α → α
  | _, [] => default
  | _, [a] => a
  | 0, a :: _ => a
  | fuel + 1, l => root fuel (level node l)

/-- `m` is a level of the tree over `l`. -/
inductive Above (l : List α) : List α → Prop
  | refl : Above l l
  | step {m : List α} : Above l m → 2 ≤ m.length → Above l (level node m)

variable {node} {l m : List α} {a : α}

/-! ## Levels -/

theorem length_pairs : (pairs l).length = (l.length + 1) / 2 := by
  induction l using pairs.induct with
  | case1 => simp [pairs]
  | case2 a => simp [pairs]
  | case3 a b rest ih =>
    simp only [pairs, List.length_cons, ih]
    omega

theorem length_level : (level node l).length = (l.length + 1) / 2 := by
  rw [level, List.length_map, length_pairs]

theorem root_of_two_le [Inhabited α] {fuel : Nat} (h : 2 ≤ l.length) :
    root node (fuel + 1) l = root node fuel (level node l) := by
  match l, h with
  | a :: b :: rest, _ => rfl

theorem root_singleton [Inhabited α] {fuel : Nat} : root node fuel [a] = a := by
  cases fuel <;> rfl

theorem fst_pairs_sublist : List.Sublist ((pairs l).map Prod.fst) l := by
  induction l using pairs.induct with
  | case1 => simp [pairs]
  | case2 a => simp [pairs]
  | case3 a b rest ih =>
    simp only [pairs, List.map_cons]
    exact (ih.cons b).cons_cons a

theorem nodup_pairs (h : l.Nodup) : (pairs l).Nodup :=
  (h.sublist fst_pairs_sublist).of_map _

theorem mem_of_mem_pairs {p : α × α} (h : p ∈ pairs l) : p.1 ∈ l ∧ p.2 ∈ l := by
  induction l using pairs.induct with
  | case1 => exact absurd h (by simp [pairs])
  | case2 a =>
    simp only [pairs, List.mem_singleton] at h
    simp [h]
  | case3 a b rest ih =>
    rcases List.mem_cons.mp h with rfl | h
    · simp
    · exact ⟨by simp [(ih h).1], by simp [(ih h).2]⟩

/-- Without duplicates the pairs of a level determine it. -/
theorem pairs_inj (hl : l.Nodup) (hm : m.Nodup) (h : pairs l = pairs m) : l = m := by
  induction l using pairs.induct generalizing m with
  | case1 =>
    match m with
    | [] => rfl
    | [a] => exact absurd h (by simp [pairs])
    | a :: b :: rest => exact absurd h (by simp [pairs])
  | case2 a =>
    match m with
    | [] => exact absurd h (by simp [pairs])
    | [b] =>
      simp only [pairs, List.cons.injEq, Prod.mk.injEq] at h
      rw [h.1.1]
    | b :: c :: rest =>
      simp only [pairs, List.cons.injEq, Prod.mk.injEq] at h
      have hsame : b = c := h.1.1.symm.trans h.1.2
      exact absurd hm (by simp [hsame])
  | case3 a b rest ih =>
    match m with
    | [] => exact absurd h (by simp [pairs])
    | [c] =>
      simp only [pairs, List.cons.injEq, Prod.mk.injEq] at h
      have hsame : a = b := h.1.1.trans h.1.2.symm
      exact absurd hl (by simp [hsame])
    | c :: d :: rest' =>
      simp only [pairs, List.cons.injEq, Prod.mk.injEq] at h
      obtain ⟨⟨rfl, rfl⟩, hrest⟩ := h
      have hl' : rest.Nodup := (List.nodup_cons.mp (List.nodup_cons.mp hl).2).2
      have hm' : rest'.Nodup := (List.nodup_cons.mp (List.nodup_cons.mp hm).2).2
      rw [ih hl' hm' hrest]

/-! ## Parents that do not collide -/

/-- No two of these pairs have the same parent. -/
def Separates (node : α → α → α) (S : Set (α × α)) : Prop :=
  Set.InjOn (fun p : α × α => node p.1 p.2) S

theorem map_inj_of_injOn {β : Type} {f : α → β} {S : Set α} (hf : Set.InjOn f S)
    (hl : ∀ x ∈ l, x ∈ S) (hm : ∀ x ∈ m, x ∈ S) (h : l.map f = m.map f) : l = m := by
  induction l generalizing m with
  | nil =>
    cases m with
    | nil => rfl
    | cons b m => exact absurd h (by simp)
  | cons a l ih =>
    cases m with
    | nil => exact absurd h (by simp)
    | cons b m =>
      simp only [List.map_cons, List.cons.injEq] at h
      rw [hf (hl a (by simp)) (hm b (by simp)) h.1,
        ih (fun x hx => hl x (by simp [hx])) (fun x hx => hm x (by simp [hx])) h.2]

variable {S : Set (α × α)}

/-- A level's pairs are in `S`, and so are those of every level above it. -/
def Covered (node : α → α → α) (S : Set (α × α)) (l : List α) : Prop :=
  ∀ m, Above node l m → 2 ≤ m.length → ∀ p ∈ pairs m, p ∈ S

theorem nodup_level (hS : Separates node S) (hl : l.Nodup) (hpairs : ∀ p ∈ pairs l, p ∈ S) :
    (level node l).Nodup := by
  apply List.Nodup.map_on _ (nodup_pairs hl)
  intro p hp q hq heq
  exact hS (hpairs p hp) (hpairs q hq) heq

theorem level_inj (hS : Separates node S) (hl : l.Nodup) (hm : m.Nodup)
    (hpl : ∀ p ∈ pairs l, p ∈ S) (hpm : ∀ p ∈ pairs m, p ∈ S) (h : level node l = level node m) :
    l = m :=
  pairs_inj hl hm (map_inj_of_injOn hS hpl hpm h)

/-! ## The trees over two lists -/

theorem Above.cons (hl : 2 ≤ l.length) (h : Above node (level node l) m) : Above node l m := by
  induction h with
  | refl => exact .step .refl hl
  | step _ hm ih => exact .step ih hm

/-- A level above a list of two or more is the list, or above its parents. -/
theorem Above.eq_or_above (h : Above node l m) :
    m = l ∨ 2 ≤ l.length ∧ Above node (level node l) m := by
  induction h with
  | refl => exact Or.inl rfl
  | step _ hm ih =>
    right
    rcases ih with rfl | ⟨hl, habove⟩
    · exact ⟨hm, .refl⟩
    · exact ⟨hl, .step habove hm⟩

theorem Covered.level (h : Covered node S l) (hl : 2 ≤ l.length) : Covered node S (level node l) :=
  fun m hm => h m (hm.cons hl)

theorem Above.nodup (hS : Separates node S) (hc : Covered node S l) (hl : l.Nodup)
    (h : Above node l m) : m.Nodup := by
  induction h with
  | refl => exact hl
  | step hm hlen ih => exact nodup_level hS ih (hc _ hm hlen)

/-- Above a list is itself, or a level of parents. -/
theorem Above.eq_or_parents (hc : Covered node S l) (h : Above node l m) :
    l = m ∨ ∀ x ∈ m, ∃ p ∈ S, x = node p.1 p.2 := by
  cases h with
  | refl => exact Or.inl rfl
  | step hm hlen =>
    right
    intro x hx
    obtain ⟨p, hp, rfl⟩ := List.mem_map.mp hx
    exact ⟨p, hc _ hm hlen p hp, rfl⟩

/-- If the parents of `l` lead to those of `m`, then `l` leads to `m`, or `m` to `l`. -/
theorem above_of_level (hS : Separates node S) (hcl : Covered node S l) (hcm : Covered node S m)
    (hl : l.Nodup) (hm : m.Nodup) (hllen : 2 ≤ l.length) (hmlen : 2 ≤ m.length)
    (h : Above node (level node l) (level node m)) : Above node l m ∨ Above node m l := by
  generalize hx : level node m = x at h
  cases h.cons hllen with
  | refl => exact Or.inr (hx ▸ .step .refl hmlen)
  | @step n hn hnlen =>
    have hsame := level_inj hS hm (hn.nodup hS hcl hl) (hcm m .refl hmlen) (hcl n hn hnlen) hx
    exact Or.inl (hsame ▸ hn)

theorem above_root [Inhabited α] {n : Nat} (hne : l ≠ []) (hn : l.length ≤ n + 1) :
    Above node l [root node n l] := by
  induction n generalizing l with
  | zero =>
    match l, hne with
    | [a], _ => exact .refl
    | a :: b :: rest, _ => exact absurd hn (by simp)
  | succ n ih =>
    match l, hne with
    | [a], _ => exact .refl
    | a :: b :: rest, _ =>
      have hlen : 2 ≤ (a :: b :: rest).length := by simp
      have hlevel : (level node (a :: b :: rest)).length ≤ n + 1 := by
        rw [length_level]
        omega
      rw [root_of_two_le hlen]
      exact (ih (by simp [level, pairs]) hlevel).cons hlen

theorem above_of_singleton [Inhabited α] {n k : Nat} (hone : l.length ≤ 1) (hlne : l ≠ [])
    (hmne : m ≠ []) (hk : m.length ≤ k + 1) (h : root node n l = root node k m) :
    Above node m l := by
  match l, hlne with
  | [a], _ =>
    rw [root_singleton] at h
    rw [h]
    exact above_root hmne hk
  | a :: b :: rest, _ => exact absurd hone (by simp)

/-- **Lists with the same root are levels of one tree.** -/
theorem above_of_root_eq [Inhabited α] (hS : Separates node S) {n k : Nat}
    (hcl : Covered node S l) (hcm : Covered node S m) (hl : l.Nodup) (hm : m.Nodup) (hlne : l ≠ [])
    (hmne : m ≠ []) (hn : l.length ≤ n + 1) (hk : m.length ≤ k + 1)
    (h : root node n l = root node k m) : Above node l m ∨ Above node m l := by
  induction n generalizing l m k with
  | zero => exact Or.inr (above_of_singleton hn hlne hmne hk h)
  | succ n ih =>
    by_cases hlone : l.length ≤ 1
    · exact Or.inr (above_of_singleton hlone hlne hmne hk h)
    by_cases hmone : m.length ≤ 1
    · exact Or.inl (above_of_singleton hmone hmne hlne hn h.symm)
    have hllen : 2 ≤ l.length := by omega
    have hmlen : 2 ≤ m.length := by omega
    obtain ⟨k, rfl⟩ : ∃ k', k = k' + 1 := ⟨k - 1, by omega⟩
    rw [root_of_two_le hllen, root_of_two_le hmlen] at h
    have hlevel : ∀ x : List α, 2 ≤ x.length → level node x ≠ [] := by
      intro x hx hnil
      have hlength := @length_level α node x
      rw [hnil, List.length_nil] at hlength
      omega
    have hstep := ih (hcl.level hllen) (hcm.level hmlen) (nodup_level hS hl (hcl l .refl hllen))
      (nodup_level hS hm (hcm m .refl hmlen)) (hlevel l hllen) (hlevel m hmlen)
      (by rw [length_level]; omega) (by rw [length_level]; omega) h
    rcases hstep with habove | habove
    · exact above_of_level hS hcl hcm hl hm hllen hmlen habove
    · exact (above_of_level hS hcm hcl hm hl hmlen hllen habove).symm

/-- **Lists of leaves with the same root are the same.** -/
theorem eq_of_root_eq [Inhabited α] (hS : Separates node S) {n k : Nat} (hcl : Covered node S l)
    (hcm : Covered node S m) (hl : l.Nodup) (hm : m.Nodup) (hlne : l ≠ []) (hmne : m ≠ [])
    (hn : l.length ≤ n + 1) (hk : m.length ≤ k + 1)
    (hleaf : ∀ x, x ∈ l ∨ x ∈ m → ∀ p ∈ S, x ≠ node p.1 p.2) (h : root node n l = root node k m) :
    l = m := by
  have hparents : ∀ x : List α, x ≠ [] → (∀ a ∈ x, a ∈ l ∨ a ∈ m) →
      ¬ ∀ a ∈ x, ∃ p ∈ S, a = node p.1 p.2 := by
    intro x hne hmem hall
    obtain ⟨a, ha⟩ := List.exists_mem_of_ne_nil x hne
    obtain ⟨p, hp, heq⟩ := hall a ha
    exact hleaf a (hmem a ha) p hp heq
  rcases above_of_root_eq hS hcl hcm hl hm hlne hmne hn hk h with habove | habove
  · rcases habove.eq_or_parents hcl with heq | hall
    · exact heq
    · exact absurd hall (hparents m hmne fun a ha => Or.inr ha)
  · rcases habove.eq_or_parents hcm with heq | hall
    · exact heq.symm
    · exact absurd hall (hparents l hlne fun a ha => Or.inl ha)

/-! ## Walks to the root -/

/-- A node and its sibling in order: the node is the left one where its index is even. -/
def sides (index : Nat) (current sibling : α) : α × α :=
  if index % 2 = 0 then (current, sibling) else (sibling, current)

/-- The parent of a pair. -/
def parent (node : α → α → α) (p : α × α) : α := node p.1 p.2

/-- The node that siblings lead to from `current`. -/
def climb (node : α → α → α) : α → Nat → List α → α
  | current, _, [] => current
  | current, index, sibling :: rest =>
    climb node (parent node (sides index current sibling)) (index / 2) rest

/-- The pairs combined on the way. -/
def climbed (node : α → α → α) : α → Nat → List α → List (α × α)
  | _, _, [] => []
  | current, index, sibling :: rest =>
    sides index current sibling ::
      climbed node (parent node (sides index current sibling)) (index / 2) rest

/-- A pair of the walk has the parent of a pair of the tree only if it is that pair. -/
def Faithful (node : α → α → α) (l : List α) (walk : List (α × α)) : Prop :=
  ∀ m, Above node l m → 2 ≤ m.length → ∀ p ∈ pairs m, ∀ q ∈ walk,
    parent node p = parent node q → p = q

/-- An entry of a level above `l`. -/
def IsParent (node : α → α → α) (l : List α) (x : α) : Prop :=
  ∃ m, Above node l m ∧ 2 ≤ m.length ∧ ∃ p ∈ pairs m, x = parent node p

variable {x sibling : α} {index k n : Nat} {siblings : List α} {p q : α × α} {walk rest : List (α × α)}

theorem mem_of_sides (h : sides index x sibling ∈ pairs l) : x ∈ l := by
  obtain ⟨hfst, hsnd⟩ := mem_of_mem_pairs h
  unfold sides at hfst hsnd
  split at hfst
  · exact hfst
  · next hodd =>
    rw [if_neg hodd] at hsnd
    exact hsnd

/-- Past its first step a walk is at the parent of one of its pairs. -/
theorem climb_eq_parent (h : siblings ≠ []) :
    ∃ q ∈ climbed node x index siblings, climb node x index siblings = parent node q := by
  induction siblings generalizing x index with
  | nil => exact absurd rfl h
  | cons s rest ih =>
    cases rest with
    | nil => exact ⟨_, List.mem_cons_self, rfl⟩
    | cons s' rest =>
      obtain ⟨q, hq, heq⟩ := @ih (parent node (sides index x s)) (index / 2) (List.cons_ne_nil s' rest)
      exact ⟨q, List.mem_cons_of_mem _ hq, heq⟩

/-- Where a walk stands when it combines a pair: at its start, or at the parent of a pair before. -/
theorem stands_of_mem_climbed (h : q ∈ climbed node x index siblings) :
    ∃ i y s, q = sides i y s ∧
      (y = x ∨ ∃ q' ∈ climbed node x index siblings, y = parent node q') := by
  induction siblings generalizing x index with
  | nil => exact absurd h (by simp [climbed])
  | cons s rest ih =>
    rcases List.mem_cons.mp h with rfl | h
    · exact ⟨index, x, s, rfl, Or.inl rfl⟩
    · obtain ⟨i, y, s', hq, rfl | ⟨q', hq', hparent⟩⟩ := ih h
      · exact ⟨i, _, s', hq, Or.inr ⟨_, List.mem_cons_self, rfl⟩⟩
      · exact ⟨i, y, s', hq, Or.inr ⟨q', List.mem_cons_of_mem _ hq', hparent⟩⟩

/-- The pair under position `k` of the parents; an odd last entry is its own neighbour. -/
theorem getElem?_pairs (l : List α) (k : Nat) :
    (pairs l)[k]? = (l[2 * k]?).map fun a => (a, (l[2 * k + 1]?).getD a) := by
  induction l using pairs.induct generalizing k with
  | case1 => simp [pairs]
  | case2 a =>
    cases k with
    | zero => simp [pairs]
    | succ k => simp [pairs, Nat.mul_succ]
  | case3 a b rest ih =>
    cases k with
    | zero => simp [pairs]
    | succ k => simpa [pairs, Nat.mul_succ] using ih k

theorem fst_of_getElem?_pairs (h : (pairs l)[k]? = some p) : l[2 * k]? = some p.1 := by
  rw [getElem?_pairs, Option.map_eq_some_iff] at h
  obtain ⟨a, ha, rfl⟩ := h
  exact ha

theorem snd_of_getElem?_pairs (h : (pairs l)[k]? = some p) (hlt : 2 * k + 1 < l.length) :
    l[2 * k + 1]? = some p.2 := by
  rw [getElem?_pairs, Option.map_eq_some_iff] at h
  obtain ⟨a, -, rfl⟩ := h
  rw [List.getElem?_eq_getElem hlt]
  rfl

/-- The node of a walk that combines a pair of the level is the entry of its index. -/
theorem getElem?_of_sides (h : (pairs l)[index / 2]? = some (sides index x sibling))
    (hlt : index < l.length) : l[index]? = some x := by
  by_cases heven : index % 2 = 0
  · have hfst := fst_of_getElem?_pairs h
    rw [sides, if_pos heven] at hfst
    rwa [show 2 * (index / 2) = index by omega] at hfst
  · have hodd : 2 * (index / 2) + 1 = index := by omega
    have hsnd := snd_of_getElem?_pairs h (by omega)
    rw [sides, if_neg heven, hodd] at hsnd
    exact hsnd

theorem Faithful.level (h : Faithful node l walk) (hl : 2 ≤ l.length) :
    Faithful node (level node l) walk :=
  fun m hm => h m (hm.cons hl)

theorem Faithful.mono (h : Faithful node l walk) (hsub : rest ⊆ walk) : Faithful node l rest :=
  fun m hm hlen p hp q hq => h m hm hlen p hp q (hsub hq)

theorem IsParent.of_level (hl : 2 ≤ l.length) (h : IsParent node (level node l) x) :
    IsParent node l x := by
  obtain ⟨m, hm, hlen, p, hp, hx⟩ := h
  exact ⟨m, hm.cons hl, hlen, p, hp, hx⟩

theorem level_ne_nil (h : l ≠ []) : level node l ≠ [] := by
  intro hnil
  have hlength := @length_level α node l
  have hpos := List.length_pos_iff.mpr h
  rw [hnil, List.length_nil] at hlength
  omega

theorem isParent_of_mem_level (hl : 2 ≤ l.length) (h : Above node (level node l) m) (hx : x ∈ m) :
    IsParent node l x := by
  cases h with
  | refl =>
    obtain ⟨p, hp, rfl⟩ := List.mem_map.mp hx
    exact ⟨l, .refl, hl, p, hp, rfl⟩
  | step hm hlen =>
    obtain ⟨p, hp, rfl⟩ := List.mem_map.mp hx
    exact ⟨_, hm.cons hl, hlen, p, hp, rfl⟩

/-- The root of two or more entries is a parent. -/
theorem isParent_root [Inhabited α] (hl : 2 ≤ l.length) (hn : l.length ≤ n + 1) :
    IsParent node l (root node n l) := by
  obtain ⟨n, rfl⟩ : ∃ n', n = n' + 1 := ⟨n - 1, by omega⟩
  have hne : level node l ≠ [] := level_ne_nil (List.ne_nil_of_length_pos (by omega))
  have hlen : (level node l).length ≤ n + 1 := by
    rw [length_level]
    omega
  have habove : Above node (level node l) [root node n (level node l)] := above_root hne hlen
  rw [root_of_two_le hl]
  exact isParent_of_mem_level hl habove (List.mem_singleton_self _)

/-- What a walk to the root can have started from: the entry it names; a parent, when it is too short; and
when it is too long, some entry is the parent of one of its pairs. -/
theorem start_of_climb_eq_root [Inhabited α] (hne : l ≠ []) (hn : l.length ≤ n + 1)
    (hwalk : Faithful node l (climbed node x index siblings))
    (h : climb node x index siblings = root node n l) :
    (x ∈ l ∧ (index < l.length → l[index]? = some x)) ∨ IsParent node l x ∨
      ∃ a ∈ l, ∃ q ∈ climbed node x index siblings, a = parent node q := by
  induction siblings generalizing x index l n with
  | nil =>
    by_cases hl : 2 ≤ l.length
    · rw [show x = root node n l from h]
      exact Or.inr (Or.inl (isParent_root hl hn))
    · match l, hne with
      | [a], _ =>
        rw [root_singleton] at h
        cases h
        left
        refine ⟨List.mem_singleton_self _, ?_⟩
        intro hlt
        rw [List.length_singleton, Nat.lt_one_iff] at hlt
        rw [hlt]
        rfl
      | a :: b :: rest, _ => exact absurd hl (by simp)
  | cons s rest ih =>
    by_cases hl : 2 ≤ l.length
    · obtain ⟨n, rfl⟩ : ∃ n', n = n' + 1 := ⟨n - 1, by omega⟩
      rw [root_of_two_le hl] at h
      -- the walk goes on from the parent of its first pair, over the parents
      have hfirst : sides index x s ∈ climbed node x index (s :: rest) := List.mem_cons_self
      have hrest := (hwalk.level hl).mono (List.subset_cons_self _ _)
      rcases ih (level_ne_nil hne) (by rw [length_level]; omega) hrest h with
        ⟨hmem, hat⟩ | ⟨m, hm, hlen, p, hp, heq⟩ | ⟨a, ha, q, hq, heq⟩
      · left
        obtain ⟨p, hp, heq⟩ := List.mem_map.mp hmem
        have hpair := hwalk l .refl hl p hp _ hfirst heq
        rw [hpair] at hp
        refine ⟨mem_of_sides hp, ?_⟩
        intro hlt
        have hlevel := hat (by rw [length_level]; omega)
        rw [level, List.getElem?_map, Option.map_eq_some_iff] at hlevel
        obtain ⟨p', hp', heq'⟩ := hlevel
        have hpair' := hwalk l .refl hl p' (List.mem_of_getElem? hp') _ hfirst heq'
        exact getElem?_of_sides (hpair' ▸ hp') hlt
      · right
        left
        have hpair := hwalk m (hm.cons hl) hlen p hp _ hfirst heq.symm
        rw [hpair] at hp
        exact isParent_of_mem_level hl hm (mem_of_sides hp)
      · right
        right
        obtain ⟨p, hp, rfl⟩ := List.mem_map.mp ha
        have hpair := hwalk l .refl hl p hp q (List.mem_cons_of_mem _ hq) heq
        obtain ⟨i, y, s', rfl, hstands⟩ := stands_of_mem_climbed hq
        rw [hpair] at hp
        rcases hstands with rfl | ⟨q', hq', hparent⟩
        · exact ⟨_, mem_of_sides hp, _, hfirst, rfl⟩
        · exact ⟨y, mem_of_sides hp, q', List.mem_cons_of_mem _ hq', hparent⟩
    · match l, hne with
      | [a], _ =>
        rw [root_singleton] at h
        obtain ⟨q, hq, heq⟩ := @climb_eq_parent α node x index (s :: rest) (List.cons_ne_nil s rest)
        exact Or.inr (Or.inr ⟨a, List.mem_singleton_self a, q, hq, h ▸ heq⟩)
      | a :: b :: rest, _ => exact absurd hl (by simp)

/-- **A walk from a leaf to the root starts at an entry of the list**, and at the entry of its index. -/
theorem entry_of_climb_eq_root [Inhabited α] (hne : l ≠ []) (hn : l.length ≤ n + 1)
    (hwalk : Faithful node l (climbed node x index siblings)) (hx : ¬ IsParent node l x)
    (hl : ∀ a ∈ l, ∀ q ∈ climbed node x index siblings, a ≠ parent node q)
    (h : climb node x index siblings = root node n l) :
    x ∈ l ∧ (index < l.length → l[index]? = some x) := by
  rcases start_of_climb_eq_root hne hn hwalk h with hentry | hparent | ⟨a, ha, q, hq, heq⟩
  · exact hentry
  · exact absurd hparent hx
  · exact absurd heq (hl a ha q hq)

end Merkle
