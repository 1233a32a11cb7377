import Mathlib

/-!
# Sparse trees over the bits of keys

A list of entries is cut in two by one bit of the keys after the other. The hash of a part without
entries is that of the empty message, at every depth; otherwise a part is hashed from the hashes of
its halves, and at the bottom from its entry (`root`). Where hashing separates the messages that
occur, lists with one root have the same entries (`mem_iff_of_root_eq`).

The tree can be built from below as well, without cutting anything. A level is a table of hashes,
one for each part that has entries, filed under the key of the part: a key of an entry with the bits
below the level cleared. Joining the two sides of every key makes the level above
(`IsLevel.join`), and the last level has the root alone (`IsLevel.eq_root`).
-/

set_option autoImplicit false

namespace SparseTree

variable {κ β α : Type}

/-- What is hashed. -/
inductive Message (κ β α : Type) where
  | empty
  | leaf (key : κ) (value : β)
  | node (left right : α)
deriving DecidableEq

/-- The bottom of the tree: an entry or nothing. -/
def leafOf : List (κ × β) → Message κ β α
  | [] => .empty
  | e :: _ => .leaf e.1 e.2

section Definitions

variable (bit : κ → Nat → Bool) (hash : Message κ β α → α)

/-- The entries on one side of bit `d`. -/
def half (d : Nat) (b : Bool) (l : List (κ × β)) : List (κ × β) := l.filter fun e => bit e.1 d == b

/-- The hash of the entries `l` in a tree with `n` levels of nodes, the topmost for bit `d`. -/
def root : Nat → Nat → List (κ × β) → α
  | 0, _, l => hash (leafOf l)
  | n + 1, d, l =>
    if l.isEmpty then hash .empty
    else hash (.node (root n (d + 1) (half bit d false l)) (root n (d + 1) (half bit d true l)))

/-- The messages hashed on the way, the one of the root first. -/
def messages : Nat → Nat → List (κ × β) → List (Message κ β α)
  | 0, _, l => [leafOf l]
  | n + 1, d, l =>
    if l.isEmpty then [.empty]
    else .node (root bit hash n (d + 1) (half bit d false l))
        (root bit hash n (d + 1) (half bit d true l)) ::
      (messages n (d + 1) (half bit d false l) ++ messages n (d + 1) (half bit d true l))

end Definitions

variable {bit : κ → Nat → Bool} {hash : Message κ β α → α} {n d : Nat} {b : Bool}
  {l l' : List (κ × β)} {e e' : κ × β} {k : κ} {h : α}

theorem mem_half : e ∈ half bit d b l ↔ e ∈ l ∧ bit e.1 d = b := by
  simp [half]

theorem half_subset : half bit d b l ⊆ l := fun _ he => (mem_half.mp he).1

theorem root_nil : root bit hash n d [] = hash .empty := by
  cases n <;> rfl

theorem root_of_ne_nil (hne : l ≠ []) : root bit hash (n + 1) d l =
    hash (.node (root bit hash n (d + 1) (half bit d false l))
      (root bit hash n (d + 1) (half bit d true l))) := by
  rw [root, if_neg (by simpa using hne)]

theorem messages_of_ne_nil (hne : l ≠ []) : messages bit hash (n + 1) d l =
    .node (root bit hash n (d + 1) (half bit d false l))
        (root bit hash n (d + 1) (half bit d true l)) ::
      (messages bit hash n (d + 1) (half bit d false l) ++
        messages bit hash n (d + 1) (half bit d true l)) := by
  rw [messages, if_neg (by simpa using hne)]

theorem mem_messages_nil : Message.empty ∈ messages bit hash n d [] := by
  cases n <;> simp [messages, leafOf]

theorem mem_messages_half (hne : l ≠ []) {m : Message κ β α}
    (hm : m ∈ messages bit hash n (d + 1) (half bit d b l)) :
    m ∈ messages bit hash (n + 1) d l := by
  rw [messages_of_ne_nil hne]
  refine List.mem_cons_of_mem _ (List.mem_append.mpr ?_)
  cases b with
  | false => exact .inl hm
  | true => exact .inr hm

/-! ## One root, one set of entries -/

/-- The keys agree on the bits that were looked at. -/
def Agreed (bit : κ → Nat → Bool) (d : Nat) (l : List (κ × β)) : Prop :=
  ∀ e ∈ l, ∀ e' ∈ l, ∀ i < d, bit e.1 i = bit e'.1 i

/-- The bits below `d` tell the entries apart. -/
def Separated (bit : κ → Nat → Bool) (d : Nat) (l : List (κ × β)) : Prop :=
  ∀ e ∈ l, ∀ e' ∈ l, (∀ i < d, bit e.1 i = bit e'.1 i) → e = e'

theorem Agreed.half (hagreed : Agreed bit d l) : Agreed bit (d + 1) (half bit d b l) := by
  intro e he e' he' i hi
  obtain ⟨he, hbit⟩ := mem_half.mp he
  obtain ⟨he', hbit'⟩ := mem_half.mp he'
  rcases Nat.lt_succ_iff_lt_or_eq.mp hi with hlt | rfl
  · exact hagreed e he e' he' i hlt
  · rw [hbit, hbit']

theorem Separated.mono (hsep : Separated bit d l) (hsub : l' ⊆ l) : Separated bit d l' :=
  fun e he e' he' => hsep e (hsub he) e' (hsub he')

/-- At the bottom all entries are the one that is hashed. -/
theorem mem_iff_of_leafOf_eq (hsep : Separated bit d l) (hagreed : Agreed bit d l)
    (hsep' : Separated bit d l') (hagreed' : Agreed bit d l')
    (hleaf : (leafOf l : Message κ β α) = leafOf l') : e ∈ l ↔ e ∈ l' := by
  have hone : ∀ {m : List (κ × β)} {x : κ × β}, Separated bit d (x :: m) → Agreed bit d (x :: m) →
      (e ∈ x :: m ↔ e = x) := by
    intro m x hs ha
    refine ⟨fun he => ?_, fun heq => heq ▸ List.mem_cons_self⟩
    exact hs e he x List.mem_cons_self (ha e he x List.mem_cons_self)
  cases l with
  | nil =>
    cases l' with
    | nil => exact Iff.rfl
    | cons x' m' => exact absurd hleaf (by simp [leafOf])
  | cons x m =>
    cases l' with
    | nil => exact absurd hleaf (by simp [leafOf])
    | cons x' m' =>
      simp only [leafOf, Message.leaf.injEq] at hleaf
      obtain rfl : x = x' := Prod.ext hleaf.1 hleaf.2
      rw [hone hsep hagreed, hone hsep' hagreed']

/-- **Lists with one root have the same entries**, if no two of the messages collide. -/
theorem mem_iff_of_root_eq (hinj : Set.InjOn hash
      {m | m ∈ messages bit hash n d l ∨ m ∈ messages bit hash n d l'})
    (hsep : Separated bit (d + n) l) (hagreed : Agreed bit d l)
    (hsep' : Separated bit (d + n) l') (hagreed' : Agreed bit d l')
    (hroot : root bit hash n d l = root bit hash n d l') : e ∈ l ↔ e ∈ l' := by
  induction n generalizing d l l' with
  | zero =>
    have hleaf : (leafOf l : Message κ β α) = leafOf l' :=
      hinj (.inl (by simp [messages])) (.inr (by simp [messages])) hroot
    exact mem_iff_of_leafOf_eq hsep hagreed hsep' hagreed' hleaf
  | succ n ih =>
    by_cases hl : l = []
    · by_cases hl' : l' = []
      · rw [hl, hl']
      · -- an empty side against a node
        subst hl
        rw [root_nil, root_of_ne_nil hl'] at hroot
        have := hinj (.inl mem_messages_nil)
          (.inr (by rw [messages_of_ne_nil hl']; exact List.mem_cons_self)) hroot
        exact absurd this (by simp)
    · by_cases hl' : l' = []
      · subst hl'
        rw [root_nil, root_of_ne_nil hl] at hroot
        have := hinj (.inl (by rw [messages_of_ne_nil hl]; exact List.mem_cons_self))
          (.inr mem_messages_nil) hroot
        exact absurd this (by simp)
      · rw [root_of_ne_nil hl, root_of_ne_nil hl'] at hroot
        have hnode := hinj (.inl (by rw [messages_of_ne_nil hl]; exact List.mem_cons_self))
          (.inr (by rw [messages_of_ne_nil hl']; exact List.mem_cons_self)) hroot
        simp only [Message.node.injEq] at hnode
        have hhalf : ∀ b, root bit hash n (d + 1) (half bit d b l) =
            root bit hash n (d + 1) (half bit d b l') → (e ∈ half bit d b l ↔ e ∈ half bit d b l') := by
          intro b hb
          have hbits : d + (n + 1) = d + 1 + n := by omega
          rw [hbits] at hsep hsep'
          refine ih (hinj.mono ?_) (hsep.mono half_subset) hagreed.half (hsep'.mono half_subset)
            hagreed'.half hb
          rintro m (hm | hm)
          · exact .inl (mem_messages_half hl hm)
          · exact .inr (mem_messages_half hl' hm)
        have hside : ∀ m : List (κ × β), e ∈ m ↔ e ∈ half bit d (bit e.1 d) m := by
          intro m
          rw [mem_half]
          simp
        rw [hside l, hside l']
        cases bit e.1 d with
        | false => exact hhalf false hnode.1
        | true => exact hhalf true hnode.2

/-! ## Clearing bits -/

/-- Keys of `depth` bits, and an operation that clears one of them. -/
structure Clears (bit : κ → Nat → Bool) (clear : κ → Nat → κ) (depth : Nat) (valid : κ → Prop) :
    Prop where
  ext : ∀ {k k'}, valid k → valid k' → (∀ i < depth, bit k i = bit k' i) → k = k'
  valid_clear : ∀ {k d}, valid k → valid (clear k d)
  bit_clear : ∀ {k d i}, valid k → d < depth → i < depth →
    bit (clear k d) i = if i = d then false else bit k i

/-- A key is known by one bit and the rest. -/
theorem Clears.eq_of_clear_eq {clear : κ → Nat → κ} {depth : Nat} {valid : κ → Prop} {k' : κ}
    (hc : Clears bit clear depth valid) (hk : valid k) (hk' : valid k') (hd : d < depth)
    (hclear : clear k d = clear k' d) (hbit : bit k d = bit k' d) : k = k' := by
  refine hc.ext hk hk' fun i hi => ?_
  by_cases heq : i = d
  · rw [heq, hbit]
  · have hleft := hc.bit_clear hk hd hi
    have hright := hc.bit_clear hk' hd hi
    rw [if_neg heq] at hleft hright
    rw [← hleft, ← hright, hclear]

/-- The key with the last `n` bits cleared, from bit `d` on. -/
def cleared (clear : κ → Nat → κ) : Nat → Nat → κ → κ
  | 0, _, k => k
  | n + 1, d, k => clear (cleared clear n (d + 1) k) d

/-- The entries that agree with `k` on the bits before `d`. -/
def below (bit : κ → Nat → Bool) (d : Nat) (k : κ) (l : List (κ × β)) : List (κ × β) :=
  l.filter fun e => (List.range d).all fun i => bit e.1 i == bit k i

variable {clear : κ → Nat → κ} {depth : Nat} {valid : κ → Prop} {k' : κ}

theorem mem_below : e ∈ below bit d k l ↔ e ∈ l ∧ ∀ i < d, bit e.1 i = bit k i := by
  simp [below, List.all_eq_true]

theorem below_zero : below bit 0 k l = l := by
  simp [below]

theorem below_congr (hbits : ∀ i < d, bit k i = bit k' i) : below bit d k l = below bit d k' l := by
  refine List.filter_congr fun e _ => ?_
  rw [Bool.eq_iff_iff, List.all_eq_true, List.all_eq_true]
  refine forall_congr' fun i => forall_congr' fun hi => ?_
  rw [hbits i (List.mem_range.mp hi)]

/-- One bit more is one half. -/
theorem half_below : half bit d (bit k d) (below bit d k l) = below bit (d + 1) k l := by
  unfold half below
  rw [List.filter_filter]
  refine List.filter_congr fun e _ => ?_
  rw [List.range_succ, List.all_append, Bool.and_comm]
  simp

section Clears

variable (hc : Clears bit clear depth valid)

include hc

theorem valid_cleared (hk : valid k) : valid (cleared clear n d k) := by
  induction n generalizing d with
  | zero => exact hk
  | succ n ih => exact hc.valid_clear ih

theorem bit_cleared (hk : valid k) (hd : d + n = depth) {i : Nat} (hi : i < depth) :
    bit (cleared clear n d k) i = if i < d then bit k i else false := by
  induction n generalizing d with
  | zero => rw [cleared, if_pos (by omega)]
  | succ n ih =>
    rw [cleared, hc.bit_clear (valid_cleared hc hk) (by omega) hi, ih (by omega)]
    by_cases heq : i = d
    · rw [if_pos heq, if_neg (by omega)]
    · rw [if_neg heq]
      by_cases hlt : i < d
      · rw [if_pos hlt, if_pos (by omega)]
      · rw [if_neg hlt, if_neg (by omega)]

/-- Two keys have the same part when they agree so far. -/
theorem cleared_eq_iff (hk : valid k) (hk' : valid k') (hd : d + n = depth) :
    cleared clear n d k = cleared clear n d k' ↔ ∀ i < d, bit k i = bit k' i := by
  constructor
  · intro heq i hi
    have hleft := bit_cleared hc hk hd (i := i) (by omega)
    have hright := bit_cleared hc hk' hd (i := i) (by omega)
    rw [if_pos hi] at hleft hright
    rw [← hleft, ← hright, heq]
  · intro hbits
    refine hc.ext (valid_cleared hc hk) (valid_cleared hc hk') fun i hi => ?_
    rw [bit_cleared hc hk hd hi, bit_cleared hc hk' hd hi]
    split
    · next hlt => exact hbits i hlt
    · rfl

end Clears

/-! ## Levels from below -/

/-- A table with the hash of every part that has entries. -/
def IsLevel (bit : κ → Nat → Bool) (clear : κ → Nat → κ) (hash : Message κ β α → α)
    (l : List (κ × β)) (n d : Nat) (level : κ → Option α) : Prop :=
  ∀ k h, level k = some h ↔
    ∃ e ∈ l, cleared clear n d e.1 = k ∧ root bit hash n d (below bit d e.1 l) = h

variable {level level' : κ → Option α}

/-- The leaves are a level. -/
theorem isLevel_leaves (hext : ∀ e ∈ l, ∀ e' ∈ l, (∀ i < depth, bit e.1 i = bit e'.1 i) → e = e')
    (hlevel : ∀ k h, level k = some h ↔ ∃ e ∈ l, e.1 = k ∧ hash (.leaf e.1 e.2) = h) :
    IsLevel bit clear hash l 0 depth level := by
  intro k h
  rw [hlevel]
  refine exists_congr fun e => and_congr_right fun he => and_congr_right fun _ => ?_
  have hmem : e ∈ below bit depth e.1 l := mem_below.mpr ⟨he, fun _ _ => rfl⟩
  have hleaf : (leafOf (below bit depth e.1 l) : Message κ β α) = .leaf e.1 e.2 := by
    cases hbelow : below bit depth e.1 l with
    | nil => rw [hbelow] at hmem; exact absurd hmem (by simp)
    | cons x m =>
      have hx : x ∈ below bit depth e.1 l := by rw [hbelow]; exact List.mem_cons_self
      obtain ⟨hxl, hbits⟩ := mem_below.mp hx
      rw [hext x hxl e he hbits]
      rfl
  rw [root, hleaf]

/-- What stands on one side of the key of a part. -/
def IsSide (bit : κ → Nat → Bool) (clear : κ → Nat → κ) (level : κ → Option α) (d : Nat)
    (side : κ → Bool → Option α) : Prop :=
  ∀ k b h, side k b = some h ↔ ∃ k', level k' = some h ∧ clear k' d = k ∧ bit k' d = b

variable {side : κ → Bool → Option α}

/-- One side of the part of an entry is the hash of one half of it. -/
theorem IsLevel.side_eq (hlevel : IsLevel bit clear hash l n (d + 1) level)
    (hc : Clears bit clear depth valid) (hvalid : ∀ e ∈ l, valid e.1) (hd : d + 1 + n = depth)
    (hside : IsSide bit clear level d side) (he : e ∈ l) :
    side (cleared clear (n + 1) d e.1) b =
      if half bit d b (below bit d e.1 l) = [] then none
      else some (root bit hash n (d + 1) (half bit d b (below bit d e.1 l))) := by
  have hd' : d + (n + 1) = depth := by omega
  by_cases hempty : half bit d b (below bit d e.1 l) = []
  · rw [if_pos hempty, Option.eq_none_iff_forall_ne_some]
    intro h hsome
    -- an entry on that side would be in the half
    obtain ⟨k', hk', hclear, hbit⟩ := (hside _ _ _).mp hsome
    obtain ⟨e', he', rfl, -⟩ := (hlevel _ _).mp hk'
    have hsame : cleared clear (n + 1) d e'.1 = cleared clear (n + 1) d e.1 := hclear
    rw [cleared_eq_iff hc (hvalid e' he') (hvalid e he) hd'] at hsame
    rw [bit_cleared hc (hvalid e' he') hd (by omega), if_pos (Nat.lt_succ_self d)] at hbit
    have hmem : e' ∈ half bit d b (below bit d e.1 l) :=
      mem_half.mpr ⟨mem_below.mpr ⟨he', hsame⟩, hbit⟩
    rw [hempty] at hmem
    exact absurd hmem (by simp)
  · rw [if_neg hempty, hside]
    obtain ⟨e', hmem⟩ := List.exists_mem_of_ne_nil _ hempty
    obtain ⟨hbelow, hbit⟩ := mem_half.mp hmem
    obtain ⟨he', hbits⟩ := mem_below.mp hbelow
    refine ⟨cleared clear n (d + 1) e'.1, (hlevel _ _).mpr ⟨e', he', rfl, ?_⟩, ?_, ?_⟩
    · rw [← half_below, hbit, below_congr hbits]
    · exact (cleared_eq_iff hc (hvalid e' he') (hvalid e he) hd').mpr hbits
    · rw [bit_cleared hc (hvalid e' he') hd (by omega), if_pos (Nat.lt_succ_self d), hbit]

/-- **Joining the sides of every key makes the level above.** -/
theorem IsLevel.join (hlevel : IsLevel bit clear hash l n (d + 1) level)
    (hc : Clears bit clear depth valid) (hvalid : ∀ e ∈ l, valid e.1) (hd : d + 1 + n = depth)
    (hside : IsSide bit clear level d side)
    (hjoin : ∀ k, level' k = if side k false = none ∧ side k true = none then none
      else some (hash (.node ((side k false).getD (hash .empty))
        ((side k true).getD (hash .empty))))) :
    IsLevel bit clear hash l (n + 1) d level' := by
  have hget : ∀ {e : κ × β} {b : Bool}, e ∈ l →
      (side (cleared clear (n + 1) d e.1) b).getD (hash .empty) =
        root bit hash n (d + 1) (half bit d b (below bit d e.1 l)) := by
    intro e b he
    rw [hlevel.side_eq hc hvalid hd hside he]
    split
    · next hempty => rw [hempty, root_nil, Option.getD_none]
    · rfl
  have hentry : ∀ {e : κ × β}, e ∈ l → level' (cleared clear (n + 1) d e.1) =
      some (root bit hash (n + 1) d (below bit d e.1 l)) := by
    intro e he
    have hself : e ∈ below bit d e.1 l := mem_below.mpr ⟨he, fun _ _ => rfl⟩
    have hown : half bit d (bit e.1 d) (below bit d e.1 l) ≠ [] :=
      List.ne_nil_of_mem (mem_half.mpr ⟨hself, rfl⟩)
    have hsome : side (cleared clear (n + 1) d e.1) (bit e.1 d) ≠ none := by
      rw [hlevel.side_eq hc hvalid hd hside he, if_neg hown]
      simp
    rw [hjoin, hget he, hget he, root_of_ne_nil (List.ne_nil_of_mem hself), if_neg]
    rintro ⟨hleft, hright⟩
    cases hb : bit e.1 d with
    | false => exact hsome (hb ▸ hleft)
    | true => exact hsome (hb ▸ hright)
  intro k h
  constructor
  · intro hk
    -- a key of the new level comes from an entry on one of its sides
    have hfrom : ∃ e ∈ l, cleared clear (n + 1) d e.1 = k := by
      by_contra hno
      have hnone : ∀ b, side k b = none := by
        intro b
        rw [Option.eq_none_iff_forall_ne_some]
        intro h' hsome
        obtain ⟨k', hk', hclear, -⟩ := (hside _ _ _).mp hsome
        obtain ⟨e, he, rfl, -⟩ := (hlevel _ _).mp hk'
        exact hno ⟨e, he, hclear⟩
      rw [hjoin, if_pos ⟨hnone false, hnone true⟩] at hk
      exact absurd hk (by simp)
    obtain ⟨e, he, rfl⟩ := hfrom
    rw [hentry he] at hk
    exact ⟨e, he, rfl, Option.some.inj hk⟩
  · rintro ⟨e, he, rfl, rfl⟩
    exact hentry he

/-- The last level has nothing but the root. -/
theorem IsLevel.eq_root (hlevel : IsLevel bit clear hash l n 0 level) (hk : level k = some h) :
    h = root bit hash n 0 l := by
  obtain ⟨e, -, -, rfl⟩ := (hlevel k h).mp hk
  rw [below_zero]

end SparseTree
