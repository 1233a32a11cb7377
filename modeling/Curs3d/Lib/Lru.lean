import Mathlib.Data.List.Basic
import Mathlib.Data.List.Nodup

/-!
# A least-recently-used cache

Entries, most recently used first, with distinct keys and at most `capacity` of them. A hit and a
write do the same to the order, `touch`: the key goes to the front, and the last entry falls off
when there is no room.

Two facts carry every argument about what survives. With room nothing falls off
(`peek_touch_of_room`). Without, the keys touched last are the keys held: after `capacity` touches
of distinct other keys a key is gone (`Recent.touch`, `Recent.notMem`).
-/

set_option autoImplicit false

structure Lru (κ β : Type) where
  capacity : Nat
  entries : List (κ × β)
  nodup : (entries.map Prod.fst).Nodup
  bounded : entries.length ≤ capacity

namespace Lru

variable {κ β : Type}

def empty (κ β : Type) (capacity : Nat) : Lru κ β := ⟨capacity, [], List.nodup_nil, Nat.zero_le _⟩

def keys (c : Lru κ β) : List κ := c.entries.map Prod.fst

variable [DecidableEq κ] {c : Lru κ β} {k h : κ} {v b : β}

/-- The value under a key, without using it. -/
def peek (c : Lru κ β) (k : κ) : Option β := (c.entries.find? fun e => e.1 = k).map Prod.snd

/-- The entries with `k` in front, before anything falls off. -/
def pushed (c : Lru κ β) (k : κ) (v : β) : List (κ × β) :=
  (k, v) :: c.entries.filter fun e => e.1 ≠ k

theorem nodup_pushed (c : Lru κ β) (k : κ) (v : β) : ((c.pushed k v).map Prod.fst).Nodup := by
  unfold pushed
  rw [List.map_cons, List.nodup_cons]
  refine ⟨?_, c.nodup.sublist (List.filter_sublist.map _)⟩
  intro hmem
  obtain ⟨e, he, hk⟩ := List.mem_map.mp hmem
  exact absurd hk (of_decide_eq_true (List.mem_filter.mp he).2)

/-- `k ↦ v` becomes the most recent entry; the least recent one falls off when there is no room. -/
def touch (c : Lru κ β) (k : κ) (v : β) : Lru κ β where
  capacity := c.capacity
  entries := (c.pushed k v).take c.capacity
  nodup := (c.nodup_pushed k v).sublist ((List.take_sublist _ _).map _)
  bounded := List.length_take_le _ _

/-- A read: a hit is a use. -/
def get (c : Lru κ β) (k : κ) : Option β × Lru κ β :=
  match c.peek k with
  | none => (none, c)
  | some v => (some v, c.touch k v)

def put (c : Lru κ β) (k : κ) (v : β) : Lru κ β := c.touch k v

omit [DecidableEq κ] in
/-- The entries under the keys that pass, in their order; the others are popped. -/
def retain (c : Lru κ β) (p : κ → Bool) : Lru κ β where
  capacity := c.capacity
  entries := c.entries.filter fun e => p e.1
  nodup := c.nodup.sublist (List.filter_sublist.map _)
  bounded := Nat.le_trans (List.length_filter_le _ _) c.bounded

@[simp] theorem capacity_touch : (c.touch k v).capacity = c.capacity := rfl

theorem peek_eq_some_iff : c.peek k = some v ↔ (k, v) ∈ c.entries := by
  unfold peek
  constructor
  · intro h
    obtain ⟨⟨k', v'⟩, hfind, rfl⟩ := Option.map_eq_some_iff.mp h
    have hk := List.find?_some hfind
    rw [decide_eq_true_eq] at hk
    subst hk
    exact List.mem_of_find?_eq_some hfind
  · intro hmem
    cases hfind : c.entries.find? fun e => e.1 = k with
    | none =>
      have hne := List.find?_eq_none.mp hfind _ hmem
      simp at hne
    | some e =>
      have hk := List.find?_some hfind
      rw [decide_eq_true_eq] at hk
      have heq := List.inj_on_of_nodup_map c.nodup (List.mem_of_find?_eq_some hfind) hmem hk
      rw [heq]
      rfl

theorem mem_keys_iff : k ∈ c.keys ↔ ∃ v, c.peek k = some v := by
  simp [keys, peek_eq_some_iff]

theorem peek_eq_none (h : k ∉ c.keys) : c.peek k = none := by
  cases hp : c.peek k with
  | none => rfl
  | some v => exact absurd (mem_keys_iff.mpr ⟨v, hp⟩) h

theorem peek_retain {p : κ → Bool} : (c.retain p).peek k = some v ↔ c.peek k = some v ∧ p k := by
  rw [peek_eq_some_iff, peek_eq_some_iff]
  exact List.mem_filter

/-! ## What a touch keeps -/

theorem mem_touch : (h, b) ∈ (c.touch k v).entries ↔ (h, b) ∈ (c.pushed k v).take c.capacity :=
  Iff.rfl

theorem peek_touch_self (hcap : 0 < c.capacity) : (c.touch k v).peek k = some v := by
  rw [peek_eq_some_iff, mem_touch]
  unfold pushed
  rw [List.take_cons hcap]
  exact List.mem_cons_self

theorem mem_pushed : (h, b) ∈ c.pushed k v ↔ (h = k ∧ b = v) ∨ (c.peek h = some b ∧ h ≠ k) := by
  simp [pushed, peek_eq_some_iff]

/-- What a touched cache holds is the touched entry or was there. -/
theorem peek_touch (hp : (c.touch k v).peek h = some b) :
    (h = k ∧ b = v) ∨ (c.peek h = some b ∧ h ≠ k) := by
  rw [peek_eq_some_iff, mem_touch] at hp
  exact mem_pushed.mp (List.mem_of_mem_take hp)

/-- With room nothing falls off. -/
theorem peek_touch_of_room (hroom : (k :: c.keys.filter (· ≠ k)).length ≤ c.capacity)
    (hp : c.peek h = some b) (hne : h ≠ k) : (c.touch k v).peek h = some b := by
  rw [peek_eq_some_iff, mem_touch, List.take_of_length_le]
  · exact mem_pushed.mpr (.inr ⟨hp, hne⟩)
  · have hlen : (c.pushed k v).length = (k :: c.keys.filter (· ≠ k)).length := by
      simp [pushed, keys, List.filter_map, Function.comp_def]
    rw [hlen]
    exact hroom

/-- A key that is there makes no other key fall off. -/
theorem room_of_mem (hk : k ∈ c.keys) : (k :: c.keys.filter (· ≠ k)).length ≤ c.capacity := by
  have hfilter : c.keys.filter (· ≠ k) = c.keys.erase k := by
    rw [List.Nodup.erase_eq_filter (show c.keys.Nodup from c.nodup)]
    refine List.filter_congr fun x _ => ?_
    simp [bne, Bool.beq_eq_decide_eq]
  have hpos := List.length_pos_of_mem hk
  have hkeys : c.keys.length ≤ c.capacity := by
    unfold keys
    rw [List.length_map]
    exact c.bounded
  rw [hfilter, List.length_cons, List.length_erase_of_mem hk]
  omega

theorem keys_touch : (c.touch k v).keys = (k :: c.keys.filter (· ≠ k)).take c.capacity := by
  unfold keys touch pushed
  simp [List.map_take, List.filter_map, Function.comp_def]

/-! ## What was used last -/

/-- `ks` are the keys used last, most recent first, as far as the cache reaches back. -/
def Recent (ks : List κ) (c : Lru κ β) : Prop := ks.take c.capacity <+: c.keys

omit [DecidableEq κ] in
theorem Recent.nil (c : Lru κ β) : c.Recent [] := by
  unfold Recent
  rw [List.take_nil]
  exact List.nil_prefix

omit [DecidableEq κ] in
theorem Recent.of_prefix {ks ks' : List κ} (hr : c.Recent ks) (h : ks' <+: ks) :
    c.Recent ks' := by
  obtain ⟨rest, rfl⟩ := h
  unfold Recent at hr ⊢
  rw [List.take_append] at hr
  exact (List.prefix_append _ _).trans hr

theorem Recent.touch {ks : List κ} (hr : c.Recent ks) (hk : k ∉ ks) (v : β) :
    (c.touch k v).Recent (k :: ks) := by
  unfold Recent at hr ⊢
  rw [keys_touch, capacity_touch]
  have hfilter : (ks.take c.capacity).filter (· ≠ k) = ks.take c.capacity := by
    rw [List.filter_eq_self]
    intro x hx
    rw [decide_eq_true_eq]
    rintro rfl
    exact hk (List.mem_of_mem_take hx)
  have hcons : k :: ks.take c.capacity <+: k :: c.keys.filter (· ≠ k) := by
    have := hr.filter (· ≠ k)
    rw [hfilter] at this
    exact List.cons_prefix_cons.mpr ⟨rfl, this⟩
  obtain ⟨rest, hrest⟩ := hcons
  have htake : (k :: ks.take c.capacity).take c.capacity = (k :: ks).take c.capacity := by
    cases c.capacity <;> simp [List.take_take]
  rw [← hrest, List.take_append, htake]
  exact List.prefix_append _ _

omit [DecidableEq κ] in
/-- As many distinct keys as fit were used since: a key that is none of them is gone. -/
theorem Recent.notMem {ks : List κ} (hr : c.Recent ks) (hlen : c.capacity ≤ ks.length)
    (hk : k ∉ ks) : k ∉ c.keys := by
  have hlength : c.keys.length ≤ (ks.take c.capacity).length := by
    rw [List.length_take, Nat.min_eq_left hlen]
    unfold keys
    rw [List.length_map]
    exact c.bounded
  rw [← hr.eq_of_length_le hlength]
  exact fun hmem => hk (List.mem_of_mem_take hmem)

end Lru
