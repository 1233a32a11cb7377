import Curs3d.Core.MemoryStore
import Curs3d.Lib.Outcome

/-!
# A self-persisting cursor is a list with holes

`BlockList` is what the store is for: the blocks in height order, a hole where one was pruned. The
cursor follows it as long as no block goes in below the prune watermark. `prune_below` may put the
watermark above the head, and `invalidate_from` may take the head below it; neither the next appends
nor anything else takes it back, so what is appended there cannot be read
(`memoryStore_refines_list_iff`, `stale_watermark_hides_block`).
-/

set_option autoImplicit false

namespace Curs3d

/-- Blocks by height; `none` where a block was pruned. The genesis stays readable. -/
structure BlockList where
  genesis : Block
  slots : List (Option Block)

namespace BlockList

variable (l : BlockList)

def length : Nat := l.slots.length

def blockAt (height : Nat) : Option Block :=
  if height = 0 then some l.genesis else l.slots[height]?.join

def append (block : Block) : BlockList where
  genesis := if l.length = 0 then block else l.genesis
  slots := l.slots ++ [some block]

def pruneBelow (keepFrom : Nat) : BlockList :=
  { l with slots := l.slots.mapIdx fun height block => if height < keepFrom then none else block }

def invalidateFrom (start : Nat) : BlockList := { l with slots := l.slots.take start }

def step : StoreCall → BlockList
  | .append block => if block.header.height = l.length then l.append block else l
  | .blockAt _ => l
  | .pruneBelow keepFrom => l.pruneBelow keepFrom
  | .invalidateFrom start => l.invalidateFrom start

def run (calls : List StoreCall) : BlockList := calls.foldl step l

end BlockList

namespace MemoryStore

variable {m : MemoryStore} {l : BlockList}

/-- The list a store starts as. -/
def initial (m : MemoryStore) : BlockList where
  genesis := m.cursor.genesis
  slots := (List.range m.length).map m.backend.getBlock

/-- A call appends no block below the watermark. -/
def KeepsAbove (m : MemoryStore) : StoreCall → Prop
  | .append block => block.header.height = m.length → 0 < block.header.height →
      m.cursor.baseHeight ≤ block.header.height
  | _ => True

instance : (m : MemoryStore) → (call : StoreCall) → Decidable (m.KeepsAbove call)
  | _, .append _ => inferInstanceAs (Decidable (_ → _ → _))
  | _, .blockAt _ => .isTrue trivial
  | _, .pruneBelow _ => .isTrue trivial
  | _, .invalidateFrom _ => .isTrue trivial

def KeepsAboveAll : MemoryStore → List StoreCall → Prop
  | _, [] => True
  | m, call :: rest => m.KeepsAbove call ∧ (m.step call).KeepsAboveAll rest

instance decidableKeepsAboveAll :
    (m : MemoryStore) → (calls : List StoreCall) → Decidable (m.KeepsAboveAll calls)
  | _, [] => .isTrue trivial
  | m, call :: rest =>
    have := decidableKeepsAboveAll (m.step call) rest
    inferInstanceAs (Decidable (_ ∧ _))

/-- Reads return what the list holds, and the next height is the only one that is accepted. -/
structure Agrees (m : MemoryStore) (l : BlockList) : Prop where
  length : m.length = l.length
  reads : ∀ height, (m.blockAt height).1 = l.blockAt height
  appends : ∀ block, (∃ m', m.append block = .ok m') ↔ block.header.height = l.length

/-! ## The invariant -/

structure Mirrors (m : MemoryStore) (l : BlockList) : Prop where
  genesis : m.cursor.genesis = l.genesis
  length : m.length = l.length
  persists : m.cursor.selfPersist = true
  cached : ∀ height block, m.cursor.cache.peek height = some block →
    0 < height ∧ m.backend.getBlock height = some block
  stored : ∀ height, 0 < height → height < m.length → m.cursor.baseHeight ≤ height →
    m.backend.getBlock height = l.slots[height]?.join
  pruned : ∀ height, 0 < height → height < m.cursor.baseHeight → l.slots[height]?.join = none

theorem Mirrors.blockAt (h : m.Mirrors l) (height : Nat) :
    (m.blockAt height).1 = l.blockAt height := by
  have hlen : m.cursor.heightCount = l.slots.length := h.length
  simp only [MemoryStore.blockAt, BlockStoreCursor.blockAt, BlockList.blockAt]
  split
  · rw [h.genesis]
  next hzero =>
  split
  · next hout =>
    rcases hout with hbeyond | hbelow
    · rw [List.getElem?_eq_none (by omega)]
      rfl
    · exact (h.pruned height (Nat.pos_of_ne_zero hzero) hbelow).symm
  next hin =>
  simp only [not_or, not_le, not_lt] at hin
  have hstored := h.stored height (Nat.pos_of_ne_zero hzero) hin.1 hin.2
  have hread : m.backend.asStorage.getBlock height = m.backend.getBlock height := rfl
  cases hcache : m.cursor.cache.peek height with
  | some block =>
    simp only [Lru.get, hcache]
    rw [← hstored, (h.cached height block hcache).2]
  | none =>
    simp only [Lru.get, hcache]
    rw [hread, hstored]
    split
    · next hblock => rw [hblock]
    · next hnone => rw [hnone]

theorem append_isOk {block : Block} :
    (∃ m', m.append block = .ok m') ↔ block.header.height = m.length := by
  simp only [append, BlockStoreCursor.append, length]
  split
  · next hne => simp [hne, Except.map]
  · next heq =>
    have heq' := not_not.mp heq
    split
    · simp [heq', Except.map]
    · simp [heq', Except.map]

/-- What the invariant says about reads and appends. -/
theorem Mirrors.agrees (h : m.Mirrors l) : m.Agrees l where
  length := h.length
  reads := h.blockAt
  appends block := by rw [append_isOk, h.length]

/-! ## One call -/

/-- A read moves cache entries only. -/
theorem Mirrors.read (h : m.Mirrors l) (height : Nat) : (m.blockAt height).2.Mirrors l := by
  have hcache : ∃ cache : Lru Nat Block, (m.blockAt height).2 = { m with cursor.cache := cache } ∧
      ∀ k block, cache.peek k = some block → 0 < k ∧ m.backend.getBlock k = some block := by
    simp only [MemoryStore.blockAt, BlockStoreCursor.blockAt]
    have hread : m.backend.asStorage.getBlock height = m.backend.getBlock height := rfl
    split
    · exact ⟨m.cursor.cache, rfl, h.cached⟩
    next hzero =>
    split
    · exact ⟨m.cursor.cache, rfl, h.cached⟩
    cases hpeek : m.cursor.cache.peek height with
    | some block =>
      simp only [Lru.get, hpeek]
      refine ⟨_, rfl, ?_⟩
      intro k b hk
      rcases Lru.peek_touch hk with ⟨rfl, rfl⟩ | ⟨hold, -⟩
      · exact h.cached k b hpeek
      · exact h.cached k b hold
    | none =>
      simp only [Lru.get, hpeek]
      split
      · next block hblock =>
        rw [hread] at hblock
        refine ⟨_, rfl, ?_⟩
        intro k b hk
        rcases Lru.peek_touch hk with ⟨rfl, rfl⟩ | ⟨hold, -⟩
        · exact ⟨Nat.pos_of_ne_zero hzero, hblock⟩
        · exact h.cached k b hold
      · exact ⟨m.cursor.cache, rfl, h.cached⟩
  obtain ⟨cache, hm, hcached⟩ := hcache
  rw [hm]
  exact ⟨h.genesis, h.length, h.persists, hcached, h.stored, h.pruned⟩

theorem getBlock_putBlock (block : Block) (k : Nat) : (m.backend.putBlock block).getBlock k =
    if block.header.height = k then some block else m.backend.getBlock k :=
  KeyMap.getElem?_insert_eq _ _ _ _

/-- A block on top of the list fills the next slot. -/
theorem slots_append (l : BlockList) (block : Block) (k : Nat) : (l.append block).slots[k]?.join =
    if l.length = k then some block else l.slots[k]?.join := by
  have hlength : l.length = l.slots.length := rfl
  simp only [BlockList.append]
  by_cases heq : l.length = k
  · rw [if_pos heq]
    rw [hlength] at heq
    simp [← heq]
  rw [if_neg heq]
  rw [hlength] at heq
  rcases Nat.lt_or_gt_of_ne heq with hlt | hgt
  · rw [List.getElem?_eq_none (by simp; omega), List.getElem?_eq_none (by omega)]
  · rw [List.getElem?_append_left hgt]

theorem length_append (h : m.Mirrors l) (block : Block) : m.length + 1 = (l.append block).length := by
  rw [h.length]
  simp [BlockList.append, BlockList.length]

/-- The first block of an empty cursor is its genesis; the cache does not take it. -/
theorem Mirrors.appendGenesis (h : m.Mirrors l) {block : Block} (hzero : block.header.height = 0)
    (hheight : block.header.height = m.length) :
    (m.step (.append block)).Mirrors (l.append block) := by
  have hcount : block.header.height = m.cursor.heightCount := hheight
  have hm : m.step (.append block) =
      { cursor := { m.cursor with genesis := block, heightCount := m.cursor.heightCount + 1 }
        backend := m.backend.putBlock block } := by
    simp only [step, MemoryStore.append, BlockStoreCursor.append, h.persists]
    rw [if_neg (not_not.mpr hcount), if_pos hzero]
    rfl
  rw [hm]
  refine ⟨?_, length_append h block, h.persists, ?_, ?_, ?_⟩
  · simp only [BlockList.append]
    rw [if_pos (by rw [← h.length, ← hheight, hzero])]
  · intro k b hk
    obtain ⟨hpos, hold⟩ := h.cached k b hk
    refine ⟨hpos, ?_⟩
    rw [getBlock_putBlock, if_neg (by omega)]
    exact hold
  · intro k hpos hlt _
    have hlt : k < m.length + 1 := hlt
    omega
  · intro k hpos hbase
    rw [slots_append, ← h.length, ← hheight, if_neg (by omega)]
    exact h.pruned k hpos hbase

/-- Any later block goes to the backend and into the cache. -/
theorem Mirrors.appendLater (h : m.Mirrors l) {block : Block} (hzero : block.header.height ≠ 0)
    (hheight : block.header.height = m.length) (hbase : m.cursor.baseHeight ≤ block.header.height) :
    (m.step (.append block)).Mirrors (l.append block) := by
  have hcount : block.header.height = m.cursor.heightCount := hheight
  have hm : m.step (.append block) =
      { cursor := { m.cursor with
          cache := m.cursor.cache.put block.header.height block
          heightCount := m.cursor.heightCount + 1 }
        backend := m.backend.putBlock block } := by
    simp only [step, MemoryStore.append, BlockStoreCursor.append, h.persists]
    rw [if_neg (not_not.mpr hcount), if_neg hzero]
    rfl
  rw [hm]
  refine ⟨?_, length_append h block, h.persists, ?_, ?_, ?_⟩
  · simp only [BlockList.append]
    rw [if_neg (by rw [← h.length, ← hheight]; exact hzero)]
    exact h.genesis
  · -- the backend is written first, so the cache stays part of it
    intro k b hk
    rw [getBlock_putBlock]
    rcases Lru.peek_touch hk with ⟨rfl, rfl⟩ | ⟨hold, hne⟩
    · exact ⟨Nat.pos_of_ne_zero hzero, if_pos rfl⟩
    · rw [if_neg (Ne.symm hne)]
      exact h.cached k b hold
  · intro k hpos hlt hle
    have hlt : k < m.length + 1 := hlt
    rw [getBlock_putBlock, slots_append, ← h.length, ← hheight]
    split
    · rfl
    · exact h.stored k hpos (by omega) hle
  · intro k hpos hlt
    have hlt : k < m.cursor.baseHeight := hlt
    rw [slots_append, ← h.length, ← hheight, if_neg (by omega)]
    exact h.pruned k hpos hlt

theorem Mirrors.append (h : m.Mirrors l) {block : Block} (hkeep : m.KeepsAbove (.append block)) :
    (m.step (.append block)).Mirrors (l.step (.append block)) := by
  by_cases hheight : block.header.height = m.length
  · have hl : l.step (.append block) = l.append block := by
      simp only [BlockList.step]
      rw [if_pos (hheight.trans h.length)]
    rw [hl]
    by_cases hzero : block.header.height = 0
    · exact h.appendGenesis hzero hheight
    · exact h.appendLater hzero hheight (hkeep hheight (Nat.pos_of_ne_zero hzero))
  · have hcount : block.header.height ≠ m.cursor.heightCount := hheight
    have hm : m.step (.append block) = m := by
      simp only [step, MemoryStore.append, BlockStoreCursor.append]
      rw [if_pos hcount]
      rfl
    have hl : l.step (.append block) = l := by
      simp only [BlockList.step]
      rw [if_neg (h.length ▸ hheight)]
    rw [hm, hl]
    exact h

theorem Mirrors.pruneBelow (h : m.Mirrors l) (keepFrom : Nat) :
    (m.pruneBelow keepFrom).2.Mirrors (l.pruneBelow keepFrom) := by
  have hslots : ∀ k, (l.pruneBelow keepFrom).slots[k]?.join =
      if k < keepFrom then none else l.slots[k]?.join := by
    intro k
    simp only [BlockList.pruneBelow, List.getElem?_mapIdx]
    cases l.slots[k]? with
    | none => simp
    | some block => split <;> simp [*]
  have hlength : (l.pruneBelow keepFrom).length = l.length := by
    simp [BlockList.pruneBelow, BlockList.length]
  simp only [MemoryStore.pruneBelow]
  -- a watermark already at or above `keepFrom` has pruned everything below it
  have hnothing : keepFrom ≤ m.cursor.baseHeight → m.Mirrors (l.pruneBelow keepFrom) := by
    intro hle
    refine ⟨h.genesis, h.length.trans hlength.symm, h.persists, h.cached, ?_, ?_⟩
    · intro k hpos hlt hbase
      rw [hslots, if_neg (by omega)]
      exact h.stored k hpos hlt hbase
    · intro k hpos hbase
      rw [hslots, h.pruned k hpos hbase]
      split <;> rfl
  split
  · next hzero => exact hnothing (by omega)
  split
  · next hle => exact hnothing hle
  next hzero hgt =>
  have hbackend : ∀ k, (m.backend.pruneBlocksBelow keepFrom).2.getBlock k =
      if keepFrom ≤ k then m.backend.getBlock k else none := by
    intro k
    simp only [InMemoryBlockBackend.pruneBlocksBelow]
    rw [if_neg hzero]
    simp only [InMemoryBlockBackend.getBlock, Std.ExtTreeMap.getElem?_filter']
    cases m.backend.inner[k]? with
    | none => simp
    | some block => by_cases hle : keepFrom ≤ k <;> simp [hle]
  refine ⟨h.genesis, h.length.trans hlength.symm, h.persists, ?_, ?_, ?_⟩
  · intro k block hk
    obtain ⟨hold, hle⟩ := Lru.peek_retain.mp hk
    rw [hbackend, if_pos (of_decide_eq_true hle)]
    exact h.cached k block hold
  · intro k hpos hlt hbase
    have hbase : keepFrom ≤ k := hbase
    rw [hbackend, if_pos hbase, hslots, if_neg (by omega)]
    exact h.stored k hpos hlt (by omega)
  · intro k _ hbase
    have hbase : k < keepFrom := hbase
    rw [hslots, if_pos hbase]

theorem Mirrors.invalidateFrom (h : m.Mirrors l) (start : Nat) :
    (m.invalidateFrom start).Mirrors (l.invalidateFrom start) := by
  have hlength : (m.invalidateFrom start).length = min start m.length := by
    show (if start < m.length then start else m.length) = min start m.length
    split <;> omega
  have hslots : ∀ k, (l.invalidateFrom start).slots[k]?.join =
      if k < start then l.slots[k]?.join else none := by
    intro k
    simp only [BlockList.invalidateFrom, List.getElem?_take]
    split <;> rfl
  refine ⟨h.genesis, ?_, h.persists, ?_, ?_, ?_⟩
  · rw [hlength, h.length]
    simp [BlockList.invalidateFrom, BlockList.length]
  · intro k block hk
    exact h.cached k block (Lru.peek_retain.mp hk).1
  · intro k hpos hlt hbase
    rw [hlength] at hlt
    rw [hslots, if_pos (by omega)]
    exact h.stored k hpos (by omega) hbase
  · intro k hpos hbase
    rw [hslots, h.pruned k hpos hbase]
    split <;> rfl

theorem Mirrors.step (h : m.Mirrors l) {call : StoreCall} (hkeep : m.KeepsAbove call) :
    (m.step call).Mirrors (l.step call) := by
  cases call with
  | append block => exact h.append hkeep
  | blockAt height => exact h.read height
  | pruneBelow keepFrom => exact h.pruneBelow keepFrom
  | invalidateFrom start => exact h.invalidateFrom start

theorem initial_slot (m : MemoryStore) {height : Nat} (h : height < m.length) :
    m.initial.slots[height]?.join = m.backend.getBlock height := by
  simp only [initial, List.getElem?_map]
  rw [List.getElem?_range h]
  rfl

/-- Below the first stored height there are heights of the chain, and nothing is stored there. -/
theorem getBlock_of_lt_firstStored {storage : BlockStorage} {heightCount height : Nat}
    (hpos : 0 < height) (h : height < BlockStoreCursor.firstStored storage heightCount) :
    height < heightCount ∧ storage.getBlock height = none := by
  simp only [BlockStoreCursor.firstStored] at h
  cases hfind : (List.range' 1 (heightCount - 1)).find? fun h => (storage.getBlock h).isSome with
  | none =>
    rw [hfind] at h
    exact absurd h (Nat.not_lt_zero _)
  | some first =>
    rw [hfind] at h
    obtain ⟨-, hmem, hbefore⟩ := List.find?_range'_eq_some.mp hfind
    have hlt : height < first := h
    have hfirst := List.mem_range'_1.mp hmem
    exact ⟨by omega, by simpa using hbefore height hpos h⟩

/-- A fresh cursor mirrors what its backend holds. -/
theorem mirrors_initial {backend : InMemoryBlockBackend} {cacheSize : Nat}
    (h : newSelfPersisting backend cacheSize = .ok m) : m.Mirrors m.initial := by
  simp only [newSelfPersisting, BlockStoreCursor.newWithPersist] at h
  split at h
  · exact absurd h (by simp [Except.map])
  next genesis hgenesis =>
  cases h
  refine ⟨rfl, ?_, rfl, ?_, ?_, ?_⟩
  · simp [initial, BlockList.length]
  · intro k block hk
    exact absurd hk (by simp [Lru.peek, Lru.empty])
  · intro k _ hlt _
    exact (initial_slot _ hlt).symm
  · intro k hpos hbase
    obtain ⟨hlt, hnone⟩ := getBlock_of_lt_firstStored hpos hbase
    exact (initial_slot _ hlt).trans hnone

/-- A block appended below the watermark cannot be read back. -/
theorem not_agrees_of_below {call : StoreCall} (hlen : m.length = l.length)
    (h : ¬ m.KeepsAbove call) : ¬ (m.step call).Agrees (l.step call) := by
  intro hagrees
  cases call with
  | append block =>
    simp only [KeepsAbove, not_forall, not_le] at h
    obtain ⟨hheight, hpos, hbelow⟩ := h
    have hread := hagrees.reads block.header.height
    have hl : (l.step (.append block)).blockAt block.header.height = some block := by
      simp only [BlockList.step]
      rw [if_pos (hheight.trans hlen)]
      simp only [BlockList.blockAt, BlockList.append]
      rw [if_neg (Nat.ne_of_gt hpos), hheight, hlen]
      simp [BlockList.length]
    have hbase : (m.step (.append block)).cursor.baseHeight = m.cursor.baseHeight := by
      have hcount : block.header.height = m.cursor.heightCount := hheight
      simp only [step, MemoryStore.append, BlockStoreCursor.append]
      rw [if_neg (not_not.mpr hcount), if_neg (Nat.ne_of_gt hpos)]
      rfl
    rw [hl] at hread
    simp only [MemoryStore.blockAt, BlockStoreCursor.blockAt] at hread
    rw [if_neg (Nat.ne_of_gt hpos), if_pos (.inr (hbase ▸ hbelow))] at hread
    exact absurd hread (by simp)
  | blockAt height => exact h trivial
  | pruneBelow keepFrom => exact h trivial
  | invalidateFrom start => exact h trivial

/-- The equivalence from any mirrored state, by induction on the calls to come. -/
theorem Mirrors.agrees_iff (h : m.Mirrors l) (calls : List StoreCall) :
    (∀ done, done <+: calls → (m.run done).Agrees (l.run done)) ↔ m.KeepsAboveAll calls := by
  induction calls generalizing m l with
  | nil =>
    constructor
    · exact fun _ => trivial
    · intro _ done hdone
      rw [List.prefix_nil.mp hdone]
      exact h.agrees
  | cons call rest ih =>
    constructor
    · intro hall
      have hkeep : m.KeepsAbove call := by
        by_contra hbelow
        exact not_agrees_of_below h.length hbelow (hall [call] (by simp))
      refine ⟨hkeep, (ih (h.step hkeep)).mp ?_⟩
      intro done hdone
      exact hall (call :: done) ((List.prefix_cons_inj call).mpr hdone)
    · intro hkeeps done hdone
      cases done with
      | nil => exact h.agrees
      | cons call' done =>
        obtain ⟨rfl, hrest⟩ := List.cons_prefix_cons.mp hdone
        exact (ih (h.step hkeeps.1)).mpr hkeeps.2 done hrest

/-- **The cursor is the list, after every call of a sequence, exactly when no call of it appends a block
below the watermark.** -/
theorem memoryStore_refines_list_iff {backend : InMemoryBlockBackend} {cacheSize : Nat}
    (hnew : newSelfPersisting backend cacheSize = .ok m) (calls : List StoreCall) :
    (∀ done, done <+: calls → (m.run done).Agrees (m.initial.run done)) ↔ m.KeepsAboveAll calls :=
  (mirrors_initial hnew).agrees_iff calls

end MemoryStore

namespace WatermarkSample

/-- Nothing but a height. -/
def block (height : Nat) : Block where
  header := { version := 5, height, timestamp := 0, prevHash := [], merkleRoot := [], stateRoot := []
              gasUsed := 0, baseFeePerGas := 0, validatorPublicKey := [], nonce := 0 }
  transactions := []
  hash := []
  signature := none

/-- The genesis alone. -/
def backend : InMemoryBlockBackend := InMemoryBlockBackend.putBlock {} (block 0)

/-- Three blocks, all pruned below the third; then the last two go, and the second comes again. -/
def calls : List StoreCall :=
  [.append (block 1), .append (block 2), .append (block 3), .pruneBelow 3, .invalidateFrom 2,
    .append (block 2)]

end WatermarkSample

open WatermarkSample MemoryStore in
/-- Block 2 was appended again after the pruning, and cannot be read. -/
theorem stale_watermark_hides_block : ∃ m, newSelfPersisting backend 2 = .ok m ∧
    (m.run calls).length = 3 ∧ ((m.run calls).blockAt 2).1 = none ∧
      (m.initial.run calls).blockAt 2 = some (block 2) := by
  have hrun : (newSelfPersisting backend 2).toOption.any (fun m =>
      decide ((m.run calls).length = 3 ∧ ((m.run calls).blockAt 2).1 = none ∧
        (m.initial.run calls).blockAt 2 = some (block 2))) = true := by
    decide +kernel
  obtain ⟨m, hm, hall⟩ := Outcome.ok_of_any hrun
  exact ⟨m, hm, of_decide_eq_true hall⟩

open WatermarkSample MemoryStore in
/-- Without the truncation every read after every call agrees, with a cache of two blocks. -/
theorem memoryStore_refines_list_pruned : ∃ m, newSelfPersisting backend 2 = .ok m ∧
    ∀ done, done <+: calls.take 4 ++ [.append (block 4), .blockAt 3, .blockAt 1] →
      (m.run done).Agrees (m.initial.run done) := by
  have hrun : (newSelfPersisting backend 2).toOption.any (fun m => decide
      (m.KeepsAboveAll (calls.take 4 ++ [.append (block 4), .blockAt 3, .blockAt 1]))) = true := by
    decide +kernel
  obtain ⟨m, hm, hkeeps⟩ := Outcome.ok_of_any hrun
  exact ⟨m, hm, (memoryStore_refines_list_iff hm _).mpr (of_decide_eq_true hkeeps)⟩

end Curs3d
