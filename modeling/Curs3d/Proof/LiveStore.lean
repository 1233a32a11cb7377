import Curs3d.Chain.LiveStore
import Curs3d.Proof.Rejected
import Curs3d.Proof.Voting

/-!
# When a live node loses a block

Between two full states a new block is in the cache and nowhere else. Every `add_block` then walks
the whole chain through that cache. While all blocks but the genesis fit, nothing is ever evicted
and every block can be read (`Complete`). The first block that does not fit is evicted by the walk
of its own `add_block`, before any full state holds it: the walk uses as many other blocks as the
cache has room for between appending the block and reading it.
-/

set_option autoImplicit false

namespace Curs3d

/-! ## What a list of uses does -/

namespace StoreOp

def blocks : StoreOp → List Block
  | .push block => [block]
  | _ => []

/-- The number of blocks collected after this use, `k` before it. -/
def collects (k : Nat) : StoreOp → Nat
  | .collect _ => k + 1
  | .enqueue => 0
  | _ => k

/-- With `n` blocks and `k` of them collected: a block comes at the next height, heights are
collected in order, and a state is queued when all are. -/
def Fits (n k : Nat) : StoreOp → Prop
  | .push block => block.header.height = n
  | .collect h => h = k ∧ k < n
  | .enqueue => k = n
  | _ => True

end StoreOp

/-- The blocks a run appends. -/
def pushedBlocks (ops : List StoreOp) : List Block := ops.flatMap StoreOp.blocks

def collectedAfter (k : Nat) (ops : List StoreOp) : Nat := ops.foldl StoreOp.collects k

def Ordered : Nat → Nat → List StoreOp → Prop
  | _, _, [] => True
  | n, k, op :: rest => op.Fits n k ∧ Ordered (n + op.blocks.length) (op.collects k) rest

variable {n k : Nat} {ops : List StoreOp}

@[simp] theorem pushedBlocks_cons (op : StoreOp) (rest : List StoreOp) :
    pushedBlocks (op :: rest) = op.blocks ++ pushedBlocks rest := rfl

@[simp] theorem pushedBlocks_append (a b : List StoreOp) :
    pushedBlocks (a ++ b) = pushedBlocks a ++ pushedBlocks b := List.flatMap_append

theorem ordered_append {a b : List StoreOp} : Ordered n k (a ++ b) ↔
    Ordered n k a ∧ Ordered (n + (pushedBlocks a).length) (collectedAfter k a) b := by
  induction a generalizing n k with
  | nil => simp [Ordered, pushedBlocks, collectedAfter]
  | cons op rest ih =>
    rw [List.cons_append, Ordered, ih, Ordered, pushedBlocks_cons, List.length_append,
      ← Nat.add_assoc, and_assoc]
    rfl

theorem Ordered.of_prefix {before : List StoreOp} (h : Ordered n k ops) (hb : before <+: ops) :
    Ordered n k before := by
  obtain ⟨after, rfl⟩ := hb
  exact (ordered_append.mp h).1

/-- The worker is invisible to both. -/
theorem StoreOp.of_worker {op : StoreOp} (h : op.onChain = false) :
    op.blocks = [] ∧ (∀ k, op.collects k = k) ∧ ∀ n k, op.Fits n k := by
  cases op with
  | take | write => exact ⟨rfl, fun _ => rfl, fun _ _ => trivial⟩
  | _ => exact absurd h (by simp [StoreOp.onChain])

theorem pushedBlocks_filter (ops : List StoreOp) :
    pushedBlocks (ops.filter StoreOp.onChain) = pushedBlocks ops := by
  induction ops with
  | nil => rfl
  | cons op rest ih =>
    rw [List.filter_cons, pushedBlocks_cons, ← ih]
    split
    · rfl
    · next h => rw [(StoreOp.of_worker (by simpa using h)).1]; rfl

theorem ordered_filter : Ordered n k (ops.filter StoreOp.onChain) ↔ Ordered n k ops := by
  induction ops generalizing n k with
  | nil => rfl
  | cons op rest ih =>
    rw [List.filter_cons]
    split
    · rw [Ordered, Ordered, ih]
    · next h =>
      have hworker : op.onChain = false := by simpa using h
      obtain ⟨hb, hc, hf⟩ := StoreOp.of_worker hworker
      rw [Ordered, ih, hb, hc]
      simp [hf]

/-! ## The calls are ordered -/

theorem ordered_reads (heights : List Nat) : Ordered n k (heights.map .read) := by
  induction heights with
  | nil => trivial
  | cons h rest ih => exact ⟨trivial, ih⟩

@[simp] theorem pushedBlocks_reads (heights : List Nat) :
    pushedBlocks (heights.map .read) = [] := by
  induction heights with
  | nil => rfl
  | cons h rest ih => rw [List.map_cons, pushedBlocks_cons, ih]; rfl

@[simp] theorem collectedAfter_reads (heights : List Nat) :
    collectedAfter k (heights.map .read) = k := by
  induction heights with
  | nil => rfl
  | cons h rest ih => exact ih

theorem ordered_collects (m : Nat) (hm : k + m ≤ n) :
    Ordered n k ((List.range' k m).map .collect) ∧
      pushedBlocks ((List.range' k m).map .collect) = [] ∧
      collectedAfter k ((List.range' k m).map .collect) = k + m := by
  induction m generalizing k with
  | zero => exact ⟨trivial, rfl, rfl⟩
  | succ m ih =>
    obtain ⟨h₁, h₂, h₃⟩ := ih (k := k + 1) (by omega)
    rw [List.range'_succ, List.map_cons]
    refine ⟨⟨⟨rfl, by omega⟩, h₁⟩, h₂, ?_⟩
    show collectedAfter (k + 1) _ = k + (m + 1)
    rw [h₃]
    omega

theorem ordered_persistOps : Ordered n 0 (persistOps n) ∧ pushedBlocks (persistOps n) = [] ∧
    collectedAfter 0 (persistOps n) = 0 := by
  obtain ⟨h₁, h₂, h₃⟩ := @ordered_collects n 0 n (by omega)
  unfold persistOps
  rw [List.range_eq_range']
  refine ⟨ordered_append.mpr ⟨h₁, ?_⟩, ?_, ?_⟩
  · rw [h₂, h₃]
    exact ⟨by simp [StoreOp.Fits], trivial⟩
  · rw [pushedBlocks_append, h₂]
    rfl
  · rw [collectedAfter, List.foldl_append]
    rfl

/-- Ordered lists that collect nothing in the end, one after the other. -/
structure Call (n : Nat) (blocks : List Block) (ops : List StoreOp) : Prop where
  ordered : Ordered n 0 ops
  pushed : pushedBlocks ops = blocks
  collected : collectedAfter 0 ops = 0

theorem Call.append {bs cs : List Block} {a b : List StoreOp} (ha : Call n bs a)
    (hb : Call (n + bs.length) cs b) : Call n (bs ++ cs) (a ++ b) where
  ordered := ordered_append.mpr ⟨ha.ordered, by rw [ha.pushed, ha.collected]; exact hb.ordered⟩
  pushed := by rw [pushedBlocks_append, ha.pushed, hb.pushed]
  collected := by
    rw [collectedAfter, List.foldl_append]
    exact (congrArg (fun k => collectedAfter k b) ha.collected).trans hb.collected

theorem Call.reads (heights : List Nat) : Call n [] (heights.map .read) :=
  ⟨ordered_reads heights, pushedBlocks_reads heights, collectedAfter_reads heights⟩

theorem Call.persist (n : Nat) : Call n [] (persistOps n) :=
  ⟨ordered_persistOps.1, ordered_persistOps.2.1, ordered_persistOps.2.2⟩

theorem Call.addBlock (g : GenesisConfig) {block : Block} (hheight : block.header.height = n) :
    Call n [block] (addBlockOps g n block) := by
  have hpush : Call n [block] [.latest, .push block] :=
    ⟨⟨trivial, hheight, trivial⟩, rfl, rfl⟩
  have hpersist : Call (n + 1) [] (if 0 < g.epochLength ∧
      block.header.height % g.epochLength = 0 then persistOps (n + 1) else []) := by
    split
    · exact Call.persist _
    · exact Call.reads []
  exact ((((Call.reads _).append hpush).append (Call.reads _)).append hpersist)

/-- Blocks at the heights from `n` on. -/
def Consecutive (n : Nat) (blocks : List Block) : Prop :=
  ∀ i b, blocks[i]? = some b → b.header.height = n + i

theorem Consecutive.tail {block : Block} {rest : List Block} (h : Consecutive n (block :: rest)) :
    Consecutive (n + 1) rest := by
  intro i b hb
  rw [h (i + 1) b (by simpa using hb)]
  omega

theorem Call.addBlocks (g : GenesisConfig) {blocks : List Block} (h : Consecutive n blocks) :
    Call n blocks (addBlocksOps g n blocks) := by
  induction blocks generalizing n with
  | nil => exact Call.reads []
  | cons block rest ih =>
    exact (Call.addBlock g (h 0 block rfl)).append (ih h.tail)

/-! ## Reading -/

namespace BlockStoreCursor

/-- What a read can do: nothing, or use the block it found. -/
theorem blockAt_cases (c : BlockStoreCursor) (storage : BlockStorage) (h : Nat) :
    (h = 0 ∧ c.blockAt storage h = (some c.genesis, c)) ∨
    (0 < h ∧ (c.heightCount ≤ h ∨ h < c.baseHeight) ∧ c.blockAt storage h = (none, c)) ∨
    (0 < h ∧ c.cache.peek h = none ∧ storage.getBlock h = none ∧
      c.blockAt storage h = (none, c)) ∨
    (∃ b, 0 < h ∧ h < c.heightCount ∧
      (c.cache.peek h = some b ∨ (c.cache.peek h = none ∧ storage.getBlock h = some b)) ∧
      c.blockAt storage h = (some b, { c with cache := c.cache.touch h b })) := by
  unfold blockAt Lru.get
  by_cases hz : h = 0
  · exact .inl ⟨hz, by rw [if_pos hz]⟩
  · have hpos : 0 < h := Nat.pos_of_ne_zero hz
    rw [if_neg hz]
    by_cases hb : c.heightCount ≤ h ∨ h < c.baseHeight
    · exact .inr (.inl ⟨hpos, hb, by rw [if_pos hb]⟩)
    · rw [if_neg hb]
      have hlt : h < c.heightCount := by omega
      cases hp : c.cache.peek h with
      | some b => exact .inr (.inr (.inr ⟨b, hpos, hlt, .inl rfl, rfl⟩))
      | none =>
        dsimp only
        cases hs : storage.getBlock h with
        | none => exact .inr (.inr (.inl ⟨hpos, rfl, rfl, rfl⟩))
        | some b => exact .inr (.inr (.inr ⟨b, hpos, hlt, .inr ⟨rfl, rfl⟩, rfl⟩))

end BlockStoreCursor

/-! ## What is cached or written is right -/

/-- With a block appended at height `n`: in the cache only. -/
def LiveStore.withBlock (s : LiveStore) (n : Nat) (block : Block) : LiveStore :=
  { s with cursor := { s.cursor with
    cache := s.cursor.cache.touch n block
    heightCount := n + 1 } }

/-- Every copy of a block is a copy of the block of `blocks` at its height. -/
structure Faithful (blocks : List Block) (s : LiveStore) : Prop where
  capacity : s.cursor.cache.capacity = DEFAULT_BLOCK_CACHE_SIZE
  count : s.cursor.heightCount = blocks.length
  genesis : blocks[0]? = some s.cursor.genesis
  base : s.cursor.baseHeight ≤ 1
  cacheOnly : s.cursor.selfPersist = false
  heights : ∀ {h : Nat} {b : Block}, blocks[h]? = some b → b.header.height = h
  cached : ∀ {h : Nat} {b : Block}, s.cursor.cache.peek h = some b → 0 < h ∧ blocks[h]? = some b
  stored : ∀ {h : Nat} {b : Block}, s.storage.getBlock h = some b → blocks[h]? = some b
  collected : s.collected ⊆ blocks
  slot : ∀ l ∈ s.slot, l ⊆ blocks
  taken : ∀ l ∈ s.taken, l ⊆ blocks

namespace Faithful

variable {blocks : List Block} {s : LiveStore}

theorem blockAt (hf : Faithful blocks s) {h : Nat} {b : Block}
    (hb : s.blockAtHeight h = some b) : blocks[h]? = some b := by
  unfold LiveStore.blockAtHeight at hb
  rcases s.cursor.blockAt_cases s.storage h with ⟨rfl, heq⟩ | ⟨-, -, heq⟩ | ⟨-, -, -, heq⟩ |
    ⟨x, -, -, hx, heq⟩
  · rw [heq] at hb
    rw [← Option.some.inj hb]
    exact hf.genesis
  · rw [heq] at hb
    exact absurd hb (by simp)
  · rw [heq] at hb
    exact absurd hb (by simp)
  · rw [heq] at hb
    rw [← Option.some.inj hb]
    rcases hx with hx | ⟨-, hx⟩
    · exact (hf.cached hx).2
    · exact hf.stored hx

theorem read (hf : Faithful blocks s) (h : Nat) :
    Faithful blocks { s with cursor := (s.cursor.blockAt s.storage h).2 } := by
  have hread := @Faithful.blockAt blocks s hf h
  unfold LiveStore.blockAtHeight at hread
  rcases s.cursor.blockAt_cases s.storage h with ⟨-, heq⟩ | ⟨-, -, heq⟩ | ⟨-, -, -, heq⟩ |
    ⟨b, hpos, -, -, heq⟩
  · rw [heq]; exact hf
  · rw [heq]; exact hf
  · rw [heq]; exact hf
  · rw [heq] at hread ⊢
    refine ⟨hf.capacity, hf.count, hf.genesis, hf.base, hf.cacheOnly, hf.heights, ?_, hf.stored,
      hf.collected, hf.slot, hf.taken⟩
    intro k x hx
    rcases Lru.peek_touch hx with ⟨rfl, rfl⟩ | ⟨hold, -⟩
    · exact ⟨hpos, hread rfl⟩
    · exact hf.cached hold

/-- A block at its height stays when the list grows. -/
theorem grow {h : Nat} {b block : Block} (hb : blocks[h]? = some b) :
    (blocks ++ [block])[h]? = some b := by
  rw [List.getElem?_append_left (List.getElem?_eq_some_iff.mp hb).1]
  exact hb

/-- Appending succeeds at the next height, and uses the cache. -/
theorem step_push (hf : Faithful blocks s) {block : Block}
    (hheight : block.header.height = blocks.length) :
    s.step (.push block) = some (s.withBlock blocks.length block) := by
  have hpos : blocks.length ≠ 0 := by
    intro hz
    have := hf.genesis
    rw [List.length_eq_zero_iff.mp hz] at this
    exact absurd this (by simp)
  unfold LiveStore.step BlockStoreCursor.append
  dsimp only
  rw [if_neg (by rw [hf.count, hheight]; simp), if_neg (by rw [hheight]; exact hpos)]
  dsimp only
  unfold LiveStore.withBlock
  dsimp only
  rw [hf.cacheOnly, hf.count, hheight]
  rfl

theorem push (hf : Faithful blocks s) {block : Block}
    (hheight : block.header.height = blocks.length) :
    Faithful (blocks ++ [block]) (s.withBlock blocks.length block) := by
  have hsub : blocks ⊆ blocks ++ [block] := List.subset_append_left _ _
  have hlast : (blocks ++ [block])[blocks.length]? = some block := by simp
  have hpos : 0 < blocks.length := (List.getElem?_eq_some_iff.mp hf.genesis).1
  refine ⟨hf.capacity, by simp [LiveStore.withBlock], grow hf.genesis, hf.base, hf.cacheOnly, ?_, ?_,
    fun hb => grow (hf.stored hb), List.Subset.trans hf.collected hsub,
    fun l hl => List.Subset.trans (hf.slot l hl) hsub,
    fun l hl => List.Subset.trans (hf.taken l hl) hsub⟩
  · intro h b hb
    rw [List.getElem?_append] at hb
    split at hb
    · exact hf.heights hb
    · next hge =>
      rw [List.getElem?_singleton] at hb
      split at hb
      · cases hb
        omega
      · exact absurd hb (by simp)
  · intro h b hb
    rcases Lru.peek_touch hb with ⟨rfl, rfl⟩ | ⟨hold, -⟩
    · exact ⟨hpos, hlast⟩
    · exact ⟨(hf.cached hold).1, grow (hf.cached hold).2⟩

end Faithful

/-- Blocks read off a table were written to it. -/
theorem mem_of_getBlock_replaceBlocks (storage : BlockStorage) {l : List Block} {h : Nat}
    {b : Block} (hb : (storage.replaceBlocks l).getBlock h = some b) :
    b ∈ l ∧ b.header.height = h := by
  rcases KeyMap.getElem?_foldl_insert_eq_some (fun b : Block => b.header.height) id hb with
    ⟨x, hx, hh, rfl⟩ | hempty
  · exact ⟨hx, hh⟩
  · exact absurd hempty (by simp)

/-- A table written from a list of blocks at their heights holds them. -/
theorem getBlock_replaceBlocks (storage : BlockStorage) {blocks : List Block}
    (hheights : ∀ {h : Nat} {b : Block}, blocks[h]? = some b → b.header.height = h) {m h : Nat}
    {b : Block} (hb : blocks[h]? = some b) (hm : h < m) :
    (storage.replaceBlocks (blocks.take m)).getBlock h = some b := by
  have htake : ∀ {i : Nat} {x : Block}, (blocks.take m)[i]? = some x → x.header.height = i := by
    intro i x hx
    rw [List.getElem?_take] at hx
    split at hx
    · exact hheights hx
    · exact absurd hx (by simp)
  have hnodup : ((blocks.take m).map fun b => b.header.height).Nodup := by
    rw [List.nodup_iff_injective_get]
    intro i j hij
    have hi := @htake i _ (List.getElem?_eq_getElem (by simpa using i.2))
    have hj := @htake j _ (List.getElem?_eq_getElem (by simpa using j.2))
    simp only [List.get_eq_getElem, List.getElem_map] at hij
    exact Fin.ext (by omega)
  have hmem : b ∈ blocks.take m :=
    List.mem_of_getElem? (i := h) (by rw [List.getElem?_take_of_lt hm]; exact hb)
  have hfold := KeyMap.getElem?_foldl_insert_of_mem
    (fun b : Block => b.header.height) id (blocks.take m) (∅ : HeightMap Block) hnodup hmem
  rw [hheights hb] at hfold
  exact hfold

namespace Faithful

variable {blocks : List Block} {s s' : LiveStore}

theorem of_mem (hf : Faithful blocks s) {b : Block} (hb : b ∈ blocks) :
    blocks[b.header.height]? = some b := by
  obtain ⟨i, hi⟩ := List.mem_iff_getElem?.mp hb
  rw [hf.heights hi]
  exact hi

theorem take (hf : Faithful blocks s) (h : s.step .take = some s') : Faithful blocks s' := by
  unfold LiveStore.step at h
  dsimp only at h
  split at h
  · next l _ hslot =>
    cases h
    exact ⟨hf.capacity, hf.count, hf.genesis, hf.base, hf.cacheOnly, hf.heights, hf.cached,
      hf.stored, hf.collected, fun _ hl => absurd hl (by simp),
      fun l' hl => by cases hl; exact hf.slot l hslot⟩
  · cases h
    exact hf

theorem write (hf : Faithful blocks s) (h : s.step .write = some s') : Faithful blocks s' := by
  unfold LiveStore.step at h
  dsimp only at h
  split at h
  · cases h
    exact hf
  · next l htaken =>
    cases h
    refine ⟨hf.capacity, hf.count, hf.genesis, hf.base, hf.cacheOnly, hf.heights, hf.cached, ?_,
      hf.collected, hf.slot, fun _ hl => absurd hl (by simp)⟩
    intro h b hb
    obtain ⟨hmem, hheight⟩ := mem_of_getBlock_replaceBlocks s.storage hb
    rw [← hheight]
    exact hf.of_mem (hf.taken l htaken hmem)

/-- One use, as long as blocks come in order. -/
theorem step (hf : Faithful blocks s) {op : StoreOp} (hfits : op.Fits blocks.length k)
    (h : s.step op = some s') : Faithful (blocks ++ op.blocks) s' := by
  cases op with
  | read height =>
    cases h
    simp only [StoreOp.blocks, List.append_nil]
    exact hf.read height
  | latest =>
    simp only [StoreOp.blocks, List.append_nil]
    have hread := hf.read s.height
    unfold LiveStore.step at h
    dsimp only at h
    split at h
    · exact absurd h (by simp)
    · next hb =>
      cases h
      rw [hb] at hread
      exact hread
  | push block =>
    rw [hf.step_push hfits] at h
    cases h
    exact hf.push hfits
  | collect height =>
    cases h
    simp only [StoreOp.blocks, List.append_nil]
    have hread := hf.read height
    refine ⟨hread.capacity, hread.count, hread.genesis, hread.base, hread.cacheOnly,
      hread.heights, hread.cached, hread.stored, ?_, hread.slot, hread.taken⟩
    intro b hb
    rcases List.mem_append.mp hb with hb | hb
    · exact hf.collected hb
    · exact List.mem_of_getElem? (hf.blockAt (Option.mem_toList.mp hb))
  | enqueue =>
    cases h
    simp only [StoreOp.blocks, List.append_nil]
    exact ⟨hf.capacity, hf.count, hf.genesis, hf.base, hf.cacheOnly, hf.heights, hf.cached,
      hf.stored, List.nil_subset _, fun l hl => by cases hl; exact hf.collected, hf.taken⟩
  | take =>
    simp only [StoreOp.blocks, List.append_nil]
    exact hf.take h
  | write =>
    simp only [StoreOp.blocks, List.append_nil]
    exact hf.write h

theorem run (hf : Faithful blocks s) (hord : Ordered blocks.length k ops)
    (h : s.run ops = some s') : Faithful (blocks ++ pushedBlocks ops) s' := by
  induction ops generalizing blocks k s with
  | nil =>
    cases h
    rw [pushedBlocks, List.flatMap_nil, List.append_nil]
    exact hf
  | cons op rest ih =>
    obtain ⟨t, ht, hrest⟩ := Option.bind_eq_some_iff.mp h
    rw [pushedBlocks_cons, ← List.append_assoc]
    have hord' := hord.2
    rw [← List.length_append] at hord'
    exact ih (hf.step hord.1 ht) hord' hrest

end Faithful

/-! ## While everything fits -/

/-- All blocks but the genesis fit in the cache, unless none is new since the opening. -/
def Roomy (opened : Nat) (blocks : List Block) : Prop :=
  blocks.length ≤ opened ∨ blocks.length ≤ DEFAULT_BLOCK_CACHE_SIZE + 1

theorem Roomy.of_prefix {opened : Nat} {a b : List Block} (h : Roomy opened b) (hab : a <+: b) :
    Roomy opened a := by
  have := hab.length_le
  rcases h with h | h
  · exact .inl (by omega)
  · exact .inr (by omega)

/-- `opened` blocks were on disk at the opening and still are; the newer ones are cached; the full
states under way hold all blocks up to some height, and `k` blocks are collected. -/
structure Complete (opened : Nat) (blocks : List Block) (k : Nat) (s : LiveStore) : Prop extends
    Faithful blocks s where
  grown : opened ≤ blocks.length
  old : ∀ h < opened, s.storage.getBlock h = blocks[h]?
  recent : ∀ h, opened ≤ h → h < blocks.length → 0 < h → h ∈ s.cursor.cache.keys
  slotFull : ∀ l ∈ s.slot, ∃ m, opened ≤ m ∧ m ≤ blocks.length ∧ l = blocks.take m
  takenFull : ∀ l ∈ s.taken, ∃ m, opened ≤ m ∧ m ≤ blocks.length ∧ l = blocks.take m
  collectedFull : k ≤ blocks.length ∧ s.collected = blocks.take k

namespace Complete

variable {opened : Nat} {blocks : List Block} {s s' : LiveStore}

/-- Every block can be read. -/
theorem blockAt (hc : Complete opened blocks k s) {h : Nat} (hh : h < blocks.length) :
    s.blockAtHeight h = blocks[h]? := by
  obtain ⟨b, hb⟩ : ∃ b, blocks[h]? = some b := ⟨_, List.getElem?_eq_getElem hh⟩
  cases hread : s.blockAtHeight h with
  | some x => rw [hc.toFaithful.blockAt hread]
  | none =>
    exfalso
    unfold LiveStore.blockAtHeight at hread
    rcases s.cursor.blockAt_cases s.storage h with ⟨-, heq⟩ | ⟨hpos, hbound, -⟩ |
      ⟨hpos, hmiss, hnone, -⟩ | ⟨x, -, -, -, heq⟩
    · rw [heq] at hread
      exact absurd hread (by simp)
    · have := hc.base
      have := hc.count
      omega
    · by_cases hold : h < opened
      · rw [hc.old h hold, hb] at hnone
        exact absurd hnone (by simp)
      · obtain ⟨x, hx⟩ := Lru.mem_keys_iff.mp (hc.recent h (by omega) hh hpos)
        rw [hmiss] at hx
        exact absurd hx (by simp)
    · rw [heq] at hread
      exact absurd hread (by simp)

/-- The keys of the cache with one more height fit. -/
theorem room (hf : Faithful blocks s) {h n : Nat} (hpos : 0 < h) (hh : h < n)
    (hn : blocks.length ≤ n) (hfit : n ≤ DEFAULT_BLOCK_CACHE_SIZE + 1) :
    (h :: s.cursor.cache.keys.filter (· ≠ h)).length ≤ s.cursor.cache.capacity := by
  have hnodup : (h :: s.cursor.cache.keys.filter (· ≠ h)).Nodup := by
    refine List.nodup_cons.mpr ⟨by simp, List.Nodup.filter _ s.cursor.cache.nodup⟩
  have hsub : h :: s.cursor.cache.keys.filter (· ≠ h) ⊆ List.range' 1 (n - 1) := by
    intro x hx
    rw [List.mem_range'_1]
    rcases List.mem_cons.mp hx with rfl | hx
    · omega
    · obtain ⟨b, hb⟩ := Lru.mem_keys_iff.mp (List.mem_filter.mp hx).1
      obtain ⟨hx0, hget⟩ := hf.cached hb
      have := (List.getElem?_eq_some_iff.mp hget).1
      omega
  have hlen := (hnodup.subperm hsub).length_le
  rw [List.length_range'] at hlen
  rw [hf.capacity]
  omega

theorem read (hc : Complete opened blocks k s) (hroom : Roomy opened blocks) (h : Nat) :
    Complete opened blocks k { s with cursor := (s.cursor.blockAt s.storage h).2 } := by
  refine ⟨hc.toFaithful.read h, hc.grown, hc.old, ?_, hc.slotFull, hc.takenFull,
    hc.collectedFull⟩
  intro x hx hlt hpos
  have hold := hc.recent x hx hlt hpos
  have hfit : blocks.length ≤ DEFAULT_BLOCK_CACHE_SIZE + 1 := hroom.resolve_left (by omega)
  rcases s.cursor.blockAt_cases s.storage h with ⟨-, heq⟩ | ⟨-, -, heq⟩ | ⟨-, -, -, heq⟩ |
    ⟨b, hh, hcount, -, heq⟩
  · rw [heq]; exact hold
  · rw [heq]; exact hold
  · rw [heq]; exact hold
  · rw [heq]
    rw [hc.count] at hcount
    rw [Lru.mem_keys_iff] at hold ⊢
    by_cases hxh : x = h
    · subst hxh
      exact ⟨b, Lru.peek_touch_self (by rw [hc.capacity]; decide)⟩
    · obtain ⟨v, hv⟩ := hold
      exact ⟨v, Lru.peek_touch_of_room (room hc.toFaithful hh hcount le_rfl hfit) hv hxh⟩

theorem push (hc : Complete opened blocks k s) {block : Block}
    (hheight : block.header.height = blocks.length) (hroom : Roomy opened (blocks ++ [block])) :
    Complete opened (blocks ++ [block]) k (s.withBlock blocks.length block) := by
  have hopened := hc.grown
  have hpos : 0 < blocks.length := (List.getElem?_eq_some_iff.mp hc.genesis).1
  have hlen : (blocks ++ [block]).length = blocks.length + 1 := by simp
  have hfit : blocks.length + 1 ≤ DEFAULT_BLOCK_CACHE_SIZE + 1 := by
    rcases hroom with h | h
    · omega
    · omega
  have htake : ∀ m, m ≤ blocks.length → blocks.take m = (blocks ++ [block]).take m := by
    intro m hm
    rw [List.take_append_of_le_length hm]
  refine ⟨hc.toFaithful.push hheight, by omega, ?_, ?_, ?_, ?_, ?_⟩
  · intro h hh
    rw [List.getElem?_append_left (by omega)]
    exact hc.old h hh
  · intro x hx hlt hxpos
    rw [Lru.mem_keys_iff]
    by_cases hxn : x = blocks.length
    · subst hxn
      exact ⟨block, Lru.peek_touch_self (by rw [hc.capacity]; decide)⟩
    · obtain ⟨v, hv⟩ := Lru.mem_keys_iff.mp (hc.recent x hx (by omega) hxpos)
      exact ⟨v, Lru.peek_touch_of_room
        (room hc.toFaithful hpos (Nat.lt_succ_self _) (Nat.le_succ _) hfit) hv hxn⟩
  · intro l hl
    obtain ⟨m, hm, hm', rfl⟩ := hc.slotFull l hl
    exact ⟨m, hm, by omega, htake m hm'⟩
  · intro l hl
    obtain ⟨m, hm, hm', rfl⟩ := hc.takenFull l hl
    exact ⟨m, hm, by omega, htake m hm'⟩
  · obtain ⟨hk, hcol⟩ := hc.collectedFull
    exact ⟨by omega, hcol.trans (htake k hk)⟩

theorem take (hc : Complete opened blocks k s) (h : s.step .take = some s') :
    Complete opened blocks k s' := by
  have hf := hc.toFaithful.take h
  unfold LiveStore.step at h
  dsimp only at h
  split at h
  · next l _ hslot =>
    cases h
    exact ⟨hf, hc.grown, hc.old, hc.recent, fun _ hl => absurd hl (by simp),
      fun l' hl => by cases hl; exact hc.slotFull l hslot, hc.collectedFull⟩
  · cases h
    exact hc

theorem write (hc : Complete opened blocks k s) (h : s.step .write = some s') :
    Complete opened blocks k s' := by
  have hf := hc.toFaithful.write h
  unfold LiveStore.step at h
  dsimp only at h
  split at h
  · cases h
    exact hc
  · next l htaken =>
    cases h
    refine ⟨hf, hc.grown, ?_, hc.recent, hc.slotFull, fun _ hl => absurd hl (by simp),
      hc.collectedFull⟩
    intro h hh
    obtain ⟨m, hm, hm', rfl⟩ := hc.takenFull l htaken
    obtain ⟨b, hb⟩ : ∃ b, blocks[h]? = some b :=
      ⟨_, List.getElem?_eq_getElem (by have := hc.grown; omega)⟩
    rw [hb]
    exact getBlock_replaceBlocks s.storage (fun hx => hc.heights hx) hb (by omega)

/-- One use: it does not panic, and a queued state holds every block. -/
theorem step (hc : Complete opened blocks k s) {op : StoreOp} (hfits : op.Fits blocks.length k)
    (hroom : Roomy opened (blocks ++ op.blocks)) :
    ∃ s', s.step op = some s' ∧ Complete opened (blocks ++ op.blocks) (op.collects k) s' ∧
      (op = .enqueue → s'.slot = some blocks) := by
  cases op with
  | read height =>
    simp only [StoreOp.blocks, List.append_nil] at hroom ⊢
    exact ⟨_, rfl, hc.read hroom height, fun h => absurd h (by simp)⟩
  | latest =>
    simp only [StoreOp.blocks, List.append_nil] at hroom ⊢
    have hpos : 0 < blocks.length := (List.getElem?_eq_some_iff.mp hc.genesis).1
    have hlt : s.height < blocks.length := by
      unfold LiveStore.height
      rw [hc.count]
      omega
    have hread := hc.blockAt hlt
    have hnext := hc.read hroom s.height
    rw [List.getElem?_eq_getElem hlt] at hread
    unfold LiveStore.blockAtHeight at hread
    unfold LiveStore.step
    dsimp only
    split
    · next heq =>
      rw [heq] at hread
      exact absurd hread (by simp)
    · next heq =>
      rw [heq] at hnext
      exact ⟨_, rfl, hnext, fun h => absurd h (by simp)⟩
  | push block =>
    exact ⟨_, hc.toFaithful.step_push hfits, hc.push hfits hroom, fun h => absurd h (by simp)⟩
  | collect height =>
    obtain ⟨rfl, hlt⟩ := hfits
    simp only [StoreOp.blocks, List.append_nil] at hroom ⊢
    obtain ⟨t, ht⟩ : ∃ t, s.step (.collect height) = some t := ⟨_, rfl⟩
    refine ⟨_, rfl, ?_, fun h => absurd h (by simp)⟩
    have hfits : (StoreOp.collect height).Fits blocks.length height := ⟨rfl, hlt⟩
    have hf := hc.toFaithful.step hfits ht
    rw [← Option.some.inj ht] at hf
    simp only [StoreOp.blocks, List.append_nil] at hf
    have hnext := hc.read hroom height
    refine ⟨hf, hc.grown, hc.old, hnext.recent, hc.slotFull, hc.takenFull, hlt, ?_⟩
    show s.collected ++ (s.blockAtHeight height).toList = blocks.take (height + 1)
    rw [hc.collectedFull.2, hc.blockAt hlt, List.take_add_one]
  | enqueue =>
    have hk : k = blocks.length := hfits
    have hall : s.collected = blocks := by
      rw [hc.collectedFull.2, hk, List.take_length]
    obtain ⟨t, ht⟩ : ∃ t, s.step .enqueue = some t := ⟨_, rfl⟩
    have hf := hc.toFaithful.step hfits ht
    rw [← Option.some.inj ht] at hf
    simp only [StoreOp.blocks, List.append_nil] at hf ⊢
    refine ⟨_, rfl, ⟨hf, hc.grown, hc.old, hc.recent, ?_, hc.takenFull, Nat.zero_le _, rfl⟩,
      fun _ => by rw [hall]⟩
    intro l hl
    cases hl
    exact ⟨blocks.length, hc.grown, le_rfl, by rw [hall, List.take_length]⟩
  | take =>
    simp only [StoreOp.blocks, List.append_nil]
    obtain ⟨t, ht⟩ : ∃ t, s.step .take = some t := by
      unfold LiveStore.step
      dsimp only
      split <;> exact ⟨_, rfl⟩
    exact ⟨t, ht, hc.take ht, fun h => absurd h (by simp)⟩
  | write =>
    simp only [StoreOp.blocks, List.append_nil]
    obtain ⟨t, ht⟩ : ∃ t, s.step .write = some t := by
      unfold LiveStore.step
      dsimp only
      split <;> exact ⟨_, rfl⟩
    exact ⟨t, ht, hc.write ht, fun h => absurd h (by simp)⟩

/-- A run that keeps within the room keeps every block. -/
theorem run (hc : Complete opened blocks k s) (hord : Ordered blocks.length k ops)
    (hroom : Roomy opened (blocks ++ pushedBlocks ops)) :
    ∃ s', s.run ops = some s' ∧
      Complete opened (blocks ++ pushedBlocks ops) (collectedAfter k ops) s' := by
  induction ops generalizing blocks k s with
  | nil =>
    refine ⟨s, rfl, ?_⟩
    rw [pushedBlocks, List.flatMap_nil, List.append_nil]
    exact hc
  | cons op rest ih =>
    rw [pushedBlocks_cons, ← List.append_assoc] at hroom ⊢
    obtain ⟨t, ht, hct, -⟩ := hc.step hord.1 (Roomy.of_prefix hroom (List.prefix_append _ _))
    have hord' := hord.2
    rw [← List.length_append] at hord'
    obtain ⟨s', hs', hcs'⟩ := ih hct hord' hroom
    refine ⟨s', ?_, hcs'⟩
    rw [LiveStore.run, ht]
    exact hs'

end Complete

/-! ## Opening -/

/-- The disk holds exactly `stored`, or nothing and `stored` is the genesis block. -/
def Stores (genesis : Block) (storage : BlockStorage) (stored : List Block) : Prop :=
  Consecutive 0 stored ∧ ((storage.getHeight = none ∧ stored = [genesis]) ∨
    (stored ≠ [] ∧ storage.getHeight = some (stored.length - 1) ∧
      ∀ h, storage.getBlock h = stored[h]?))

theorem BlockStoreCursor.firstStored_le_one {storage : BlockStorage} {stored : List Block}
    (h : ∀ h, storage.getBlock h = stored[h]?) : firstStored storage stored.length ≤ 1 := by
  unfold firstStored
  cases hlen : stored.length - 1 with
  | zero => simp
  | succ m =>
    have hone : (storage.getBlock 1).isSome = true := by
      rw [h, List.getElem?_eq_getElem (by omega)]
      rfl
    simp [List.range'_succ, hone]

/-- A cursor just opened over `stored`. -/
theorem complete_new {storage : BlockStorage} {stored : List Block} {cursor : BlockStoreCursor}
    (hconsecutive : Consecutive 0 stored) (hne : stored ≠ [])
    (hheight : storage.getHeight = some (stored.length - 1))
    (hblocks : ∀ h, storage.getBlock h = stored[h]?)
    (hnew : BlockStoreCursor.new storage DEFAULT_BLOCK_CACHE_SIZE = .ok cursor) :
    Complete stored.length stored 0 { storage, cursor } := by
  have hlen : stored.length - 1 + 1 = stored.length := by
    have := List.length_pos_iff.mpr hne
    omega
  unfold BlockStoreCursor.new BlockStoreCursor.newWithPersist at hnew
  split at hnew
  · exact absurd hnew (by simp)
  · next genesis hg =>
    rw [hheight, Option.map_some, Option.getD_some, hlen] at hnew
    cases hnew
    refine ⟨⟨rfl, rfl, ?_, BlockStoreCursor.firstStored_le_one hblocks, rfl, ?_, ?_, ?_,
      List.nil_subset _, fun _ hl => absurd hl (by simp), fun _ hl => absurd hl (by simp)⟩,
      le_rfl, fun h _ => hblocks h, ?_, fun _ hl => absurd hl (by simp),
      fun _ hl => absurd hl (by simp), Nat.zero_le _, rfl⟩
    · rw [← hblocks]
      exact hg
    · intro h b hb
      rw [hconsecutive h b hb, Nat.zero_add]
    · intro h b hb
      exact absurd hb (by simp [Lru.peek, Lru.empty])
    · intro h b hb
      exact (hblocks h).symm.trans hb
    · intro h hle hlt
      omega

theorem Call.reload (g : GenesisConfig) (finalizedHeight count : Nat) (oldSchema : Bool) :
    Call count [] (reloadOps g finalizedHeight count oldSchema) := by
  have hsettle : Call count []
      ((List.range' 1 (count - 1)).flatMap fun h => (settlingHeights g h).map .read) := by
    rw [← List.map_flatMap]
    exact Call.reads _
  have hschema : Call count []
      (if oldSchema then persistOps count ++ [.take, .write] else []) := by
    split
    · exact (Call.persist count).append ⟨⟨trivial, trivial, trivial⟩, rfl, rfl⟩
    · exact Call.reads []
  exact ((((((Call.reads [0]).append (Call.reads _)).append (Call.reads [finalizedHeight])).append
    (Call.reads _)).append hsettle).append (Call.reads _)).append hschema

/-- An opened node has every stored block. -/
theorem complete_openAsync {g : GenesisConfig} {genesis : Block} {storage : BlockStorage}
    {stored : List Block} {finalizedHeight : Nat} {oldSchema : Bool} {s : LiveStore}
    (hstores : Stores genesis storage stored)
    (hopen : LiveStore.openAsync g genesis storage finalizedHeight oldSchema = some s) :
    Complete stored.length stored 0 s := by
  -- An empty store is given the genesis; over another one the reads of a reload run.
  obtain ⟨hconsecutive, ⟨hnone, rfl⟩ | ⟨hne, hheight, hblocks⟩⟩ := hstores
  · unfold LiveStore.openAsync at hopen
    rw [hnone] at hopen
    dsimp only at hopen
    split at hopen
    · exact absurd hopen (by simp)
    · next cursor hnew =>
      cases hopen
      have hz : genesis.header.height = 0 := hconsecutive 0 genesis rfl
      refine complete_new hconsecutive (by simp) ?_ ?_ hnew
      · simp [BlockStorage.getHeight, BlockStorage.replaceBlocks, hz]
      · intro h
        simp only [BlockStorage.getBlock, BlockStorage.replaceBlocks, List.foldl_cons,
          List.foldl_nil, hz]
        rw [KeyMap.getElem?_insert_eq]
        cases h with
        | zero => rfl
        | succ h => simp
  · have hlen : stored.length - 1 + 1 = stored.length := by
      have := List.length_pos_iff.mpr hne
      omega
    unfold LiveStore.openAsync at hopen
    rw [hheight] at hopen
    dsimp only at hopen
    rw [hlen] at hopen
    split at hopen
    · exact absurd hopen (by simp)
    · next cursor hnew =>
      have hcall := Call.reload g finalizedHeight stored.length oldSchema
      have hc := complete_new hconsecutive hne hheight hblocks hnew
      obtain ⟨t, ht, hct⟩ := hc.run hcall.ordered (by
        rw [hcall.pushed, List.append_nil]
        exact .inl le_rfl)
      rw [hopen] at ht
      cases ht
      rw [hcall.pushed, List.append_nil, hcall.collected] at hct
      exact hct

/-! ## What a live node promises -/

/-- After `before`: no panic so far, every height up to `height()` reads the block added there,
and a full state queued just now holds every block. -/
def KeepsEveryBlock (s : LiveStore) (stored : List Block) (before : List StoreOp) : Prop :=
  ∃ t, s.run before = some t ∧ t.height + 1 = (stored ++ pushedBlocks before).length ∧
    (∀ h ≤ t.height, t.blockAtHeight h = (stored ++ pushedBlocks before)[h]?) ∧
    ∀ earlier, before = earlier ++ [.enqueue] → t.slot = some (stored ++ pushedBlocks before)

theorem LiveStore.run_append (s : LiveStore) (a b : List StoreOp) :
    s.run (a ++ b) = (s.run a).bind fun t => t.run b := by
  induction a generalizing s with
  | nil => rfl
  | cons op rest ih =>
    rw [List.cons_append, run, run, Option.bind_assoc]
    exact congrArg _ (funext ih)

theorem Complete.keepsEveryBlock {opened : Nat} {stored : List Block} {s : LiveStore}
    (hc : Complete opened stored k s) (hord : Ordered stored.length k ops)
    (hroom : Roomy opened (stored ++ pushedBlocks ops)) : KeepsEveryBlock s stored ops := by
  obtain ⟨t, ht, hct⟩ := hc.run hord hroom
  have hpos : 0 < (stored ++ pushedBlocks ops).length :=
    (List.getElem?_eq_some_iff.mp hct.genesis).1
  have hheight : t.height + 1 = (stored ++ pushedBlocks ops).length := by
    unfold LiveStore.height
    rw [hct.count]
    omega
  refine ⟨t, ht, hheight, fun h hh => hct.blockAt (by omega), ?_⟩
  rintro earlier rfl
  rw [pushedBlocks_append, show pushedBlocks [.enqueue] = [] from rfl, List.append_nil] at hroom ⊢
  obtain ⟨hord₁, hord₂⟩ := ordered_append.mp hord
  obtain ⟨u, hu, hcu⟩ := hc.run hord₁ hroom
  rw [← List.length_append] at hord₂
  obtain ⟨t', ht', -, hslot⟩ := hcu.step hord₂.1 (by
    simp only [StoreOp.blocks, List.append_nil]
    exact hroom)
  rw [LiveStore.run_append, hu, Option.bind_some, LiveStore.run, ht'] at ht
  cases ht
  exact hslot rfl

/-! ## The walk past the cache -/

/-- The newest block, at height `n`, is on no disk and in no full state. -/
structure Unsaved (n : Nat) (s : LiveStore) : Prop where
  capacity : s.cursor.cache.capacity = DEFAULT_BLOCK_CACHE_SIZE
  stored : s.storage.getBlock n = none
  slot : ∀ l ∈ s.slot, ∀ b ∈ l, b.header.height ≠ n
  taken : ∀ l ∈ s.taken, ∀ b ∈ l, b.header.height ≠ n

namespace Unsaved

variable {s s' : LiveStore}

/-- Right after the block was appended. -/
theorem push {blocks : List Block} (hf : Faithful blocks s) (block : Block) :
    Unsaved blocks.length (s.withBlock blocks.length block) := by
  have hbelow : ∀ b ∈ blocks, b.header.height ≠ blocks.length := by
    intro b hb
    have := (List.getElem?_eq_some_iff.mp (hf.of_mem hb)).1
    omega
  refine ⟨hf.capacity, ?_, fun l hl b hb => hbelow b (hf.slot l hl hb),
    fun l hl b hb => hbelow b (hf.taken l hl hb)⟩
  show s.storage.getBlock blocks.length = none
  cases hget : s.storage.getBlock blocks.length with
  | none => rfl
  | some b =>
    have := (List.getElem?_eq_some_iff.mp (hf.stored hget)).1
    omega

/-- The worker writes full states, and none of them has the block. -/
theorem worker (hu : Unsaved n s) {op : StoreOp} (hop : op.onChain = false)
    (h : s.step op = some s') : Unsaved n s' ∧ s'.cursor = s.cursor := by
  cases op with
  | take =>
    unfold LiveStore.step at h
    dsimp only at h
    split at h
    · next l _ hslot =>
      cases h
      exact ⟨⟨hu.capacity, hu.stored, fun _ hl => absurd hl (by simp),
        fun l' hl => by cases hl; exact hu.slot l hslot⟩, rfl⟩
    · cases h
      exact ⟨hu, rfl⟩
  | write =>
    unfold LiveStore.step at h
    dsimp only at h
    split at h
    · cases h
      exact ⟨hu, rfl⟩
    · next l htaken =>
      cases h
      refine ⟨⟨hu.capacity, ?_, hu.slot, fun _ hl => absurd hl (by simp)⟩, rfl⟩
      cases hget : (s.storage.replaceBlocks l).getBlock n with
      | none => rfl
      | some b =>
        obtain ⟨hmem, hheight⟩ := mem_of_getBlock_replaceBlocks s.storage hget
        exact absurd hheight (hu.taken l htaken b hmem)
  | _ => exact absurd hop (by simp [StoreOp.onChain])

/-- A successful read is a use; of the genesis it is none. -/
theorem read {ks : List Nat} {h : Nat} (hu : Unsaved n s) (hr : s.cursor.cache.Recent ks)
    (hh : h ∉ ks) (hsome : (s.blockAtHeight h).isSome) :
    Unsaved n { s with cursor := (s.cursor.blockAt s.storage h).2 } ∧
      (s.cursor.blockAt s.storage h).2.cache.Recent (if h = 0 then ks else h :: ks) := by
  unfold LiveStore.blockAtHeight at hsome
  rcases s.cursor.blockAt_cases s.storage h with ⟨rfl, heq⟩ | ⟨-, -, heq⟩ | ⟨-, -, -, heq⟩ |
    ⟨b, hpos, -, -, heq⟩
  · rw [heq]
    exact ⟨hu, hr⟩
  · rw [heq] at hsome
    exact absurd hsome (by simp)
  · rw [heq] at hsome
    exact absurd hsome (by simp)
  · rw [heq, if_neg (by omega)]
    exact ⟨⟨hu.capacity, hu.stored, hu.slot, hu.taken⟩, hr.touch hh b⟩

/-- Reading `heights` with the worker in between: they are the blocks used last. -/
theorem reads {heights ks : List Nat} (hu : Unsaved n s) (hr : s.cursor.cache.Recent ks)
    (hnodup : (heights ++ ks).Nodup) (hops : ops.filter StoreOp.onChain = heights.map .read)
    (hread : ∀ before t, before <+: ops → s.run before = some t →
      ∀ h ∈ heights, (t.blockAtHeight h).isSome)
    (hrun : s.run ops = some s') :
    Unsaved n s' ∧ s'.cursor.cache.Recent ((heights.filter (· ≠ 0)).reverse ++ ks) := by
  induction ops generalizing heights ks s with
  | nil =>
    cases hrun
    rw [List.filter_nil, eq_comm, List.map_eq_nil_iff] at hops
    subst hops
    exact ⟨hu, hr⟩
  | cons op rest ih =>
    obtain ⟨t, ht, hrest⟩ := Option.bind_eq_some_iff.mp hrun
    have hlater : ∀ before u, before <+: rest → t.run before = some u →
        ∀ h ∈ heights, (u.blockAtHeight h).isSome := by
      intro before u hb hbu
      refine hread (op :: before) u (List.cons_prefix_cons.mpr ⟨rfl, hb⟩) ?_
      rw [LiveStore.run, ht]
      exact hbu
    -- The worker's operations leave the cursor alone; only the chain's own reads move the cache.
    cases hop : op.onChain with
    | false =>
      rw [List.filter_cons_of_neg (by simp [hop])] at hops
      obtain ⟨hut, hcursor⟩ := hu.worker hop ht
      exact ih hut (by rw [hcursor]; exact hr) hnodup hops hlater hrest
    | true =>
      rw [List.filter_cons_of_pos hop] at hops
      cases heights with
      | nil => exact absurd hops (by simp)
      | cons h heights =>
        rw [List.map_cons, List.cons.injEq] at hops
        obtain ⟨rfl, hops⟩ := hops
        have hfirst : (s.blockAtHeight h).isSome :=
          hread [] s List.nil_prefix rfl h List.mem_cons_self
        rw [List.cons_append, List.nodup_cons, List.mem_append, not_or] at hnodup
        obtain ⟨⟨hnew, hks⟩, hnodup⟩ := hnodup
        obtain ⟨hut, hrt⟩ := hu.read hr hks hfirst
        cases ht
        have hnext := ih hut hrt ?_ hops (fun before u hb hbu x hx =>
          hlater before u hb hbu x (List.mem_cons_of_mem _ hx)) hrest
        -- The genesis is never cached, so a read of height 0 leaves the cache as it is.
        · by_cases hz : h = 0
          · rw [if_pos hz] at hnext
            rw [List.filter_cons_of_neg (by simp [hz])]
            exact hnext
          · rw [if_neg hz] at hnext
            rw [List.filter_cons_of_pos (by simp [hz]), List.reverse_cons, List.append_assoc]
            exact hnext
        · split
          · exact hnodup
          · rw [List.nodup_middle, List.nodup_cons, List.mem_append, not_or]
            exact ⟨⟨hnew, hks⟩, hnodup⟩

/-- The block is lost once it is not cached. -/
theorem blockAt (hu : Unsaved n s) (hpos : 0 < n) (hn : n ∉ s.cursor.cache.keys) :
    s.blockAtHeight n = none := by
  have hmiss := Lru.peek_eq_none hn
  unfold LiveStore.blockAtHeight
  rcases s.cursor.blockAt_cases s.storage n with ⟨hz, -⟩ | ⟨-, -, heq⟩ | ⟨-, -, -, heq⟩ |
    ⟨b, -, -, hb | ⟨-, hb⟩, -⟩
  · omega
  · rw [heq]
  · rw [heq]
  · rw [hmiss] at hb
    exact absurd hb (by simp)
  · rw [hu.stored] at hb
    exact absurd hb (by simp)

/-- A walk over more blocks than the cache holds ends without the block. -/
theorem walk (hu : Unsaved n s) (hfull : DEFAULT_BLOCK_CACHE_SIZE < n)
    (hops : ops.filter StoreOp.onChain = (List.range n).map .read)
    (hread : ∀ before t, before <+: ops → s.run before = some t →
      ∀ h < n, (t.blockAtHeight h).isSome)
    (hrun : s.run ops = some s') : s'.blockAtHeight n = none := by
  obtain ⟨hu', hrecent⟩ := hu.reads (Lru.Recent.nil _)
    (by rw [List.append_nil]; exact List.nodup_range) hops
    (fun before t hb ht h hh => hread before t hb ht h (List.mem_range.mp hh)) hrun
  refine hu'.blockAt (by omega) (hrecent.notMem ?_ (by simp))
  -- every height below `n` but 0
  obtain ⟨m, rfl⟩ : ∃ m, n = m + 1 := ⟨n - 1, by omega⟩
  have hfilter : (List.range (m + 1)).filter (· ≠ 0) = (List.range m).map (· + 1) := by
    rw [List.range_succ_eq_map, List.filter_cons_of_neg (by simp), List.filter_eq_self.mpr]
    intro x hx
    obtain ⟨y, -, rfl⟩ := List.mem_map.mp hx
    simp
  rw [hu'.capacity, hfilter, List.append_nil, List.length_reverse, List.length_map,
    List.length_range]
  omega

end Unsaved

/-! ## Exactly when nothing is lost -/

theorem addBlocksOps_append (g : GenesisConfig) (count : Nat) (a b : List Block) :
    addBlocksOps g count (a ++ b) =
      addBlocksOps g count a ++ addBlocksOps g (count + a.length) b := by
  induction a generalizing count with
  | nil => rfl
  | cons block rest ih =>
    rw [List.cons_append, addBlocksOps, addBlocksOps, ih, List.length_cons, List.append_assoc]
    congr 3
    omega

/-- The calls up to the push of a block, the walk below its height, and the rest. -/
theorem addBlocksOps_split (g : GenesisConfig) (count : Nat) (earlier later : List Block)
    (block : Block) :
    ∃ before rest, addBlocksOps g count (earlier ++ block :: later) =
      before ++ .push block :: ((List.range (count + earlier.length)).map .read ++ rest) ∧
        pushedBlocks before = pushedBlocks (addBlocksOps g count earlier) := by
  refine ⟨addBlocksOps g count earlier ++ ((settlingHeights g block.header.height).map .read ++
    [.latest]), ?_, ?_, ?_⟩
  · exact .read (count + earlier.length) ::
      ((if 0 < g.epochLength ∧ block.header.height % g.epochLength = 0 then
        persistOps (count + earlier.length + 1) else []) ++
          addBlocksOps g (count + earlier.length + 1) later)
  · rw [addBlocksOps_append, addBlocksOps, addBlockOps, walkOps, List.range_succ]
    simp only [List.map_append, List.map_cons, List.map_nil, List.append_assoc, List.cons_append,
      List.nil_append]
  · rw [pushedBlocks_append, pushedBlocks_append, pushedBlocks_reads]
    exact List.append_nil _

/-- The same in a run with a worker. -/
theorem run_split {g : GenesisConfig} {count : Nat} {earlier later : List Block} {block : Block}
    {run : List StoreOp} (hadded : Consecutive count (earlier ++ block :: later))
    (hrun : run.filter StoreOp.onChain = addBlocksOps g count (earlier ++ block :: later)) :
    ∃ before walk rest, run = before ++ .push block :: (walk ++ rest) ∧
      pushedBlocks before = earlier ∧ pushedBlocks walk = [] ∧
      walk.filter StoreOp.onChain = (List.range (count + earlier.length)).map .read := by
  obtain ⟨A, Z, hsplit, hA⟩ := addBlocksOps_split g count earlier later block
  rw [hsplit] at hrun
  obtain ⟨r, r', rfl, hr, hr'⟩ := List.filter_eq_append_iff.mp hrun
  obtain ⟨w, q, rfl, hw, -, hq⟩ := List.filter_eq_cons_iff.mp hr'
  obtain ⟨walk, rest, rfl, hwalk, -⟩ := List.filter_eq_append_iff.mp hq
  have hearlier : pushedBlocks (addBlocksOps g count earlier) = earlier := by
    refine (Call.addBlocks g ?_).pushed
    intro i b hb
    refine hadded i b ?_
    rw [List.getElem?_append_left (List.getElem?_eq_some_iff.mp hb).1]
    exact hb
  refine ⟨r ++ w, walk, rest, by simp, ?_, ?_, hwalk⟩
  · rw [← pushedBlocks_filter, List.filter_append, List.filter_eq_nil_iff.mpr hw, List.append_nil,
      hr, hA, hearlier]
  · rw [← pushedBlocks_filter, hwalk, pushedBlocks_reads]

/-- The first block past the cache is lost by the walk of its own `add_block`. -/
theorem Faithful.loses {stored earlier : List Block} {block : Block} {s : LiveStore}
    {before walk rest : List StoreOp} (hf : Faithful stored s)
    (hord : Ordered stored.length 0 (before ++ .push block :: (walk ++ rest)))
    (hbefore : pushedBlocks before = earlier) (hwalked : pushedBlocks walk = [])
    (hwalk : walk.filter StoreOp.onChain =
      (List.range (stored.length + earlier.length)).map .read)
    (hfull : DEFAULT_BLOCK_CACHE_SIZE < stored.length + earlier.length)
    (hkeeps : ∀ ops, ops <+: before ++ .push block :: (walk ++ rest) →
      KeepsEveryBlock s stored ops) : False := by
  obtain ⟨hord₁, hord₂⟩ := ordered_append.mp hord
  obtain ⟨t, ht, -⟩ := hkeeps before (List.prefix_append _ _)
  have hft := hf.run hord₁ ht
  rw [hbefore] at hft
  have hheight : block.header.height = (stored ++ earlier).length := by
    have hfits := hord₂.1
    rw [hbefore] at hfits
    rw [List.length_append]
    exact hfits
  rw [← List.length_append] at hwalk hfull
  have hreach : ∀ ops, s.run (before ++ .push block :: ops) =
      (t.withBlock (stored ++ earlier).length block).run ops := by
    intro ops
    rw [LiveStore.run_append, ht, Option.bind_some, LiveStore.run, hft.step_push hheight,
      Option.bind_some]
  -- in the middle of the walk every block still reads, up to the new one
  have hread : ∀ ops u, ops <+: walk →
      (t.withBlock (stored ++ earlier).length block).run ops = some u →
      ∀ h ≤ (stored ++ earlier).length, (u.blockAtHeight h).isSome := by
    intro ops u hops hu h hh
    obtain ⟨more, rfl⟩ := hops
    obtain ⟨u', hu', hlen, hat, -⟩ := hkeeps (before ++ .push block :: ops)
      ⟨more ++ rest, by simp⟩
    rw [hreach, hu] at hu'
    cases hu'
    rw [pushedBlocks_append, List.append_eq_nil_iff] at hwalked
    rw [pushedBlocks_append, pushedBlocks_cons, hbefore, hwalked.1] at hat hlen
    simp only [StoreOp.blocks, List.append_nil, List.length_append, List.length_singleton] at hlen
    rw [hat h (by rw [List.length_append] at hh; omega), List.getElem?_eq_getElem]
    · rfl
    · simp only [StoreOp.blocks, List.append_nil, List.length_append, List.length_singleton]
      rw [List.length_append] at hh
      omega
  obtain ⟨u, hu, -⟩ := hkeeps (before ++ .push block :: walk) ⟨rest, by simp⟩
  rw [hreach] at hu
  have hlast := hread walk u (List.prefix_refl _) hu _ le_rfl
  rw [(Unsaved.push hft block).walk hfull hwalk
    (fun ops v hops hv h hh => hread ops v hops hv h (by omega)) hu] at hlast
  exact absurd hlast (by simp)

/-- A run that keeps every block adds none, or fits. -/
theorem Faithful.fits_of_keeps {g : GenesisConfig} {stored added : List Block} {s : LiveStore}
    {run : List StoreOp} (hf : Faithful stored s) (hadded : Consecutive stored.length added)
    (hrun : run.filter StoreOp.onChain = addBlocksOps g stored.length added)
    (hkeeps : ∀ before, before <+: run → KeepsEveryBlock s stored before) :
    added = [] ∨ stored.length + added.length ≤ DEFAULT_BLOCK_CACHE_SIZE + 1 := by
  by_contra hnot
  rw [not_or, not_le] at hnot
  obtain ⟨hne, hlen⟩ := hnot
  have hord : Ordered stored.length 0 run := by
    rw [← ordered_filter, hrun]
    exact (Call.addBlocks g hadded).ordered
  -- the last block is one that does not fit
  obtain ⟨earlier, block, rfl⟩ := (List.eq_nil_or_concat' added).resolve_left hne
  obtain ⟨before, walk, rest, rfl, hbefore, hwalked, hwalk⟩ := run_split hadded hrun
  refine hf.loses hord hbefore hwalked hwalk ?_ hkeeps
  rw [List.length_append, List.length_singleton] at hlen
  omega

/-- **No block is lost exactly while all blocks but the genesis fit in the cache**, or none was
added, over every schedule of the worker. -/
theorem no_block_lost_iff {g : GenesisConfig} {genesis : Block} {storage : BlockStorage}
    {finalizedHeight : Nat} {oldSchema : Bool} {s : LiveStore} {stored added : List Block}
    {run : List StoreOp} (hstores : Stores genesis storage stored)
    (hopen : LiveStore.openAsync g genesis storage finalizedHeight oldSchema = some s)
    (hadded : Consecutive stored.length added)
    (hrun : run.filter StoreOp.onChain = addBlocksOps g stored.length added) :
    (∀ before, before <+: run → KeepsEveryBlock s stored before) ↔
      (added = [] ∨ stored.length + added.length ≤ DEFAULT_BLOCK_CACHE_SIZE + 1) := by
  have hc := complete_openAsync hstores hopen
  refine ⟨hc.toFaithful.fits_of_keeps hadded hrun, ?_⟩
  intro hfits before hb
  have hcall := Call.addBlocks g hadded
  have hord : Ordered stored.length 0 run := by
    rw [← ordered_filter, hrun]
    exact hcall.ordered
  have hroom : Roomy stored.length (stored ++ pushedBlocks run) := by
    rw [← pushedBlocks_filter, hrun, hcall.pushed]
    rcases hfits with rfl | hfits
    · exact .inl (by simp)
    · exact .inr (by rw [List.length_append]; exact hfits)
  refine hc.keepsEveryBlock (hord.of_prefix hb) (Roomy.of_prefix hroom ?_)
  obtain ⟨after, rfl⟩ := hb
  rw [pushedBlocks_append, ← List.append_assoc]
  exact List.prefix_append _ _

/-! ## The blocks a chain accepts -/

namespace Blockchain

/-- Blocks that `add_block` accepts in a row come at the next heights. -/
theorem Accepts.consecutive {P : Primitives} {c : Blockchain} {calls : List (Int × Block)}
    (hu : c.Unpruned) (hn : c.latestBlock.header.height + 1 = n) (h : c.Accepts P calls) :
    Consecutive n (calls.map Prod.snd) := by
  induction calls generalizing c n with
  | nil => exact fun i b hb => absurd hb (by simp)
  | cons call rest ih =>
    obtain ⟨now, block⟩ := call
    obtain ⟨hu', htip, hheight⟩ := hu.addBlock h.1
    have hrest := ih hu' (by rw [htip]) h.2
    intro i b hb
    cases i with
    | zero =>
      cases hb
      show block.header.height = n + 0
      omega
    | succ i =>
      rw [hrest i b (by simpa using hb)]
      omega

end Blockchain

/-! ## A new node -/

theorem filter_addBlocksOps (g : GenesisConfig) (count : Nat) (added : List Block) :
    (addBlocksOps g count added).filter StoreOp.onChain = addBlocksOps g count added := by
  have hreads : ∀ heights : List Nat, ∀ op ∈ heights.map StoreOp.read, op.onChain = true := by
    intro heights op hop
    obtain ⟨h, -, rfl⟩ := List.mem_map.mp hop
    rfl
  have hcollects : ∀ heights : List Nat, ∀ op ∈ heights.map StoreOp.collect,
      op.onChain = true := by
    intro heights op hop
    obtain ⟨h, -, rfl⟩ := List.mem_map.mp hop
    rfl
  rw [List.filter_eq_self]
  induction added generalizing count with
  | nil => exact fun op hop => absurd hop (by simp [addBlocksOps])
  | cons block rest ih =>
    intro op hop
    simp only [addBlocksOps, addBlockOps, walkOps, List.mem_append] at hop
    rcases hop with (((hop | hop) | hop) | hop) | hop
    · exact hreads _ op hop
    · simp only [List.mem_cons, List.not_mem_nil, or_false] at hop
      rcases hop with rfl | rfl <;> rfl
    · exact hreads _ op hop
    · split at hop
      · rcases List.mem_append.mp hop with hop | hop
        · exact hcollects _ op hop
        · rw [List.mem_singleton.mp hop]
          rfl
      · exact absurd hop (by simp)
    · exact ih _ op hop

/-- A new store opens with the genesis block. -/
theorem LiveStore.openAsync_new (g : GenesisConfig) {genesis : Block}
    (hz : genesis.header.height = 0) (finalizedHeight : Nat) (oldSchema : Bool) :
    ∃ s, LiveStore.openAsync g genesis {} finalizedHeight oldSchema = some s := by
  have hget : (BlockStorage.replaceBlocks {} [genesis]).getBlock 0 = some genesis := by
    simp [BlockStorage.getBlock, BlockStorage.replaceBlocks, hz]
  unfold openAsync BlockStoreCursor.new BlockStoreCursor.newWithPersist
  simp only [BlockStorage.getHeight, hget]
  exact ⟨_, rfl⟩

theorem stores_new {genesis : Block} (hz : genesis.header.height = 0) :
    Stores genesis {} [genesis] := by
  refine ⟨?_, .inl ⟨rfl, rfl⟩⟩
  intro i b hb
  rw [List.getElem?_singleton] at hb
  split at hb
  · next hi =>
    cases hb
    omega
  · exact absurd hb (by simp)

namespace LiveSample

def config : GenesisConfig where
  chainId := [1]
  epochLength := 1

/-- A block that differs from the genesis in its height; the store looks at nothing else. -/
def block (height : Nat) : Block :=
  let genesis := genesisBlock Reference.primitives config ∅
  { genesis with header := { genesis.header with height } }

def blocks (count : Nat) : List Block := (List.range' 1 count).map block

theorem consecutive_blocks (count : Nat) : Consecutive 1 (blocks count) := by
  intro i b hb
  unfold blocks at hb
  rw [List.getElem?_map, Option.map_eq_some_iff] at hb
  obtain ⟨h, hh, rfl⟩ := hb
  obtain ⟨hi, rfl⟩ := List.getElem?_eq_some_iff.mp hh
  simp [block]

end LiveSample

open LiveSample in
/-- One block at an epoch boundary, and the worker writes the state that holds it. -/
theorem no_block_lost_one : ∃ s,
    LiveStore.openAsync config (block 0) {} 0 false = some s ∧
      ((∀ before, before <+: addBlocksOps config 1 (blocks 1) ++ [.take, .write] →
          KeepsEveryBlock s [block 0] before) ↔
        (blocks 1 = [] ∨ 1 + (blocks 1).length ≤ DEFAULT_BLOCK_CACHE_SIZE + 1)) := by
  obtain ⟨s, hs⟩ := LiveStore.openAsync_new config (show (block 0).header.height = 0 from rfl) 0 false
  refine ⟨s, hs, no_block_lost_iff (stores_new rfl) hs (consecutive_blocks 1) ?_⟩
  rw [List.filter_append, filter_addBlocksOps]
  rfl

open LiveSample in
/-- A new node that adds a thousand and one blocks loses one. -/
theorem block_1001_lost :
    ¬ ∀ (g : GenesisConfig) (genesis : Block) (storage : BlockStorage) (finalizedHeight : Nat)
        (oldSchema : Bool) (s : LiveStore) (stored added : List Block) (run : List StoreOp),
        Stores genesis storage stored →
        LiveStore.openAsync g genesis storage finalizedHeight oldSchema = some s →
        1 ≤ g.epochLength → Consecutive stored.length added →
        run.filter StoreOp.onChain = addBlocksOps g stored.length added →
        ∀ before, before <+: run → KeepsEveryBlock s stored before := by
  intro h
  obtain ⟨s, hs⟩ := LiveStore.openAsync_new config (show (block 0).header.height = 0 from rfl) 0 false
  have hstores := stores_new (show (block 0).header.height = 0 from rfl)
  have hkeeps := h config (block 0) {} 0 false s [block 0] (blocks 1001)
    (addBlocksOps config 1 (blocks 1001)) hstores hs (by decide) (consecutive_blocks 1001)
    (filter_addBlocksOps config 1 (blocks 1001))
  rcases (complete_openAsync hstores hs).toFaithful.fits_of_keeps (consecutive_blocks 1001)
    (filter_addBlocksOps config 1 (blocks 1001)) hkeeps with hnil | hfits
  · exact absurd hnil (by simp [blocks])
  · rw [blocks, List.length_map, List.length_range'] at hfits
    exact absurd hfits (by decide)

end Curs3d
