import Curs3d.Proof.LiveStore
import Curs3d.Proof.Linear

/-!
# Replacing the chain of a node with a disk

`replaceAllBlocks` feeds a new chain to a cursor whose cache holds a thousand blocks and whose disk
still holds the old chain. As long as all blocks but the genesis fit, nothing of the disk is ever
read and the node holds the new chain. One block more, and the walk that follows reads the first
block from the disk, which evicts the second, which is then read from the disk, and so on: every
block of the walk comes from the disk.

So the new chain is installed exactly when it fits, or when the disk, and whatever the worker may
still write to it, holds that chain already.
-/

set_option autoImplicit false

namespace Curs3d

variable {s s' : LiveStore} {blocks : List Block} {n : Nat}

/-! ## What a replacement leaves -/

/-- A node with a disk, between two calls. -/
structure DiskBacked (s : LiveStore) : Prop where
  capacity : s.cursor.cache.capacity = DEFAULT_BLOCK_CACHE_SIZE
  cacheOnly : s.cursor.selfPersist = false
  genesis : s.cursor.genesis.header.height = 0
  collected : s.collected = []

/-- Everything a run of appends leaves alone. -/
structure SameButCache (s s' : LiveStore) : Prop where
  storage : s'.storage = s.storage
  collected : s'.collected = s.collected
  slot : s'.slot = s.slot
  taken : s'.taken = s.taken
  base : s'.cursor.baseHeight = s.cursor.baseHeight
  persist : s'.cursor.selfPersist = s.cursor.selfPersist
  capacity : s'.cursor.cache.capacity = s.cursor.cache.capacity

namespace LiveStore

/-- The appends of a replacement. -/
def pushAll (s : LiveStore) (blocks : List Block) : LiveStore :=
  blocks.foldl (fun s block => (s.step (.push block)).getD s) s

/-- One append to a cursor over a disk: at another height it is skipped. -/
theorem push_cases (hc : s.cursor.selfPersist = false) (block : Block) :
    (block.header.height ≠ s.cursor.heightCount ∧ (s.step (.push block)).getD s = s) ∨
    (block.header.height = s.cursor.heightCount ∧ (s.step (.push block)).getD s =
      { s with cursor :=
        if block.header.height = 0 then
          { s.cursor with genesis := block, heightCount := s.cursor.heightCount + 1 }
        else { s.cursor with
          cache := s.cursor.cache.touch block.header.height block
          heightCount := s.cursor.heightCount + 1 } }) := by
  by_cases hheight : block.header.height = s.cursor.heightCount
  · refine .inr ⟨hheight, ?_⟩
    have happend : s.cursor.append s.storage block = .ok
        (if block.header.height = 0 then
          { s.cursor with genesis := block, heightCount := s.cursor.heightCount + 1 }
        else { s.cursor with
          cache := s.cursor.cache.touch block.header.height block
          heightCount := s.cursor.heightCount + 1 }, s.storage) := by
      unfold BlockStoreCursor.append
      rw [if_neg (not_not.mpr hheight)]
      by_cases hzero : block.header.height = 0
      · simp only [hc, hzero]
        rfl
      · simp only [hc, hzero]
        rfl
    unfold LiveStore.step
    dsimp only
    rw [happend]
    rfl
  · have happend : s.cursor.append s.storage block =
        .error (.nonContiguousAppend s.cursor.heightCount block.header.height) := by
      unfold BlockStoreCursor.append
      exact if_pos hheight
    refine .inl ⟨hheight, ?_⟩
    unfold LiveStore.step
    dsimp only
    rw [happend]
    rfl

theorem pushAll_same (hc : s.cursor.selfPersist = false) (blocks : List Block) :
    SameButCache s (s.pushAll blocks) := by
  induction blocks generalizing s with
  | nil => exact ⟨rfl, rfl, rfl, rfl, rfl, rfl, rfl⟩
  | cons block rest ih =>
    unfold pushAll
    rw [List.foldl_cons]
    rcases push_cases hc block with ⟨-, h⟩ | ⟨-, h⟩
    · rw [h]
      exact ih hc
    · rw [h]
      split
      · have hrest := ih (s := { s with cursor := { s.cursor with
            genesis := block, heightCount := s.cursor.heightCount + 1 } }) hc
        exact ⟨hrest.storage, hrest.collected, hrest.slot, hrest.taken, hrest.base, hrest.persist,
          hrest.capacity⟩
      · have hrest := ih (s := { s with cursor := { s.cursor with
            cache := s.cursor.cache.touch block.header.height block
            heightCount := s.cursor.heightCount + 1 } }) hc
        exact ⟨hrest.storage, hrest.collected, hrest.slot, hrest.taken, hrest.base, hrest.persist,
          hrest.capacity⟩

/-- The count goes up by the blocks taken, so all of them were when it reaches the end. -/
theorem heightCount_pushAll (hc : s.cursor.selfPersist = false) (blocks : List Block) :
    (s.pushAll blocks).cursor.heightCount ≤ s.cursor.heightCount + blocks.length ∧
      ((s.pushAll blocks).cursor.heightCount = s.cursor.heightCount + blocks.length →
        Consecutive s.cursor.heightCount blocks) := by
  induction blocks generalizing s with
  | nil => exact ⟨Nat.le_refl _, fun _ i b hb => absurd hb (by simp)⟩
  | cons block rest ih =>
    have hstep : s.pushAll (block :: rest) =
        LiveStore.pushAll ((s.step (.push block)).getD s) rest := rfl
    rw [hstep]
    rcases push_cases hc block with ⟨-, h⟩ | ⟨hheight, h⟩
    -- A block that is not taken leaves the count short for good.
    · rw [h]
      obtain ⟨hle, -⟩ := ih hc
      refine ⟨by simp only [List.length_cons]; omega, ?_⟩
      intro heq
      rw [List.length_cons] at heq
      omega
    · rw [h]
      set next : LiveStore := { s with cursor :=
        if block.header.height = 0 then
          { s.cursor with genesis := block, heightCount := s.cursor.heightCount + 1 }
        else { s.cursor with
          cache := s.cursor.cache.touch block.header.height block
          heightCount := s.cursor.heightCount + 1 } } with hnext
      have hcount : next.cursor.heightCount = s.cursor.heightCount + 1 := by
        rw [hnext]
        dsimp only
        split <;> rfl
      have hpersist : next.cursor.selfPersist = false := by
        rw [hnext]
        dsimp only
        split <;> exact hc
      obtain ⟨hle, hall⟩ := ih hpersist
      rw [hcount] at hle hall
      rw [List.length_cons]
      refine ⟨by omega, ?_⟩
      intro heq i b hb
      cases i with
      | zero =>
        cases hb
        exact hheight
      | succ i =>
        have := hall (by omega) i b (by simpa using hb)
        omega

/-- Blocks above the genesis, appended in order: they are the blocks used last, newest first. -/
theorem pushAll_consecutive (hc : s.cursor.selfPersist = false) (hpos : 0 < s.cursor.heightCount)
    (hcons : Consecutive s.cursor.heightCount blocks) {ks : List Nat}
    (hrecent : s.cursor.cache.Recent ks) (hks : ∀ k ∈ ks, k < s.cursor.heightCount) :
    (s.pushAll blocks).cursor.genesis = s.cursor.genesis ∧
      (s.pushAll blocks).cursor.heightCount = s.cursor.heightCount + blocks.length ∧
      (s.pushAll blocks).cursor.cache.Recent
        ((List.range' s.cursor.heightCount blocks.length).reverse ++ ks) ∧
      ∀ h b, (s.pushAll blocks).cursor.cache.peek h = some b →
        s.cursor.cache.peek h = some b ∨
          ∃ i, h = s.cursor.heightCount + i ∧ blocks[i]? = some b := by
  induction blocks generalizing s ks with
  | nil => exact ⟨rfl, rfl, hrecent, fun h b hb => .inl hb⟩
  | cons block rest ih =>
    have hheight : block.header.height = s.cursor.heightCount := hcons 0 block rfl
    have hstep : (s.step (.push block)).getD s =
        s.withBlock s.cursor.heightCount block := by
      rcases push_cases hc block with ⟨hne, -⟩ | ⟨-, h⟩
      · exact absurd hheight hne
      · rw [h, if_neg (by omega), hheight]
        rfl
    have hall : s.pushAll (block :: rest) =
        (s.withBlock s.cursor.heightCount block).pushAll rest := by
      unfold pushAll
      rw [List.foldl_cons, hstep]
    rw [hall]
    -- The key is new to the cache, so a touch puts it first and moves nothing else.
    have hnew : s.cursor.heightCount ∉ ks := fun hmem => absurd (hks _ hmem) (by omega)
    obtain ⟨hgenesis, hcount, hr, hpeek⟩ := ih (s := s.withBlock s.cursor.heightCount block) hc
      (Nat.succ_pos _) hcons.tail (hrecent.touch hnew block) (by
        intro k hk
        rcases List.mem_cons.mp hk with rfl | hk
        · exact Nat.lt_succ_self _
        · exact Nat.lt_succ_of_lt (hks k hk))
    refine ⟨hgenesis, ?_, ?_, ?_⟩
    · rw [hcount, List.length_cons]
      show s.cursor.heightCount + 1 + rest.length = _
      omega
    · rw [List.length_cons, List.range'_succ, List.reverse_cons, List.append_assoc]
      exact hr
    · intro h b hb
      rcases hpeek h b hb with hold | ⟨i, rfl, hi⟩
      · rcases Lru.peek_touch hold with ⟨rfl, rfl⟩ | ⟨hold, -⟩
        · exact .inr ⟨0, rfl, rfl⟩
        · exact .inl hold
      · refine .inr ⟨i + 1, ?_, by simpa using hi⟩
        show s.cursor.heightCount + 1 + i = _
        omega

end LiveStore

/-- A store into which `blocks` was fed: right after a replacement. -/
structure Fed (blocks : List Block) (s : LiveStore) : Prop where
  capacity : s.cursor.cache.capacity = DEFAULT_BLOCK_CACHE_SIZE
  collected : s.collected = []
  count : s.cursor.heightCount = blocks.length
  genesis : blocks[0]? = some s.cursor.genesis
  recent : s.cursor.cache.Recent (List.range' 1 (blocks.length - 1)).reverse
  cached : ∀ h b, s.cursor.cache.peek h = some b → blocks[h]? = some b

/-- A chain of consecutive blocks is fed completely. -/
theorem fed_replaceAllBlocks (hd : DiskBacked s) (hne : blocks ≠ []) (hcons : Consecutive 0 blocks) :
    Fed blocks (s.replaceAllBlocks blocks) := by
  obtain ⟨genesis, rest, rfl⟩ := List.exists_cons_of_ne_nil hne
  have hheight : genesis.header.height = 0 := hcons 0 genesis rfl
  set emptied : LiveStore := { s with cursor := s.cursor.invalidateFrom 0 } with hemptied
  have hzero : emptied.cursor.heightCount = 0 := by
    show (if 0 < s.cursor.heightCount then 0 else s.cursor.heightCount) = 0
    split <;> omega
  have hpersist : emptied.cursor.selfPersist = false := hd.cacheOnly
  have hmiss : ∀ h, emptied.cursor.cache.peek h = none := by
    intro h
    refine Lru.peek_eq_none ?_
    simp [hemptied, BlockStoreCursor.invalidateFrom, Lru.retain, Lru.keys]
  set first : LiveStore := { emptied with cursor := { emptied.cursor with
    genesis := genesis, heightCount := 1 } } with hfirst
  have hstep : (emptied.step (.push genesis)).getD emptied = first := by
    rcases LiveStore.push_cases hpersist genesis with ⟨hne, -⟩ | ⟨-, h⟩
    · exact absurd (hheight.trans hzero.symm) hne
    · rw [h, if_pos hheight, hzero]
  have hall : s.replaceAllBlocks (genesis :: rest) = first.pushAll rest := by
    unfold LiveStore.replaceAllBlocks
    rw [List.foldl_cons, hstep]
    rfl
  obtain ⟨hgenesis, hcount, hrecent, hpeek⟩ := LiveStore.pushAll_consecutive (s := first) hpersist
    (Nat.succ_pos 0) hcons.tail (Lru.Recent.nil _) (by simp)
  have hsame := LiveStore.pushAll_same (s := first) hpersist rest
  rw [hall]
  refine ⟨hsame.capacity.trans hd.capacity, hsame.collected.trans hd.collected, ?_, ?_, ?_, ?_⟩
  · rw [hcount, List.length_cons, Nat.add_comm]
  · rw [hgenesis]
    rfl
  · rw [List.append_nil] at hrecent
    exact hrecent
  · intro h b hb
    rcases hpeek h b hb with hold | ⟨i, rfl, hi⟩
    · rw [show first.cursor.cache.peek h = none from hmiss h] at hold
      exact absurd hold (by simp)
    · rw [show first.cursor.heightCount = 1 from rfl, Nat.add_comm, List.getElem?_cons_succ]
      exact hi

/-! ## While nothing wrong is read from the disk -/

/-- The disk and every full state on its way to it hold `blocks`. -/
def OnDisk (blocks : List Block) (s : LiveStore) : Prop :=
  ∀ h, 0 < h → h < blocks.length → s.storage.getBlock h = blocks[h]? ∧
    ∀ pending, pending ∈ s.slot ∨ pending ∈ s.taken →
      (BlockStorage.replaceBlocks {} pending).getBlock h = blocks[h]?

/-- `blocks` is what the node reads: all of it is cached, or the disk has the same. -/
structure Installed (blocks : List Block) (s : LiveStore) : Prop where
  count : s.cursor.heightCount = blocks.length
  genesis : blocks[0]? = some s.cursor.genesis
  base : s.cursor.baseHeight ≤ 1 ∨ blocks.length ≤ 1
  cached : ∀ h b, s.cursor.cache.peek h = some b → blocks[h]? = some b
  complete : (∀ h, 0 < h → h < blocks.length → h ∈ s.cursor.cache.keys) ∨ OnDisk blocks s

namespace StoreOp

/-- A read, or a step of the worker. -/
def reading : StoreOp → Bool
  | .read _ | .collect _ | .take | .write => true
  | _ => false

/-- The height `from_chain` reads. -/
def gathered : StoreOp → List Nat
  | .collect h => [h]
  | _ => []

theorem gathered_filter (ops : List StoreOp) :
    (ops.filter StoreOp.onChain).flatMap gathered = ops.flatMap gathered := by
  induction ops with
  | nil => rfl
  | cons op rest ih =>
    cases hop : op.onChain with
    | true => rw [List.filter_cons_of_pos hop, List.flatMap_cons, List.flatMap_cons, ih]
    | false =>
      have hnone : op.gathered = [] := by
        cases op with
        | collect h => exact absurd hop (by simp [StoreOp.onChain])
        | _ => rfl
      rw [List.filter_cons_of_neg (by simp [hop]), ih, List.flatMap_cons, hnone, List.nil_append]

end StoreOp

/-- The uses between a replacement and its full state, with the worker in between. -/
theorem reading_of_installOps {ops : List StoreOp} {reads : List Nat}
    (h : ops.filter StoreOp.onChain = installOps n reads) :
    (∀ op ∈ ops, op.reading = true) ∧ ops.flatMap StoreOp.gathered = List.range n := by
  constructor
  · intro op hop
    cases hchain : op.onChain with
    | false =>
      cases op with
      | take => rfl
      | write => rfl
      | _ => exact absurd hchain (by simp [StoreOp.onChain])
    | true =>
      have hmem : op ∈ installOps n reads := by
        rw [← h]
        exact List.mem_filter.mpr ⟨hop, hchain⟩
      simp only [installOps, walkOps, List.mem_append, List.mem_map] at hmem
      rcases hmem with (⟨k, -, rfl⟩ | ⟨k, -, rfl⟩) | ⟨k, -, rfl⟩ <;> rfl
  · rw [← StoreOp.gathered_filter, h]
    have hnone : ∀ l : List Nat, l.flatMap (fun _ => ([] : List Nat)) = [] := by
      intro l
      simp
    simp [installOps, walkOps, List.flatMap_map, StoreOp.gathered, hnone]

namespace Installed

theorem blockAt (hi : Installed blocks s) (h : Nat) : s.blockAtHeight h = blocks[h]? := by
  unfold LiveStore.blockAtHeight
  rcases s.cursor.blockAt_cases s.storage h with ⟨rfl, heq⟩ | ⟨hpos, hout, heq⟩ |
    ⟨hpos, hmiss, hdisk, heq⟩ | ⟨b, hpos, hlt, hb, heq⟩
  · rw [heq, hi.genesis]
  · rw [heq]
    refine (List.getElem?_eq_none ?_).symm
    have hbase := hi.base
    rw [hi.count] at hout
    omega
  · rw [heq]
    by_cases hlt : h < blocks.length
    · rcases hi.complete with hall | hon
      · obtain ⟨b, hb⟩ := Lru.mem_keys_iff.mp (hall h hpos hlt)
        exact absurd (hmiss.symm.trans hb) (by simp)
      · rw [← (hon h hpos hlt).1, hdisk]
    · exact (List.getElem?_eq_none (not_lt.mp hlt)).symm
  · rw [heq]
    rcases hb with hb | ⟨hmiss, hb⟩
    · exact (hi.cached h b hb).symm
    · rw [hi.count] at hlt
      rcases hi.complete with hall | hon
      · obtain ⟨b', hb'⟩ := Lru.mem_keys_iff.mp (hall h hpos hlt)
        exact absurd (hmiss.symm.trans hb') (by simp)
      · rw [← (hon h hpos hlt).1, hb]

theorem read (hi : Installed blocks s) (h : Nat) :
    Installed blocks { s with cursor := (s.cursor.blockAt s.storage h).2 } := by
  have hread := hi.blockAt h
  unfold LiveStore.blockAtHeight at hread
  rcases s.cursor.blockAt_cases s.storage h with ⟨-, heq⟩ | ⟨-, -, heq⟩ | ⟨-, -, -, heq⟩ |
    ⟨b, hpos, hlt, -, heq⟩
  · rw [heq]; exact hi
  · rw [heq]; exact hi
  · rw [heq]; exact hi
  · rw [heq] at hread ⊢
    rw [hi.count] at hlt
    refine ⟨hi.count, hi.genesis, hi.base, ?_, ?_⟩
    · intro k x hx
      rcases Lru.peek_touch hx with ⟨rfl, rfl⟩ | ⟨hold, -⟩
      · exact hread.symm
      · exact hi.cached k x hold
    · rcases hi.complete with hall | hon
      · -- the block was cached, so using it evicts nothing
        left
        intro k hk hkl
        obtain ⟨x, hx⟩ := Lru.mem_keys_iff.mp (hall k hk hkl)
        have hroom := Lru.room_of_mem (hall h hpos hlt)
        by_cases heq : k = h
        · subst heq
          have hcap : 0 < s.cursor.cache.capacity := lt_of_lt_of_le (by simp) hroom
          exact Lru.mem_keys_iff.mpr ⟨b, Lru.peek_touch_self hcap⟩
        · exact Lru.mem_keys_iff.mpr ⟨x, Lru.peek_touch_of_room hroom hx heq⟩
      · exact .inr hon

theorem take (hi : Installed blocks s) (h : s.step .take = some s') :
    Installed blocks s' ∧ s'.collected = s.collected := by
  unfold LiveStore.step at h
  dsimp only at h
  split at h
  · next l _ hslot =>
    cases h
    refine ⟨⟨hi.count, hi.genesis, hi.base, hi.cached, hi.complete.imp_right ?_⟩, rfl⟩
    intro hon k hk hkl
    refine ⟨(hon k hk hkl).1, ?_⟩
    intro pending hpending
    rcases hpending with hp | hp
    · exact absurd hp (by simp)
    · cases hp
      exact (hon k hk hkl).2 l (.inl hslot)
  · cases h
    exact ⟨hi, rfl⟩

theorem write (hi : Installed blocks s) (h : s.step .write = some s') :
    Installed blocks s' ∧ s'.collected = s.collected := by
  unfold LiveStore.step at h
  dsimp only at h
  split at h
  · cases h
    exact ⟨hi, rfl⟩
  · next l htaken =>
    cases h
    refine ⟨⟨hi.count, hi.genesis, hi.base, hi.cached, hi.complete.imp_right ?_⟩, rfl⟩
    intro hon k hk hkl
    refine ⟨(hon k hk hkl).2 l (.inr htaken), ?_⟩
    intro pending hpending
    rcases hpending with hp | hp
    · exact (hon k hk hkl).2 pending (.inl hp)
    · exact absurd hp (by simp)

/-- A read or a step of the worker keeps the chain installed, and what `from_chain` reads is the
chain. -/
theorem step (hi : Installed blocks s) {op : StoreOp} (hop : op.reading = true) :
    ∃ t, s.step op = some t ∧ Installed blocks t ∧
      t.collected = s.collected ++ op.gathered.filterMap (fun h => blocks[h]?) := by
  cases op with
  | read h => exact ⟨_, rfl, hi.read h, by simp [StoreOp.gathered]⟩
  | collect h =>
    have hread := hi.read h
    refine ⟨_, rfl, ⟨hread.count, hread.genesis, hread.base, hread.cached, hread.complete⟩, ?_⟩
    dsimp only
    rw [hi.blockAt h]
    cases hb : blocks[h]? <;> simp [StoreOp.gathered, hb]
  | take =>
    obtain ⟨t, ht⟩ : ∃ t, s.step .take = some t := by
      unfold LiveStore.step
      dsimp only
      split <;> exact ⟨_, rfl⟩
    obtain ⟨hit, hc⟩ := hi.take ht
    exact ⟨t, ht, hit, by simp [StoreOp.gathered, hc]⟩
  | write =>
    obtain ⟨t, ht⟩ : ∃ t, s.step .write = some t := by
      unfold LiveStore.step
      dsimp only
      split <;> exact ⟨_, rfl⟩
    obtain ⟨hit, hc⟩ := hi.write ht
    exact ⟨t, ht, hit, by simp [StoreOp.gathered, hc]⟩
  | latest => exact absurd hop (by simp [StoreOp.reading])
  | push block => exact absurd hop (by simp [StoreOp.reading])
  | enqueue => exact absurd hop (by simp [StoreOp.reading])

theorem run {ops : List StoreOp} (hi : Installed blocks s) (hops : ∀ op ∈ ops, op.reading = true) :
    ∃ t, s.run ops = some t ∧ Installed blocks t ∧
      t.collected = s.collected ++ (ops.flatMap StoreOp.gathered).filterMap fun h => blocks[h]? := by
  induction ops generalizing s with
  | nil => exact ⟨s, rfl, hi, by simp⟩
  | cons op rest ih =>
    obtain ⟨t, ht, hit, hct⟩ := hi.step (hops op List.mem_cons_self)
    obtain ⟨u, hu, hiu, hcu⟩ := ih hit fun o ho => hops o (List.mem_cons_of_mem _ ho)
    refine ⟨u, ?_, hiu, ?_⟩
    · rw [LiveStore.run, ht]
      exact hu
    · rw [hcu, hct, List.flatMap_cons, List.filterMap_append, List.append_assoc]

end Installed

/-! ## The walk past the cache -/

/-- The block `b` of height `h` is neither cached nor on disk. -/
structure Lost (h : Nat) (b : Block) (s : LiveStore) : Prop where
  cached : s.cursor.cache.peek h ≠ some b
  stored : s.storage.getBlock h ≠ some b

namespace Lost

variable {h : Nat} {b : Block}

theorem blockAt (hl : Lost h b s) (hpos : 0 < h) : s.blockAtHeight h ≠ some b := by
  unfold LiveStore.blockAtHeight
  rcases s.cursor.blockAt_cases s.storage h with ⟨hz, -⟩ | ⟨-, -, heq⟩ | ⟨-, -, -, heq⟩ |
    ⟨x, -, -, hx, heq⟩
  · omega
  · rw [heq]
    simp
  · rw [heq]
    simp
  · rw [heq]
    intro hxb
    cases hxb
    rcases hx with hx | ⟨-, hx⟩
    · exact hl.cached hx
    · exact hl.stored hx

/-- No read brings it back. -/
theorem read (hl : Lost h b s) (k : Nat) :
    Lost h b { s with cursor := (s.cursor.blockAt s.storage k).2 } := by
  rcases s.cursor.blockAt_cases s.storage k with ⟨-, heq⟩ | ⟨-, -, heq⟩ | ⟨-, -, -, heq⟩ |
    ⟨x, -, -, hx, heq⟩
  · rw [heq]; exact hl
  · rw [heq]; exact hl
  · rw [heq]; exact hl
  · rw [heq]
    refine ⟨?_, hl.stored⟩
    intro hb
    rcases Lru.peek_touch hb with ⟨rfl, rfl⟩ | ⟨hold, -⟩
    · rcases hx with hx | ⟨-, hx⟩
      · exact hl.cached hx
      · exact hl.stored hx
    · exact hl.cached hold

theorem reads (hl : Lost h b s) (hc : s.collected = []) (heights : List Nat) :
    ∃ t, s.run (heights.map .read) = some t ∧ Lost h b t ∧ t.collected = [] := by
  induction heights generalizing s with
  | nil => exact ⟨s, rfl, hl, hc⟩
  | cons k rest ih =>
    obtain ⟨t, ht, hlt, hct⟩ := ih (hl.read k) hc
    exact ⟨t, ht, hlt, hct⟩

/-- What `from_chain` collects over the first `m` heights misses the block at its place. -/
theorem collects (hl : Lost h b s) (hpos : 0 < h) (hc : s.collected = []) (m : Nat) :
    ∃ t, s.run ((List.range m).map .collect) = some t ∧ Lost h b t ∧ t.collected.length ≤ m ∧
      (h < m → t.collected.length = m → t.collected[h]? ≠ some b) := by
  induction m with
  | zero => exact ⟨s, rfl, hl, by simp [hc], fun hh => absurd hh (by omega)⟩
  | succ m ih =>
    obtain ⟨t, ht, hlt, hlen, hmiss⟩ := ih
    refine ⟨{ t with
      cursor := (t.cursor.blockAt t.storage m).2
      collected := t.collected ++ (t.blockAtHeight m).toList }, ?_, ?_, ?_, ?_⟩
    · rw [List.range_succ, List.map_append, LiveStore.run_append, ht]
      rfl
    · exact ⟨(hlt.read m).cached, (hlt.read m).stored⟩
    · have htwo : (t.blockAtHeight m).toList.length ≤ 1 := by
        cases t.blockAtHeight m <;> simp
      rw [List.length_append]
      omega
    · intro hh hfull
      have htwo : (t.blockAtHeight m).toList.length ≤ 1 := by
        cases t.blockAtHeight m <;> simp
      rw [List.length_append] at hfull
      have hlen' : t.collected.length = m := by omega
      by_cases hhm : h < m
      · rw [List.getElem?_append_left (by omega)]
        exact hmiss hhm hlen'
      · obtain rfl : h = m := by omega
        rw [List.getElem?_append_right (by omega), hlen', Nat.sub_self]
        have hne := hlt.blockAt hpos
        cases hread : t.blockAtHeight h with
        | none => simp
        | some x =>
          rw [hread] at hne
          simpa using hne

end Lost

/-- After the blocks up to height `j` were read, each from the disk: the next one is not cached. -/
structure Thrashed (blocks : List Block) (storage : BlockStorage) (j : Nat) (s : LiveStore) :
    Prop where
  capacity : s.cursor.cache.capacity = DEFAULT_BLOCK_CACHE_SIZE
  collected : s.collected = []
  count : s.cursor.heightCount = blocks.length
  base : s.cursor.baseHeight ≤ 1
  storage : s.storage = storage
  recent : s.cursor.cache.Recent ((List.range' 1 j).reverse ++
    (List.range' (j + 2) (blocks.length - 2 - j)).reverse)

theorem Thrashed.notMem {storage : BlockStorage} {j : Nat} (ht : Thrashed blocks storage j s)
    (hlong : DEFAULT_BLOCK_CACHE_SIZE + 1 < blocks.length) (hj : j + 1 < blocks.length) :
    j + 1 ∉ s.cursor.cache.keys := by
  refine ht.recent.notMem ?_ ?_
  · rw [ht.capacity, List.length_append, List.length_reverse, List.length_reverse,
      List.length_range', List.length_range']
    omega
  · simp only [List.mem_append, List.mem_reverse, List.mem_range'_1]
    omega

/-- Reading past the cache from a disk that has the blocks. -/
theorem Fed.thrashes (hf : Fed blocks s) (hbase : s.cursor.baseHeight ≤ 1)
    (hlong : DEFAULT_BLOCK_CACHE_SIZE + 1 < blocks.length) {j : Nat} (hj : j + 1 < blocks.length)
    (hdisk : ∀ h, 0 < h → h ≤ j → s.storage.getBlock h = blocks[h]?) :
    ∃ t, s.run ((List.range (j + 1)).map .read) = some t ∧ Thrashed blocks s.storage j t := by
  induction j with
  | zero =>
    refine ⟨s, rfl, hf.capacity, hf.collected, hf.count, hbase, rfl, hf.recent.of_prefix ?_⟩
    obtain ⟨m, hm⟩ : ∃ m, blocks.length - 1 = m + 1 := ⟨blocks.length - 2, by omega⟩
    rw [hm, List.range'_succ, List.reverse_cons,
      show blocks.length - 2 - 0 = m from by omega]
    exact List.prefix_append _ _
  | succ j ih =>
    obtain ⟨t, ht, hth⟩ := ih (by omega) fun h hpos hle => hdisk h hpos (by omega)
    have hmiss := Lru.peek_eq_none (hth.notMem hlong (by omega))
    obtain ⟨b, hb⟩ : ∃ b, t.storage.getBlock (j + 1) = some b := by
      rw [hth.storage, hdisk (j + 1) (by omega) (by omega)]
      exact ⟨_, List.getElem?_eq_getElem (by omega)⟩
    -- a miss that the disk answers: the block becomes the one used last
    have hread : t.cursor.blockAt t.storage (j + 1) =
        (some b, { t.cursor with cache := t.cursor.cache.touch (j + 1) b }) := by
      rcases t.cursor.blockAt_cases t.storage (j + 1) with ⟨hz, -⟩ | ⟨-, hout, -⟩ |
        ⟨-, -, hnone, -⟩ | ⟨x, -, -, hx | ⟨-, hx⟩, heq⟩
      · omega
      · rw [hth.count] at hout
        have := hth.base
        omega
      · exact absurd (hnone.symm.trans hb) (by simp)
      · exact absurd (hmiss.symm.trans hx) (by simp)
      · cases hx.symm.trans hb
        exact heq
    refine ⟨{ t with cursor := { t.cursor with cache := t.cursor.cache.touch (j + 1) b } }, ?_,
      hth.capacity, hth.collected, hth.count, hth.base, hth.storage, ?_⟩
    · rw [List.range_succ, List.map_append, LiveStore.run_append, ht]
      show some { t with cursor := (t.cursor.blockAt t.storage (j + 1)).2 } = _
      rw [hread]
    · have hused := hth.recent.touch (k := j + 1) (by
        simp only [List.mem_append, List.mem_reverse, List.mem_range'_1]
        omega) b
      refine hused.of_prefix ?_
      obtain ⟨m, hm⟩ : ∃ m, blocks.length - 2 - j = m + 1 := ⟨blocks.length - 3 - j, by omega⟩
      have hup : (List.range' 1 (j + 1)).reverse = (j + 1) :: (List.range' 1 j).reverse := by
        rw [List.range'_concat, List.reverse_append, Nat.one_mul, Nat.add_comm 1 j]
        rfl
      have hdown : (List.range' (j + 2) (m + 1)).reverse =
          (List.range' (j + 1 + 2) m).reverse ++ [j + 2] := by
        rw [List.range'_succ, List.reverse_cons]
      rw [hm, hup, hdown, show blocks.length - 2 - (j + 1) = m from by omega, List.cons_append,
        ← List.append_assoc]
      exact List.cons_prefix_cons.mpr ⟨rfl, List.prefix_append _ _⟩

/-- A full state that holds the new chain was read from a disk that held it. -/
theorem Fed.disk_of_slot (hf : Fed blocks s) (hbase : s.cursor.baseHeight ≤ 1)
    (hlong : DEFAULT_BLOCK_CACHE_SIZE + 1 < blocks.length) {reads : List Nat} {t : LiveStore}
    (hrun : s.run (installOps blocks.length reads ++ [.enqueue]) = some t)
    (hslot : t.slot = some blocks) :
    ∀ h, 0 < h → h < blocks.length → s.storage.getBlock h = blocks[h]? := by
  intro h
  -- the first height that differs is read after everything below it came from the disk
  induction h using Nat.strong_induction_on with
  | _ h ih =>
    intro hpos hlt
    by_contra hdiff
    obtain ⟨j, rfl⟩ : ∃ j, h = j + 1 := ⟨h - 1, by omega⟩
    obtain ⟨b, hb⟩ : ∃ b, blocks[j + 1]? = some b := ⟨_, List.getElem?_eq_getElem hlt⟩
    rw [hb] at hdiff
    obtain ⟨u, hu, hth⟩ := hf.thrashes hbase hlong hlt fun k hk hkj => ih k (by omega) hk (by omega)
    have hlost : Lost (j + 1) b u := by
      refine ⟨?_, by rw [hth.storage]; exact hdiff⟩
      rw [Lru.peek_eq_none (hth.notMem hlong hlt)]
      simp
    obtain ⟨v, hv, hlv, hcv⟩ := hlost.reads hth.collected
      (List.range' (j + 1) (blocks.length - (j + 1)) ++ reads)
    obtain ⟨w, hw, -, hlen, hmiss⟩ := hlv.collects hpos hcv blocks.length
    have hsplit : List.range blocks.length =
        List.range (j + 1) ++ List.range' (j + 1) (blocks.length - (j + 1)) := by
      have hjoin := @List.range'_append_1 0 (j + 1) (blocks.length - (j + 1))
      rw [Nat.zero_add, Nat.add_sub_cancel' hlt.le, ← List.range_eq_range',
        ← List.range_eq_range'] at hjoin
      exact hjoin.symm
    have hall : s.run (installOps blocks.length reads ++ [.enqueue]) =
        some { w with slot := some w.collected, collected := [] } := by
      unfold installOps walkOps
      rw [hsplit, List.map_append, List.append_assoc, List.append_assoc, List.append_assoc,
        LiveStore.run_append, hu, Option.bind_some, ← List.append_assoc, ← List.map_append,
        LiveStore.run_append, hv, Option.bind_some, ← hsplit, LiveStore.run_append, hw]
      rfl
    rw [hall] at hrun
    cases hrun
    have hcollected : w.collected = blocks := Option.some.inj hslot
    exact hmiss hlt (by rw [hcollected]) (by rw [hcollected, hb])

/-! ## Exactly when a replacement installs its blocks -/

/-- After a replacement every height reads the block of the list, then and up to the full state that
follows, whatever the worker does meanwhile; the full state is the list, and the disk holds it once
the worker has written everything it was given. -/
def InstallsAll (s : LiveStore) (blocks : List Block) (reads : List Nat) : Prop :=
  (∀ h, (s.replaceAllBlocks blocks).blockAtHeight h = blocks[h]?) ∧
  ∀ ops, ops.filter StoreOp.onChain =
      installOps (s.replaceAllBlocks blocks).cursor.heightCount reads →
    ∃ t u, (s.replaceAllBlocks blocks).run (ops ++ [.enqueue]) = some t ∧
      (∀ h, t.blockAtHeight h = blocks[h]?) ∧ t.slot = some blocks ∧
      t.run [.write, .take, .write] = some u ∧ (∀ h, u.storage.getBlock h = blocks[h]?) ∧
      u.storage.getHeight = some (blocks.length - 1)

/-- The blocks come at the heights `0, 1, ..`, none of them is below the prune watermark, and they
fit into the cache with the genesis beside it, or the disk has them already and will keep them. -/
structure Installable (s : LiveStore) (blocks : List Block) : Prop where
  heights : Consecutive 0 blocks
  base : s.cursor.baseHeight ≤ 1 ∨ blocks.length ≤ 1
  fits : blocks.length ≤ DEFAULT_BLOCK_CACHE_SIZE + 1 ∨ OnDisk blocks s

theorem same_replaceAllBlocks (hd : DiskBacked s) (blocks : List Block) :
    SameButCache s (s.replaceAllBlocks blocks) := by
  have hsame := LiveStore.pushAll_same (s := { s with cursor := s.cursor.invalidateFrom 0 })
    hd.cacheOnly blocks
  exact ⟨hsame.storage, hsame.collected, hsame.slot, hsame.taken, hsame.base, hsame.persist,
    hsame.capacity⟩

theorem onDisk_congr (hstorage : s'.storage = s.storage) (hslot : s'.slot = s.slot)
    (htaken : s'.taken = s.taken) : OnDisk blocks s' ↔ OnDisk blocks s := by
  unfold OnDisk
  rw [hstorage, hslot, htaken]

theorem Installable.installed (hd : DiskBacked s) (hne : blocks ≠ []) (hi : Installable s blocks) :
    Installed blocks (s.replaceAllBlocks blocks) := by
  have hf := fed_replaceAllBlocks hd hne hi.heights
  have hsame := same_replaceAllBlocks hd blocks
  refine ⟨hf.count, hf.genesis, by rw [hsame.base]; exact hi.base, hf.cached, ?_⟩
  rcases hi.fits with hfits | hon
  · left
    intro h hpos hlt
    -- the cache reaches back to the first block
    have hall := hf.recent
    unfold Lru.Recent at hall
    rw [List.take_of_length_le (by
      rw [List.length_reverse, List.length_range', hf.capacity]
      omega)] at hall
    refine hall.subset ?_
    rw [List.mem_reverse, List.mem_range'_1]
    omega
  · exact .inr ((onDisk_congr hsame.storage hsame.slot hsame.taken).mpr hon)

/-- The worker finishes what it has in hand, then takes and writes the queued state. -/
theorem LiveStore.run_catchUp (hslot : s.slot = some blocks) :
    ∃ u, s.run [.write, .take, .write] = some u ∧
      u.storage = BlockStorage.replaceBlocks {} blocks ∧ u.cursor = s.cursor ∧
      u.collected = s.collected := by
  cases htaken : s.taken with
  | none =>
    refine ⟨{ s with storage := s.storage.replaceBlocks blocks, slot := none, taken := none }, ?_,
      rfl, rfl, rfl⟩
    simp [LiveStore.run, LiveStore.step, htaken, hslot]
  | some pending =>
    refine ⟨{ s with
      storage := (s.storage.replaceBlocks pending).replaceBlocks blocks
      slot := none, taken := none }, ?_, rfl, rfl, rfl⟩
    simp [LiveStore.run, LiveStore.step, htaken, hslot]

theorem stored_replaceBlocks (storage : BlockStorage) (hne : blocks ≠ [])
    (hcons : Consecutive 0 blocks) :
    (∀ h, (storage.replaceBlocks blocks).getBlock h = blocks[h]?) ∧
      (storage.replaceBlocks blocks).getHeight = some (blocks.length - 1) := by
  have hheights : ∀ {h : Nat} {b : Block}, blocks[h]? = some b → b.header.height = h := by
    intro h b hb
    rw [hcons h b hb, Nat.zero_add]
  constructor
  · intro h
    cases hb : blocks[h]? with
    | some b =>
      have hstored := getBlock_replaceBlocks storage hheights hb
        (List.getElem?_eq_some_iff.mp hb).1
      rwa [List.take_length] at hstored
    | none =>
      cases hget : (storage.replaceBlocks blocks).getBlock h with
      | none => rfl
      | some x =>
        obtain ⟨hmem, hheight⟩ := mem_of_getBlock_replaceBlocks storage hget
        obtain ⟨i, hi⟩ := List.mem_iff_getElem?.mp hmem
        rw [← hheight, hheights hi, hi] at hb
        exact absurd hb (by simp)
  · have hlast : blocks.getLast? = blocks[blocks.length - 1]? := List.getLast?_eq_getElem? ..
    obtain ⟨b, hb⟩ : ∃ b, blocks[blocks.length - 1]? = some b := by
      have := List.length_pos_iff.mpr hne
      exact ⟨_, List.getElem?_eq_getElem (by omega)⟩
    show blocks.getLast?.map _ = _
    rw [hlast, hb, Option.map_some, hheights hb]

theorem Installable.installsAll (hd : DiskBacked s) (hne : blocks ≠ []) (hi : Installable s blocks)
    (reads : List Nat) : InstallsAll s blocks reads := by
  have hin := hi.installed hd hne
  refine ⟨hin.blockAt, ?_⟩
  intro ops hops
  rw [hin.count] at hops
  obtain ⟨hreading, hgathered⟩ := reading_of_installOps hops
  obtain ⟨t, ht, hit, hct⟩ := hin.run hreading
  have hcollected : t.collected = blocks := by
    rw [hct, hgathered, (same_replaceAllBlocks hd blocks).collected, hd.collected, List.nil_append]
    exact Blockchain.filterMap_getElem?_range blocks
  set queued : LiveStore := { t with slot := some t.collected, collected := [] } with hqueued
  have hrun : (s.replaceAllBlocks blocks).run (ops ++ [.enqueue]) = some queued := by
    rw [LiveStore.run_append, ht]
    rfl
  have hslot : queued.slot = some blocks := congrArg some hcollected
  obtain ⟨u, hu, hstorage, -⟩ := LiveStore.run_catchUp hslot
  obtain ⟨hread, hheight⟩ := stored_replaceBlocks {} hne hi.heights
  rw [← hstorage] at hread hheight
  exact ⟨queued, u, hrun, hit.blockAt, hslot, hu, hread, hheight⟩

/-- A block that was skipped is missing at the end. -/
theorem InstallsAll.heights (hd : DiskBacked s) (hne : blocks ≠ []) {reads : List Nat}
    (h : InstallsAll s blocks reads) : Consecutive 0 blocks := by
  set emptied : LiveStore := { s with cursor := s.cursor.invalidateFrom 0 } with hemptied
  have hzero : emptied.cursor.heightCount = 0 := by
    show (if 0 < s.cursor.heightCount then 0 else s.cursor.heightCount) = 0
    split <;> omega
  obtain ⟨hle, hall⟩ := LiveStore.heightCount_pushAll (s := emptied) hd.cacheOnly blocks
  rw [hzero, Nat.zero_add] at hle hall
  by_cases heq : (emptied.pushAll blocks).cursor.heightCount = blocks.length
  · exact hall heq
  have hread := h.1 (blocks.length - 1)
  have hpos := List.length_pos_iff.mpr hne
  rw [List.getElem?_eq_getElem (show blocks.length - 1 < blocks.length by omega)] at hread
  unfold LiveStore.blockAtHeight at hread
  rcases (s.replaceAllBlocks blocks).cursor.blockAt_cases (s.replaceAllBlocks blocks).storage
      (blocks.length - 1) with ⟨hone, hat⟩ | ⟨-, -, hat⟩ | ⟨-, -, -, hat⟩ | ⟨-, -, hlt, -⟩
  · -- a single block that was skipped would have to be the genesis that is still there
    rw [hat] at hread
    obtain ⟨b, rfl⟩ := List.length_eq_one_iff.mp (show blocks.length = 1 by omega)
    rcases LiveStore.push_cases (s := emptied) hd.cacheOnly b with ⟨hskip, hpush⟩ | ⟨htake, -⟩
    · have hsame : s.replaceAllBlocks [b] = emptied := hpush
      rw [hsame] at hread
      have hb : s.cursor.genesis = b := Option.some.inj hread
      rw [hzero, ← hb, hd.genesis] at hskip
      exact absurd rfl hskip
    · intro i x hx
      rw [List.getElem?_singleton] at hx
      split at hx
      · next hi =>
        cases hx
        rw [htake, hzero]
        omega
      · exact absurd hx (by simp)
  · rw [hat] at hread
    exact absurd hread (by simp)
  · rw [hat] at hread
    exact absurd hread (by simp)
  · exact absurd (show (emptied.pushAll blocks).cursor.heightCount = blocks.length by
      have : (s.replaceAllBlocks blocks).cursor.heightCount =
        (emptied.pushAll blocks).cursor.heightCount := rfl
      omega) heq

theorem installOps_onChain (n : Nat) (reads : List Nat) :
    (installOps n reads).filter StoreOp.onChain = installOps n reads := by
  rw [List.filter_eq_self]
  intro op hop
  simp only [installOps, walkOps, List.mem_append, List.mem_map] at hop
  rcases hop with (⟨k, -, rfl⟩ | ⟨k, -, rfl⟩) | ⟨k, -, rfl⟩ <;> rfl

theorem Fed.congr (hf : Fed blocks s) (hcursor : s'.cursor = s.cursor)
    (hcollected : s'.collected = s.collected) : Fed blocks s' := by
  refine ⟨?_, hcollected.trans hf.collected, ?_, ?_, ?_, ?_⟩ <;> rw [hcursor]
  · exact hf.capacity
  · exact hf.count
  · exact hf.genesis
  · exact hf.recent
  · exact hf.cached

/-- Whatever the worker writes before the walk is what the walk reads. -/
theorem InstallsAll.disk (hf : Fed blocks (s.replaceAllBlocks blocks)) {reads : List Nat}
    (h : InstallsAll s blocks reads) (hbase : (s.replaceAllBlocks blocks).cursor.baseHeight ≤ 1)
    (hlong : DEFAULT_BLOCK_CACHE_SIZE + 1 < blocks.length) {work : List StoreOp} {t : LiveStore}
    (hwork : work.filter StoreOp.onChain = []) (ht : (s.replaceAllBlocks blocks).run work = some t)
    (hcursor : t.cursor = (s.replaceAllBlocks blocks).cursor)
    (hcollected : t.collected = (s.replaceAllBlocks blocks).collected) :
    ∀ h, 0 < h → h < blocks.length → t.storage.getBlock h = blocks[h]? := by
  obtain ⟨v, -, hv, -, hslot, -⟩ := h.2 (work ++ installOps blocks.length reads) (by
    rw [List.filter_append, hwork, List.nil_append, installOps_onChain, hf.count])
  rw [List.append_assoc, LiveStore.run_append, ht, Option.bind_some] at hv
  exact (hf.congr hcursor hcollected).disk_of_slot (by rw [hcursor]; exact hbase) hlong hv hslot

theorem InstallsAll.installable (hd : DiskBacked s) (hne : blocks ≠ []) {reads : List Nat}
    (h : InstallsAll s blocks reads) : Installable s blocks := by
  have hcons := h.heights hd hne
  have hf := fed_replaceAllBlocks hd hne hcons
  have hsame := same_replaceAllBlocks hd blocks
  have hbase : s.cursor.baseHeight ≤ 1 ∨ blocks.length ≤ 1 := by
    by_cases hone : blocks.length ≤ 1
    · exact .inr hone
    left
    have hread := h.1 1
    rw [List.getElem?_eq_getElem (show 1 < blocks.length by omega)] at hread
    by_contra hpruned
    unfold LiveStore.blockAtHeight BlockStoreCursor.blockAt at hread
    rw [if_neg (by omega), if_pos (by rw [hsame.base]; omega)] at hread
    exact absurd hread (by simp)
  refine ⟨hcons, hbase, ?_⟩
  by_cases hfits : blocks.length ≤ DEFAULT_BLOCK_CACHE_SIZE + 1
  · exact .inl hfits
  have hlong : DEFAULT_BLOCK_CACHE_SIZE + 1 < blocks.length := by omega
  have hbase' : (s.replaceAllBlocks blocks).cursor.baseHeight ≤ 1 := by
    rw [hsame.base]
    omega
  right
  rw [← onDisk_congr hsame.storage hsame.slot hsame.taken]
  intro k hpos hlt
  refine ⟨h.disk hf hbase' hlong (show ([] : List StoreOp).filter StoreOp.onChain = [] from rfl) rfl rfl rfl k
    hpos hlt, ?_⟩
  intro pending hpending
  rcases hpending with hslot | htaken
  · obtain ⟨u, hu, hstorage, hcursor, hcollected⟩ := LiveStore.run_catchUp hslot
    rw [← hstorage]
    exact h.disk hf hbase' hlong rfl hu hcursor hcollected k hpos hlt
  · have hwrite : (s.replaceAllBlocks blocks).run [.write] =
        some { s.replaceAllBlocks blocks with
          storage := (s.replaceAllBlocks blocks).storage.replaceBlocks pending, taken := none } := by
      have htaken' : (s.replaceAllBlocks blocks).taken = some pending := htaken
      simp [LiveStore.run, LiveStore.step, htaken']
    exact h.disk hf hbase' hlong rfl hwrite rfl rfl k hpos hlt

/-- A replacement installs its blocks exactly when they come at their heights, above the prune
watermark, and fit into the cache or are on disk already. -/
theorem replacement_installs_iff (hd : DiskBacked s) (hne : blocks ≠ []) (reads : List Nat) :
    InstallsAll s blocks reads ↔ Installable s blocks :=
  ⟨fun h => h.installable hd hne, fun h => h.installsAll hd hne reads⟩

namespace ReplacementSample

open LiveSample

/-- A chain of `count` blocks on the genesis. -/
def chain (count : Nat) : List Block := block 0 :: LiveSample.blocks count

theorem consecutive_chain (count : Nat) : Consecutive 0 (chain count) := by
  intro i b hb
  cases i with
  | zero =>
    cases hb
    rfl
  | succ i =>
    rw [consecutive_blocks count i b (by simpa [chain] using hb)]
    omega

theorem length_chain (count : Nat) : (chain count).length = count + 1 := by
  simp [chain, LiveSample.blocks]

/-- A new node: its genesis on disk, nothing in the cache. -/
def fresh : LiveStore where
  storage := BlockStorage.replaceBlocks {} [block 0]
  cursor :=
    { genesis := block 0
      cache := Lru.empty Nat Block DEFAULT_BLOCK_CACHE_SIZE
      heightCount := 1
      baseHeight := 0
      selfPersist := false }

theorem openAsync_fresh : LiveStore.openAsync config (block 0) {} 0 false = some fresh := by
  have hget : (BlockStorage.replaceBlocks {} [block 0]).getBlock 0 = some (block 0) := by
    simp [BlockStorage.getBlock, BlockStorage.replaceBlocks, block]
  unfold LiveStore.openAsync BlockStoreCursor.new BlockStoreCursor.newWithPersist
  simp only [BlockStorage.getHeight, hget]
  rfl

theorem diskBacked_fresh : DiskBacked fresh := ⟨rfl, rfl, rfl, rfl⟩

end ReplacementSample

open ReplacementSample LiveSample in
/-- A new node applies a snapshot of three blocks. -/
theorem replacement_installs_three : LiveStore.openAsync config (block 0) {} 0 false = some fresh ∧
    InstallsAll fresh (chain 2) (snapshotReads 3) := by
  refine ⟨openAsync_fresh, ?_⟩
  refine (replacement_installs_iff diskBacked_fresh (by simp [chain]) (snapshotReads 3)).mpr ?_
  refine ⟨consecutive_chain 2, .inl (by decide), .inl ?_⟩
  rw [length_chain]
  decide

open ReplacementSample LiveSample in
/-- A new node applies a snapshot of a thousand and two blocks and cannot read block 1. -/
theorem replacement_loses_block : LiveStore.openAsync config (block 0) {} 0 false = some fresh ∧
    ¬ InstallsAll fresh (chain 1001) (snapshotReads 1002) := by
  refine ⟨openAsync_fresh, ?_⟩
  intro h
  rcases (h.installable diskBacked_fresh (by simp [chain])).fits with hfits | hon
  · rw [length_chain] at hfits
    exact absurd hfits (by decide)
  · have hfirst := (hon 1 (by decide) (by rw [length_chain]; decide)).1
    have hnone : fresh.storage.getBlock 1 = none := by
      simp [fresh, BlockStorage.getBlock, BlockStorage.replaceBlocks, block]
    rw [hnone, eq_comm, List.getElem?_eq_none_iff, length_chain] at hfirst
    exact absurd hfirst (by decide)

end Curs3d
