import Curs3d.Core.BlockTables
import Curs3d.Lib.Trace
import Curs3d.Proof.Decoding

/-!
# The two block backends

Both backends keep the same blocks. They differ in the head height: the tables have a record of the height written last, the
map looks for its highest key.
-/

set_option autoImplicit false

namespace Curs3d

open Std U64

/-! ## Heights as keys -/

theorem beValue_beBytes {n : Nat} (h : n < modulus) : beValue (beBytes n) = n := by
  rw [beValue, beBytes, List.reverse_reverse]
  exact Decode.leValue_leBytes h

theorem beBytes_inj {m n : Nat} (hm : m < modulus) (hn : n < modulus) :
    beBytes m = beBytes n ↔ m = n := by
  constructor
  · intro h
    rw [← beValue_beBytes hm, h, beValue_beBytes hn]
  · exact congrArg beBytes

/-- Texts of one length are compared by their last letters when the rest is the same. -/
theorem compare_concat {xs ys : Bytes} (hlen : xs.length = ys.length) (x y : UInt8) :
    compare (xs ++ [x]) (ys ++ [y]) = (compare xs ys).then (compare x y) := by
  induction xs generalizing ys with
  | nil =>
    cases ys with
    | nil => simp
    | cons b ys => exact absurd hlen (by simp)
  | cons a xs ih =>
    cases ys with
    | nil => exact absurd hlen (by simp)
    | cons b ys =>
      have hrest := ih (Nat.succ.inj hlen)
      simp only [List.compare_eq_compareLex, List.cons_append, List.compareLex_cons_cons] at hrest ⊢
      rw [hrest, Ordering.then_assoc]

/-- **The order of the keys is the order of the heights.** -/
theorem compare_reverse_leBytes {w m n : Nat} (hm : m < 256 ^ w) (hn : n < 256 ^ w) :
    compare (Bincode.leBytes w m).reverse (Bincode.leBytes w n).reverse = compare m n := by
  induction w generalizing m n with
  | zero =>
    rw [pow_zero, Nat.lt_one_iff] at hm hn
    rw [hm, hn]
    rfl
  | succ w ih =>
    rw [pow_succ] at hm hn
    simp only [Bincode.leBytes, List.reverse_cons]
    rw [compare_concat (by simp [Bincode.length_leBytes]),
      ih (Nat.div_lt_of_lt_mul (by omega)) (Nat.div_lt_of_lt_mul (by omega))]
    have hbyte : compare (UInt8.ofNat m) (UInt8.ofNat n) = compare (m % 256) (n % 256) := by
      simp only [compare, compareOfLessAndEq, UInt8.lt_iff_toNat_lt, ← UInt8.toNat_inj,
        UInt8.toNat_ofNat']
    rw [hbyte]
    rcases Nat.lt_trichotomy (m / 256) (n / 256) with hlt | heq | hgt
    · rw [Nat.compare_eq_lt.mpr hlt, Nat.compare_eq_lt.mpr (by omega : m < n)]
      rfl
    · rw [Nat.compare_eq_eq.mpr heq]
      rcases Nat.lt_trichotomy (m % 256) (n % 256) with hlt | heq' | hgt
      · rw [Nat.compare_eq_lt.mpr hlt, Nat.compare_eq_lt.mpr (by omega : m < n)]
        rfl
      · rw [Nat.compare_eq_eq.mpr heq', Nat.compare_eq_eq.mpr (by omega : m = n)]
        rfl
      · rw [Nat.compare_eq_gt.mpr hgt, Nat.compare_eq_gt.mpr (by omega : n < m)]
        rfl
    · rw [Nat.compare_eq_gt.mpr hgt, Nat.compare_eq_gt.mpr (by omega : n < m)]
      rfl

theorem compare_beBytes {m n : Nat} (hm : m < modulus) (hn : n < modulus) :
    compare (beBytes m) (beBytes n) = compare m n := compare_reverse_leBytes hm hn

/-! ## The tables hold the blocks by height -/

/-- The bytes in the tables, read as heights and blocks. -/
structure BlockTables.Holds (t : BlockTables) (s : BlockStorage) : Prop where
  block : ∀ height, height < modulus →
    t.blocks[beBytes height]? = s.blocks[height]?.map Bincode.block
  key : ∀ k ∈ t.blocks, ∃ height, height < modulus ∧ k = beBytes height
  typed : ∀ height b, s.blocks[height]? = some b → height < modulus ∧ b.WellTyped
  head : t.metadata[HEIGHT_KEY]? = s.headHeight.map beBytes
  headFits : ∀ height ∈ s.headHeight, height < modulus

/-- The arguments have values of their types. -/
def BackendCall.WellTyped : BackendCall → Prop
  | .putBlock block => block.WellTyped
  | .getBlock height => height < modulus
  | .pruneBlocksBelow retainFrom => retainFrom < modulus
  | .getHeight => True

namespace BlockTables.Holds

variable {t : BlockTables} {s : BlockStorage} {m : InMemoryBlockBackend} {height retainFrom : Nat}
  {b : Block} {c : BackendCall}

theorem empty : BlockTables.Holds {} {} where
  block := fun _ _ => by
    rw [ExtTreeMap.getElem?_empty, ExtTreeMap.getElem?_empty]
    rfl
  key := fun k hk => absurd hk (ExtTreeMap.not_mem_empty)
  typed := fun _ _ h => absurd h (by rw [ExtTreeMap.getElem?_empty]; simp)
  head := ExtTreeMap.getElem?_empty
  headFits := fun _ h => absurd h (by simp)

theorem putBlock (h : t.Holds s) (hb : b.WellTyped) : (t.putBlock b).Holds (s.putBlock b) where
  block := fun height hheight => by
    show (t.blocks.insert (beBytes b.header.height) (Bincode.block b))[beBytes height]? =
      (s.blocks.insert b.header.height b)[height]?.map Bincode.block
    rw [KeyMap.getElem?_insert_eq, KeyMap.getElem?_insert_eq]
    simp only [beBytes_inj hb.header.height hheight]
    split
    · rfl
    · exact h.block height hheight
  key := fun k hk => by
    rcases ExtTreeMap.mem_insert.mp hk with heq | hk
    · exact ⟨b.header.height, hb.header.height, (LawfulEqOrd.eq_of_compare heq).symm⟩
    · exact h.key k hk
  typed := fun height b' hb' => by
    have hinsert : (s.blocks.insert b.header.height b)[height]? = some b' := hb'
    rw [KeyMap.getElem?_insert_eq] at hinsert
    split at hinsert
    · next heq =>
      cases hinsert
      exact ⟨heq ▸ hb.header.height, hb⟩
    · exact h.typed height b' hinsert
  head := by
    show (t.metadata.insert HEIGHT_KEY (beBytes b.header.height))[HEIGHT_KEY]? = _
    rw [ExtTreeMap.getElem?_insert_self]
    rfl
  headFits := fun height hheight => by
    cases hheight
    exact hb.header.height

theorem getBlock (h : t.Holds s) (hheight : height < modulus) :
    t.getBlock height = .ok (s.getBlock height) := by
  unfold BlockTables.getBlock BlockStorage.getBlock
  rw [h.block height hheight]
  cases hblock : s.blocks[height]? with
  | none => rfl
  | some b =>
    simp only [Option.map_some, Decode.decodes_block.decode (h.typed height b hblock).2]

theorem getHeight (h : t.Holds s) : t.getHeight = .ok s.getHeight := by
  unfold BlockTables.getHeight BlockStorage.getHeight
  rw [h.head]
  cases hhead : s.headHeight with
  | none => rfl
  | some height =>
    show (if (beBytes height).length = 8 then _ else _) = _
    rw [if_pos (length_beBytes height), beValue_beBytes (h.headFits height hhead)]

end BlockTables.Holds

/-- Keys taken out one after the other. -/
theorem getElem?_foldl_erase (blocks : ByteMap Bytes) (keys : List Bytes) (k : Bytes) :
    (keys.foldl (fun m key => m.erase key) blocks)[k]? = if k ∈ keys then none else blocks[k]? := by
  induction keys generalizing blocks with
  | nil => simp
  | cons key keys ih =>
    rw [List.foldl_cons, ih, KeyMap.getElem?_erase_eq]
    by_cases hmem : k ∈ keys
    · rw [if_pos hmem, if_pos (List.mem_cons_of_mem _ hmem)]
    · by_cases heq : key = k
      · rw [if_neg hmem, if_pos heq, if_pos (heq ▸ List.mem_cons_self)]
      · rw [if_neg hmem, if_neg heq, if_neg fun hk => (List.mem_cons.mp hk).elim (heq ·.symm) hmem]

theorem BlockTables.getElem?_pruneBlocksBelow (t : BlockTables) {retainFrom height : Nat}
    (hretain : retainFrom < modulus) (hheight : height < modulus) :
    (t.pruneBlocksBelow retainFrom).2.blocks[beBytes height]? =
      if height < retainFrom then none else t.blocks[beBytes height]? := by
  unfold BlockTables.pruneBlocksBelow
  by_cases hzero : retainFrom = 0
  · rw [if_pos hzero, hzero, if_neg (Nat.not_lt_zero _)]
  · rw [if_neg hzero]
    show (List.foldl _ t.blocks _)[beBytes height]? = _
    rw [getElem?_foldl_erase]
    simp only [List.mem_filter, ExtTreeMap.mem_keys, decide_eq_true_eq,
      compare_beBytes hheight hretain, Nat.compare_eq_lt]
    by_cases hmem : beBytes height ∈ t.blocks
    · simp only [hmem, true_and]
    · rw [if_neg fun hboth => hmem hboth.1, ExtTreeMap.getElem?_eq_none hmem, ite_self]

theorem BlockTables.mem_of_mem_pruneBlocksBelow {t : BlockTables} {retainFrom : Nat} {k : Bytes}
    (hk : k ∈ (t.pruneBlocksBelow retainFrom).2.blocks) :
    k ∈ t.blocks := by
  unfold BlockTables.pruneBlocksBelow at hk
  split at hk
  · exact hk
  · have hsome := ExtTreeMap.mem_iff_isSome_getElem?.mp hk
    rw [getElem?_foldl_erase] at hsome
    split at hsome
    · exact absurd hsome (by simp)
    · exact ExtTreeMap.mem_iff_isSome_getElem?.mpr hsome

theorem BlockStorage.getElem?_pruneBlocksBelow (s : BlockStorage) (retainFrom height : Nat) :
    (s.pruneBlocksBelow retainFrom).blocks[height]? =
      if height < retainFrom then none else s.blocks[height]? := by
  show (s.blocks.filter fun height _ => decide (retainFrom ≤ height))[height]? = _
  rw [ExtTreeMap.getElem?_filter']
  cases s.blocks[height]? with
  | none => rw [Option.filter_none, ite_self]
  | some b =>
    by_cases hlt : height < retainFrom
    · rw [if_pos hlt, Option.filter_some, if_neg (by simpa using hlt)]
    · rw [if_neg hlt, Option.filter_some, if_pos (by simpa using hlt)]

namespace BlockTables.Holds

variable {t : BlockTables} {s : BlockStorage} {retainFrom : Nat}

theorem pruneBlocksBelow (h : t.Holds s) (hretain : retainFrom < modulus) :
    (t.pruneBlocksBelow retainFrom).2.Holds (s.pruneBlocksBelow retainFrom) where
  block := fun height hheight => by
    rw [t.getElem?_pruneBlocksBelow hretain hheight, s.getElem?_pruneBlocksBelow,
      h.block height hheight]
    split <;> rfl
  key := fun k hk => h.key k (mem_of_mem_pruneBlocksBelow hk)
  typed := fun height b hb => by
    rw [s.getElem?_pruneBlocksBelow] at hb
    split at hb
    · exact absurd hb (by simp)
    · exact h.typed height b hb
  head := by
    unfold BlockTables.pruneBlocksBelow
    split
    · exact h.head
    · exact h.head
  headFits := h.headFits

theorem height_fits (h : t.Holds s) {height : Nat} (hmem : height ∈ s.blocks) : height < modulus :=
  (h.typed height s.blocks[height] (ExtTreeMap.getElem?_eq_some_getElem hmem)).1

/-- The keys are those of the heights. -/
theorem keys_perm (h : t.Holds s) : t.blocks.keys.Perm (s.blocks.keys.map beBytes) := by
  have hnodup : (s.blocks.keys.map beBytes).Nodup := by
    refine List.Nodup.map_on ?_ ExtTreeMap.nodup_keys
    intro m hm n hn heq
    exact (beBytes_inj (h.height_fits (ExtTreeMap.mem_keys.mp hm))
      (h.height_fits (ExtTreeMap.mem_keys.mp hn))).mp heq
  refine (List.perm_ext_iff_of_nodup ExtTreeMap.nodup_keys hnodup).mpr fun k => ?_
  have hsame : ∀ height, height < modulus → (beBytes height ∈ t.blocks ↔ height ∈ s.blocks) := by
    intro height hheight
    rw [ExtTreeMap.mem_iff_isSome_getElem?, h.block height hheight, Option.isSome_map,
      ← ExtTreeMap.mem_iff_isSome_getElem?]
  rw [ExtTreeMap.mem_keys, List.mem_map]
  constructor
  · intro hk
    obtain ⟨height, hheight, rfl⟩ := h.key k hk
    exact ⟨height, ExtTreeMap.mem_keys.mpr ((hsame height hheight).mp hk), rfl⟩
  · rintro ⟨height, hmem, rfl⟩
    have hmem := ExtTreeMap.mem_keys.mp hmem
    exact (hsame height (h.height_fits hmem)).mpr hmem

/-- As many blocks go from the tables as there are heights below. -/
theorem removed (h : t.Holds s) (hretain : retainFrom < modulus) :
    (t.pruneBlocksBelow retainFrom).1 = s.blocks.keys.countP (· < retainFrom) := by
  unfold BlockTables.pruneBlocksBelow
  by_cases hzero : retainFrom = 0
  · rw [if_pos hzero, hzero]
    exact (List.countP_eq_zero.mpr fun height _ => by simp).symm
  · rw [if_neg hzero]
    show (t.blocks.keys.filter _).length = _
    rw [← List.countP_eq_length_filter, h.keys_perm.countP_eq, List.countP_map]
    refine List.countP_congr fun height hmem => ?_
    have hheight := h.height_fits (ExtTreeMap.mem_keys.mp hmem)
    simp only [Function.comp_apply, decide_eq_true_eq, compare_beBytes hheight hretain,
      Nat.compare_eq_lt]

end BlockTables.Holds

/-! ## The map holds the same blocks -/

namespace InMemoryBlockBackend

variable {m : InMemoryBlockBackend} {retainFrom : Nat}

theorem inner_pruneBlocksBelow (m : InMemoryBlockBackend) (s : BlockStorage) (h : s.blocks = m.inner)
    (retainFrom : Nat) :
    (s.pruneBlocksBelow retainFrom).blocks = (m.pruneBlocksBelow retainFrom).2.inner := by
  unfold InMemoryBlockBackend.pruneBlocksBelow
  split
  · next hzero =>
    refine ExtTreeMap.ext_getElem? fun height => ?_
    rw [s.getElem?_pruneBlocksBelow, hzero, if_neg (Nat.not_lt_zero _), h]
  · show s.blocks.filter _ = m.inner.filter _
    rw [h]

theorem removed (m : InMemoryBlockBackend) (retainFrom : Nat) :
    (m.pruneBlocksBelow retainFrom).1 = m.inner.keys.countP (· < retainFrom) := by
  unfold InMemoryBlockBackend.pruneBlocksBelow
  split
  · next hzero =>
    rw [hzero]
    exact (List.countP_eq_zero.mpr fun height _ => by simp).symm
  · show m.inner.size - (m.inner.filter fun height _ => decide (retainFrom ≤ height)).size = _
    rw [← ExtTreeMap.length_keys, ← ExtTreeMap.length_keys, ExtTreeMap.keys_filter_key,
      ← List.countP_eq_length_filter]
    have hsplit := List.length_eq_countP_add_countP (fun height => decide (height < retainFrom))
      (l := m.inner.keys)
    have hrest : m.inner.keys.countP (fun height => decide ¬decide (height < retainFrom) = true) =
        m.inner.keys.countP fun height => decide (retainFrom ≤ height) :=
      List.countP_congr fun height _ => by simp
    omega

end InMemoryBlockBackend

/-! ## Runs -/

theorem BlockTables.Holds.call {t : BlockTables} {s : BlockStorage} {c : BackendCall} (h : t.Holds s)
    (hc : c.WellTyped) : (t.call c).2.Holds (s.step c) := by
  cases c with
  | putBlock block => exact h.putBlock hc
  | getBlock height => exact h
  | pruneBlocksBelow retainFrom => exact h.pruneBlocksBelow hc
  | getHeight => exact h

theorem InMemoryBlockBackend.inner_call {m : InMemoryBlockBackend} {s : BlockStorage}
    (h : s.blocks = m.inner) (c : BackendCall) : (s.step c).blocks = (m.call c).2.inner := by
  cases c with
  | putBlock block =>
    show s.blocks.insert _ _ = m.inner.insert _ _
    rw [h]
  | getBlock height => exact h
  | pruneBlocksBelow retainFrom => exact inner_pruneBlocksBelow m s h retainFrom
  | getHeight => exact h

/-- **All answers but the height are the same.** -/
theorem answer_eq {t : BlockTables} {s : BlockStorage} {m : InMemoryBlockBackend} {c : BackendCall}
    (h : t.Holds s) (hm : s.blocks = m.inner) (hc : c.WellTyped) (hheight : c ≠ .getHeight) :
    (t.call c).1 = (m.call c).1 := by
  cases c with
  | putBlock block => rfl
  | getBlock height =>
    show (t.getBlock height).map BackendAnswer.block = .ok (.block m.inner[height]?)
    rw [h.getBlock hc, ← hm]
    rfl
  | pruneBlocksBelow retainFrom =>
    show Except.ok (.removed (t.pruneBlocksBelow retainFrom).1) =
      Except.ok (BackendAnswer.removed (m.pruneBlocksBelow retainFrom).1)
    rw [h.removed hc, m.removed, hm]
  | getHeight => exact absurd rfl hheight

/-- The heights of the blocks that are there after the calls: put, and not pruned since. -/
def BackendCall.stored (calls : List BackendCall) : Finset Nat :=
  calls.foldl
    (fun heights c => match c with
      | .putBlock block => insert block.header.height heights
      | .pruneBlocksBelow retainFrom => heights.filter (retainFrom ≤ ·)
      | _ => heights)
    ∅

/-- The height of the block put last. -/
def BackendCall.lastPut (calls : List BackendCall) : Option Nat :=
  calls.foldl
    (fun last c => match c with
      | .putBlock block => some block.header.height
      | _ => last)
    none

/-- The block put last is still there, with none above it. -/
def BackendCall.LastIsHighest (past : List BackendCall) : Prop :=
  ∀ height ∈ lastPut past, height ∈ stored past ∧ ∀ other ∈ stored past, other ≤ height

namespace BackendCall

variable {past : List BackendCall}

/-- The blocks by height after the calls. -/
def storage (past : List BackendCall) : BlockStorage := past.foldl BlockStorage.step {}

theorem storage_concat (past : List BackendCall) (c : BackendCall) :
    storage (past ++ [c]) = (storage past).step c := List.foldl_concat ..

theorem holds_storage (h : ∀ c ∈ past, c.WellTyped) :
    (Trace.final BlockTables.call {} past).Holds (storage past) := by
  induction past using List.reverseRecOn with
  | nil => exact .empty
  | append_singleton past c ih =>
    rw [Trace.final_concat, storage_concat]
    exact (ih fun c hc => h c (List.mem_append_left _ hc)).call (h c (by simp))

theorem blocks_storage (past : List BackendCall) :
    (storage past).blocks = (Trace.final InMemoryBlockBackend.call {} past).inner := by
  induction past using List.reverseRecOn with
  | nil => rfl
  | append_singleton past c ih =>
    rw [Trace.final_concat, storage_concat]
    exact InMemoryBlockBackend.inner_call ih c

theorem headHeight_storage (past : List BackendCall) : (storage past).headHeight = lastPut past := by
  induction past using List.reverseRecOn with
  | nil => rfl
  | append_singleton past c ih =>
    rw [storage_concat, lastPut, List.foldl_concat]
    cases c with
    | putBlock block => rfl
    | getBlock height => exact ih
    | pruneBlocksBelow retainFrom => exact ih
    | getHeight => exact ih

theorem mem_stored (past : List BackendCall) (height : Nat) :
    height ∈ stored past ↔ height ∈ (storage past).blocks := by
  induction past using List.reverseRecOn with
  | nil => exact iff_of_false (Finset.notMem_empty _) ExtTreeMap.not_mem_empty
  | append_singleton past c ih =>
    rw [storage_concat, stored, List.foldl_concat]
    cases c with
    | putBlock block =>
      show height ∈ insert block.header.height (stored past) ↔
        height ∈ (storage past).blocks.insert block.header.height block
      rw [Finset.mem_insert, ExtTreeMap.mem_insert, ih, Nat.compare_eq_eq, eq_comm]
    | getBlock height => exact ih
    | pruneBlocksBelow retainFrom =>
      show height ∈ (stored past).filter (retainFrom ≤ ·) ↔
        height ∈ ((storage past).pruneBlocksBelow retainFrom).blocks
      rw [Finset.mem_filter, ih, ExtTreeMap.mem_iff_isSome_getElem?,
        ExtTreeMap.mem_iff_isSome_getElem?, (storage past).getElem?_pruneBlocksBelow]
      by_cases hlt : height < retainFrom
      · rw [if_pos hlt]
        exact iff_of_false (fun h => Nat.not_le.mpr hlt h.2) (by simp)
      · rw [if_neg hlt]
        exact and_iff_left (Nat.not_lt.mp hlt)
    | getHeight => exact ih

/-- The last of an increasing list is its greatest member. -/
theorem getLast?_eq_some_iff {l : List Nat} (h : l.Pairwise (· < ·)) (n : Nat) :
    l.getLast? = some n ↔ n ∈ l ∧ ∀ k ∈ l, k ≤ n := by
  induction l using List.reverseRecOn with
  | nil => simp
  | append_singleton l a ih =>
    have hbefore : ∀ k ∈ l, k < a := fun k hk => (List.pairwise_append.mp h).2.2 k hk a (by simp)
    rw [List.getLast?_concat, Option.some_inj]
    constructor
    · rintro rfl
      exact ⟨by simp, fun k hk => (List.mem_append.mp hk).elim (fun hk => (hbefore k hk).le)
        fun hk => (List.mem_singleton.mp hk).le⟩
    · rintro ⟨hmem, hmax⟩
      rcases List.mem_append.mp hmem with hmem | hmem
      · exact absurd (hmax a (by simp)) (Nat.not_le.mpr (hbefore n hmem))
      · exact (List.mem_singleton.mp hmem).symm

/-- Without a put nothing is stored. -/
theorem stored_eq_empty (h : lastPut past = none) : stored past = ∅ := by
  induction past using List.reverseRecOn with
  | nil => rfl
  | append_singleton past c ih =>
    rw [lastPut, List.foldl_concat] at h
    rw [stored, List.foldl_concat]
    cases c with
    | putBlock block => exact absurd h (by simp)
    | getBlock height => exact ih h
    | pruneBlocksBelow retainFrom =>
      show (stored past).filter (retainFrom ≤ ·) = ∅
      rw [ih h, Finset.filter_empty]
    | getHeight => exact ih h

/-- **The two heights are the same** when the block put last is the highest that is there. -/
theorem getHeight_eq_iff (past : List BackendCall) :
    (storage past).getHeight = (Trace.final InMemoryBlockBackend.call {} past).getHeight ↔
      LastIsHighest past := by
  have hordered : (storage past).blocks.keys.Pairwise (· < ·) :=
    ExtTreeMap.ordered_keys.imp Nat.compare_eq_lt.mp
  have hmem : ∀ height, height ∈ stored past ↔ height ∈ (storage past).blocks.keys := fun height => by
    rw [mem_stored, ExtTreeMap.mem_keys]
  unfold BlockStorage.getHeight InMemoryBlockBackend.getHeight LastIsHighest
  rw [headHeight_storage, ← blocks_storage]
  cases hlast : lastPut past with
  | none =>
    have hkeys : (storage past).blocks.keys = [] := List.eq_nil_iff_forall_not_mem.mpr fun height hk =>
      Finset.notMem_empty height (stored_eq_empty hlast ▸ (hmem height).mpr hk)
    rw [hkeys]
    exact iff_of_true rfl fun _ h => absurd h (by simp)
  | some height =>
    rw [eq_comm, getLast?_eq_some_iff hordered]
    simp only [hmem, Option.mem_some_iff, forall_eq']

theorem answer_getHeight_iff (h : ∀ c ∈ past, c.WellTyped) :
    ((Trace.final BlockTables.call {} past).call .getHeight).1 =
        ((Trace.final InMemoryBlockBackend.call {} past).call .getHeight).1 ↔ LastIsHighest past := by
  rw [← getHeight_eq_iff]
  show Except.map BackendAnswer.height (BlockTables.getHeight _) =
    .ok (.height (InMemoryBlockBackend.getHeight _)) ↔ _
  rw [(holds_storage h).getHeight]
  show Except.ok _ = Except.ok _ ↔ _
  rw [Except.ok.injEq, BackendAnswer.height.injEq]

end BackendCall

/-- **The backends answer alike exactly when every height asked for is that of the highest block and
of the last one put.** -/
theorem backends_agree_iff (calls : List BackendCall) (htyped : ∀ c ∈ calls, c.WellTyped) :
    Trace.answers BlockTables.call {} calls = Trace.answers InMemoryBlockBackend.call {} calls ↔
      ∀ past rest, calls = past ++ .getHeight :: rest → BackendCall.LastIsHighest past := by
  have hpast : ∀ {past c rest}, calls = past ++ c :: rest → ∀ d ∈ past, d.WellTyped :=
    fun hsplit d hd => htyped d (hsplit ▸ List.mem_append_left _ hd)
  rw [Trace.answers_eq_iff]
  constructor
  · intro h past rest hsplit
    exact (BackendCall.answer_getHeight_iff (hpast hsplit)).mp (h past _ rest hsplit)
  · intro h past c rest hsplit
    by_cases hc : c = .getHeight
    · rw [hc] at hsplit ⊢
      exact (BackendCall.answer_getHeight_iff (hpast hsplit)).mpr (h past rest hsplit)
    · exact answer_eq (BackendCall.holds_storage (hpast hsplit)) (BackendCall.blocks_storage past)
        (htyped c (hsplit ▸ List.mem_append_right _ List.mem_cons_self)) hc

namespace BackendSample

def block (height : Nat) : Block where
  header :=
    { version := 1, height, timestamp := 0, prevHash := [], merkleRoot := [], stateRoot := []
      gasUsed := 0, baseFeePerGas := 0, validatorPublicKey := [], nonce := 0 }
  transactions := []
  hash := []
  signature := none

theorem typed_block {height : Nat} (h : (block height).header.Fits) : (block height).WellTyped where
  header := h
  transactions := ⟨(by decide : 0 < modulus), fun _ h => absurd h (by simp [block])⟩
  hash := (by decide : 0 < modulus)
  signature := fun _ h => absurd h (by simp [block])

/-- Blocks in the order of their heights. -/
def ascending : List BackendCall := [.putBlock (block 0), .putBlock (block 1), .getHeight]

/-- A block below the head is put again. -/
def descending : List BackendCall := [.putBlock (block 5), .putBlock (block 3), .getHeight]

end BackendSample

open BackendSample in
theorem backends_agree_iff_sample :
    Trace.answers BlockTables.call {} ascending = Trace.answers InMemoryBlockBackend.call {} ascending := by
  refine (backends_agree_iff ascending ?_).mpr ?_
  · intro c hc
    simp only [ascending, List.mem_cons, List.not_mem_nil, or_false] at hc
    rcases hc with rfl | rfl | rfl
    · exact typed_block (by decide)
    · exact typed_block (by decide)
    · trivial
  · rintro (_ | ⟨c, _ | ⟨d, _ | ⟨e, past⟩⟩⟩) rest hsplit
    · exact absurd (List.cons.inj hsplit).1 (by simp)
    · exact absurd (List.cons.inj (List.cons.inj hsplit).2).1 (by simp)
    · obtain ⟨rfl, hrest⟩ := List.cons.inj hsplit
      obtain ⟨rfl, -⟩ := List.cons.inj hrest
      unfold BackendCall.LastIsHighest
      decide
    · exact absurd (congrArg List.length hsplit) (by simp [ascending])

open BackendSample in
/-- The tables say that the head is at 3, the map that it is at 5. -/
theorem backends_disagree :
    Trace.answers BlockTables.call {} descending ≠ Trace.answers InMemoryBlockBackend.call {} descending ∧
      (Trace.answers BlockTables.call {} descending)[2]? = some (.ok (.height (some 3))) ∧
      (Trace.answers InMemoryBlockBackend.call {} descending)[2]? = some (.ok (.height (some 5))) := by
  have htables : (Trace.answers BlockTables.call {} descending)[2]? = some (.ok (.height (some 3))) := by
    decide +kernel
  have hmap : (Trace.answers InMemoryBlockBackend.call {} descending)[2]? =
      some (.ok (.height (some 5))) := by decide +kernel
  refine ⟨fun h => ?_, htables, hmap⟩
  rw [h, hmap] at htables
  exact absurd htables (by simp)

end Curs3d
