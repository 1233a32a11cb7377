import Curs3d.Core.BlockTree
import Curs3d.Lib.Ancestry

/-!
# The block tree as a forest

The walks of the block tree are walks of `Lib/Ancestry`: `isDescendantOf`, `canonicalChain` and
the pruning predicate all read off `Reaches` once the tree is `Linked` (`mem_lineage_iff`).
`Sound` adds what fork choice and finality maintain: the genesis is in the tree, the finalized
block is an ancestor of the tip. `insert_cases` says what an insertion can do; insertion,
finalization and the fork choice keep a tree sound.
-/

set_option autoImplicit false

namespace Curs3d.BlockTree

open Ancestry

variable {t t' : BlockTree} {genesis : Block}

/-- The height a hash has in the tree. -/
def heightOf (t : BlockTree) (hash : Bytes) : Nat :=
  ((t.get hash).map fun b => b.header.height).getD 0

/-- One turn of every walk. -/
def ParentOf (t : BlockTree) (child parent : Bytes) : Prop :=
  ∃ b, t.get child = some b ∧ 0 < b.header.height ∧ b.header.prevHash = parent

/-- Entries are filed under their hash, hang under a parent one lower, and start at `genesis`. -/
structure Linked (t : BlockTree) (genesis : Block) : Prop where
  hash : ∀ {h b}, t.get h = some b → b.hash = h
  root : ∀ {h b}, t.get h = some b → b.header.height = 0 → h = genesis.hash
  genesis : t.get genesis.hash = some genesis ∧ genesis.header.height = 0
  parent : ∀ {h b}, t.get h = some b → 0 < b.header.height →
    ∃ p, t.get b.header.prevHash = some p ∧ b.header.height = p.header.height + 1

theorem heightOf_eq {h : Bytes} {b : Block} (hb : t.get h = some b) :
    t.heightOf h = b.header.height := by
  rw [heightOf, hb]
  rfl

theorem Linked.ranked (hl : t.Linked genesis) : Ranked t.ParentOf t.heightOf where
  unique := by
    rintro child p q ⟨b, hb, -, rfl⟩ ⟨b', hb', -, rfl⟩
    cases hb.symm.trans hb'
    rfl
  descends := by
    rintro child parent ⟨b, hb, hpos, rfl⟩
    obtain ⟨p, hp, hheight⟩ := hl.parent hb hpos
    rw [heightOf_eq hb, heightOf_eq hp, hheight]

/-- A walk that starts in the tree stays in it. -/
theorem Linked.mem_of_reaches (hl : t.Linked genesis) {d a : Bytes} {b : Block}
    (hd : t.get d = some b) (h : Reaches t.ParentOf d a) : ∃ b', t.get a = some b' := by
  induction h with
  | refl => exact ⟨b, hd⟩
  | tail _ hs _ =>
    obtain ⟨c, hc, hpos, rfl⟩ := hs
    obtain ⟨p, hp, -⟩ := hl.parent hc hpos
    exact ⟨p, hp⟩

/-! ## The walk of the source -/

/-- With fuel above the height, the lineage is exactly what the walk reaches. -/
theorem mem_lineageFrom_iff (hl : t.Linked genesis) {fuel : Nat} {d a : Bytes} {b x : Block}
    (hd : t.get d = some b) (hfuel : b.header.height < fuel) :
    (a, x) ∈ t.lineageFrom fuel d ↔ Reaches t.ParentOf d a ∧ t.get a = some x := by
  induction fuel generalizing d b with
  | zero => exact absurd hfuel (by omega)
  | succ fuel ih =>
    unfold lineageFrom
    rw [hd]
    dsimp only
    rw [List.mem_cons]
    constructor
    · rintro (heq | hmem)
      · cases heq
        exact ⟨Relation.ReflTransGen.refl, hd⟩
      · split at hmem
        · exact absurd hmem (by simp)
        · next hne =>
          have hpos : 0 < b.header.height := Nat.pos_of_ne_zero hne
          obtain ⟨p, hp, hheight⟩ := hl.parent hd hpos
          obtain ⟨hr, hx⟩ := (ih hp (by omega)).mp hmem
          exact ⟨Relation.ReflTransGen.head ⟨b, hd, hpos, rfl⟩ hr, hx⟩
    · rintro ⟨hr, hx⟩
      rcases Relation.ReflTransGen.cases_head hr with rfl | ⟨q, ⟨b', hb', hpos, rfl⟩, hq⟩
      · left
        cases hd.symm.trans hx
        rfl
      · cases hd.symm.trans hb'
        right
        rw [if_neg (by omega)]
        obtain ⟨p, hp, hheight⟩ := hl.parent hd hpos
        exact (ih hp (by omega)).mpr ⟨hq, hx⟩

theorem mem_lineage_iff (hl : t.Linked genesis) {d a : Bytes} {x : Block} :
    (a, x) ∈ t.lineage d ↔ (∃ b, t.get d = some b) ∧ Reaches t.ParentOf d a ∧ t.get a = some x := by
  unfold lineage
  cases hd : t.get d with
  | none => simp
  | some b =>
    dsimp only
    rw [mem_lineageFrom_iff hl hd (by omega)]
    simp

theorem isDescendantOf_iff (hl : t.Linked genesis) {d a : Bytes} {b : Block}
    (hd : t.get d = some b) : t.isDescendantOf d a = true ↔ Reaches t.ParentOf d a := by
  unfold isDescendantOf
  rw [List.any_eq_true]
  constructor
  · rintro ⟨⟨h, x⟩, hmem, heq⟩
    rw [decide_eq_true_eq] at heq
    dsimp only at heq
    subst heq
    exact ((mem_lineage_iff hl).mp hmem).2.1
  · intro hr
    obtain ⟨x, hx⟩ := hl.mem_of_reaches hd hr
    exact ⟨(a, x), (mem_lineage_iff hl).mpr ⟨⟨b, hd⟩, hr, hx⟩, by simp⟩

theorem get_of_isDescendantOf {d a : Bytes} (h : t.isDescendantOf d a = true) :
    ∃ b, t.get d = some b := by
  unfold isDescendantOf lineage at h
  cases hd : t.get d with
  | none => rw [hd] at h; exact absurd h (by simp)
  | some b => exact ⟨b, rfl⟩

/-- Every block of the tree descends from the genesis. -/
theorem Linked.reaches_genesis (hl : t.Linked genesis) {d : Bytes} {b : Block}
    (hd : t.get d = some b) : Reaches t.ParentOf d genesis.hash := by
  induction hh : b.header.height generalizing d b with
  | zero =>
    rw [hl.root hd hh]
    exact Relation.ReflTransGen.refl
  | succ n ih =>
    obtain ⟨p, hp, hheight⟩ := hl.parent hd (by omega)
    exact Relation.ReflTransGen.head ⟨b, hd, by omega, rfl⟩ (ih hp (by omega))

/-! ## The canonical chain -/

theorem mem_canonicalChain_iff (hl : t.Linked genesis) {x : Block} :
    x ∈ t.canonicalChain ↔ (∃ b, t.get t.canonicalTip = some b) ∧
      Reaches t.ParentOf t.canonicalTip x.hash ∧ t.get x.hash = some x := by
  unfold canonicalChain
  rw [List.mem_reverse, List.mem_map]
  constructor
  · rintro ⟨⟨h, b⟩, hmem, rfl⟩
    obtain ⟨htip, hr, hb⟩ := (mem_lineage_iff hl).mp hmem
    rw [hl.hash hb]
    exact ⟨htip, hr, hb⟩
  · rintro ⟨htip, hr, hx⟩
    exact ⟨(x.hash, x), (mem_lineage_iff hl).mpr ⟨htip, hr, hx⟩, rfl⟩

/-- The canonical chain ends at its tip. -/
theorem getLast?_canonicalChain {b : Block} (htip : t.get t.canonicalTip = some b) :
    t.canonicalChain.getLast? = some b := by
  unfold canonicalChain lineage
  rw [htip]
  dsimp only
  unfold lineageFrom
  rw [htip]
  simp

theorem getLast?_lineageFrom (hl : t.Linked genesis) {fuel : Nat} {d : Bytes} {b : Block}
    (hd : t.get d = some b) (hfuel : b.header.height < fuel) :
    (t.lineageFrom fuel d).getLast? = some (genesis.hash, genesis) := by
  induction fuel generalizing d b with
  | zero => exact absurd hfuel (by omega)
  | succ fuel ih =>
    unfold lineageFrom
    rw [hd]
    dsimp only
    split
    · next hz =>
      have hroot := hl.root hd hz
      subst hroot
      cases hd.symm.trans hl.genesis.1
      rfl
    · next hne =>
      obtain ⟨p, hp, hheight⟩ := hl.parent hd (Nat.pos_of_ne_zero hne)
      have hlast := ih hp (by omega)
      rw [List.getLast?_cons, hlast]
      rfl

/-- Each block of a lineage is followed by its parent. -/
theorem isChain_lineageFrom {fuel : Nat} {d : Bytes} :
    (t.lineageFrom fuel d).IsChain fun x y =>
      0 < x.2.header.height ∧ x.2.header.prevHash = y.1 := by
  induction fuel generalizing d with
  | zero => exact List.IsChain.nil
  | succ fuel ih =>
    unfold lineageFrom
    split
    · exact List.IsChain.nil
    next b hb =>
    split
    · exact List.IsChain.singleton _
    next hne =>
    refine List.IsChain.cons ih ?_
    intro y hy
    refine ⟨Nat.pos_of_ne_zero hne, ?_⟩
    cases fuel with
    | zero => exact absurd hy (by simp [lineageFrom])
    | succ fuel =>
      unfold lineageFrom at hy
      split at hy
      · exact absurd hy (by simp)
      · cases hy
        rfl

/-- The canonical chain climbs from parent to child. -/
theorem isChain_canonicalChain (hl : t.Linked genesis) :
    t.canonicalChain.IsChain fun parent child =>
      0 < child.header.height ∧ child.header.prevHash = parent.hash := by
  have hlineage : (t.lineage t.canonicalTip).IsChain fun x y =>
      0 < x.2.header.height ∧ x.2.header.prevHash = y.1 := by
    unfold lineage
    split
    · exact List.IsChain.nil
    · exact isChain_lineageFrom
  unfold canonicalChain
  rw [List.isChain_reverse, List.isChain_map]
  refine List.IsChain.imp_of_mem_imp ?_ hlineage
  rintro x ⟨h, y⟩ - hy ⟨hpos, hprev⟩
  exact ⟨hpos, hprev.trans (hl.hash ((mem_lineage_iff hl).mp hy).2.2).symm⟩

/-- The canonical chain starts at the genesis. -/
theorem head?_canonicalChain (hl : t.Linked genesis) {b : Block}
    (htip : t.get t.canonicalTip = some b) : t.canonicalChain.head? = some genesis := by
  unfold canonicalChain lineage
  rw [htip]
  dsimp only
  rw [List.head?_reverse, List.getLast?_map, getLast?_lineageFrom hl htip (by omega)]
  rfl

/-! ## Insertion -/

theorem get_eq_none {h : Bytes} (hn : h ∉ t.entries) : t.get h = none := by
  rw [get, Std.ExtTreeMap.getElem?_eq_none hn]
  rfl

/-- Hanging a new block into the tree changes only what its own hash names. -/
theorem get_attach {block : Block} {parent : BlockEntry} {weight : Nat}
    (hparent : t.entries[block.header.prevHash]? = some parent) (h : Bytes) :
    (t.attach block parent weight).get h = if block.hash = h then some block else t.get h := by
  unfold get attach
  dsimp only
  rw [KeyMap.getElem?_insert_eq]
  split
  · rfl
  · rw [KeyMap.getElem?_insert_eq]
    split
    · next hk => rw [← hk, hparent]; rfl
    · rfl

/-- Everything `insert` can do when it succeeds. -/
theorem insert_cases {block : Block} {stake : Nat} {switched : Bool}
    (h : t.insert block stake = .ok (t', switched)) :
    (t' = t ∧ switched = false ∧ block.hash ∈ t.entries) ∨
    (block.hash ∉ t.entries ∧
      ∃ parent weight, t.entries[block.header.prevHash]? = some parent ∧
        block.header.height = parent.block.header.height + 1 ∧
        (t.finalizedHeight = 0 ∨ block.header.prevHash = t.finalizedHash ∨
          t.isDescendantOf block.header.prevHash t.finalizedHash = true) ∧
        ((t' = t.attach block parent weight ∧ switched = false) ∨
          (t' = { t.attach block parent weight with canonicalTip := block.hash } ∧
            switched = !t'.isDescendantOf block.hash t.canonicalTip))) := by
  unfold insert at h
  split at h
  · next hmem => cases h; exact .inl ⟨rfl, rfl, hmem⟩
  next hmem =>
  split at h
  · exact absurd h (by simp)
  split at h
  · exact absurd h (by simp)
  next parent hparent =>
  split at h
  · exact absurd h (by simp)
  next hheight =>
  split at h
  · exact absurd h (by simp)
  next hguard =>
  refine .inr ⟨hmem, parent, U64.wrapAdd parent.cumulativeStakeWeight stake, hparent,
    by simpa using hheight, ?_, ?_⟩
  · by_cases hz : t.finalizedHeight = 0
    · exact .inl hz
    · by_cases hp : block.header.prevHash = t.finalizedHash
      · exact .inr (.inl hp)
      · refine .inr (.inr ?_)
        by_contra hd
        exact hguard ⟨Nat.pos_of_ne_zero hz, hp, by simpa using hd⟩
  · simp only [Except.ok.injEq] at h
    unfold chooseTip at h
    split at h
    · right
      cases h
      exact ⟨rfl, rfl⟩
    · left
      cases h
      exact ⟨rfl, rfl⟩

/-- An insertion adds at most the inserted block. -/
theorem get_insert {block : Block} {stake : Nat} {switched : Bool}
    (h : t.insert block stake = .ok (t', switched)) {hash : Bytes} {b : Block}
    (hb : t'.get hash = some b) : t.get hash = some b ∨ b = block := by
  rcases insert_cases h with ⟨rfl, -, -⟩ | ⟨-, parent, weight, hparent, -, -, hcase⟩
  · exact .inl hb
  · have hget : (t.attach block parent weight).get hash = some b := by
      rcases hcase with ⟨rfl, -⟩ | ⟨rfl, -⟩
      · exact hb
      · exact hb
    rw [get_attach hparent] at hget
    split at hget
    · exact .inr (Option.some.inj hget).symm
    · exact .inl hget

/-- A new tip is the inserted block. -/
theorem canonicalTip_of_switched {block : Block} {stake : Nat}
    (h : t.insert block stake = .ok (t', true)) :
    t'.canonicalTip = block.hash ∧ t'.get block.hash = some block := by
  rcases insert_cases h with ⟨-, hs, -⟩ | ⟨-, parent, weight, hparent, -, -, ⟨-, hs⟩ | ⟨rfl, -⟩⟩
  · exact absurd hs (by simp)
  · exact absurd hs (by simp)
  · refine ⟨rfl, ?_⟩
    have hget := @get_attach t block parent weight hparent block.hash
    rw [if_pos rfl] at hget
    exact hget

/-! ## Sound trees -/

/-- A linked tree whose finalized block is an ancestor of its tip. -/
structure Sound (t : BlockTree) (genesis : Block) : Prop extends t.Linked genesis where
  tip : ∃ b, t.get t.canonicalTip = some b
  finalized : ∃ b, t.get t.finalizedHash = some b ∧ b.header.height = t.finalizedHeight
  final : Reaches t.ParentOf t.canonicalTip t.finalizedHash

theorem get_fromGenesis (genesis : Block) (h : Bytes) :
    (fromGenesis genesis).get h = if genesis.hash = h then some genesis else none := by
  unfold get fromGenesis
  dsimp only
  rw [KeyMap.getElem?_insert_eq]
  split <;> simp

theorem sound_fromGenesis (hheight : genesis.header.height = 0) :
    (fromGenesis genesis).Sound genesis where
  hash := by
    intro h b hb
    rw [get_fromGenesis] at hb
    split at hb
    · next hh => cases hb; exact hh
    · exact absurd hb (by simp)
  root := by
    intro h b hb _
    rw [get_fromGenesis] at hb
    split at hb
    · next hh => exact hh.symm
    · exact absurd hb (by simp)
  genesis := ⟨by rw [get_fromGenesis, if_pos rfl], hheight⟩
  parent := by
    intro h b hb hpos
    rw [get_fromGenesis] at hb
    split at hb
    · cases hb; omega
    · exact absurd hb (by simp)
  tip := ⟨genesis, by rw [get_fromGenesis]; exact if_pos rfl⟩
  finalized := ⟨genesis, by rw [get_fromGenesis]; exact if_pos rfl, hheight⟩
  final := Relation.ReflTransGen.refl

/-- The tree grows: every entry stays. -/
def Grows (t t' : BlockTree) : Prop := ∀ h b, t.get h = some b → t'.get h = some b

theorem Grows.reaches (hg : t.Grows t') {d a : Bytes} (h : Reaches t.ParentOf d a) :
    Reaches t'.ParentOf d a := by
  refine h.mono ?_
  rintro child parent ⟨b, hb, hrest⟩
  exact ⟨b, hg child b hb, hrest⟩

theorem attach_grows {block : Block} {parent : BlockEntry} {weight : Nat}
    (hparent : t.entries[block.header.prevHash]? = some parent) (hnew : block.hash ∉ t.entries) :
    t.Grows (t.attach block parent weight) := by
  intro h b hb
  rw [get_attach hparent, if_neg]
  · exact hb
  · rintro rfl
    rw [get_eq_none hnew] at hb
    exact absurd hb (by simp)

theorem Linked.attach (hl : t.Linked genesis) {block : Block} {parent : BlockEntry} {weight : Nat}
    (hparent : t.entries[block.header.prevHash]? = some parent) (hnew : block.hash ∉ t.entries)
    (hheight : block.header.height = parent.block.header.height + 1) :
    (t.attach block parent weight).Linked genesis := by
  have hg := @attach_grows t block parent weight hparent hnew
  have hget := @get_attach t block parent weight hparent
  have hp : t.get block.header.prevHash = some parent.block := by rw [get, hparent]; rfl
  constructor
  · intro h b hb
    rw [hget] at hb
    split at hb
    · next hh => cases hb; exact hh
    · exact hl.hash hb
  · intro h b hb hz
    rw [hget] at hb
    split at hb
    · cases hb; omega
    · exact hl.root hb hz
  · exact ⟨hg _ _ hl.genesis.1, hl.genesis.2⟩
  · intro h b hb hpos
    rw [hget] at hb
    split at hb
    · cases hb
      exact ⟨parent.block, hg _ _ hp, hheight⟩
    · obtain ⟨p, hp', hh⟩ := hl.parent hb hpos
      exact ⟨p, hg _ _ hp', hh⟩

theorem insert_grows {block : Block} {stake : Nat} {switched : Bool}
    (h : t.insert block stake = .ok (t', switched)) : t.Grows t' := by
  rcases insert_cases h with ⟨rfl, -, -⟩ | ⟨hnew, parent, weight, hparent, -, -, hcase⟩
  · exact fun _ _ hb => hb
  · have hg := @attach_grows t block parent weight hparent hnew
    rcases hcase with ⟨rfl, -⟩ | ⟨rfl, -⟩
    · exact hg
    · exact hg

theorem insert_finalized {block : Block} {stake : Nat} {switched : Bool}
    (h : t.insert block stake = .ok (t', switched)) :
    t'.finalizedHash = t.finalizedHash ∧ t'.finalizedHeight = t.finalizedHeight := by
  rcases insert_cases h with ⟨rfl, -, -⟩ | ⟨-, parent, weight, -, -, -, ⟨rfl, -⟩ | ⟨rfl, -⟩⟩ <;>
    exact ⟨rfl, rfl⟩

/-- **Insertion keeps a tree sound.** -/
theorem Sound.insert (hs : t.Sound genesis) {block : Block} {stake : Nat} {switched : Bool}
    (h : t.insert block stake = .ok (t', switched)) : t'.Sound genesis := by
  rcases insert_cases h with ⟨rfl, -, -⟩ |
    ⟨hnew, parent, weight, hparent, hheight, hguard, hcase⟩
  · exact hs
  have hg := @attach_grows t block parent weight hparent hnew
  have hl : (t.attach block parent weight).Linked genesis :=
    hs.toLinked.attach hparent hnew hheight
  have hget := @get_attach t block parent weight hparent block.hash
  rw [if_pos rfl] at hget
  obtain ⟨f, hf, hfh⟩ := hs.finalized
  rcases hcase with ⟨rfl, -⟩ | ⟨rfl, -⟩
  · obtain ⟨b, hb⟩ := hs.tip
    exact { toLinked := hl, tip := ⟨b, hg _ _ hb⟩, finalized := ⟨f, hg _ _ hf, hfh⟩,
            final := hg.reaches hs.final }
  · refine
      { toLinked :=
          { hash := hl.hash, root := hl.root, genesis := hl.genesis, parent := hl.parent }
        tip := ⟨block, hget⟩, finalized := ⟨f, hg _ _ hf, hfh⟩, final := ?_ }
    -- the new tip reaches the finalized block through its parent
    have hp : t.get block.header.prevHash = some parent.block := by rw [get, hparent]; rfl
    have hreach : Reaches t.ParentOf block.header.prevHash t.finalizedHash := by
      rcases hguard with hz | heq | hd
      · rw [hs.root hf (hfh.trans hz)]
        exact hs.toLinked.reaches_genesis hp
      · rw [heq]
        exact Relation.ReflTransGen.refl
      · exact (isDescendantOf_iff hs.toLinked hp).mp hd
    exact Relation.ReflTransGen.head ⟨block, hget, by omega, rfl⟩ (hg.reaches hreach)

/-! ## Finalization -/

/-- What pruning keeps: the finalized block, its descendants and its ancestors. -/
theorem keeps_iff (hl : t.Linked genesis) {h f : Bytes} {b fb : Block} (hb : t.get h = some b)
    (hf : t.finalizedHash = f) (hfb : t.get f = some fb) :
    t.keeps h = true ↔ Reaches t.ParentOf h f ∨ Reaches t.ParentOf f h := by
  subst hf
  unfold keeps
  rw [decide_eq_true_eq, isDescendantOf_iff hl hb, isDescendantOf_iff hl hfb]
  constructor
  · rintro (rfl | hd | hd)
    · exact .inl Relation.ReflTransGen.refl
    · exact .inl hd
    · exact .inr hd
  · exact .inr

/-- The kept part of the tree is closed under parents. -/
theorem keeps_parent (hl : t.Linked genesis) {child parent f : Bytes}
    (hk : Reaches t.ParentOf child f ∨ Reaches t.ParentOf f child)
    (hp : t.ParentOf child parent) :
    Reaches t.ParentOf parent f ∨ Reaches t.ParentOf f parent := by
  rcases hk with hd | hd
  · by_cases heq : child = f
    · subst heq
      exact .inr (Relation.ReflTransGen.single hp)
    · exact .inl (hd.through_parent hl.ranked hp heq)
  · exact .inr (hd.tail hp)

theorem get_setFinalized {hash h : Bytes} {height : Nat} (hpos : 0 < height) :
    (t.setFinalized hash height).get h =
      if ({ t with finalizedHash := hash, finalizedHeight := height } : BlockTree).keeps h then
        t.get h
      else none := by
  unfold setFinalized pruneBelowFinalized
  rw [if_neg (by exact Nat.ne_of_gt hpos)]
  unfold get
  dsimp only
  rw [Std.ExtTreeMap.getElem?_filter']
  cases t.entries[h]? with
  | none => simp
  | some e =>
    by_cases hk : ({ t with finalizedHash := hash, finalizedHeight := height } : BlockTree).keeps h
    · simp [Option.filter, hk]
    · simp [Option.filter, hk]

theorem setFinalized_fields (hash : Bytes) (height : Nat) :
    (t.setFinalized hash height).finalizedHash = hash ∧
      (t.setFinalized hash height).finalizedHeight = height ∧
      (t.setFinalized hash height).canonicalTip = t.canonicalTip := by
  unfold setFinalized pruneBelowFinalized
  split <;> exact ⟨rfl, rfl, rfl⟩

/-- An entry survives finalization exactly when it is on one line with the finalized block. -/
theorem get_setFinalized_iff (hl : t.Linked genesis) {hash h : Bytes} {height : Nat} {fb x : Block}
    (hf : t.get hash = some fb) (hpos : 0 < height) :
    (t.setFinalized hash height).get h = some x ↔
      t.get h = some x ∧ (Reaches t.ParentOf h hash ∨ Reaches t.ParentOf hash h) := by
  rw [get_setFinalized hpos]
  have hl' : ({ t with finalizedHash := hash, finalizedHeight := height } : BlockTree).Linked
      genesis := ⟨hl.hash, hl.root, hl.genesis, hl.parent⟩
  cases hx : t.get h with
  | none => simp
  | some y =>
    have hk := keeps_iff hl' hx rfl hf
    split
    · next hkeep => simp only [Option.some.injEq]; exact ⟨fun he => ⟨he, hk.mp hkeep⟩, And.left⟩
    · next hkeep => exact ⟨fun he => absurd he (by simp), fun he => absurd (hk.mpr he.2) hkeep⟩

/-- A walk from an entry that finalization keeps is still there afterwards. -/
theorem reaches_setFinalized (hl : t.Linked genesis) {hash d a : Bytes} {height : Nat} {fb : Block}
    (hf : t.get hash = some fb) (hpos : 0 < height)
    (hd : Reaches t.ParentOf d hash ∨ Reaches t.ParentOf hash d)
    (h : Reaches t.ParentOf d a) :
    Reaches (t.setFinalized hash height).ParentOf d a ∧
      (Reaches t.ParentOf a hash ∨ Reaches t.ParentOf hash a) := by
  refine h.restrict hd (fun hk hp => keeps_parent hl hk hp) ?_
  rintro child parent hk ⟨b, hb, hrest⟩
  exact ⟨b, (get_setFinalized_iff hl hf hpos).mpr ⟨hb, hk⟩, hrest⟩

/-- The part of a tree that a known finalized block keeps is linked. -/
theorem Linked.setFinalized (hl : t.Linked genesis) {hash : Bytes} {height : Nat} {fb : Block}
    (hf : t.get hash = some fb) (hpos : 0 < height) : (t.setFinalized hash height).Linked genesis := by
  have hget := fun h x => @get_setFinalized_iff t genesis hl hash h height fb x hf hpos
  constructor
  · intro h b hb
    exact hl.hash ((hget h b).mp hb).1
  · intro h b hb hz
    exact hl.root ((hget h b).mp hb).1 hz
  · exact ⟨(hget _ _).mpr ⟨hl.genesis.1, .inr (hl.reaches_genesis hf)⟩, hl.genesis.2⟩
  · intro h b hb hb0
    obtain ⟨hb, hk⟩ := (hget h b).mp hb
    obtain ⟨p, hp, hph⟩ := hl.parent hb hb0
    exact ⟨p, (hget _ _).mpr ⟨hp, keeps_parent hl hk ⟨b, hb, hb0, rfl⟩⟩, hph⟩

/-- **Finalizing a block of the canonical chain keeps a tree sound.** -/
theorem Sound.setFinalized (hs : t.Sound genesis) {hash : Bytes} {height : Nat} {fb : Block}
    (hf : t.get hash = some fb) (hheight : fb.header.height = height) (hpos : 0 < height)
    (hcanon : Reaches t.ParentOf t.canonicalTip hash) :
    (t.setFinalized hash height).Sound genesis := by
  have hl := hs.toLinked
  have hget := fun h x => @get_setFinalized_iff t genesis hl hash h height fb x hf hpos
  obtain ⟨hfh, hfheight, htip⟩ := @setFinalized_fields t hash height
  constructor
  · exact hl.setFinalized hf hpos
  · obtain ⟨b, hb⟩ := hs.tip
    rw [htip]
    exact ⟨b, (hget _ _).mpr ⟨hb, .inl hcanon⟩⟩
  · rw [hfh, hfheight]
    exact ⟨fb, (hget _ _).mpr ⟨hf, .inl Relation.ReflTransGen.refl⟩, hheight⟩
  · rw [hfh, htip]
    exact (reaches_setFinalized hl hf hpos (.inl hcanon) hcanon).1

/-! ## Trees that lost their finalized block -/

/-- A tree that hangs from `genesis`, or one emptied by a finalized hash it does not know. -/
def Rooted (t : BlockTree) (genesis : Block) : Prop := t.Linked genesis ∨ ∀ hash, t.get hash = none

theorem Rooted.insert (h : t.Rooted genesis) {block : Block} {stake : Nat} {switched : Bool}
    (hok : t.insert block stake = .ok (t', switched)) : t'.Rooted genesis := by
  obtain ⟨rfl, -, -⟩ | ⟨hnew, parent, weight, hparent, hheight, -, hcase⟩ := insert_cases hok
  · exact h
  obtain hl | hempty := h
  · left
    have hattached : (t.attach block parent weight).Linked genesis :=
      hl.attach hparent hnew hheight
    obtain ⟨rfl, -⟩ | ⟨rfl, -⟩ := hcase
    · exact hattached
    · exact ⟨hattached.hash, hattached.root, hattached.genesis, hattached.parent⟩
  · have hnone := hempty block.header.prevHash
    rw [get, hparent] at hnone
    exact absurd hnone (by simp)

/-- Finality keeps a tree linked when it knows the finalized hash, and empties it otherwise. -/
theorem Linked.rooted_setFinalized (hl : t.Linked genesis) (hash : Bytes) (height : Nat) :
    (t.setFinalized hash height).Rooted genesis := by
  by_cases hzero : height = 0
  · left
    have hopen : t.setFinalized hash height =
        { t with finalizedHash := hash, finalizedHeight := height } := by
      rw [BlockTree.setFinalized, pruneBelowFinalized, if_pos hzero]
    rw [hopen]
    exact ⟨hl.hash, hl.root, hl.genesis, hl.parent⟩
  have hpos := Nat.pos_of_ne_zero hzero
  cases hf : t.get hash with
  | some fb => exact .inl (hl.setFinalized hf hpos)
  | none =>
    right
    intro h
    rw [get_setFinalized hpos]
    have hl' : ({ t with finalizedHash := hash, finalizedHeight := height } : BlockTree).Linked
        genesis := ⟨hl.hash, hl.root, hl.genesis, hl.parent⟩
    cases hh : t.get h with
    | none => simp
    | some b =>
      rw [if_neg]
      simp only [keeps, decide_eq_true_eq, not_or]
      refine ⟨?_, ?_, ?_⟩
      · rintro rfl
        exact absurd (hh.symm.trans hf) (by simp)
      · rw [isDescendantOf_iff hl' hh]
        intro hr
        -- a walk in the tree ends in the tree
        obtain ⟨x, hx⟩ := hl'.mem_of_reaches hh hr
        exact absurd (hx.symm.trans hf) (by simp)
      · intro hd
        obtain ⟨x, hx⟩ := get_of_isDescendantOf hd
        exact absurd (hx.symm.trans hf) (by simp)

end Curs3d.BlockTree
