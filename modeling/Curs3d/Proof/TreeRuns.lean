import Curs3d.Proof.Convergence

/-!
# Runs of a block tree

A tree by itself, without the chain around it: blocks come in any order, with any stakes, and are
taken or refused; a block of the canonical chain is finalized from time to time, and what is not on
a line with it goes. `Consistent` is what every query of the tree may rely on after any such run.

The weights stay below the word as long as the stakes of the whole run do, whatever was pruned
since, so the invariant carries the sum of all of them (`Carried.bounded`).
-/

set_option autoImplicit false

namespace Curs3d

open Ancestry

namespace BlockTree

variable {t t' : BlockTree} {genesis block : Block} {stake : Nat} {log : List (Block × Nat)}

/-! ## Runs -/

/-- The tree an insertion leaves, whether it succeeds or not. -/
def inserted (t : BlockTree) (block : Block) (stake : Nat) : BlockTree :=
  match t.insert block stake with
  | .ok (t', _) => t'
  | .error _ => t

/-- The trees that calls of `insert` and `set_finalized` lead to. `log` is what they inserted, or
tried to, with the stakes. -/
inductive TreeRun (genesis : Block) : List (Block × Nat) → BlockTree → Prop where
  | start : TreeRun genesis [] (fromGenesis genesis)
  | insert {log : List (Block × Nat)} {t : BlockTree} (block : Block) (stake : Nat)
      (h : TreeRun genesis log t) :
      TreeRun genesis (log ++ [(block, stake)]) (t.inserted block stake)
  | finalize {log : List (Block × Nat)} {t : BlockTree} {b : Block} (h : TreeRun genesis log t)
      (hb : b ∈ t.canonicalChain) :
      TreeRun genesis log (t.setFinalized b.hash b.header.height)

/-- What holds of a tree, in its own queries. -/
structure Consistent (genesis : Block) (log : List (Block × Nat)) (t : BlockTree) : Prop where
  hash : ∀ h b, t.get h = some b → b.hash = h
  parent : ∀ h b, t.get h = some b → h ≠ genesis.hash → ∃ p stake,
    t.get b.header.prevHash = some p ∧ b.header.height = p.header.height + 1 ∧
      (b, stake) ∈ log ∧ t.weightOf h = t.weightOf b.header.prevHash + stake
  tip : ∃ b, t.get t.canonicalTip = some b
  heaviest : ∀ h, t.weightOf h ≤ t.weightOf t.canonicalTip
  finalized : ∃ b, t.get t.finalizedHash = some b ∧ b.header.height = t.finalizedHeight
  final : t.isDescendantOf t.canonicalTip t.finalizedHash = true
  above : ∀ h b, t.get h = some b → t.finalizedHeight < b.header.height →
    t.isDescendantOf h t.finalizedHash = true
  terminates : ∀ h b fuel, t.get h = some b → b.header.height < fuel →
    t.lineageFrom fuel h = t.lineage h
  first : t.canonicalChain.head? = some genesis
  last : t.canonicalChain.getLast? = t.get t.canonicalTip
  heights : t.canonicalChain.map (fun b => b.header.height) = List.range t.canonicalChain.length
  linked : t.canonicalChain.IsChain fun p b => b.header.prevHash = p.hash
  common : ∀ a b, (t.get a).isSome → (t.get b).isSome → ∃ k, t.commonAncestor a b = some k ∧
    t.isDescendantOf a k = true ∧ t.isDescendantOf b k = true ∧
    ∀ d, t.isDescendantOf a d = true → t.isDescendantOf b d = true →
      t.isDescendantOf k d = true ∧ t.heightOf d ≤ t.heightOf k

/-! ## Walks -/

/-- Fuel beyond the height changes nothing. -/
theorem lineageFrom_of_lt (hl : t.Linked genesis) {fuel fuel' : Nat} {d : Bytes} {b : Block}
    (hd : t.get d = some b) (hfuel : b.header.height < fuel) (hfuel' : b.header.height < fuel') :
    t.lineageFrom fuel d = t.lineageFrom fuel' d := by
  induction fuel generalizing fuel' d b with
  | zero => exact absurd hfuel (Nat.not_lt_zero _)
  | succ fuel ih =>
    obtain ⟨fuel', rfl⟩ := Nat.exists_eq_add_of_lt (Nat.zero_lt_of_lt hfuel')
    rw [Nat.zero_add] at hfuel' ⊢
    unfold lineageFrom
    rw [hd]
    dsimp only
    by_cases hzero : b.header.height = 0
    · rw [if_pos hzero, if_pos hzero]
    · obtain ⟨p, hp, hheight⟩ := hl.parent hd (Nat.pos_of_ne_zero hzero)
      rw [if_neg hzero, if_neg hzero, ih hp (by omega) (show p.header.height < fuel' by omega)]

theorem lineageFrom_eq_lineage (hl : t.Linked genesis) {fuel : Nat} {d : Bytes} {b : Block}
    (hd : t.get d = some b) (hfuel : b.header.height < fuel) :
    t.lineageFrom fuel d = t.lineage d := by
  rw [lineage, hd]
  exact lineageFrom_of_lt hl hd hfuel (Nat.lt_succ_self _)

/-- The common ancestor of two blocks, and why it is the deepest. -/
theorem commonAncestor_spec (hl : t.Linked genesis) {a b : Bytes} {x y : Block}
    (ha : t.get a = some x) (hb : t.get b = some y) :
    ∃ k, t.commonAncestor a b = some k ∧ Reaches t.ParentOf a k ∧ Reaches t.ParentOf b k ∧
      ∀ d, Reaches t.ParentOf a d → Reaches t.ParentOf b d → Reaches t.ParentOf k d := by
  obtain ⟨k, z, hk, -, -⟩ :=
    commonAncestor_above hl ha hb (hl.reaches_genesis ha) (hl.reaches_genesis hb)
  have hfind := hk
  unfold commonAncestor at hfind
  obtain ⟨e, he, rfl⟩ := List.mem_map.mp (List.mem_of_find?_eq_some hfind)
  have hboth : ((t.lineage a).any fun e' => e'.1 = e.1) = true := by
    exact @List.find?_some _ (fun h => (t.lineage a).any fun e' => e'.1 = h) _ _ hfind
  obtain ⟨e', he', heq⟩ := List.any_eq_true.mp hboth
  have hsame : e'.1 = e.1 := of_decide_eq_true heq
  refine ⟨e.1, hk, hsame ▸ ((mem_lineage_iff hl).mp he').2.1, ((mem_lineage_iff hl).mp he).2.1, ?_⟩
  intro d had hbd
  obtain ⟨k', -, hk', -, hreach⟩ := commonAncestor_above hl ha hb had hbd
  cases hk.symm.trans hk'
  exact hreach

/-! ## Weights after finality -/

theorem weightOf_setFinalized {hash h : Bytes} {height : Nat} (hpos : 0 < height) :
    (t.setFinalized hash height).weightOf h =
      if ({ t with finalizedHash := hash, finalizedHeight := height } : BlockTree).keeps h then
        t.weightOf h
      else 0 := by
  unfold setFinalized pruneBelowFinalized
  rw [if_neg (Nat.ne_of_gt hpos)]
  unfold weightOf
  dsimp only
  rw [Std.ExtTreeMap.getElem?_filter']
  cases t.entries[h]? with
  | none => simp
  | some e =>
    by_cases hk : ({ t with finalizedHash := hash, finalizedHeight := height } : BlockTree).keeps h
    · simp [Option.filter, hk]
    · simp [Option.filter, hk]

theorem weightOf_setFinalized_le {hash h : Bytes} {height : Nat} (hpos : 0 < height) :
    (t.setFinalized hash height).weightOf h ≤ t.weightOf h := by
  rw [weightOf_setFinalized hpos]
  split
  · exact Nat.le_refl _
  · exact Nat.zero_le _

/-- What stays in the tree keeps its weight. -/
theorem weightOf_of_kept {hash h : Bytes} {height : Nat} {b : Block} (hpos : 0 < height)
    (hb : (t.setFinalized hash height).get h = some b) :
    (t.setFinalized hash height).weightOf h = t.weightOf h := by
  rw [get_setFinalized hpos] at hb
  rw [weightOf_setFinalized hpos]
  split at hb
  · next hk => rw [if_pos hk]
  · exact absurd hb (by simp)

/-! ## The invariant -/

/-- What a run carries: a sound tree with exact weights, the tip heaviest and everything above the
finalized block on top of it. -/
structure Carried (genesis : Block) (log : List (Block × Nat)) (t : BlockTree) : Prop
    extends t.Sound genesis where
  weights : ∀ {h b}, t.get h = some b → 0 < b.header.height → ∃ stake,
    (b, stake) ∈ log ∧ t.weightOf h = t.weightOf b.header.prevHash + stake
  heaviest : ∀ h, t.weightOf h ≤ t.weightOf t.canonicalTip
  above : ∀ {h b}, t.get h = some b → t.finalizedHeight < b.header.height →
    Reaches t.ParentOf h t.finalizedHash
  bounded : ∀ h, t.weightOf h ≤ (log.map Prod.snd).sum

/-- A block that is not the genesis has a height above zero. -/
theorem Linked.height_pos (hl : t.Linked genesis) {h : Bytes} {b : Block} (hb : t.get h = some b)
    (hne : h ≠ genesis.hash) : 0 < b.header.height :=
  Nat.pos_of_ne_zero fun hzero => hne (hl.root hb hzero)

theorem carried_fromGenesis (hheight : genesis.header.height = 0) :
    Carried genesis [] (fromGenesis genesis) := by
  have hzero : ∀ h, (fromGenesis genesis).weightOf h = 0 := by
    intro h
    unfold weightOf fromGenesis
    dsimp only
    rw [KeyMap.getElem?_insert_eq]
    split <;> simp
  have hlow : ∀ {h b}, (fromGenesis genesis).get h = some b → b.header.height = 0 := by
    intro h b hb
    rw [get_fromGenesis] at hb
    split at hb
    · cases hb
      exact hheight
    · exact absurd hb (by simp)
  refine { toSound := sound_fromGenesis hheight, weights := ?_, heaviest := ?_, above := ?_,
           bounded := ?_ }
  · intro h b hb hpos
    exact absurd (hlow hb) (Nat.ne_of_gt hpos)
  · intro h
    rw [hzero]
    exact Nat.zero_le _
  · intro h b hb habove
    exact absurd (hlow hb) (Nat.ne_of_gt (Nat.zero_lt_of_lt habove))
  · intro h
    rw [hzero]
    exact Nat.zero_le _

/-- The guard of `insert` puts a new block on top of the finalized one. -/
theorem Sound.reaches_of_insert (hs : t.Sound genesis) {switched : Bool}
    (h : t.insert block stake = .ok (t', switched)) (hnew : block.hash ∉ t.entries) :
    Reaches t'.ParentOf block.hash t.finalizedHash := by
  obtain ⟨parent, hparent, hget, -, -⟩ := insert_new hs h hnew
  have hp : t.get block.header.prevHash = some parent.block := by rw [get, hparent]; rfl
  rcases insert_cases h with ⟨-, -, hin⟩ | ⟨-, parent', -, hparent', hheight, hguard, -⟩
  · exact absurd hin hnew
  cases hparent.symm.trans hparent'
  have hreach : Reaches t.ParentOf block.header.prevHash t.finalizedHash := by
    rcases hguard with hz | heq | hd
    · obtain ⟨f, hf, hfh⟩ := hs.finalized
      rw [hs.root hf (hfh.trans hz)]
      exact hs.toLinked.reaches_genesis hp
    · rw [heq]
      exact Relation.ReflTransGen.refl
    · exact (isDescendantOf_iff hs.toLinked hp).mp hd
  have hself : t'.get block.hash = some block := by rw [hget, if_pos rfl]
  exact Relation.ReflTransGen.head ⟨block, hself, by omega, rfl⟩
    ((insert_grows h).reaches hreach)

theorem Carried.mono (h : Carried genesis log t) (e : Block × Nat) :
    Carried genesis (log ++ [e]) t where
  toSound := h.toSound
  weights := by
    intro hash b hb hpos
    obtain ⟨stake, hmem, hweight⟩ := h.weights hb hpos
    exact ⟨stake, List.mem_append_left _ hmem, hweight⟩
  heaviest := h.heaviest
  above := h.above
  bounded := by
    intro hash
    have := h.bounded hash
    rw [List.map_append, List.sum_append]
    exact Nat.le_add_right_of_le this

/-- A new block: the sum of the stakes bounds its weight, so the addition does not wrap. -/
theorem Carried.insert_new (h : Carried genesis log t) {switched : Bool}
    (hok : t.insert block stake = .ok (t', switched)) (hnew : block.hash ∉ t.entries)
    (hbound : ((log ++ [(block, stake)]).map Prod.snd).sum < U64.modulus) :
    Carried genesis (log ++ [(block, stake)]) t' := by
  have hs := h.toSound
  have hgrows := insert_grows hok
  have hfinal := insert_finalized hok
  obtain ⟨parent, hparent, hget, hweights, htip⟩ := BlockTree.insert_new hs hok hnew
  have hp : t.get block.header.prevHash = some parent.block := by rw [get, hparent]; rfl
  have hsum : ((log ++ [(block, stake)]).map Prod.snd).sum = (log.map Prod.snd).sum + stake := by
    simp
  rw [hsum] at hbound
  have hparentBound := h.bounded block.header.prevHash
  have hadd : U64.wrapAdd (t.weightOf block.header.prevHash) stake =
      t.weightOf block.header.prevHash + stake :=
    Nat.mod_eq_of_lt (by omega)
  rw [hadd] at hweights htip
  obtain ⟨tip, htipGet⟩ := hs.tip
  have hold : ∀ {x b}, t.get x = some b → t'.weightOf x = t.weightOf x := by
    intro x b hb
    rw [hweights, if_neg (ne_of_get hb hnew)]
  refine { toSound := hs.insert hok, weights := ?_, heaviest := ?_, above := ?_, bounded := ?_ }
  · intro x b hb hpos
    rw [hget] at hb
    split at hb
    · next hx =>
      cases hb
      refine ⟨stake, by simp, ?_⟩
      rw [hold hp, hweights, if_pos hx]
    · obtain ⟨stake', hmem, hweight⟩ := h.weights hb hpos
      obtain ⟨p, hpget, -⟩ := hs.parent hb hpos
      rw [hold hb, hold hpget]
      exact ⟨stake', List.mem_append_left _ hmem, hweight⟩
  · intro x
    have hx := h.heaviest x
    rw [htip]
    split
    · next hheavier =>
      rw [hweights block.hash, if_pos rfl, hweights]
      split
      · exact Nat.le_refl _
      · exact hx.trans (Nat.le_of_lt hheavier)
    · next hlighter =>
      rw [hold htipGet, hweights]
      split
      · exact Nat.le_of_not_lt hlighter
      · exact hx
  · intro x b hb habove
    rw [hfinal.1]
    rw [hfinal.2] at habove
    rw [hget] at hb
    split at hb
    · next hx =>
      rw [← hx]
      exact hs.reaches_of_insert hok hnew
    · exact hgrows.reaches (h.above hb habove)
  · intro x
    rw [hsum, hweights]
    split
    · omega
    · exact Nat.le_add_right_of_le (h.bounded x)

theorem Carried.inserted (h : Carried genesis log t)
    (hbound : ((log ++ [(block, stake)]).map Prod.snd).sum < U64.modulus) :
    Carried genesis (log ++ [(block, stake)]) (t.inserted block stake) := by
  unfold BlockTree.inserted
  cases hok : t.insert block stake with
  | error e => exact h.mono _
  | ok res =>
    obtain ⟨t', switched⟩ := res
    dsimp only
    rcases insert_cases hok with ⟨rfl, -, -⟩ | ⟨hnew, -⟩
    · exact h.mono _
    · exact h.insert_new hok hnew hbound

/-- Finality takes branches, and leaves the rest as it was. -/
theorem Carried.setFinalized (h : Carried genesis log t) {b : Block} (hb : b ∈ t.canonicalChain) :
    Carried genesis log (t.setFinalized b.hash b.header.height) := by
  have hs := h.toSound
  have hl := hs.toLinked
  obtain ⟨-, hcanon, hget⟩ := (mem_canonicalChain_iff hl).mp hb
  by_cases hzero : b.header.height = 0
  · -- the genesis: nothing is pruned, and everything stands on it
    have hopen : t.setFinalized b.hash b.header.height =
        { t with finalizedHash := b.hash, finalizedHeight := b.header.height } := by
      rw [BlockTree.setFinalized, pruneBelowFinalized, if_pos hzero]
    rw [hopen]
    refine
      { hash := hl.hash, root := hl.root, genesis := hl.genesis, parent := hl.parent
        tip := hs.tip, finalized := ⟨b, hget, rfl⟩, final := hcanon
        weights := h.weights, heaviest := h.heaviest, above := ?_, bounded := h.bounded }
    intro x c hc _
    rw [show ({ t with finalizedHash := b.hash, finalizedHeight := b.header.height } :
      BlockTree).finalizedHash = b.hash from rfl, hl.root hget hzero]
    exact hl.reaches_genesis hc
  have hpos := Nat.pos_of_ne_zero hzero
  have hkept := fun x c => @get_setFinalized_iff t genesis hl b.hash x b.header.height b c hget hpos
  obtain ⟨hfh, hfheight, htip⟩ := @setFinalized_fields t b.hash b.header.height
  have hs' := hs.setFinalized hget rfl hpos hcanon
  refine { toSound := hs', weights := ?_, heaviest := ?_, above := ?_, bounded := ?_ }
  · intro x c hc hcpos
    obtain ⟨p, hp, -⟩ := hs'.parent hc hcpos
    rw [weightOf_of_kept hpos hc, weightOf_of_kept hpos hp]
    exact h.weights ((hkept x c).mp hc).1 hcpos
  · intro x
    obtain ⟨tip, htip'⟩ := hs'.tip
    rw [weightOf_of_kept hpos htip', htip]
    exact (weightOf_setFinalized_le hpos).trans (h.heaviest x)
  · intro x c hc habove
    rw [hfheight] at habove
    obtain ⟨hc, hline⟩ := (hkept x c).mp hc
    -- of two blocks on one line the higher stands on the lower
    have hreach : Reaches t.ParentOf x b.hash := by
      rcases hline with hr | hr
      · exact hr
      · have hle := hr.rank_le hl.ranked
        rw [heightOf_eq hc, heightOf_eq hget] at hle
        exact absurd habove (Nat.not_lt.mpr hle)
    rw [hfh]
    exact (reaches_setFinalized hl hget hpos hline hreach).1
  · intro x
    exact (weightOf_setFinalized_le hpos).trans (h.bounded x)

/-- **The invariant holds after every run whose stakes fit in a word.** -/
theorem TreeRun.carried (hrun : TreeRun genesis log t) (hheight : genesis.header.height = 0)
    (hbound : (log.map Prod.snd).sum < U64.modulus) : Carried genesis log t := by
  induction hrun with
  | start => exact carried_fromGenesis hheight
  | insert block stake _ ih =>
    refine (ih ?_).inserted hbound
    rw [List.map_append, List.sum_append] at hbound
    omega
  | finalize _ hb ih => exact (ih hbound).setFinalized hb

/-! ## What the queries see -/

theorem heights_canonicalChain (hs : t.Sound genesis) :
    t.canonicalChain.map (fun b => b.header.height) = List.range t.canonicalChain.length := by
  have hl := hs.toLinked
  obtain ⟨tip, htip⟩ := hs.tip
  refine List.ext_getElem? fun k => ?_
  rw [List.getElem?_map]
  cases hk : t.canonicalChain[k]? with
  | none => rw [Option.map_none, List.getElem?_eq_none (by simpa using hk)]
  | some b =>
    have hlt : k < t.canonicalChain.length := (List.getElem?_eq_some_iff.mp hk).1
    have hheight := height_of_linked (n := 0) (by
      intro b hb
      rw [head?_canonicalChain hl htip] at hb
      cases hb
      exact hl.genesis.2) (linked_canonicalChain hl) hk
    rw [List.getElem?_range hlt, Option.map_some, hheight, Nat.zero_add]

theorem Carried.consistent (h : Carried genesis log t) : Consistent genesis log t := by
  have hs := h.toSound
  have hl := hs.toLinked
  obtain ⟨tip, htip⟩ := hs.tip
  refine
    { hash := fun x b hb => hl.hash hb, parent := ?_, tip := hs.tip, heaviest := h.heaviest
      finalized := hs.finalized, final := (isDescendantOf_iff hl htip).mpr hs.final
      above := fun x b hb habove => (isDescendantOf_iff hl hb).mpr (h.above hb habove)
      terminates := fun x b fuel hb hfuel => lineageFrom_eq_lineage hl hb hfuel
      first := head?_canonicalChain hl htip, last := ?_
      heights := heights_canonicalChain hs
      linked := (linked_canonicalChain hl).imp fun _ _ hlink => hlink.1
      common := ?_ }
  · intro x b hb hne
    have hpos := hl.height_pos hb hne
    obtain ⟨p, hp, hheight⟩ := hl.parent hb hpos
    obtain ⟨stake, hmem, hweight⟩ := h.weights hb hpos
    exact ⟨p, stake, hp, hheight, hmem, hweight⟩
  · rw [htip]
    exact getLast?_canonicalChain htip
  · intro a b ha hb
    obtain ⟨x, hx⟩ := Option.isSome_iff_exists.mp ha
    obtain ⟨y, hy⟩ := Option.isSome_iff_exists.mp hb
    obtain ⟨k, hk, hak, hbk, hdeepest⟩ := commonAncestor_spec hl hx hy
    obtain ⟨z, hz⟩ := hl.mem_of_reaches hx hak
    refine ⟨k, hk, (isDescendantOf_iff hl hx).mpr hak, (isDescendantOf_iff hl hy).mpr hbk, ?_⟩
    intro d had hbd
    have hkd := hdeepest d ((isDescendantOf_iff hl hx).mp had) ((isDescendantOf_iff hl hy).mp hbd)
    exact ⟨(isDescendantOf_iff hl hz).mpr hkd, hkd.rank_le hl.ranked⟩

end BlockTree

open BlockTree in
/-- After any run of insertions and finalizations, with stakes that fit in a word altogether, the
queries of the tree agree with each other. -/
theorem tree_runs_consistent {genesis : Block} {log : List (Block × Nat)} {t : BlockTree}
    (hheight : genesis.header.height = 0) (hrun : TreeRun genesis log t)
    (hbound : (log.map Prod.snd).sum < U64.modulus) : Consistent genesis log t :=
  (hrun.carried hheight hbound).consistent

namespace TreeRunSample

/-- A place in the tree and nothing else. -/
def block (name height : Nat) (prevHash : Bytes) : Block where
  header := { version := 1, height, timestamp := 0, prevHash, merkleRoot := [], stateRoot := []
              gasUsed := 0, baseFeePerGas := 0, validatorPublicKey := [], nonce := 0 }
  transactions := []
  hash := [UInt8.ofNat name]
  signature := none

def genesis : Block := block 0 0 []

/-- Two rivals, a block on the first of them, and one whose parent nobody has. -/
def log : List (Block × Nat) :=
  [(block 1 1 [0], 5), (block 2 1 [0], 4), (block 3 2 [1], 2), (block 4 7 [9], 1)]

/-- The tree of `log`, with the first block finalized at the end. -/
def tree : BlockTree :=
  (log.foldl (fun t e => t.inserted e.1 e.2) (BlockTree.fromGenesis genesis)).setFinalized [1] 1

end TreeRunSample

open TreeRunSample BlockTree in
/-- Finality takes the rival; the orphan never came in. -/
theorem tree_runs_consistent_sample : Consistent genesis log tree ∧
    tree.canonicalChain = [genesis, block 1 1 [0], block 3 2 [1]] ∧
    tree.get [2] = none ∧ tree.get [4] = none := by
  have hrun := ((((@TreeRun.start genesis).insert (block 1 1 [0]) 5).insert
    (block 2 1 [0]) 4).insert (block 3 2 [1]) 2).insert (block 4 7 [9]) 1
  have hchain : block 1 1 [0] ∈
      (log.foldl (fun t e => t.inserted e.1 e.2) (BlockTree.fromGenesis genesis)).canonicalChain := by
    decide +kernel
  refine ⟨tree_runs_consistent (by decide)
    (hrun.finalize hchain) (by decide), ?_⟩
  decide +kernel

end Curs3d
