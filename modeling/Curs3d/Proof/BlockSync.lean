import Curs3d.Lib.Replica
import Curs3d.Network.BlockSync
import Curs3d.Proof.Pool
import Curs3d.Proof.RoundTrip
import Curs3d.Proof.Wire

/-!
# Nodes that copy one chain

The blocks of the nodes are copies of the leader's in the sense of `Lib/Replica.lean`, and the responses are slices of it:
a handler either leaves blocks and responses alone or does one step of that system. What is left to see here is
that a batch of blocks, read back from bytes and run through `add_block`, takes from the slice what comes
next (`SyncBatch.run_extends`), and that on a clock that is not behind it takes all of it
(`SyncBatch.run_all`), because the state of a chain is determined by its blocks (`SameReplica`).
-/

set_option autoImplicit false

namespace Curs3d

open Outcome U64 Replica

/-! ## Serving -/

/-- Reading a list at a range of indexes gives that part of it. -/
theorem filterMap_getElem?_range' {α : Type} (l : List α) (start n : Nat) :
    (List.range' start n).filterMap (fun k => l[k]?) = (l.drop start).take n := by
  induction n generalizing start with
  | zero => rw [List.range'_zero, List.take_zero]; rfl
  | succ n ih =>
    rw [List.range'_succ]
    cases hk : l[start]? with
    | none =>
      rw [List.filterMap_cons_none hk, ih]
      have hlen := List.getElem?_eq_none_iff.mp hk
      rw [List.drop_eq_nil_of_le hlen, List.drop_eq_nil_of_le (by omega), List.take_nil,
        List.take_nil]
    | some a =>
      obtain ⟨hlt, ha⟩ := List.getElem?_eq_some_iff.mp hk
      rw [List.filterMap_cons_some hk, ih, List.drop_eq_getElem_cons hlt, List.take_succ_cons, ha]

namespace Blockchain

variable {P : Primitives} {c d : Blockchain} {now later : Int} {block : Block}

theorem length_blocks (hst : c.Straight) : c.blocks.length = c.height + 1 := by
  have hpos := hst.length_pos
  unfold height blockCount
  omega

/-- A request is answered with a slice of the chain. -/
theorem requestedBlocks_eq (hst : c.Straight) {fromHeight : Nat} (hle : fromHeight ≤ c.height) :
    c.requestedBlocks fromHeight =
      ((c.blocks.drop fromHeight).take SYNC_BATCH_SIZE).map Bincode.block := by
  have hread : (fun h => (c.blockAtHeight h).map Bincode.block) =
      fun h => (c.blocks[h]?).map Bincode.block := by
    funext h
    rw [hst.blockAtHeight]
  unfold requestedBlocks
  dsimp only
  rw [hread, ← List.map_filterMap, filterMap_getElem?_range']
  congr 1
  rw [List.take_eq_take_iff, List.length_drop, length_blocks hst]
  unfold SYNC_BATCH_SIZE
  omega

/-- A request made of a common prefix finds no fork. -/
theorem not_forked (hst : c.Straight) {request : BlockRequest} {b : Block}
    (hb : c.blocks[request.fromHeight - 1]? = some b) (hhash : b.hash = request.expectedPrevHash) :
    c.forked request = false := by
  unfold forked
  rw [hst.blockAtHeight, hb]
  simp [hhash]

end Blockchain

/-! ## The state of a chain is that of its blocks -/

namespace Blockchain

variable {P : Primitives} {c d e : Blockchain} {now later : Int} {block : Block} {s : ExecState}

/-- The same blocks and the same state. Pools, trees, votes and lookup indexes may differ. -/
structure SameReplica (d c : Blockchain) : Prop where
  genesis : d.genesis = c.genesis
  blocks : d.blocks = c.blocks
  base : d.baseHeight = c.baseHeight
  config : d.genesisConfig = c.genesisConfig
  slashed : d.slashedValidators = c.slashedValidators
  snapshots : d.epochSnapshots = c.epochSnapshots
  missed : d.validatorMissedEpochs = c.validatorMissedEpochs
  state : d.execState = c.execState

namespace SameReplica

theorem refl (c : Blockchain) : SameReplica c c := ⟨rfl, rfl, rfl, rfl, rfl, rfl, rfl, rfl⟩

theorem symm (h : SameReplica d c) : SameReplica c d :=
  ⟨h.genesis.symm, h.blocks.symm, h.base.symm, h.config.symm, h.slashed.symm, h.snapshots.symm,
    h.missed.symm, h.state.symm⟩

theorem trans (h : SameReplica e d) (h' : SameReplica d c) : SameReplica e c :=
  ⟨h.genesis.trans h'.genesis, h.blocks.trans h'.blocks, h.base.trans h'.base,
    h.config.trans h'.config, h.slashed.trans h'.slashed, h.snapshots.trans h'.snapshots,
    h.missed.trans h'.missed, h.state.trans h'.state⟩

theorem read (h : SameReplica d c) : d.blockAtHeight = c.blockAtHeight := by
  funext k
  unfold blockAtHeight
  rw [h.genesis, h.blocks, h.base]

theorem height (h : SameReplica d c) : d.height = c.height := by
  unfold Blockchain.height blockCount
  rw [h.blocks]

theorem accounts (h : SameReplica d c) : d.accounts = c.accounts := congrArg ExecState.accounts h.state

theorem straight (h : SameReplica d c) (hst : c.Straight) : d.Straight where
  base := h.base ▸ hst.base
  head := by rw [h.blocks, h.genesis, hst.head]
  heights := fun hb => hst.heights (by rw [← h.blocks]; exact hb)

theorem ensureEpochSnapshot (h : SameReplica d c) (height : Nat) :
    (d.ensureEpochSnapshot height).epochSnapshots = (c.ensureEpochSnapshot height).epochSnapshots := by
  unfold Blockchain.ensureEpochSnapshot createEpochSnapshotFromAccounts snapshotForAccounts
    epochForHeight
  rw [h.config, h.slashed, h.snapshots, h.accounts]
  split
  · rfl
  · exact h.snapshots

theorem settledAt (h : SameReplica d c) (height : Nat) : d.settledAt P height = c.settledAt P height := by
  unfold Blockchain.settledAt
  rw [h.config, h.snapshots, h.accounts, h.missed, proposers_congr h.config fun k _ => congrFun h.read k]

/-- **What one replica accepts, the other accepts** at any later reading of the clock, with the same state. -/
theorem accepted (h : SameReplica d c) (ha : Accepted P c now block s) (hle : now ≤ later) :
    Accepted P d later block s := by
  have hlatest : d.latestBlock = c.latestBlock := by
    unfold latestBlock
    rw [h.read, h.height, h.genesis]
  have hvalid : (d.prepareEpoch P block.header.height).validateBlockAgainstState P later block
      d.latestBlock { d.execState with accounts := (d.settledAt P block.header.height).1 } = .ok s := by
    refine validate_later hle ?_
    rw [← ha.valid, hlatest, h.state, h.settledAt]
    apply validate_congr
    · rw [prepareEpoch_genesisConfig, prepareEpoch_genesisConfig, h.config]
    · rw [prepareEpoch_eq, prepareEpoch_eq]
      exact h.slashed
    · rw [prepareEpoch_eq, prepareEpoch_eq]
      exact congrArg (fun m : HeightMap EpochSnapshot => m[_]?) (h.ensureEpochSnapshot _)
  obtain ⟨s', hs'⟩ := accepted_of_addBlock (addBlock_ok_iff.mpr ⟨s, hvalid⟩)
  cases hs'.valid.symm.trans hvalid
  exact hs'

/-- **Replicas stay replicas** over a block that one of them accepted before. -/
theorem addBlock (h : SameReplica d c) (hst : c.Straight) (hok : (c.addBlock P now block).1 = .ok ())
    (hle : now ≤ later) : (d.addBlock P later block).1 = .ok () ∧
      SameReplica (d.addBlock P later block).2 (c.addBlock P now block).2 := by
  obtain ⟨s, hc⟩ := accepted_of_addBlock hok
  have hd := h.accepted hc hle
  have hdok : (d.addBlock P later block).1 = .ok () := by rw [hd.result]
  obtain ⟨-, hblocks, hgenesis, -, -⟩ := hst.addBlock hok
  obtain ⟨-, hblocks', hgenesis', -, -⟩ := (h.straight hst).addBlock hdok
  obtain ⟨-, _, hspine⟩ := addBlock_ok_spine hok
  obtain ⟨-, _, hspine'⟩ := addBlock_ok_spine hdok
  have hreceipts : d.receipts = c.receipts := congrArg ExecState.receipts h.state
  refine ⟨hdok, ?_⟩
  exact
    { genesis := by rw [hgenesis', hgenesis, h.genesis]
      blocks := by rw [hblocks', hblocks, h.blocks]
      base := (congrArg Spine.baseHeight hspine').trans
        (h.base.trans (congrArg Spine.baseHeight hspine).symm)
      config := by rw [hd.config, hc.config, h.config]
      slashed := by rw [hd.slashed, hc.slashed, h.slashed]
      snapshots := by rw [hd.snapshots, hc.snapshots, h.ensureEpochSnapshot]
      missed := by rw [hd.missed, hc.missed, h.settledAt]
      state := by rw [hd.execState, hc.execState, hreceipts] }

end SameReplica

end Blockchain

/-! ## Copies of a history -/

namespace Blockchain

variable {P : Primitives} {c₀ c d : Blockchain} {calls : List (Int × Block)} {now t : Int}
  {block : Block} {k : Nat}

/-- `c₀` after the first `k` blocks of a history. -/
def upTo (P : Primitives) (c₀ : Blockchain) (calls : List (Int × Block)) (k : Nat) : Blockchain :=
  offer P c₀ (calls.take k)

/-- A history that starts at a genesis. -/
structure History (P : Primitives) (c₀ : Blockchain) (calls : List (Int × Block)) : Prop where
  straight : c₀.Straight
  height : c₀.height = 0
  accepts : c₀.Accepts P calls

theorem accepts_take (h : c₀.Accepts P calls) (k : Nat) : c₀.Accepts P (calls.take k) := by
  rw [← List.take_append_drop k calls] at h
  exact (accepts_append.mp h).1

/-- The next block of a history. -/
theorem accepts_getElem? (h : c₀.Accepts P calls) (hk : calls[k]? = some (t, block)) :
    ((upTo P c₀ calls k).addBlock P t block).1 = .ok () ∧
      upTo P c₀ calls (k + 1) = ((upTo P c₀ calls k).addBlock P t block).2 := by
  have htake : calls.take (k + 1) = calls.take k ++ [(t, block)] := by
    rw [List.take_add_one, hk]
    rfl
  have hcopy := accepts_take h (k + 1)
  rw [htake, accepts_append] at hcopy
  refine ⟨hcopy.2.1, ?_⟩
  unfold upTo
  rw [htake, offer_append]
  rfl

namespace History

theorem straight_upTo (h : History P c₀ calls) (k : Nat) : (upTo P c₀ calls k).Straight ∧
    (upTo P c₀ calls k).blocks = c₀.blocks ++ (calls.take k).map Prod.snd :=
  h.straight.offer (accepts_take h.accepts k)

theorem height_upTo (h : History P c₀ calls) (hk : k ≤ calls.length) :
    (upTo P c₀ calls k).height = k := by
  obtain ⟨hst, hblocks⟩ := h.straight_upTo k
  have hlen := length_blocks hst
  have hlen₀ := length_blocks h.straight
  rw [hblocks, List.length_append, List.length_map, List.length_take, hlen₀, h.height] at hlen
  omega

/-- One more block. -/
theorem concat (h : History P c₀ calls) (hok : ((offer P c₀ calls).addBlock P t block).1 = .ok ()) :
    History P c₀ (calls ++ [(t, block)]) :=
  ⟨h.straight, h.height, accepts_append.mpr ⟨h.accepts, hok, trivial⟩⟩

end History

/-- `c` is what the history was at the height of `c`. -/
structure Copies (P : Primitives) (c₀ : Blockchain) (calls : List (Int × Block)) (c : Blockchain) :
    Prop where
  height : c.height ≤ calls.length
  replica : SameReplica c (upTo P c₀ calls c.height)

namespace Copies

/-- Copies of one height are replicas of each other. -/
theorem same (hc : Copies P c₀ calls c) (hd : Copies P c₀ calls d) (heq : c.height = d.height) :
    SameReplica c d := by
  have hreplica := hc.replica
  rw [heq] at hreplica
  exact hreplica.trans hd.replica.symm

theorem mono (hc : Copies P c₀ calls c) (more : List (Int × Block)) :
    Copies P c₀ (calls ++ more) c := by
  refine ⟨hc.height.trans (by rw [List.length_append]; exact Nat.le_add_right _ _), ?_⟩
  unfold upTo
  rw [List.take_append_of_le_length hc.height]
  exact hc.replica

theorem of_replica (hc : Copies P c₀ calls c) (h : SameReplica d c) : Copies P c₀ calls d := by
  have hheight := h.height
  refine ⟨hheight ▸ hc.height, ?_⟩
  rw [hheight]
  exact h.trans hc.replica

/-- **A copy takes over the next block of the history** on a clock that is not behind. -/
theorem addBlock (hc : Copies P c₀ calls c) (h : History P c₀ calls)
    (hk : calls[c.height]? = some (t, block)) (hle : t ≤ now) :
    (c.addBlock P now block).1 = .ok () ∧ (c.addBlock P now block).2.height = c.height + 1 ∧
      Copies P c₀ calls (c.addBlock P now block).2 := by
  obtain ⟨hok, hnext⟩ := accepts_getElem? h.accepts hk
  have hlt := (List.getElem?_eq_some_iff.mp hk).1
  obtain ⟨hadd, hsame⟩ := hc.replica.addBlock (h.straight_upTo _).1 hok hle
  rw [← hnext] at hsame
  have hheight : (c.addBlock P now block).2.height = c.height + 1 := by
    rw [hsame.height, h.height_upTo hlt]
  exact ⟨hadd, hheight, ⟨by omega, by rw [hheight]; exact hsame⟩⟩

end Copies

end Blockchain

/-! ## Taking over -/

namespace SyncBatch

open Blockchain

variable {P : Primitives} {now : Int} {items : List Block} {n : Nat} {batch : SyncBatch}

/-- What becomes of a chain that is offered the slice `s`. -/
structure Extends (s : Slice Block) (c c' : Blockchain) : Prop where
  straight : c'.Straight
  genesis : c'.genesis = c.genesis
  keep : c'.pruneKeepBlocks = c.pruneKeepBlocks
  keeps : c.blocks <+: c'.blocks
  takes : c'.blocks <+: s.extend c.blocks

namespace Extends

variable {s : Slice Block} {c c' d : Blockchain} {b : Block} {rest : List Block}

/-- Nothing is taken. -/
theorem of_spine (hst : c.Straight) (hspine : c'.spine = c.spine) : Extends s c c' where
  straight := hst.of_spine hspine
  genesis := congrArg Spine.genesis hspine
  keep := congrArg Spine.pruneKeepBlocks hspine
  keeps := by
    rw [show c'.blocks = c.blocks from congrArg Spine.blocks hspine]
  takes := by
    rw [show c'.blocks = c.blocks from congrArg Spine.blocks hspine]
    exact List.prefix_append _ _

/-- The first block of the slice is there already. -/
theorem skip (hst : c.Straight) (hknown : n ≤ c.height) (h : Extends ⟨n + 1, rest⟩ c c') :
    Extends ⟨n, b :: rest⟩ c c' := by
  have hlen := length_blocks hst
  have hsame : (Slice.mk n (b :: rest)).extend c.blocks = (Slice.mk (n + 1) rest).extend c.blocks := by
    have hskip : c.blocks.length - n = c.blocks.length - (n + 1) + 1 := by omega
    unfold Slice.extend
    dsimp only
    rw [hskip, List.drop_succ_cons]
  exact ⟨h.straight, h.genesis, h.keep, h.keeps, hsame ▸ h.takes⟩

/-- The first block of the slice is added. -/
theorem next (hst : c.Straight) (hnext : n = c.height + 1) (hadd : c.addBlock P now b = (.ok (), d))
    (h : Extends ⟨n + 1, rest⟩ d c') : Extends ⟨n, b :: rest⟩ c c' := by
  have hok : (c.addBlock P now b).1 = .ok () := by rw [hadd]
  have hlen := length_blocks hst
  obtain ⟨-, hblocks, hgenesis, -, -⟩ := hst.addBlock hok
  obtain ⟨-, _, hspine⟩ := addBlock_ok_spine hok
  have hkeep : (c.addBlock P now b).2.pruneKeepBlocks = c.pruneKeepBlocks :=
    congrArg Spine.pruneKeepBlocks hspine
  rw [hadd] at hblocks hgenesis hkeep
  have hsame : (Slice.mk n (b :: rest)).extend c.blocks = (Slice.mk (n + 1) rest).extend d.blocks := by
    unfold Slice.extend
    dsimp only
    rw [hblocks, List.length_append, List.length_singleton, hlen, hnext, Nat.sub_self, Nat.sub_self,
      List.drop_zero, List.drop_zero, List.append_assoc]
    rfl
  refine ⟨h.straight, h.genesis.trans hgenesis, h.keep.trans hkeep, ?_, hsame ▸ h.takes⟩
  exact (hblocks ▸ List.prefix_append _ _ : c.blocks <+: d.blocks).trans h.keeps

end Extends

/-- Blocks that follow one another from height `n` on. -/
def Numbered (n : Nat) (items : List Block) : Prop :=
  ∀ k b, items[k]? = some b → b.header.height = n + k

theorem Numbered.tail {b : Block} (h : Numbered n (b :: items)) : Numbered (n + 1) items := by
  intro k b' hb
  have hnext := h (k + 1) b' (by simpa using hb)
  omega

theorem run_cons {b : Block} {rest : List Bytes} (hb : b.WellTyped) :
    run P now (Bincode.block b :: rest) batch =
      if MAX_DESERIALIZE_SIZE < (Bincode.block b).length then batch
      else if b.header.height ≤ batch.chain.height then
        run P now rest { batch with skipped := batch.skipped + 1 }
      else if b.header.height ≠ batch.chain.height + 1 then batch
      else
        match batch.chain.addBlock P now b with
        | (.error _, c) => { batch with chain := c }
        | (.ok (), c) => run P now rest { batch with chain := c, accepted := batch.accepted + 1 } := by
  rw [run, boundedDeserialize_eq Decode.decodes_block hb]
  by_cases hsize : MAX_DESERIALIZE_SIZE < (Bincode.block b).length
  · simp only [if_pos hsize]
  · simp only [if_neg hsize]
    all_goals rfl

/-- **A batch takes a part of the slice it carries.** -/
theorem run_extends (hst : batch.chain.Straight) (htyped : ∀ b ∈ items, b.WellTyped)
    (hnumbered : Numbered n items) (hstart : n ≤ batch.chain.height + 1) :
    Extends ⟨n, items⟩ batch.chain (run P now (items.map Bincode.block) batch).chain := by
  induction items generalizing n batch with
  | nil => exact Extends.of_spine hst rfl
  | cons b rest ih =>
    have hheight : b.header.height = n := hnumbered 0 b rfl
    have htail : ∀ x ∈ rest, x.WellTyped := fun x hx => htyped x (List.mem_cons_of_mem _ hx)
    rw [List.map_cons, run_cons (htyped b List.mem_cons_self), hheight]
    split
    · exact Extends.of_spine hst rfl
    split
    · next hknown =>
      exact (@ih (n + 1) { batch with skipped := batch.skipped + 1 } hst htail hnumbered.tail
        (Nat.succ_le_succ hknown)).skip hst hknown
    · next hnew =>
      have hnext : n = batch.chain.height + 1 := by omega
      rw [if_neg (by omega)]
      rcases hadd : batch.chain.addBlock P now b with ⟨e | u, c⟩
      · have hspine := addBlock_error_spine (show (batch.chain.addBlock P now b).1 = .error e by rw [hadd])
        rw [hadd] at hspine
        exact Extends.of_spine hst hspine
      · have hgrown := hst.addBlock (show (batch.chain.addBlock P now b).1 = .ok () by rw [hadd])
        rw [hadd] at hgrown
        obtain ⟨hst', -, -, hheight', -⟩ := hgrown
        exact (@ih (n + 1) { batch with chain := c, accepted := batch.accepted + 1 } hst' htail
          hnumbered.tail (by dsimp only at hheight' ⊢; omega)).next hst hnext hadd

/-- **A batch of a history is taken over** by a copy of it, on a clock that is not behind. Unless a block is too
large to be read, each was there or is added. -/
theorem run_all {c₀ : Blockchain} {calls : List (Int × Block)} (h : History P c₀ calls)
    (hc : Copies P c₀ calls batch.chain) (htyped : ∀ b ∈ items, b.WellTyped)
    (hslice : items <+: (calls.map Prod.snd).drop n) (hnumbered : Numbered (n + 1) items)
    (hstart : n ≤ batch.chain.height) (hclock : ∀ call ∈ calls, call.1 ≤ now) :
    let result := run P now (items.map Bincode.block) batch
    Copies P c₀ calls result.chain ∧
      ((∀ b ∈ items, (Bincode.block b).length ≤ MAX_DESERIALIZE_SIZE) →
        result.chain.height = max batch.chain.height (n + items.length) ∧
        result.accepted + result.skipped = batch.accepted + batch.skipped + items.length) := by
  induction items generalizing n batch with
  | nil =>
    refine ⟨hc, fun _ => ⟨?_, rfl⟩⟩
    rw [List.length_nil, Nat.add_zero, max_eq_left hstart]
    rfl
  | cons b rest ih =>
    have hheight : b.header.height = n + 1 := hnumbered 0 b rfl
    obtain ⟨call, hcall, hb⟩ : ∃ call, calls[n]? = some call ∧ call.2 = b := by
      obtain ⟨after, hafter⟩ := hslice
      have hread : ((calls.map Prod.snd).drop n)[0]? = some b := by rw [← hafter]; rfl
      rw [List.getElem?_drop, List.getElem?_map] at hread
      exact Option.map_eq_some_iff.mp hread
    have htail : rest <+: (calls.map Prod.snd).drop (n + 1) := by
      have hdrop := List.IsPrefix.drop hslice 1
      rwa [List.drop_drop] at hdrop
    have hrest := fun batch' hc' => @ih (n + 1) batch' hc'
      (fun x hx => htyped x (List.mem_cons_of_mem _ hx)) htail hnumbered.tail
    rw [List.map_cons, run_cons (htyped b List.mem_cons_self), hheight]
    dsimp only
    split
    · next hsize =>
      exact ⟨hc, fun hfits => absurd (hfits b List.mem_cons_self) (Nat.not_le.mpr hsize)⟩
    split
    · next hknown =>
      obtain ⟨hcopies, hall⟩ := hrest { batch with skipped := batch.skipped + 1 } hc hknown
      refine ⟨hcopies, fun hfits => ?_⟩
      obtain ⟨htop, hcount⟩ := hall fun x hx => hfits x (List.mem_cons_of_mem _ hx)
      rw [htop, hcount, List.length_cons]
      dsimp only
      omega
    · next hnew =>
      have htip : batch.chain.height = n := by omega
      have hat : calls[batch.chain.height]? = some (call.1, b) := by rw [htip, hcall, ← hb]
      obtain ⟨hok, hgrown, hcopies⟩ := hc.addBlock h hat (hclock call (List.mem_of_getElem? hcall))
      rw [if_neg (by omega)]
      rcases hadd : batch.chain.addBlock P now b with ⟨e | u, c⟩
      · rw [hadd] at hok
        exact absurd hok (by simp)
      · rw [hadd] at hgrown hcopies
        obtain ⟨hcopies', hall⟩ := hrest { batch with chain := c, accepted := batch.accepted + 1 }
          hcopies (by dsimp only at hgrown ⊢; omega)
        refine ⟨hcopies', fun hfits => ?_⟩
        obtain ⟨htop, hcount⟩ := hall fun x hx => hfits x (List.mem_cons_of_mem _ hx)
        rw [htop, hcount, List.length_cons]
        dsimp only at hgrown ⊢
        omega

end SyncBatch

end Curs3d
