import Curs3d.Network.Node
import Curs3d.Proof.Spine
import Curs3d.Proof.Tree
import Curs3d.Crypto.Reference

/-!
# The votes one validator signs

A node votes on a block right after its chain accepted it at the tip, so a vote is one higher
than the tip it was cast on. As long as the tip never falls below a height already voted at, the
votes climb strictly. Accepted blocks raise the tip; a reorganisation moves it to the block that
triggered it, wherever that is: the fork choice compares stake, not height.
-/

set_option autoImplicit false

namespace Curs3d

namespace Blockchain

variable {P : Primitives} {c : Blockchain}

/-- The last block of an unpruned cursor with at least one block. -/
structure Unpruned (c : Blockchain) : Prop where
  base : c.baseHeight = 0
  keep : c.pruneKeepBlocks = none
  nonempty : c.blocks ≠ []

theorem Unpruned.congr {c' : Blockchain} (hu : c.Unpruned) (h : c'.spine = c.spine) :
    c'.Unpruned where
  base := (congrArg Spine.baseHeight h).trans hu.base
  keep := (congrArg Spine.pruneKeepBlocks h).trans hu.keep
  nonempty := by rw [show c'.blocks = c.blocks from congrArg Spine.blocks h]; exact hu.nonempty

/-- An accepted block is the new tip, one above the old. -/
theorem Unpruned.addBlock (hu : c.Unpruned) {now : Int} {block : Block}
    (h : (c.addBlock P now block).1 = .ok ()) :
    (c.addBlock P now block).2.Unpruned ∧ (c.addBlock P now block).2.latestBlock = block ∧
      block.header.height = c.latestBlock.header.height + 1 := by
  obtain ⟨hfollows, stake, hspine⟩ := addBlock_ok_spine h
  have hblocks : (c.addBlock P now block).2.blocks = c.blocks ++ [block] :=
    congrArg Spine.blocks hspine
  have hbase : (c.addBlock P now block).2.baseHeight = 0 :=
    (congrArg Spine.baseHeight hspine).trans hu.base
  refine ⟨⟨hbase, (congrArg Spine.pruneKeepBlocks hspine).trans hu.keep, ?_⟩, ?_, hfollows.height⟩
  · rw [hblocks]
    simp
  · refine latestBlock_of_getLast hbase (by rw [hblocks]; simp) ?_
    intro hlen
    rw [hblocks, List.length_append, List.length_singleton] at hlen
    exact absurd (List.length_eq_zero_iff.mp (by omega)) hu.nonempty

/-- A vote moves tracker and tree, never an unpruned cursor. -/
theorem Unpruned.addFinalityVote (hu : c.Unpruned) (vote : FinalityVote) :
    (c.addFinalityVote P vote).2.Unpruned ∧
      (c.addFinalityVote P vote).2.latestBlock = c.latestBlock := by
  obtain ⟨tracker, tree, h⟩ := addFinalityVote_of_none (P := P) hu.keep vote
  rw [h]
  exact ⟨⟨hu.base, hu.keep, hu.nonempty⟩, rfl⟩

/-- After the fork path the tip is where it was, is the block, or is where a reorganisation to
the block put it: at the block. -/
theorem Unpruned.forkChoice (hu : c.Unpruned) (now : Int) (block : Block) :
    (c.addBlockWithForkChoice P now block).2.Unpruned ∧
      ((c.addBlockWithForkChoice P now block).2.latestBlock = c.latestBlock ∨
        ((c.addBlockWithForkChoice P now block).2.latestBlock = block ∧
          (c.latestBlock.header.height < block.header.height ∨
            ∃ tree, c.stageForkBlock P now block = .ok (tree, true)))) := by
  rcases addBlockWithForkChoice_cases P c now block with h | ⟨-, hok, h⟩ |
    ⟨tree, switched, -, -, hstage, h | ⟨rfl, -, h⟩⟩
  · exact ⟨hu.congr h, .inl (latestBlock_congr h)⟩
  · obtain ⟨hu', htip, hheight⟩ := hu.addBlock hok
    rw [h]
    exact ⟨hu', .inr ⟨htip, .inl (by omega)⟩⟩
  · have hbase := congrArg Spine.baseHeight h
    have hblocks := congrArg Spine.blocks h
    refine ⟨⟨hbase.trans hu.base, (congrArg Spine.pruneKeepBlocks h).trans hu.keep, ?_⟩,
      .inl (latestBlock_eq (congrArg Spine.genesis h) hblocks hbase)⟩
    rw [show (c.addBlockWithForkChoice P now block).2.blocks = c.blocks from hblocks]
    exact hu.nonempty
  · have hbase : (c.addBlockWithForkChoice P now block).2.baseHeight = 0 :=
      (congrArg Spine.baseHeight h).trans hu.base
    have hblocks : (c.addBlockWithForkChoice P now block).2.blocks = tree.canonicalChain :=
      congrArg Spine.blocks h
    have hgenesis : (c.addBlockWithForkChoice P now block).2.genesis =
        tree.canonicalChain.head?.getD c.genesis := congrArg Spine.genesis h
    obtain ⟨stake, hinsert⟩ := insert_of_stage hstage
    obtain ⟨htip, hget⟩ := BlockTree.canonicalTip_of_switched hinsert
    have hlast : tree.canonicalChain.getLast? = some block :=
      BlockTree.getLast?_canonicalChain (by rw [htip]; exact hget)
    refine ⟨⟨hbase, (congrArg Spine.pruneKeepBlocks h).trans hu.keep, ?_⟩, .inr ⟨?_, .inr
      ⟨tree, hstage⟩⟩⟩
    · rw [hblocks]
      intro hnil
      rw [hnil] at hlast
      exact absurd hlast (by simp)
    · refine latestBlock_of_getLast hbase (by rw [hblocks]; exact hlast) ?_
      intro hlen
      rw [hblocks, hgenesis]
      rw [hblocks] at hlen
      obtain ⟨x, hx⟩ := List.length_eq_one_iff.mp hlen
      rw [hx]
      rfl

end Blockchain

/-! ## One node -/

namespace Node

variable {P : Primitives} {n : Node}

/-- What a tick can do: nothing, or offer the block it built to the chain and vote for it when the
chain takes it. -/
theorem produce_cases (P : Primitives) (n : Node) (now : Int) (connectedPeers : Nat) :
    n.produce P now connectedPeers = (n, none) ∨
    ∃ keypair block, n.validatorKey = some keypair ∧
      ((∃ e, (n.chain.addBlock P now block).1 = .error e ∧ n.produce P now connectedPeers =
          ({ n with chain := (n.chain.addBlock P now block).2 }, none)) ∨
        ((n.chain.addBlock P now block).1 = .ok () ∧ n.produce P now connectedPeers =
          ({ n with chain := (n.chain.addBlock P now block).2 }.castVote P keypair block,
            some block))) := by
  unfold produce
  split
  · exact .inl rfl
  next keypair hkey =>
  split
  · exact .inl rfl
  split
  · exact .inl rfl
  next block _ =>
  refine .inr ⟨keypair, block, hkey, ?_⟩
  split
  · next e c h => exact .inl ⟨e, by rw [h], by rw [h]⟩
  · next c h => exact .inr ⟨by rw [h], by rw [h]⟩

theorem voteIfValidator_cases (P : Primitives) (n : Node) (block : Block) :
    n.voteIfValidator P block = n ∨ ∃ keypair, n.validatorKey = some keypair ∧
      n.voteIfValidator P block = n.castVote P keypair block := by
  unfold voteIfValidator
  split
  · next keypair hkey => exact .inr ⟨keypair, hkey, rfl⟩
  · exact .inl rfl

/-- What receiving a block can do: extend the tip and vote, go to the fork path, or nothing. -/
theorem handleNewBlock_cases (P : Primitives) (n : Node) (now : Int) (block : Block) :
    ((n.chain.addBlock P now block).1 = .ok () ∧ n.handleNewBlock P now block =
        { n with chain := (n.chain.addBlock P now block).2 }.voteIfValidator P block) ∨
    (∃ e, (n.chain.addBlock P now block).1 = .error e ∧
      (n.handleNewBlock P now block = { n with chain := (n.chain.addBlock P now block).2 } ∨
        n.handleNewBlock P now block =
          { n with chain := (n.chain.addBlock P now block).2 }.handleForkBlock P now block)) := by
  unfold handleNewBlock
  split
  · next c h => exact .inl ⟨by rw [h], by rw [h]⟩
  · next h => exact .inr ⟨_, by rw [h], .inr (by rw [h])⟩
  · next h => exact .inr ⟨_, by rw [h], .inr (by rw [h])⟩
  · next h => exact .inr ⟨_, by rw [h], .inl (by rw [h])⟩

/-- The votes so far climb strictly, and none is above the tip. -/
structure Climbs (n : Node) : Prop extends n.chain.Unpruned where
  below : ∀ v ∈ n.votes, v.blockHeight ≤ n.chain.latestBlock.header.height
  ascending : n.votes.Pairwise fun v w => v.blockHeight < w.blockHeight

/-- A node whose chain moved without lowering the tip under a vote. -/
theorem Climbs.move (hc : n.Climbs) {c : Blockchain} (hu : c.Unpruned)
    (hbelow : ∀ v ∈ n.votes, v.blockHeight ≤ c.latestBlock.header.height) :
    Climbs { n with chain := c } where
  toUnpruned := hu
  below := hbelow
  ascending := hc.ascending

/-- Accepting a block and voting for it keeps the votes climbing. -/
theorem Climbs.castVote (hc : n.Climbs) {now : Int} {block : Block} (keypair : KeyPair)
    (h : (n.chain.addBlock P now block).1 = .ok ()) :
    Climbs ({ n with chain := (n.chain.addBlock P now block).2 }.castVote P keypair block) := by
  obtain ⟨hu, htip, hheight⟩ := hc.toUnpruned.addBlock h
  obtain ⟨hu', htip'⟩ := hu.addFinalityVote (P := P) (FinalityVote.new P block.hash
    block.header.height ((n.chain.addBlock P now block).2.epochForHeight block.header.height)
    keypair)
  rw [htip] at htip'
  refine ⟨hu', ?_, ?_⟩
  · intro v hv
    show v.blockHeight ≤ (Blockchain.addFinalityVote P _ _).2.latestBlock.header.height
    rw [htip']
    rcases List.mem_append.mp hv with hv | hv
    · have := hc.below v hv
      omega
    · rw [List.mem_singleton] at hv
      subst hv
      exact le_rfl
  · refine List.pairwise_append.mpr ⟨hc.ascending, List.pairwise_singleton _ _, ?_⟩
    intro v hv w hw
    rw [List.mem_singleton] at hw
    subst hw
    have := hc.below v hv
    show v.blockHeight < block.header.height
    omega

/-- A reorganisation that this event triggers lands no lower than any vote of the node. -/
def KeepsVotedHeight (P : Primitives) (n : Node) : NodeEvent → Prop
  | .newBlock now block => (n.chain.addBlock P now block).1 ≠ .ok () →
      ∀ tree, (n.chain.addBlock P now block).2.stageForkBlock P now block = .ok (tree, true) →
        ∀ v ∈ n.votes, v.blockHeight ≤ block.header.height
  | _ => True

/-- A rejected block leaves the cursor alone. -/
theorem Climbs.rejected (hc : n.Climbs) {now : Int} {block : Block} {e : ChainError}
    (h : (n.chain.addBlock P now block).1 = .error e) :
    Climbs { n with chain := (n.chain.addBlock P now block).2 } := by
  have hspine := Blockchain.addBlock_error_spine h
  refine hc.move (hc.toUnpruned.congr hspine) ?_
  rw [Blockchain.latestBlock_congr hspine]
  exact hc.below

theorem Climbs.produce (hc : n.Climbs) (now : Int) (connectedPeers : Nat) :
    (n.produce P now connectedPeers).1.Climbs := by
  rcases produce_cases P n now connectedPeers with h | ⟨keypair, block, -, ⟨e, herr, h⟩ | ⟨hok, h⟩⟩
  · rw [h]
    exact hc
  · rw [h]
    exact hc.rejected herr
  · rw [h]
    exact hc.castVote keypair hok

theorem punishEquivocation_spine {c : Blockchain} (block : Block) :
    (punishEquivocation P c block).spine = c.spine := by
  unfold punishEquivocation
  split
  · rfl
  · split
    · exact Blockchain.processEquivocation_spine _
    · rfl

theorem Climbs.handleForkBlock (hc : n.Climbs) {now : Int} {block : Block}
    (hkeep : ∀ tree, n.chain.stageForkBlock P now block = .ok (tree, true) →
      ∀ v ∈ n.votes, v.blockHeight ≤ block.header.height) :
    (n.handleForkBlock P now block).Climbs := by
  obtain ⟨hu, htip⟩ := hc.toUnpruned.forkChoice (P := P) now block
  have hbelow : ∀ v ∈ n.votes, v.blockHeight ≤
      (n.chain.addBlockWithForkChoice P now block).2.latestBlock.header.height := by
    intro v hv
    rcases htip with htip | ⟨htip, hgt | ⟨tree, hstage⟩⟩
    · rw [htip]
      exact hc.below v hv
    · rw [htip]
      have := hc.below v hv
      omega
    · rw [htip]
      exact hkeep tree hstage v hv
  unfold Node.handleForkBlock
  split
  · next c h =>
    rw [h] at hu hbelow
    exact hc.move hu hbelow
  · next c h =>
    rw [h] at hu hbelow
    have hspine := punishEquivocation_spine (P := P) (c := c) block
    refine hc.move (hu.congr hspine) ?_
    rw [Blockchain.latestBlock_congr hspine]
    exact hbelow

theorem Climbs.handleNewBlock (hc : n.Climbs) {now : Int} {block : Block}
    (hkeep : n.KeepsVotedHeight P (.newBlock now block)) :
    (n.handleNewBlock P now block).Climbs := by
  rcases handleNewBlock_cases P n now block with ⟨hok, h⟩ | ⟨e, herr, h | h⟩
  · rw [h]
    rcases voteIfValidator_cases P { n with chain := (n.chain.addBlock P now block).2 } block with
      hv | ⟨keypair, -, hv⟩
    · rw [hv]
      obtain ⟨hu, htip, hheight⟩ := hc.toUnpruned.addBlock hok
      refine hc.move hu fun v hv => ?_
      rw [htip]
      have := hc.below v hv
      omega
    · rw [hv]
      exact hc.castVote keypair hok
  · rw [h]
    exact hc.rejected herr
  · rw [h]
    exact (hc.rejected herr).handleForkBlock (hkeep (by rw [herr]; simp))

/-- One event. -/
theorem Climbs.step (hc : n.Climbs) {event : NodeEvent} (hkeep : n.KeepsVotedHeight P event) :
    (n.step P event).Climbs := by
  cases event with
  | tick now connectedPeers => exact hc.produce now connectedPeers
  | newBlock now block => exact hc.handleNewBlock hkeep
  | vote vote =>
    obtain ⟨hu, htip⟩ := hc.toUnpruned.addFinalityVote (P := P) vote
    refine hc.move hu ?_
    rw [htip]
    exact hc.below

/-- Every event of the run, when its turn comes, keeps the voted height. -/
def ReorgsKeepVotedHeight (P : Primitives) : Node → List NodeEvent → Prop
  | _, [] => True
  | n, event :: rest => n.KeepsVotedHeight P event ∧ ReorgsKeepVotedHeight P (n.step P event) rest

theorem Climbs.run (hc : n.Climbs) {events : List NodeEvent}
    (hkeep : n.ReorgsKeepVotedHeight P events) : (n.run P events).Climbs := by
  induction events generalizing n with
  | nil => exact hc
  | cons event rest ih => exact ih (hc.step hkeep.1) hkeep.2

theorem climbs_start {g : GenesisConfig} {validatorKey : Option KeyPair}
    (h : Node.start P g validatorKey = .ok n) : n.Climbs := by
  unfold Node.start fromGenesis at h
  simp only [Outcome.except_bind_eq_ok] at h
  obtain ⟨chain, ⟨accounts, -, hchain⟩, hn⟩ := h
  cases hn
  cases hchain
  exact ⟨⟨rfl, rfl, by simp⟩, by simp, by simp⟩

end Node

/-- **One vote per height**: a validator whose reorganisations never land below a height it has
voted at signs at most one block hash per height, over every run. -/
theorem votes_unique_per_height {P : Primitives} {g : GenesisConfig}
    {validatorKey : Option KeyPair} {n : Node} {events : List NodeEvent}
    (hstart : Node.start P g validatorKey = .ok n)
    (hkeep : n.ReorgsKeepVotedHeight P events) :
    ∀ v ∈ (n.run P events).votes, ∀ w ∈ (n.run P events).votes,
      v.blockHeight = w.blockHeight → v.blockHash = w.blockHash := by
  have hclimbs := (Node.climbs_start hstart).run hkeep
  -- two different entries of the record are at different heights, whichever comes first
  have hahead : (n.run P events).votes.Pairwise fun v w =>
      v.blockHeight = w.blockHeight → v.blockHash = w.blockHash :=
    hclimbs.ascending.imp fun hlt heq => absurd heq (Nat.ne_of_lt hlt)
  have hback : (n.run P events).votes.Pairwise (flip fun v w =>
      v.blockHeight = w.blockHeight → v.blockHash = w.blockHash) :=
    hclimbs.ascending.imp fun hlt heq => absurd heq (Nat.ne_of_gt hlt)
  intro v hv w hw
  exact List.Pairwise.forall_of_forall_of_flip (fun _ _ _ => rfl) hahead hback hv hw

/-! ## Runs on the reference primitives -/

namespace Scenario

def hexDigitOf (n : Nat) : UInt8 := UInt8.ofNat (if n < 10 then 48 + n else 87 + n)

def hexEncode (b : Bytes) : Text :=
  b.flatMap fun x => [hexDigitOf (x.toNat / 16), hexDigitOf (x.toNat % 16)]

def key (n : UInt8) : KeyPair := KeyPair.fromSeed Reference.primitives [n]

def allocation (n : UInt8) (balance stake : Nat) : GenesisAllocation where
  publicKey := hexEncode (key n).publicKey
  balance := balance
  stakedBalance := stake

/-- `minutes` after the genesis. -/
def clock (minutes : Int) : Int := GENESIS_TIMESTAMP + 60 * minutes

/-- The block `producer` builds on `c` at `now`, and the chain with it. -/
def extend (c : Blockchain) (now : Int) (producer : UInt8) : Option (Block × Blockchain) :=
  match c.createBlock Reference.primitives now (key producer) with
  | .error _ => none
  | .ok block => match c.addBlock Reference.primitives now block with
    | (.ok (), c') => some (block, c')
    | (.error _, _) => none

end Scenario

namespace DoubleVote

open Scenario

/-- Validators 1 and 3 stake one unit each, validator 2 stakes five. -/
def genesis : GenesisConfig where
  chainId := [1]
  minimumStake := 1
  allocations := [allocation 1 0 1, allocation 2 0 5, allocation 3 0 1]

/-- What validator 3 sees: it builds block 1, receives `light` blocks of validator 1 on it, then
two blocks of validator 2 that fork off at height 2. -/
def script (light : Nat) (n : Node) : Option (List NodeEvent) := do
  let (_, c₁) ← extend n.chain (clock 1) 3
  let (a₂, c₂) ← extend c₁ (clock 2) 1
  let (a₃, _) ← extend c₂ (clock 3) 1
  let (b₂, d₂) ← extend c₁ (clock 2) 2
  let (b₃, _) ← extend d₂ (clock 3) 2
  return .tick (clock 1) 1 :: (([a₂, a₃].take light ++ [b₂, b₃]).map (.newBlock (clock 9)))

/-- No received block is below a vote. -/
def heightsKept : Node → List NodeEvent → Bool
  | _, [] => true
  | n, event :: rest =>
    (match event with
      | .newBlock _ block => n.votes.all fun v => v.blockHeight ≤ block.header.height
      | _ => true) && heightsKept (n.step Reference.primitives event) rest

theorem keepsVotedHeight_of_heightsKept {n : Node} {events : List NodeEvent}
    (h : heightsKept n events = true) :
    n.ReorgsKeepVotedHeight Reference.primitives events := by
  induction events generalizing n with
  | nil => trivial
  | cons event rest ih =>
    unfold heightsKept at h
    rw [Bool.and_eq_true] at h
    refine ⟨?_, ih h.2⟩
    cases event with
    | newBlock now block =>
      intro _ _ _ v hv
      simpa using List.all_eq_true.mp h.1 v hv
    | tick now connectedPeers => trivial
    | vote vote => trivial

end DoubleVote

open DoubleVote Scenario in
/-- One light block, then the fork: the reorganisation lands at height 2, where the node had
voted, and its votes are at heights 1, 2 and 3. -/
theorem votes_unique_across_reorg : ∃ n events,
    Node.start Reference.primitives genesis (some (key 3)) = .ok n ∧
      (n.run Reference.primitives events).votes.map FinalityVote.blockHeight = [1, 2, 3] ∧
      ∀ v ∈ (n.run Reference.primitives events).votes,
        ∀ w ∈ (n.run Reference.primitives events).votes,
          v.blockHeight = w.blockHeight → v.blockHash = w.blockHash := by
  have hrun : (Node.start Reference.primitives genesis (some (key 3))).toOption.any
      (fun n => (script 1 n).any fun events => heightsKept n events &&
        decide ((n.run Reference.primitives events).votes.map FinalityVote.blockHeight =
          [1, 2, 3])) = true := by
    decide +kernel
  obtain ⟨n, hstart, hn⟩ := Outcome.ok_of_any hrun
  obtain ⟨events, -, hevents⟩ := (Option.any_eq_true _ _).mp hn
  rw [Bool.and_eq_true, decide_eq_true_eq] at hevents
  exact ⟨n, events, hstart, hevents.2,
    votes_unique_per_height hstart (keepsVotedHeight_of_heightsKept hevents.1)⟩

open DoubleVote Scenario in
/-- Two light blocks, then the fork: the heavier block 2 takes the node from height 3 back to
height 2, and it votes for a second block at height 3. -/
theorem votes_twice_after_reorg :
    ¬ ∀ (P : Primitives) (g : GenesisConfig) (validatorKey : Option KeyPair) (n : Node)
        (events : List NodeEvent), Node.start P g validatorKey = .ok n →
        ∀ v ∈ (n.run P events).votes, ∀ w ∈ (n.run P events).votes,
          v.blockHeight = w.blockHeight → v.blockHash = w.blockHash := by
  intro h
  have hrun : (Node.start Reference.primitives genesis (some (key 3))).toOption.any
      (fun n => (script 2 n).any fun events => decide (¬ ∀ v ∈ (n.run Reference.primitives
        events).votes, ∀ w ∈ (n.run Reference.primitives events).votes,
          v.blockHeight = w.blockHeight → v.blockHash = w.blockHash)) = true := by
    decide +kernel
  obtain ⟨n, hstart, hn⟩ := Outcome.ok_of_any hrun
  obtain ⟨events, -, hevents⟩ := (Option.any_eq_true _ _).mp hn
  rw [decide_eq_true_eq] at hevents
  exact hevents (h Reference.primitives genesis (some (key 3)) n events hstart)

end Curs3d
