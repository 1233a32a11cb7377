import Curs3d.Proof.Linear

/-!
# Reopening a chain from its store

`with_storage` keeps the blocks and the slashed set of a chain and recomputes the rest. What the
blocks say is recomputed as it was (`Recomputes.rebuildCanonicalState`), so the question for a
run is what changes the state without a block saying so. A finality vote moves tracker and tree
only. A slash cuts a stake and jails an account between two blocks, and a rebuild neither repeats
it nor takes it back: it starts from the genesis stakes with the offender already in the slashed
set.
-/

set_option autoImplicit false

namespace Curs3d

open Outcome

/-! ## Runs of a storage-backed chain -/

inductive LedgerOp where
  | addBlock (now : Int) (block : Block)
  | addFinalityVote (vote : FinalityVote)
  | processEquivocation (evidence : EquivocationEvidence)

namespace Blockchain

variable {P : Primitives} {g : GenesisConfig} {c : Blockchain} {now : Int}

/-- The chain after one call. -/
def perform (P : Primitives) (c : Blockchain) : LedgerOp → Blockchain
  | .addBlock now block => (c.addBlock P now block).2
  | .addFinalityVote vote => (c.addFinalityVote P vote).2
  | .processEquivocation evidence => (c.processEquivocation P evidence).2

def performAll (P : Primitives) (c : Blockchain) (ops : List LedgerOp) : Blockchain :=
  ops.foldl (perform P) c

/-- The clock readings of a run. -/
def readings (ops : List LedgerOp) : List Int :=
  ops.filterMap fun
    | .addBlock now _ => some now
    | _ => none

/-- Every `add_block` of the run succeeds. -/
def Succeeds (P : Primitives) (c : Blockchain) : List LedgerOp → Prop
  | [] => True
  | op :: rest =>
    (match op with
      | .addBlock now block => (c.addBlock P now block).1 = .ok ()
      | _ => True) ∧ Succeeds P (c.perform P op) rest

/-- The evidence holds against a validator that has an account and was not slashed before. -/
def Convicts (P : Primitives) (c : Blockchain) (evidence : EquivocationEvidence) : Prop :=
  evidence.verify P = true ∧
    addressBytesFromPublicKey P evidence.validatorPublicKey ∉ c.slashedValidators ∧
    addressBytesFromPublicKey P evidence.validatorPublicKey ∈ c.accounts

/-- No evidence of the run convicts. -/
def NeverSlashes (P : Primitives) (c : Blockchain) : List LedgerOp → Prop
  | [] => True
  | op :: rest =>
    (match op with
      | .processEquivocation evidence => ¬ c.Convicts P evidence
      | _ => True) ∧ NeverSlashes P (c.perform P op) rest

/-- Evidence that does not convict is refused and changes nothing. -/
theorem processEquivocation_of_not_convicts {evidence : EquivocationEvidence}
    (h : ¬ c.Convicts P evidence) : (c.processEquivocation P evidence).2 = c := by
  unfold processEquivocation
  dsimp only
  split
  · rfl
  · next hverify =>
    split
    · rfl
    · next hnew =>
      split
      · rfl
      · next a ha =>
        refine absurd ⟨by simpa using hverify, hnew, ?_⟩ h
        rw [Std.ExtTreeMap.mem_iff_isSome_getElem?, ha]
        rfl

/-! ## What a restart needs of a chain -/

/-- A chain that its own blocks account for, with the genesis of its configuration. -/
structure Restartable (P : Primitives) (g : GenesisConfig) (t : Int) (c : Blockchain) : Prop where
  config : c.genesisConfig = g
  keep : c.pruneKeepBlocks = none
  recomputed : ∃ accounts, accountsFromGenesis P g = .ok accounts ∧
    c.genesis = genesisBlock P g accounts ∧ Recomputes P accounts t c

namespace Restartable

variable {t : Int}

theorem fromGenesis (h : Curs3d.fromGenesis P g = .ok c) (t : Int) : Restartable P g t c := by
  have hconfig := (blocks_of_genesis h).2
  obtain ⟨accounts, haccounts, hrec⟩ := recomputes_genesis h t
  unfold Curs3d.fromGenesis at h
  rw [haccounts] at h
  cases h
  exact ⟨rfl, rfl, accounts, haccounts, rfl, hrec⟩

theorem addBlock {block : Block} (h : Restartable P g t c) (hle : t ≤ now)
    (hok : (c.addBlock P now block).1 = .ok ()) :
    Restartable P g now (c.addBlock P now block).2 := by
  obtain ⟨accounts, haccounts, hgenesis, hrec⟩ := h.recomputed
  obtain ⟨-, stake, hspine⟩ := addBlock_ok_spine hok
  obtain ⟨s, ha⟩ := accepted_of_addBlock hok
  refine ⟨ha.config.trans h.config, ?_, accounts, haccounts, ?_, hrec.addBlock hle hok⟩
  · exact (congrArg Spine.pruneKeepBlocks hspine).trans h.keep
  · exact (congrArg Spine.genesis hspine).trans hgenesis

/-- The tracker and the tree play no part in recomputing the state. -/
theorem withFinality (h : Restartable P g t c) (tracker : FinalityTracker) (tree : BlockTree) :
    Restartable P g t { c with finalityTracker := tracker, blockTree := tree } := by
  obtain ⟨accounts, haccounts, hgenesis, hrec⟩ := h.recomputed
  refine ⟨h.config, h.keep, accounts, haccounts, hgenesis, ?_⟩
  refine ⟨⟨hrec.straight.base, hrec.straight.head, hrec.straight.heights⟩, hrec.known, ?_, ?_⟩
  · intro d later hlater hagree hsnaps
    exact hrec.replay hlater ⟨hagree.config, hagree.slashed, hagree.blocks⟩ hsnaps
  · intro d later hlater hagree hsnaps
    exact hrec.rebuild hlater ⟨hagree.config, hagree.slashed, hagree.blocks⟩ hsnaps

theorem addFinalityVote (h : Restartable P g t c) (vote : FinalityVote) :
    Restartable P g t (c.addFinalityVote P vote).2 := by
  obtain ⟨tracker, tree, hv⟩ := addFinalityVote_of_none h.keep vote
  rw [hv]
  exact h.withFinality tracker tree

/-- **One call that is no slash** keeps a chain restartable, from that call's clock reading on. -/
theorem perform {op : LedgerOp} (h : Restartable P g t c)
    (hclock : ∀ u ∈ readings [op], t ≤ u) (hok : c.Succeeds P [op])
    (hquiet : c.NeverSlashes P [op]) :
    Restartable P g ((readings [op]).headD t) (c.perform P op) := by
  cases op with
  | addBlock now block => exact h.addBlock (hclock now (by simp [readings])) hok.1
  | addFinalityVote vote => exact h.addFinalityVote vote
  | processEquivocation evidence =>
    unfold Blockchain.perform
    dsimp only
    rw [processEquivocation_of_not_convicts hquiet.1]
    exact h

/-- A whole run of such calls. -/
theorem performAll {ops : List LedgerOp} (h : Restartable P g t c)
    (hclock : (t :: (readings ops ++ [now])).Pairwise (· ≤ ·)) (hok : c.Succeeds P ops)
    (hquiet : c.NeverSlashes P ops) : Restartable P g now (c.performAll P ops) := by
  induction ops generalizing c t with
  | nil =>
    have hle : t ≤ now := by simpa [readings] using hclock
    obtain ⟨accounts, haccounts, hgenesis, hrec⟩ := h.recomputed
    exact ⟨h.config, h.keep, accounts, haccounts, hgenesis, hrec.mono hle⟩
  | cons op rest ih =>
    have hsplit : readings (op :: rest) = readings [op] ++ readings rest := by
      unfold readings
      rw [← List.filterMap_append]
      rfl
    rw [hsplit] at hclock
    have hstep : Restartable P g ((readings [op]).headD t) (c.perform P op) :=
      h.perform (fun u hu => (List.pairwise_cons.mp hclock).1 u (by simp [hu])) ⟨hok.1, trivial⟩
        ⟨hquiet.1, trivial⟩
    refine ih hstep ?_ hok.2 hquiet.2
    -- the next reading to compare with is the call's own, if it reads the clock
    cases op with
    | addBlock now block => exact (List.pairwise_cons.mp hclock).2
    | addFinalityVote vote => exact hclock
    | processEquivocation evidence => exact hclock

/-- The store of such a chain opens, and what it opens to holds the same state. -/
theorem restart (h : Restartable P g t c) (hle : t ≤ now) :
    ∃ c', c.restart P now = .ok c' ∧ SameState c' c := by
  obtain ⟨accounts, haccounts, hgenesis, hrec⟩ := h.recomputed
  rw [← h.config] at haccounts hgenesis
  have hopen : ∀ (d : Blockchain) (r : Except ChainError Unit × Blockchain),
      d.rebuildCanonicalState P now = r → d.genesisConfig = c.genesisConfig →
      d.slashedValidators = c.slashedValidators → d.Straight → d.blocks = c.blocks →
      ∃ c', r = (.ok (), c') ∧ SameState c' c := by
    intro d r hr hg hs hst hblocks
    obtain ⟨hok, hsame⟩ := hrec.rebuildCanonicalState hle haccounts hg hs hst hblocks
    rw [hr] at hok hsame
    exact ⟨r.2, Prod.ext hok rfl, hsame⟩
  have hguard : ensure (c.genesis.hash = (genesisBlock P c.genesisConfig accounts).hash)
      .genesisMismatch = .ok () := by
    rw [hgenesis]
    simp [ensure]
  unfold Blockchain.restart
  rw [haccounts]
  dsimp only [bind, Except.bind]
  rw [hguard]
  dsimp only
  have hbase : (if 1 < c.blockCount then max c.baseHeight 1 else 0) ≤ 1 := by
    have hbase := hrec.straight.base
    split <;> omega
  obtain ⟨hhead, hheights⟩ : c.blocks.head? = some c.genesis ∧ _ :=
    ⟨hrec.straight.head, @hrec.straight.heights⟩
  split
  · next e d hr =>
    obtain ⟨c', hopened, -⟩ := hopen _ _ hr rfl rfl ⟨hbase, hhead, hheights⟩ rfl
    cases hopened
  · next d hr =>
    obtain ⟨c', hopened, hsame⟩ := hopen _ _ hr rfl rfl ⟨hbase, hhead, hheights⟩ rfl
    cases hopened
    exact ⟨d, rfl, hsame⟩

end Restartable

end Blockchain

namespace RestartSample

open Scenario

/-- Two validators of one stake each. -/
def genesis : GenesisConfig where
  chainId := [1]
  minimumStake := 1
  allocations := [allocation 1 0 1000000, allocation 2 0 1000000]

/-- What proves that `producer` signed both `header` and the same header a second later. -/
def doubleSigned (producer : UInt8) (header : BlockHeader) : EquivocationEvidence :=
  let other := { header with timestamp := header.timestamp + 1 }
  let sign := fun h => Reference.primitives.dilithiumSign [producer]
    (Block.computeHash Reference.primitives h)
  { validatorPublicKey := (key producer).publicKey
    height := header.height
    blockHashA := Block.computeHash Reference.primitives header
    blockHashB := Block.computeHash Reference.primitives other
    signatureA := sign header
    signatureB := sign other
    blockHeaderA := header
    blockHeaderB := other }

/-- `producer` builds block 1, which is accepted; then comes the evidence, as it is or made out
against a key without an account. -/
def ops (c : Blockchain) (producer accused : UInt8) : Option (List LedgerOp) := do
  let (block, _) ← extend c (clock 1) producer
  return [.addBlock (clock 1) block, .processEquivocation (doubleSigned accused
    { block.header with validatorPublicKey := (key accused).publicKey })]

/-- What a run of one block and one piece of evidence has to do to count. -/
theorem succeeds_ops {c : Blockchain} {producer accused : UInt8} {run : List LedgerOp}
    (h : ops c producer accused = some run) :
    c.Succeeds Reference.primitives run ∧
      (Blockchain.readings run ++ [clock 9]).Pairwise (· ≤ ·) := by
  simp only [ops, Option.bind_eq_bind, Option.bind_eq_some_iff] at h
  obtain ⟨⟨block, c'⟩, hextend, hrun⟩ := h
  cases hrun
  have hclock : [clock 1, clock 9].Pairwise (· ≤ ·) := by decide
  exact ⟨⟨congrArg Prod.fst (addBlock_of_extend hextend), trivial, trivial⟩, hclock⟩

end RestartSample

end Curs3d
