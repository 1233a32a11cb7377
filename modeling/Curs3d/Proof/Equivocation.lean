import Curs3d.Network.Node
import Curs3d.Proof.Voting

/-!
# Two blocks at one height (`src/consensus/mod.rs`, `src/core/block.rs`, `src/network/mod.rs`)

`Block::new` signs a block's hash behind the tag `curs3d-block-sig-v1:`, and `verify_signature`
looks for that signature. `EquivocationEvidence::verify` looks for a signature of the bare hash,
which no block carries. So a validator that builds two blocks at one height is caught by
`handle_new_block`, and the evidence assembled against it is thrown away
(`double_signing_unpunished`).

The signature scheme is assumed correct and unforgeable, `SignsExactly`: what a key signed
verifies for the message it was made on and for no other.
-/

set_option autoImplicit false

namespace Curs3d

open Node

/-- A signature of `kp` verifies on the message it was made on, and on that message only. -/
def SignsExactly (P : Primitives) (kp : KeyPair) : Prop :=
  ∀ m m', P.dilithiumVerify m (kp.sign P m') kp.publicKey = true ↔ m = m'

/-- What a producer passes to `Block::new` beside the height and its key pair, and the time it
calls at. -/
structure BlockDraft where
  version : Nat
  prevHash : Bytes
  stateRoot : Bytes
  gasUsed : Nat
  baseFeePerGas : Nat
  transactions : List Transaction
  now : Int

namespace BlockDraft

variable (P : Primitives) (height : Nat) (kp : KeyPair) (d : BlockDraft)

def build : Block :=
  Block.new P d.version height d.prevHash d.stateRoot d.gasUsed d.baseFeePerGas d.transactions kp
    d.now

@[simp] theorem build_height : (d.build P height kp).header.height = height := rfl

@[simp] theorem build_validatorPublicKey :
    (d.build P height kp).header.validatorPublicKey = kp.publicKey := rfl

theorem build_signature : (d.build P height kp).signature =
    some (kp.sign P (Block.signableBlockHash (d.build P height kp).hash)) := rfl

end BlockDraft

/-! ## What is signed and what is checked -/

theorem length_signableBlockHash (hash : Bytes) :
    (Block.signableBlockHash hash).length = 20 + hash.length := by
  simp only [Block.signableBlockHash, List.length_append]
  rfl

theorem ne_signableBlockHash (hash : Bytes) : hash ≠ Block.signableBlockHash hash := by
  intro h
  have hlength := congrArg List.length h
  rw [length_signableBlockHash] at hlength
  omega

/-- A built block passes the check of block validation and fails the one of the evidence. -/
theorem BlockDraft.build_verifies {P : Primitives} {kp : KeyPair} {height : Nat} (d : BlockDraft)
    (hsigns : SignsExactly P kp) (hheight : height ≠ 0) :
    (d.build P height kp).verifySignature P = true := by
  simp only [Block.verifySignature, build_height, hheight, if_false, build_signature]
  exact (hsigns _ _).mpr rfl

theorem BlockDraft.build_hash_unsigned {P : Primitives} {kp : KeyPair} {height : Nat}
    (d : BlockDraft) (hsigns : SignsExactly P kp) {signature : Bytes}
    (hsignature : (d.build P height kp).signature = some signature) :
    P.dilithiumVerify (d.build P height kp).hash signature kp.publicKey = false := by
  rw [build_signature] at hsignature
  cases hsignature
  apply Bool.eq_false_iff.mpr
  intro hverify
  exact ne_signableBlockHash _ ((hsigns _ _).mp hverify)

/-- Evidence is only as good as the signature on its first block. -/
theorem EquivocationEvidence.verify_eq_false {P : Primitives} {e : EquivocationEvidence}
    (h : P.dilithiumVerify e.blockHashA e.signatureA e.validatorPublicKey = false) :
    e.verify P = false := by
  simp [EquivocationEvidence.verify, h]

/-! ## The evidence of `handle_new_block` -/

/-- What evidence against a block is made of. -/
theorem equivocationWith_eq_some {c : Blockchain} {block : Block} {e : EquivocationEvidence} :
    equivocationWith c block = some e ↔
      ∃ ours sigA sigB, c.blockAtHeight block.header.height = some ours ∧
        ours.signature = some sigA ∧ block.signature = some sigB ∧
        ours.header.validatorPublicKey = block.header.validatorPublicKey ∧
        ours.hash ≠ block.hash ∧
        e = { height := block.header.height
              validatorPublicKey := block.header.validatorPublicKey
              blockHeaderA := ours.header
              blockHashA := ours.hash
              signatureA := sigA
              blockHeaderB := block.header
              blockHashB := block.hash
              signatureB := sigB } := by
  simp only [equivocationWith]
  constructor
  · intro h
    split at h
    · cases h
    · next ours hours =>
      split at h
      · next sigA sigB hsigA hsigB =>
        split at h
        · next hsame =>
          cases h
          exact ⟨ours, sigA, sigB, hours, hsigA, hsigB, hsame.1, hsame.2, rfl⟩
        · cases h
      · cases h
  · rintro ⟨ours, sigA, sigB, hours, hsigA, hsigB, hkey, hne, rfl⟩
    simp only [hours, hsigA, hsigB]
    rw [if_pos ⟨hkey, hne⟩]

section

variable {P : Primitives} {kp : KeyPair} {c : Blockchain} {height : Nat} {ours theirs : BlockDraft}

/-- Two built blocks are caught whenever their hashes differ. -/
theorem equivocationWith_build (hours : c.blockAtHeight height = some (ours.build P height kp))
    (hne : (ours.build P height kp).hash ≠ (theirs.build P height kp).hash) :
    ∃ e, equivocationWith c (theirs.build P height kp) = some e :=
  ⟨_, equivocationWith_eq_some.mpr
    ⟨_, _, _, hours, ours.build_signature P height kp, theirs.build_signature P height kp, rfl, hne,
      rfl⟩⟩

/-- **No double signing is punished.** Whatever chain holds one of two blocks that one key pair
built at one height, the evidence assembled when the other comes in does not verify. -/
theorem double_signing_unpunished (hsigns : SignsExactly P kp)
    (hours : c.blockAtHeight height = some (ours.build P height kp)) :
    ¬ ∃ e, equivocationWith c (theirs.build P height kp) = some e ∧ e.verify P = true := by
  rintro ⟨e, he, hverify⟩
  obtain ⟨held, sigA, sigB, hheld, hsigA, -, -, -, rfl⟩ := equivocationWith_eq_some.mp he
  obtain rfl : ours.build P height kp = held := by
    rw [BlockDraft.build_height, hours] at hheld
    exact Option.some.inj hheld
  have hbad := ours.build_hash_unsigned hsigns hsigA
  rw [EquivocationEvidence.verify_eq_false hbad] at hverify
  cases hverify

end

/-- A key whose owner signed nothing but blocks is safe, however many blocks those are: a bare
hash has 32 bytes and a signed one 52. -/
theorem unverified_of_signs_blocks {P : Primitives} {e : EquivocationEvidence}
    (hhash : ∀ m, (P.sha3 m).length = 32)
    (hsigned : ∀ m signature, P.dilithiumVerify m signature e.validatorPublicKey = true →
      ∃ header, m = Block.signableBlockHash (Block.computeHash P header)) :
    e.verify P = false := by
  apply Bool.eq_false_iff.mpr
  intro hverify
  simp only [EquivocationEvidence.verify, decide_eq_true_eq] at hverify
  obtain ⟨-, -, -, -, -, hhashA, -, hsigA, -⟩ := hverify
  obtain ⟨header, hheader⟩ := hsigned _ _ hsigA
  have hlength := congrArg List.length hheader
  rw [length_signableBlockHash, ← hhashA, Block.computeHash, Block.computeHash, doubleHash,
    doubleHash, hhash, hhash] at hlength
  omega

namespace DoubleSigning

open Scenario

/-- Signatures that show what they sign: nothing collides. -/
def primitives : Primitives :=
  { Reference.primitives with
    dilithiumSign := fun seed message => seed ++ message
    dilithiumVerify := fun message signature publicKey => signature = publicKey ++ message }

theorem signsExactly (seed : Bytes) :
    SignsExactly primitives (KeyPair.fromSeed primitives seed) := by
  intro m m'
  simp [KeyPair.sign, KeyPair.fromSeed, primitives, Reference.primitives, Reference.publicKeyOf,
    eq_comm]

def genesis : GenesisConfig where
  chainId := [1]
  minimumStake := 1
  allocations := [allocation 1 0 1]

/-- What goes into a block of validator 1 on the genesis. -/
def draft (c : Blockchain) (block : Block) (now : Int) : BlockDraft where
  version := block.header.version
  prevHash := c.latestBlock.hash
  stateRoot := block.header.stateRoot
  gasUsed := block.header.gasUsed
  baseFeePerGas := block.header.baseFeePerGas
  transactions := block.transactions
  now := now

/-- A chain with block 1 of validator 1, and what goes into that block and into the same block a
minute later. -/
def sample : Option (Blockchain × BlockDraft × BlockDraft) := do
  let c₀ ← (fromGenesis primitives genesis).toOption
  let block ← (c₀.createBlock primitives (clock 1) (key 1)).toOption
  let (.ok (), c) := c₀.addBlock primitives (clock 1) block | none
  return (c, draft c₀ block (clock 1), draft c₀ block (clock 2))

end DoubleSigning

open DoubleSigning Scenario in
/-- The same validator signs block 1 of the genesis chain at two times. -/
theorem double_signing_unpunished_sample : ∃ (c : Blockchain) (ours theirs : BlockDraft),
    c.blockAtHeight 1 = some (ours.build primitives 1 (key 1)) ∧
      ¬ ∃ e, equivocationWith c (theirs.build primitives 1 (key 1)) = some e ∧
        e.verify primitives = true := by
  have hrun : sample.any (fun (c, ours, _) =>
      decide (c.blockAtHeight 1 = some (ours.build primitives 1 (key 1)))) = true := by
    decide +kernel
  obtain ⟨⟨c, ours, theirs⟩, -, hours⟩ := (Option.any_eq_true _ _).mp hrun
  rw [decide_eq_true_eq] at hours
  exact ⟨c, ours, theirs, hours, double_signing_unpunished (signsExactly [1]) hours⟩

open DoubleSigning Scenario in
/-- Both blocks are caught at the height they share, and the evidence does not verify. -/
theorem signed_twice_unpunished :
    ¬ ∀ (P : Primitives) (kp : KeyPair), SignsExactly P kp →
        ∀ (c : Blockchain) (height : Nat) (ours theirs : BlockDraft),
          c.blockAtHeight height = some (ours.build P height kp) →
          (ours.build P height kp).hash ≠ (theirs.build P height kp).hash →
          ∃ e, equivocationWith c (theirs.build P height kp) = some e ∧ e.verify P = true := by
  intro h
  have hrun : sample.any (fun (c, ours, theirs) =>
      decide (c.blockAtHeight 1 = some (ours.build primitives 1 (key 1))) &&
        decide ((ours.build primitives 1 (key 1)).hash ≠
          (theirs.build primitives 1 (key 1)).hash) &&
        (equivocationWith c (theirs.build primitives 1 (key 1))).any fun e =>
          !e.verify primitives) = true := by
    decide +kernel
  obtain ⟨⟨c, ours, theirs⟩, -, hrun⟩ := (Option.any_eq_true _ _).mp hrun
  simp only [Bool.and_eq_true, decide_eq_true_eq] at hrun
  obtain ⟨⟨hours, hne⟩, hbad⟩ := hrun
  obtain ⟨e, he, hverify⟩ := h primitives (key 1) (signsExactly [1]) c 1 ours theirs hours hne
  simp [he, hverify] at hbad

end Curs3d
