import Curs3d.Core.Block
import Curs3d.Lib.KeyMap

/-!
# Finality votes (`src/consensus/mod.rs`)

A vote signs `(block hash, height, epoch)`. The tracker keeps the votes per block hash, counts a
validator once per height, and finalizes a block when the stake behind its hash reaches two
thirds of the snapshot's total; it then forgets every vote at or below that height.
-/

set_option autoImplicit false

namespace Curs3d

open Bincode U64

namespace FinalityVote

def signableData (blockHash : Bytes) (blockHeight epoch : Nat) : Bytes :=
  ascii "curs3d-finality-vote-v1:" ++ blockHash ++ u64 blockHeight ++ u64 epoch

def new (P : Primitives) (blockHash : Bytes) (blockHeight epoch : Nat) (keypair : KeyPair) :
    FinalityVote :=
  { blockHash, blockHeight, epoch
    voterPublicKey := keypair.publicKey
    signature := keypair.sign P (signableData blockHash blockHeight epoch) }

def verify (P : Primitives) (v : FinalityVote) : Bool :=
  P.dilithiumVerify (signableData v.blockHash v.blockHeight v.epoch) v.signature v.voterPublicKey

end FinalityVote

structure FinalityTracker where
  votes : ByteMap (List FinalityVote) := ∅
  seenVotes : Finset (Bytes × Nat) := ∅
  finalizedHeight : Nat := 0
  finalizedHash : Bytes := []
deriving DecidableEq

/-- The `HashMap` from public key to stake; a repeated key keeps its last stake. -/
def EpochSnapshot.validatorStakes (snapshot : EpochSnapshot) : ByteMap Nat :=
  snapshot.validators.foldl (fun m v => m.insert v.publicKey v.stake) ∅

namespace FinalityTracker

/-- `with_finalized`. -/
def withFinalized (height : Nat) (hash : Bytes) : FinalityTracker :=
  { finalizedHeight := height, finalizedHash := hash }

variable (P : Primitives) (t : FinalityTracker)

def votedStake (stakes : ByteMap Nat) (votes : List FinalityVote) : Nat :=
  wrapSum (votes.filterMap fun v => stakes[v.voterPublicKey]?)

/-- The tracker once `hash` at `height` is final, with the votes above that height. -/
def finalize (hash : Bytes) (height : Nat) : FinalityTracker where
  votes := t.votes.filter fun _ votes =>
    match votes.head? with
    | some first => height < first.blockHeight
    | none => false
  seenVotes := t.seenVotes.filter fun e => height < e.2
  finalizedHeight := height
  finalizedHash := hash

/-- The vote recorded under its hash. -/
def recordVote (vote : FinalityVote) : FinalityTracker :=
  { t with
    seenVotes := insert (vote.voterPublicKey, vote.blockHeight) t.seenVotes
    votes := t.votes.insert vote.blockHash (t.votes[vote.blockHash]?.getD [] ++ [vote]) }

/-- `add_vote`: the tracker afterwards, and the block this vote finalized. -/
def addVote (vote : FinalityVote) (snapshot : EpochSnapshot) :
    FinalityTracker × Option FinalizedBlock :=
  let stakes := snapshot.validatorStakes
  if !vote.verify P then (t, none)
  else if vote.epoch ≠ snapshot.epoch then (t, none)
  else if vote.blockHeight ≤ t.finalizedHeight then (t, none)
  else if vote.voterPublicKey ∉ stakes then (t, none)
  else if (vote.voterPublicKey, vote.blockHeight) ∈ t.seenVotes then (t, none)
  else if (t.votes[vote.blockHash]?.getD []).any fun v =>
      v.voterPublicKey = vote.voterPublicKey then
    -- the dedup key is already in the set, and `entry(..).or_default()` leaves no new entry
    -- since the list is not empty
    ({ t with seenVotes := insert (vote.voterPublicKey, vote.blockHeight) t.seenVotes }, none)
  else
    let t' := t.recordVote vote
    let voted := votedStake stakes (t'.votes[vote.blockHash]?.getD [])
    if snapshot.totalStake = 0 then (t', none)
    else if satMul snapshot.totalStake 2 ≤ satMul voted 3 then
      (t'.finalize vote.blockHash vote.blockHeight,
        some { hash := vote.blockHash, height := vote.blockHeight })
    else (t', none)

end FinalityTracker

end Curs3d
