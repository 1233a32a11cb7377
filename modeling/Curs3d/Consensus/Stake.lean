import Curs3d.Core.Block
import Curs3d.Lib.KeyMap

/-!
# Proof of stake (`src/consensus/mod.rs`)

The validator set of an account map, the stake-weighted choice of a slot's leader and of its
backups, and the settlement of an epoch. `sum::<u64>()` is the wrapping sum of a release build.
-/

set_option autoImplicit false

namespace Curs3d

open Bincode U64

def EPOCH_REWARD_RATE_PER_CUR : Nat := 100
def INACTIVITY_PENALTY_RATE_PER_CUR : Nat := 50
def INACTIVITY_GRACE_EPOCHS : Nat := 2
def BACKUP_LEADER_TIMEOUT_SECS : Nat := 30
def EQUIVOCATION_SLASH_PERCENT : Nat := 33

/-! ## The validator set -/

structure ProofOfStake where
  minimumStake : Nat
  slashedValidators : Finset Bytes
  currentHeight : Nat

namespace ProofOfStake

variable (pos : ProofOfStake)

/-- The `filter_map` of `active_validators`, on one account. -/
def validatorOf (address : Bytes) (account : AccountState) : Option Validator :=
  match account.publicKey with
  | none => none
  | some publicKey =>
    if account.stakedBalance < pos.minimumStake then none
    else if pos.currentHeight < account.validatorActiveFromHeight then none
    else if pos.currentHeight < account.jailedUntilHeight then none
    else if address ∈ pos.slashedValidators then none
    else some { address, publicKey, stake := account.stakedBalance }

/-- In address order: `toList` is sorted by key. -/
def activeValidators (accounts : ByteMap AccountState) : List Validator :=
  accounts.toList.filterMap fun e => pos.validatorOf e.1 e.2

end ProofOfStake

def totalStakeOf (validators : List Validator) : Nat := wrapSum (validators.map Validator.stake)

/-- The ticket walk: the first validator whose range holds the selector. -/
def pickByStake : List Validator → Nat → Option Validator
  | [], _ => none
  | v :: rest, selector =>
    if selector < v.stake then some v else pickByStake rest (selector - v.stake)

/-- `uN::from_le_bytes` of the first `w` bytes of a hash. -/
def leNat (w : Nat) (hash : Bytes) : Nat :=
  (hash.take w).foldr (fun b acc => b.toNat + 256 * acc) 0

def ProofOfStake.selectValidator (P : Primitives) (pos : ProofOfStake)
    (accounts : ByteMap AccountState) (blockHeight : Nat) (prevHash : Bytes) : Option Validator :=
  let validators := pos.activeValidators accounts
  if totalStakeOf validators = 0 then none
  else
    let hash := sha3HashDomain P (ascii "curs3d-validator-selection") [u64 blockHeight, prevHash]
    pickByStake validators (leNat 8 hash % totalStakeOf validators)

/-! ## Slot leaders -/

def slotLeaderExcluding (P : Primitives) (snapshot : EpochSnapshot) (height : Nat)
    (parentHash : Bytes) (rank : Nat) (excluded : List Bytes) : Option Bytes :=
  let candidates := snapshot.validators.filter fun v => v.address ∉ excluded
  if totalStakeOf candidates = 0 then none
  else
    let hash :=
      sha3HashDomain P (ascii "curs3d-slot-leader-v1") [u64 height, parentHash, u32 rank]
    match pickByStake candidates (leNat 16 hash % totalStakeOf candidates) with
    | some v => some v.address
    | none => candidates.getLast?.map Validator.address

/-- The walk over ranks `k, k + 1, ..`, `n` of them, with the leaders chosen so far. -/
def slotLeaderWalk (P : Primitives) (snapshot : EpochSnapshot) (height : Nat)
    (parentHash : Bytes) : (k n : Nat) → (excluded : List Bytes) → (last : Option Bytes) →
    Option Bytes
  | _, 0, _, last => last
  | k, n + 1, excluded, last =>
    match slotLeaderExcluding P snapshot height parentHash k excluded with
    | some addr => slotLeaderWalk P snapshot height parentHash (k + 1) n (addr :: excluded)
        (some addr)
    | none => last

def slotLeaderAtRank (P : Primitives) (snapshot : EpochSnapshot) (height : Nat)
    (parentHash : Bytes) (rank : Nat) : Option Bytes :=
  if snapshot.validators.isEmpty then none
  else slotLeaderWalk P snapshot height parentHash 0 (rank + 1) [] none

def allowedBackupRank (parentTimestamp blockTimestamp : Int) (snapshotValidators : Nat) : Nat :=
  if snapshotValidators ≤ 1 ∨ blockTimestamp ≤ parentTimestamp then 0
  else
    let gap := (blockTimestamp - parentTimestamp).toNat
    if gap < BACKUP_LEADER_TIMEOUT_SECS then 0
    else min (gap / BACKUP_LEADER_TIMEOUT_SECS) (snapshotValidators - 1)

/-! ## Epoch settlement -/

structure ValidatorReward where
  address : Bytes
  amount : Nat
  blocksProduced : Nat
deriving DecidableEq, Repr

structure ValidatorPenalty where
  address : Bytes
  amount : Nat
  missedEpochs : Nat
deriving DecidableEq, Repr

/-- The totals of the source's record are only logged and are left out. -/
structure EpochSettlement where
  rewards : List ValidatorReward
  penalties : List ValidatorPenalty
deriving DecidableEq, Repr

def rewardFor (blockProducers : ByteMap Nat) (validator : Validator) : Option ValidatorReward :=
  let blocksProduced := blockProducers[validator.address]?.getD 0
  let reward := satMul (satMul (validator.stake / 1000000) EPOCH_REWARD_RATE_PER_CUR)
    blocksProduced
  if 0 < blocksProduced ∧ 0 < reward then
    some { address := validator.address, amount := reward, blocksProduced }
  else none

def penaltyFor (blockProducers missedEpochs : ByteMap Nat) (validator : Validator) :
    Option ValidatorPenalty :=
  let blocksProduced := blockProducers[validator.address]?.getD 0
  let consecutiveMissed := satAdd (missedEpochs[validator.address]?.getD 0) 1
  let penalty := satMul (satMul (validator.stake / 1000000) INACTIVITY_PENALTY_RATE_PER_CUR)
    (consecutiveMissed - INACTIVITY_GRACE_EPOCHS)
  if blocksProduced = 0 ∧ INACTIVITY_GRACE_EPOCHS < consecutiveMissed ∧ 0 < penalty then
    some { address := validator.address, amount := penalty, missedEpochs := consecutiveMissed }
  else none

def computeEpochSettlement (snapshot : EpochSnapshot) (blockProducers missedEpochs : ByteMap Nat) :
    EpochSettlement where
  rewards := snapshot.validators.filterMap (rewardFor blockProducers)
  penalties := snapshot.validators.filterMap (penaltyFor blockProducers missedEpochs)

def creditReward (accounts : ByteMap AccountState) (reward : ValidatorReward) :
    ByteMap AccountState :=
  KeyMap.upsert accounts reward.address {} fun a =>
    { a with balance := satAdd a.balance reward.amount }

def deductPenalty (accounts : ByteMap AccountState) (penalty : ValidatorPenalty) :
    ByteMap AccountState :=
  KeyMap.upsert accounts penalty.address {} fun a =>
    { a with stakedBalance := a.stakedBalance - penalty.amount }

/-- Rewards first, then penalties. -/
def applyEpochSettlement (accounts : ByteMap AccountState) (settlement : EpochSettlement) :
    ByteMap AccountState :=
  settlement.penalties.foldl deductPenalty (settlement.rewards.foldl creditReward accounts)

end Curs3d
