import Curs3d.Lib.Frames
import Curs3d.Lib.KeyMap
import Curs3d.Lib.Solidity

/-!
# The escrow

`DigitalEscrow` holds the price of a listing from the purchase until it pays the seller or refunds the buyer.
The state has the contract's storage, its ether (`balance`) and, for the properties only, what it
has paid out (`payouts`). `sendValue` runs the recipient's code, which may call any function again
before it returns; a function that pays is therefore cut there. It gives the state in which the recipient's
code starts, with the re-entrancy guard taken, and `leave` is the rest of it. Events are left out.
-/

set_option autoImplicit false

namespace Curs3d

open Solidity Std

/-- The errors of the contract, and those of what it inherits and uses. -/
inductive EscrowError where
  | invalidPrice
  | listingMissing
  | wrongState
  | wrongPayment
  | notSeller
  | notBuyer
  | notArbitrator
  | lockWindowTooHigh
  | lockNotElapsed
  | zeroAddress
  | ownableInvalidOwner
  | ownableUnauthorizedAccount
  | enforcedPause
  | expectedPause
  | reentrantCall
  | insufficientBalance
  | nonPayable
deriving DecidableEq, Repr

inductive EscrowStatus where
  | none
  | listed
  | funded
  | accepted
  | disputed
  | paidToSeller
  | refundedToBuyer
  | cancelled
deriving DecidableEq, Repr

/-- A listing; the fields of one that was never written are zero. -/
structure Listing where
  seller : Address := 0
  buyer : Address := 0
  itemHash : Nat := 0
  uri : String := ""
  price : Nat := 0
  fundedAt : Nat := 0
  acceptedAt : Nat := 0
  lockWindow : Nat := 0
  status : EscrowStatus := .none
deriving DecidableEq, Repr

/-- A transfer of ether out of the contract, for a listing. -/
structure Payout where
  listingId : Nat
  recipient : Address
  amount : Nat
deriving DecidableEq, Repr

structure DigitalEscrow where
  owner : Address
  paused : Bool := false
  /-- The guard of `nonReentrant`. -/
  locked : Bool := false
  arbitrator : Address
  listingCount : Nat := 0
  listings : ExtTreeMap Nat Listing compare := ∅
  /-- `address(this).balance` -/
  balance : Nat := 0
  payouts : List Payout := []

/-- What a call carries besides its arguments. -/
structure EscrowMessage where
  sender : Address
  value : Nat := 0
  timestamp : Nat := 0

namespace DigitalEscrow

/-- `DEFAULT_LOCK_WINDOW` -/
def defaultLockWindow : Nat := 7 * 86400

/-- `MAX_LOCK_WINDOW` -/
def maxLockWindow : Nat := 60 * 86400

abbrev Result := Except (Revert EscrowError)

def deploy (owner arbitrator : Address) : Result DigitalEscrow := do
  require (owner ≠ 0) .ownableInvalidOwner
  require (owner ≠ 0 ∧ arbitrator ≠ 0) .zeroAddress
  return { owner, arbitrator }

variable (e : DigitalEscrow) (msg : EscrowMessage)

def listing (listingId : Nat) : Listing := e.listings[listingId]?.getD {}

def setListing (listingId : Nat) (l : Listing) : DigitalEscrow :=
  { e with listings := e.listings.insert listingId l }

/-! ## Modifiers and internal functions -/

/-- `nonReentrant`, on the way in. -/
def enter : Result DigitalEscrow := do
  require (e.locked = false) .reentrantCall
  return { e with locked := true }

/-- `nonReentrant`, on the way out. -/
def leave : DigitalEscrow := { e with locked := false }

def requireStatus (l : Listing) (expected : EscrowStatus) : Result Unit := do
  require (l.status ≠ .none) .listingMissing
  require (l.status = expected) .wrongState

/-- The ether leaves, and the recipient's code starts. -/
def sendValue (listingId : Nat) (recipient : Address) (amount : Nat) : Result DigitalEscrow := do
  require (amount ≤ e.balance) .insufficientBalance
  return { e with
    balance := e.balance - amount
    payouts := e.payouts ++ [⟨listingId, recipient, amount⟩] }

def payout (listingId : Nat) (l : Listing) (recipient : Address) (finalStatus : EscrowStatus) :
    Result DigitalEscrow :=
  (e.setListing listingId { l with status := finalStatus }).sendValue listingId recipient l.price

/-! ## The functions -/

/-- The counter is incremented unchecked. -/
def nextListingId : Nat := (e.listingCount + 1) % 2 ^ 256

def list (itemHash : Nat) (uri : String) (price lockWindow : Nat) : Result DigitalEscrow := do
  require (e.paused = false) .enforcedPause
  require (price ≠ 0) .invalidPrice
  require (lockWindow ≤ maxLockWindow) .lockWindowTooHigh
  let effectiveLock := if lockWindow = 0 then defaultLockWindow else lockWindow
  let listingId := e.nextListingId
  return { e with listingCount := listingId }.setListing listingId
    { seller := msg.sender, itemHash, uri, price, lockWindow := effectiveLock, status := .listed }

def cancelListing (listingId : Nat) : Result DigitalEscrow := do
  let e ← e.enter
  let l := e.listing listingId
  requireStatus l .listed
  require (msg.sender = l.seller) .notSeller
  return (e.setListing listingId { l with status := .cancelled }).leave

def accept (listingId : Nat) : Result DigitalEscrow := do
  let l := e.listing listingId
  requireStatus l .funded
  require (msg.sender = l.seller) .notSeller
  let _lockUntil ← add msg.timestamp l.lockWindow
  return e.setListing listingId
    { l with status := .accepted, acceptedAt := msg.timestamp % 2 ^ 64 }

/-- The value of the message is in the balance from the start. -/
def buy (listingId : Nat) : Result DigitalEscrow := do
  require (e.paused = false) .enforcedPause
  let e ← e.enter
  let l := e.listing listingId
  requireStatus l .listed
  require (msg.value = l.price) .wrongPayment
  return ({ e with balance := e.balance + msg.value }.setListing listingId
    { l with buyer := msg.sender, fundedAt := msg.timestamp % 2 ^ 64, status := .funded }).leave

def cancelAsBuyer (listingId : Nat) : Result DigitalEscrow := do
  let e ← e.enter
  let l := e.listing listingId
  requireStatus l .funded
  require (msg.sender = l.buyer) .notBuyer
  (e.setListing listingId { l with status := .refundedToBuyer }).sendValue listingId l.buyer l.price

def release (listingId : Nat) : Result DigitalEscrow := do
  let e ← e.enter
  let l := e.listing listingId
  requireStatus l .accepted
  require (msg.sender = l.buyer) .notBuyer
  e.payout listingId l l.seller .paidToSeller

def dispute (listingId : Nat) : Result DigitalEscrow := do
  let l := e.listing listingId
  requireStatus l .accepted
  require (msg.sender = l.buyer ∨ msg.sender = l.seller) .notBuyer
  return e.setListing listingId { l with status := .disputed }

def resolveDispute (listingId : Nat) (payToSeller : Bool) : Result DigitalEscrow := do
  let e ← e.enter
  require (msg.sender = e.arbitrator) .notArbitrator
  let l := e.listing listingId
  requireStatus l .disputed
  if payToSeller then e.payout listingId l l.seller .paidToSeller
  else e.payout listingId l l.buyer .refundedToBuyer

def timeoutPayout (listingId : Nat) : Result DigitalEscrow := do
  let e ← e.enter
  let l := e.listing listingId
  requireStatus l .accepted
  let lockUntil ← add64 l.acceptedAt l.lockWindow
  require (lockUntil ≤ msg.timestamp) .lockNotElapsed
  e.payout listingId l l.seller .paidToSeller

def onlyOwner : Result Unit := require (msg.sender = e.owner) .ownableUnauthorizedAccount

def setArbitrator (newArbitrator : Address) : Result DigitalEscrow := do
  e.onlyOwner msg
  require (newArbitrator ≠ 0) .zeroAddress
  return { e with arbitrator := newArbitrator }

def pause : Result DigitalEscrow := do
  e.onlyOwner msg
  require (e.paused = false) .enforcedPause
  return { e with paused := true }

def unpause : Result DigitalEscrow := do
  e.onlyOwner msg
  require (e.paused = true) .expectedPause
  return { e with paused := false }

/-- Inherited from `Ownable`. -/
def transferOwnership (newOwner : Address) : Result DigitalEscrow := do
  e.onlyOwner msg
  require (newOwner ≠ 0) .ownableInvalidOwner
  return { e with owner := newOwner }

/-- Inherited from `Ownable`. -/
def renounceOwnership : Result DigitalEscrow := do
  e.onlyOwner msg
  return { e with owner := 0 }

/-! ## Calls -/

inductive Function where
  | list (itemHash : Nat) (uri : String) (price lockWindow : Nat)
  | cancelListing (listingId : Nat)
  | accept (listingId : Nat)
  | buy (listingId : Nat)
  | cancelAsBuyer (listingId : Nat)
  | release (listingId : Nat)
  | dispute (listingId : Nat)
  | resolveDispute (listingId : Nat) (payToSeller : Bool)
  | timeoutPayout (listingId : Nat)
  | setArbitrator (newArbitrator : Address)
  | pause
  | unpause
  | transferOwnership (newOwner : Address)
  | renounceOwnership
  /-- Ether that arrives without a call, as a block reward or from a contract that is destroyed. -/
  | forceEther

/-- The functions that end in the recipient's code. -/
def Function.pays : Function → Bool
  | .cancelAsBuyer _ => true
  | .release _ => true
  | .resolveDispute _ _ => true
  | .timeoutPayout _ => true
  | _ => false

def Function.payable : Function → Bool
  | .buy _ => true
  | .forceEther => true
  | _ => false

def apply : Function → Result DigitalEscrow
  | .list itemHash uri price lockWindow => e.list msg itemHash uri price lockWindow
  | .cancelListing listingId => e.cancelListing msg listingId
  | .accept listingId => e.accept msg listingId
  | .buy listingId => e.buy msg listingId
  | .cancelAsBuyer listingId => e.cancelAsBuyer msg listingId
  | .release listingId => e.release msg listingId
  | .dispute listingId => e.dispute msg listingId
  | .resolveDispute listingId payToSeller => e.resolveDispute msg listingId payToSeller
  | .timeoutPayout listingId => e.timeoutPayout msg listingId
  | .setArbitrator newArbitrator => e.setArbitrator msg newArbitrator
  | .pause => e.pause msg
  | .unpause => e.unpause msg
  | .transferOwnership newOwner => e.transferOwnership msg newOwner
  | .renounceOwnership => e.renounceOwnership msg
  | .forceEther => .ok { e with balance := e.balance + msg.value }

/-- A call of the contract: the state after it, or, when it pays, the state in which the recipient's code starts. -/
def call (c : EscrowMessage × Function) : Result (DigitalEscrow × Bool) := do
  require (c.2.payable = true ∨ c.1.value = 0) .nonPayable
  let e ← e.apply c.1 c.2
  return (e, c.2.pays)

/-- The contract under calls, re-entrant calls and reverts. -/
abbrev World := Frames.Config DigitalEscrow

abbrev Event := Frames.Event (EscrowMessage × Function)

def step : World → Event → Result World := Frames.step call leave

end DigitalEscrow
end Curs3d
