import Curs3d.Core.Types

/-!
# The peer rate limiter (`src/network/mod.rs`)

`PeerRateLimiter` of the P2P layer: one entry a peer, with the times of its recent messages and its ban. `check`
is called on every message and `cleanup` by a timer.

An `Instant` is the number of nanoseconds since some start, and `duration_since` saturates. The hash map is
iterated in an order of its own, which `cleanup` takes as an argument.
-/

set_option autoImplicit false

namespace Curs3d

def PEER_RATE_LIMIT_WINDOW_SECS : Nat := 10

def PEER_MAX_MESSAGES_PER_WINDOW : Nat := 500

def PEER_BAN_DURATION_SECS : Nat := 300

def PEER_MAX_TRACKED : Nat := 2000

/-- `Duration::from_secs`. -/
def fromSecs (secs : Nat) : Nat := secs * 1000000000

abbrev PeerId := Bytes

structure PeerRateState where
  messageTimestamps : List Nat := []
  bannedUntil : Option Nat := none
  totalViolations : Nat := 0
deriving DecidableEq, Repr

namespace PeerRateState

/-- The times that are not outside the window; the oldest is first. -/
def evict (now : Nat) (timestamps : List Nat) : List Nat :=
  timestamps.dropWhile fun ts => fromSecs PEER_RATE_LIMIT_WINDOW_SECS < now - ts

/-- `check` for a peer without a ban. -/
def checkRate (now : Nat) (state : PeerRateState) : Bool × PeerRateState :=
  let recent := evict now state.messageTimestamps
  if PEER_MAX_MESSAGES_PER_WINDOW ≤ recent.length then
    let violations := state.totalViolations + 1
    (false,
      { messageTimestamps := recent
        bannedUntil := some (now + fromSecs (PEER_BAN_DURATION_SECS * violations))
        totalViolations := violations })
  else (true, { state with messageTimestamps := recent ++ [now] })

def check (now : Nat) (state : PeerRateState) : Bool × PeerRateState :=
  match state.bannedUntil with
  | none => state.checkRate now
  | some banUntil =>
    if now < banUntil then (false, state) else { state with bannedUntil := none }.checkRate now

def isBanned (now : Nat) (state : PeerRateState) : Bool :=
  state.bannedUntil.any fun banUntil => now < banUntil

/-- An active ban, or a message not long ago. -/
def recent (now : Nat) (state : PeerRateState) : Bool :=
  state.isBanned now || state.messageTimestamps.getLast?.any fun ts =>
    now - ts < fromSecs (PEER_RATE_LIMIT_WINDOW_SECS * 6)

end PeerRateState

structure PeerRateLimiter where
  peers : ByteMap PeerRateState := ∅

namespace PeerRateLimiter

variable (l : PeerRateLimiter)

/-- The entry of a peer, or a new one. -/
def stateOf (peerId : PeerId) : PeerRateState := (l.peers[peerId]?).getD {}

def check (now : Nat) (peerId : PeerId) : Bool × PeerRateLimiter :=
  let (allowed, state) := (l.stateOf peerId).check now
  (allowed, { peers := l.peers.insert peerId state })

def isBanned (now : Nat) (peerId : PeerId) : Bool :=
  (l.peers[peerId]?).any fun state => state.isBanned now

/-- `retain`: stale entries go. -/
def retainRecent (now : Nat) : PeerRateLimiter where
  peers := l.peers.filter fun _ state => state.recent now

/-- The peers over the hard cap, first come first: those without a ban. -/
def keysToRemove (order : List PeerId) : List PeerId :=
  if PEER_MAX_TRACKED < l.peers.size then
    (order.filter fun key => (l.peers[key]?).any fun state => state.bannedUntil.isNone).take
      (l.peers.size - PEER_MAX_TRACKED)
  else []

def cleanup (now : Nat) (order : List PeerId) : PeerRateLimiter :=
  let kept := l.retainRecent now
  { peers := (kept.keysToRemove order).foldl (fun peers key => peers.erase key) kept.peers }

end PeerRateLimiter

/-! ## Runs -/

inductive LimiterCall where
  | check (peerId : PeerId)
  | cleanup (order : List PeerId)

structure LimiterEvent where
  now : Nat
  call : LimiterCall

namespace PeerRateLimiter

def step (l : PeerRateLimiter) (e : LimiterEvent) : PeerRateLimiter :=
  match e.call with
  | .check peerId => (l.check e.now peerId).2
  | .cleanup order => l.cleanup e.now order

def run (l : PeerRateLimiter) (events : List LimiterEvent) : PeerRateLimiter := events.foldl step l

/-- `check` lets a message of `peerId` through. -/
def allows (peerId : PeerId) (l : PeerRateLimiter) (e : LimiterEvent) : Bool :=
  match e.call with
  | .check sender => sender = peerId ∧ (l.check e.now sender).1
  | .cleanup _ => false

/-- The hard cap drops the entry of `peerId`. -/
def drops (peerId : PeerId) (l : PeerRateLimiter) (e : LimiterEvent) : Bool :=
  match e.call with
  | .check _ => false
  | .cleanup order => (l.retainRecent e.now).keysToRemove order |>.contains peerId

/-- How many events of a run `f` holds of, at the limiter they meet. -/
def count (f : PeerRateLimiter → LimiterEvent → Bool) (l : PeerRateLimiter) :
    List LimiterEvent → Nat
  | [] => 0
  | e :: rest => (f l e).toNat + count f (l.step e) rest

end PeerRateLimiter

end Curs3d
