import Curs3d.Network.RateLimiter

/-!
# Around gossip (`src/network/mod.rs`)

What the event loop does with a message before and after its handler. A message that comes in passes the rate limiter,
then the score of its sender; the handler's verdict changes the score, and a timer brings scores back and forgets
peers. A message that cannot be published waits in a queue for the next flush.

A handler's verdict depends on the chain, so an event brings it along, as it brings what `publish` answers.
The counters of valid and invalid messages, which nothing reads, are left out. The queue does not look at
its messages.
-/

set_option autoImplicit false

namespace Curs3d

def PEER_SCORE_INITIAL : Int := 100
def PEER_SCORE_MAX : Int := 200
def PEER_SCORE_MIN : Int := -100
def PEER_SCORE_BAN_THRESHOLD : Int := -50
def PEER_SCORE_DECAY_PER_TICK : Int := 1
def SCORE_VALID_BLOCK : Int := 5
def SCORE_VALID_TX : Int := 1
def SCORE_INVALID_BLOCK : Int := -20
def SCORE_INVALID_TX : Int := -5
def SCORE_RATE_LIMITED : Int := -15

def MAX_PENDING_BROADCASTS : Nat := 256

/-! ## Scores -/

structure PeerScore where
  score : Int := PEER_SCORE_INITIAL
  lastUpdated : Nat
deriving DecidableEq, Repr

structure PeerScorer where
  scores : ByteMap PeerScore := ∅

namespace PeerScorer

variable (l : PeerScorer)

/-- The entry of a peer, or a new one. -/
def entry (now : Nat) (peerId : PeerId) : PeerScore := (l.scores[peerId]?).getD { lastUpdated := now }

def recordGood (now : Nat) (peerId : PeerId) (points : Int) : PeerScorer where
  scores := l.scores.insert peerId
    { score := min ((l.entry now peerId).score + points) PEER_SCORE_MAX, lastUpdated := now }

def recordBad (now : Nat) (peerId : PeerId) (points : Int) : PeerScorer where
  scores := l.scores.insert peerId
    { score := max ((l.entry now peerId).score + points) PEER_SCORE_MIN, lastUpdated := now }

def shouldBan (peerId : PeerId) : Bool :=
  (l.scores[peerId]?).any fun s => s.score ≤ PEER_SCORE_BAN_THRESHOLD

def getScore (peerId : PeerId) : Int :=
  ((l.scores[peerId]?).map PeerScore.score).getD PEER_SCORE_INITIAL

def decayed (score : Int) : Int :=
  if PEER_SCORE_INITIAL < score then max (score - PEER_SCORE_DECAY_PER_TICK) PEER_SCORE_INITIAL
  else if score < PEER_SCORE_INITIAL then min (score + PEER_SCORE_DECAY_PER_TICK) PEER_SCORE_INITIAL
  else score

def decayScores : PeerScorer where
  scores := l.scores.map fun _ s => { s with score := decayed s.score }

/-- `retain`: peers that were quiet for ten minutes go, unless they are banned. -/
def cleanup (now : Nat) : PeerScorer where
  scores := l.scores.filter fun _ s =>
    now - s.lastUpdated < fromSecs 600 ∨ s.score ≤ PEER_SCORE_BAN_THRESHOLD

end PeerScorer

/-! ## The way in -/

/-- What the handler says of a message; only blocks and transactions are scored. -/
inductive Verdict where
  | block (accepted : Bool)
  | transaction (ok : Bool)
  | other
deriving DecidableEq, Repr

/-- The limiter and the scores of one node. -/
structure PeerGate where
  rateLimiter : PeerRateLimiter := {}
  peerScorer : PeerScorer := {}

namespace PeerGate

variable (g : PeerGate)

/-- The score for a message that was handled. -/
def judge (now : Nat) (source : PeerId) (verdict : Verdict) : PeerScorer :=
  match verdict with
  | .block true => g.peerScorer.recordGood now source SCORE_VALID_BLOCK
  | .block false => g.peerScorer.recordBad now source SCORE_INVALID_BLOCK
  | .transaction true => g.peerScorer.recordGood now source SCORE_VALID_TX
  | .transaction false => g.peerScorer.recordBad now source SCORE_INVALID_TX
  | .other => g.peerScorer

/-- A message comes in: whether it reaches its handler, and the gate after it. -/
def receive (now : Nat) (source : Option PeerId) (verdict : Verdict) : Bool × PeerGate :=
  match source with
  | none => (true, g)
  | some source =>
    let (allowed, rateLimiter) := g.rateLimiter.check now source
    if !allowed then
      (false, { rateLimiter, peerScorer := g.peerScorer.recordBad now source SCORE_RATE_LIMITED })
    else if g.peerScorer.shouldBan source then (false, { g with rateLimiter })
    else (true, { rateLimiter, peerScorer := g.judge now source verdict })

/-- `rate_limiter_cleanup_timer`. -/
def tick (now : Nat) (order : List PeerId) : PeerGate where
  rateLimiter := g.rateLimiter.cleanup now order
  peerScorer := g.peerScorer.decayScores.cleanup now

end PeerGate

inductive GateCall where
  | receive (source : Option PeerId) (verdict : Verdict)
  | tick (order : List PeerId)

structure GateEvent where
  now : Nat
  call : GateCall

namespace PeerGate

def step (g : PeerGate) (e : GateEvent) : PeerGate :=
  match e.call with
  | .receive source verdict => (g.receive e.now source verdict).2
  | .tick order => g.tick e.now order

def run (g : PeerGate) (events : List GateEvent) : PeerGate := events.foldl step g

end PeerGate

/-! ## The way out -/

section Broadcasts

variable {α : Type}

def enqueuePendingBroadcast (pending : List α) (message : α) : List α :=
  (if MAX_PENDING_BROADCASTS ≤ pending.length then pending.tail else pending) ++ [message]

/-- What is published and what is pending, when `publish` takes the message or not. -/
def broadcastOrQueue (published : Bool) (message : α) (pending : List α) : List α × List α :=
  if published then ([message], pending) else ([], enqueuePendingBroadcast pending message)

/-- What is published and what remains; `published` is what `publish` answers, one attempt after the other. -/
def flushPendingBroadcasts (published : Nat → Bool) : List α → List α × List α
  | [] => ([], [])
  | message :: rest =>
    let (sent, remaining) := flushPendingBroadcasts (fun attempt => published (attempt + 1)) rest
    if published 0 then (message :: sent, remaining) else (sent, message :: remaining)

/-- What the event loop does with its queue. -/
inductive BroadcastEvent (α : Type) where
  | broadcast (published : Bool) (message : α)
  | flush (published : Nat → Bool)

/-- What was published so far, and the queue. -/
def broadcastStep (s : List α × List α) (e : BroadcastEvent α) : List α × List α :=
  match e with
  | .broadcast published message =>
    let (sent, pending) := broadcastOrQueue published message s.2
    (s.1 ++ sent, pending)
  | .flush published =>
    let (sent, pending) := flushPendingBroadcasts published s.2
    (s.1 ++ sent, pending)

end Broadcasts

end Curs3d
