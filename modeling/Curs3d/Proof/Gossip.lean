import Curs3d.Network.Gossip
import Curs3d.Lib.KeyMap
import Curs3d.Lib.Outbox

/-!
# Bans, and what becomes of a broadcast

A peer whose messages are turned away for its score earned that: it pays 15 for a message over the rate, 20
for a bad block, 5 for a bad transaction, and starts with 150 to spare. Nobody else's messages cost it anything.
And the ban ends: each tick of the timer gives a point back, so that 51 ticks are enough as long as the peer stays
within the rate.

A message that is to be broadcast is published once, or waits, or was displaced by newer ones.
-/

set_option autoImplicit false

namespace Curs3d

open Std (ExtTreeMap)

/-! ## Scores -/

namespace PeerScorer

variable {l : PeerScorer} {now : Nat} {source peerId : PeerId} {points : Int}

theorem entry_score : (l.entry now peerId).score = l.getScore peerId := by
  unfold entry getScore
  cases l.scores[peerId]? with
  | none => rfl
  | some s => rfl

theorem shouldBan_iff : l.shouldBan peerId = true ↔ l.getScore peerId ≤ PEER_SCORE_BAN_THRESHOLD := by
  unfold shouldBan getScore
  cases l.scores[peerId]? with
  | none => decide
  | some s => exact decide_eq_true_iff

theorem getScore_recordGood : (l.recordGood now source points).getScore peerId =
    if source = peerId then min (l.getScore peerId + points) PEER_SCORE_MAX else l.getScore peerId := by
  unfold recordGood getScore
  dsimp only
  rw [KeyMap.getElem?_insert_eq]
  split
  · next hsame =>
    rw [hsame, entry_score]
    rfl
  · rfl

theorem getScore_recordBad : (l.recordBad now source points).getScore peerId =
    if source = peerId then max (l.getScore peerId + points) PEER_SCORE_MIN else l.getScore peerId := by
  unfold recordBad getScore
  dsimp only
  rw [KeyMap.getElem?_insert_eq]
  split
  · next hsame =>
    rw [hsame, entry_score]
    rfl
  · rfl

/-- A peer without an entry has the score that every score goes back to. -/
theorem getScore_decayScores : l.decayScores.getScore peerId = decayed (l.getScore peerId) := by
  unfold decayScores getScore
  dsimp only
  rw [ExtTreeMap.getElem?_map]
  cases l.scores[peerId]? with
  | none => rfl
  | some s => rfl

/-- A banned peer is not forgotten. -/
theorem getScore_cleanup : (l.cleanup now).getScore peerId = l.getScore peerId ∨
    PEER_SCORE_BAN_THRESHOLD < l.getScore peerId ∧
      (l.cleanup now).getScore peerId = PEER_SCORE_INITIAL := by
  unfold cleanup getScore
  dsimp only
  cases hentry : l.scores[peerId]? with
  | none =>
    rw [ExtTreeMap.getElem?_filter', hentry]
    exact Or.inl rfl
  | some s =>
    rw [ExtTreeMap.getElem?_filter', hentry, Option.filter_some]
    split
    · exact Or.inl rfl
    · next hgone =>
      refine Or.inr ⟨?_, rfl⟩
      rw [decide_eq_true_iff, not_or] at hgone
      exact not_le.mp hgone.2

theorem le_decayed (score : Int) : min score PEER_SCORE_INITIAL ≤ decayed score := by
  unfold decayed PEER_SCORE_INITIAL PEER_SCORE_DECAY_PER_TICK
  grind

theorem decayed_le {score : Int} (h : score ≤ PEER_SCORE_MAX) : decayed score ≤ PEER_SCORE_MAX := by
  unfold PEER_SCORE_MAX at h ⊢
  unfold decayed PEER_SCORE_INITIAL PEER_SCORE_DECAY_PER_TICK
  grind

/-- Under a ban each tick gives a point back. -/
theorem decayed_of_banned {score : Int} (h : score ≤ PEER_SCORE_BAN_THRESHOLD) :
    decayed score = score + 1 := by
  unfold PEER_SCORE_BAN_THRESHOLD at h
  unfold decayed PEER_SCORE_INITIAL PEER_SCORE_DECAY_PER_TICK
  grind

end PeerScorer

namespace PeerGate

open PeerScorer

variable {g : PeerGate} {p : PeerId} {e : GateEvent} {events : List GateEvent}

def score (g : PeerGate) (p : PeerId) : Int := g.peerScorer.getScore p

/-- What an event costs a peer: only its own messages can, the ones over the rate and the bad ones. -/
def penalty (g : PeerGate) (p : PeerId) (e : GateEvent) : Int :=
  match e.call with
  | .tick _ => 0
  | .receive source verdict =>
    if source ≠ some p then 0
    else if (g.rateLimiter.check e.now p).1 = false then 15
    else if g.peerScorer.shouldBan p then 0
    else if verdict = .block false then 20
    else if verdict = .transaction false then 5
    else 0

/-- What the events of a run cost a peer. -/
def penalties (g : PeerGate) (p : PeerId) : List GateEvent → Int
  | [] => 0
  | e :: rest => g.penalty p e + penalties (g.step e) p rest

/-- **What one event does to the score of a peer**: a penalty, points, or nothing; and a tick, which may end in
the entry's being forgotten. -/
inductive Scored (g : PeerGate) (p : PeerId) (e : GateEvent) (score : Int) : Prop
  | bad (hcost : 0 < g.penalty p e) (hscore : score = max (g.score p - g.penalty p e) PEER_SCORE_MIN)
    (hcall : ∀ order, e.call ≠ .tick order)
  | good (points : Int) (hcost : g.penalty p e = 0) (hpoints : 0 ≤ points)
    (hfree : g.peerScorer.shouldBan p = false) (hscore : score = min (g.score p + points) PEER_SCORE_MAX)
    (hcall : ∀ order, e.call ≠ .tick order)
  | same (hcost : g.penalty p e = 0) (hscore : score = g.score p) (hcall : ∀ order, e.call ≠ .tick order)
  | tick (order : List PeerId) (hcost : g.penalty p e = 0) (hcall : e.call = .tick order)
    (hscore : score = decayed (g.score p) ∨
      PEER_SCORE_BAN_THRESHOLD < decayed (g.score p) ∧ score = PEER_SCORE_INITIAL)

theorem scored_judge {now : Nat} {verdict : Verdict} (hcall : e.call = .receive (some p) verdict)
    (hpasses : (g.rateLimiter.check e.now p).1 = true) (hfree : g.peerScorer.shouldBan p = false) :
    Scored g p e ((g.judge now p verdict).getScore p) := by
  have htick : ∀ order, e.call ≠ .tick order := by
    intro order h
    rw [hcall] at h
    cases h
  have hcost : g.penalty p e =
      if verdict = .block false then 20 else if verdict = .transaction false then 5 else 0 := by
    unfold penalty
    rw [hcall]
    simp [hpasses, hfree]
  unfold judge
  cases verdict with
  | block accepted =>
    cases accepted with
    | true =>
      refine .good SCORE_VALID_BLOCK hcost (by decide) hfree ?_ htick
      exact getScore_recordGood.trans (if_pos rfl)
    | false =>
      refine .bad (by rw [hcost]; decide) ?_ htick
      rw [hcost]
      exact getScore_recordBad.trans (if_pos rfl)
  | transaction ok =>
    cases ok with
    | true =>
      refine .good SCORE_VALID_TX hcost (by decide) hfree ?_ htick
      exact getScore_recordGood.trans (if_pos rfl)
    | false =>
      refine .bad (by rw [hcost]; decide) ?_ htick
      rw [hcost]
      exact getScore_recordBad.trans (if_pos rfl)
  | other => exact .same hcost rfl htick

/-- Another peer's verdict is nothing to this one. -/
theorem getScore_judge_of_ne {now : Nat} {source : PeerId} {verdict : Verdict} (h : source ≠ p) :
    (g.judge now source verdict).getScore p = g.score p := by
  unfold judge
  split
  · exact getScore_recordGood.trans (if_neg h)
  · exact getScore_recordBad.trans (if_neg h)
  · exact getScore_recordGood.trans (if_neg h)
  · exact getScore_recordBad.trans (if_neg h)
  · rfl

theorem score_step_of_ne {source : Option PeerId} {verdict : Verdict}
    (hcall : e.call = .receive source verdict) (h : source ≠ some p) : (g.step e).score p = g.score p := by
  unfold step receive score
  rw [hcall]
  dsimp only
  split
  · rfl
  · next source =>
    have hne : source ≠ p := fun hsame => h (congrArg some hsame)
    split
    · exact getScore_recordBad.trans (if_neg hne)
    · split
      · rfl
      · exact getScore_judge_of_ne hne

theorem scored_step (g : PeerGate) (p : PeerId) (e : GateEvent) : Scored g p e ((g.step e).score p) := by
  cases hcall : e.call with
  | tick order =>
    have hcost : g.penalty p e = 0 := by
      unfold penalty
      rw [hcall]
    refine .tick order hcost hcall ?_
    have hstep : (g.step e).score p = (g.peerScorer.decayScores.cleanup e.now).getScore p := by
      unfold step
      rw [hcall]
      rfl
    have hcleanup := @getScore_cleanup g.peerScorer.decayScores e.now p
    rw [getScore_decayScores, ← hstep] at hcleanup
    exact hcleanup
  | receive source verdict =>
    have htick : ∀ order, e.call ≠ .tick order := by
      intro order h
      rw [hcall] at h
      cases h
    by_cases hsource : source = some p
    swap
    · refine .same ?_ (score_step_of_ne hcall hsource) htick
      unfold penalty
      rw [hcall]
      exact if_pos hsource
    subst hsource
    by_cases hover : (g.rateLimiter.check e.now p).1 = false
    · have hcost : g.penalty p e = 15 := by
        unfold penalty
        rw [hcall]
        simp [hover]
      have hstep : (g.step e).score p = (g.peerScorer.recordBad e.now p SCORE_RATE_LIMITED).getScore p := by
        unfold step receive score
        rw [hcall]
        simp [hover]
      refine .bad (by rw [hcost]; decide) ?_ htick
      rw [hstep, hcost]
      exact getScore_recordBad.trans (if_pos rfl)
    have hpasses : (g.rateLimiter.check e.now p).1 = true := Bool.of_not_eq_false hover
    by_cases hban : g.peerScorer.shouldBan p = true
    · refine .same ?_ ?_ htick
      · unfold penalty
        rw [hcall]
        simp [hpasses, hban]
      · unfold step receive score
        rw [hcall]
        simp [hpasses, hban]
    have hfree : g.peerScorer.shouldBan p = false := Bool.of_not_eq_true hban
    have hstep : (g.step e).score p = (g.judge e.now p verdict).getScore p := by
      unfold step receive score
      rw [hcall]
      simp [hpasses, hfree]
    rw [hstep]
    exact scored_judge hcall hpasses hfree

theorem penalty_nonneg (g : PeerGate) (p : PeerId) (e : GateEvent) : 0 ≤ g.penalty p e := by
  cases scored_step g p e with
  | bad hcost => exact hcost.le
  | good _ hcost | same hcost | tick _ hcost => exact hcost.ge

/-! ## A ban is earned -/

/-- The lowest and the highest score, and `paid` below the initial score at most. -/
structure Fair (paid : Int) (p : PeerId) (g : PeerGate) : Prop where
  lowest : PEER_SCORE_MIN ≤ g.score p
  highest : g.score p ≤ PEER_SCORE_MAX
  earned : PEER_SCORE_INITIAL - paid ≤ g.score p

theorem fair_new : Fair 0 p {} := by
  have hscore : score {} p = PEER_SCORE_INITIAL := by simp [score, getScore]
  constructor <;> rw [hscore] <;> decide

theorem Fair.step {paid : Int} (h : Fair paid p g) (hpaid : 0 ≤ paid) :
    Fair (paid + g.penalty p e) p (g.step e) := by
  obtain ⟨hlowest, hhighest, hearned⟩ := h
  unfold PEER_SCORE_MIN at hlowest
  have htop : PEER_SCORE_MAX = 200 := rfl
  unfold PEER_SCORE_INITIAL at hearned
  cases scored_step g p e with
  | bad hcost hscore =>
    unfold PEER_SCORE_MIN at hscore
    constructor <;> rw [hscore]
    · exact le_max_right _ _
    · exact max_le (by omega) (by decide)
    · exact le_max_of_le_left (by unfold PEER_SCORE_INITIAL; omega)
  | good points hcost hpoints _ hscore =>
    have hmore : g.score p ≤ (g.step e).score p := by
      rw [hscore]
      exact le_min (le_add_of_nonneg_right hpoints) hhighest
    rw [hcost, add_zero]
    exact ⟨hlowest.trans hmore, hscore.le.trans (min_le_right _ _), hearned.trans hmore⟩
  | same hcost hscore =>
    rw [hcost, add_zero]
    exact ⟨hlowest.trans hscore.ge, hscore.le.trans hhighest, hearned.trans hscore.ge⟩
  | tick _ hcost _ hscore =>
    rw [hcost, add_zero]
    rcases hscore with hscore | ⟨-, hscore⟩
    · have hmore := le_decayed (g.score p)
      rw [← hscore] at hmore
      have hfloor : ∀ n ≤ PEER_SCORE_INITIAL, n ≤ g.score p → n ≤ (g.step e).score p := fun n hn hle =>
        (le_min hle hn).trans hmore
      refine ⟨hfloor _ (by decide) hlowest, hscore.le.trans (decayed_le hhighest), ?_⟩
      exact hfloor _ (sub_le_self _ hpaid) hearned
    · constructor <;> rw [hscore]
      · decide
      · decide
      · exact sub_le_self _ hpaid

/-- **A run**, by induction on its events. -/
theorem Fair.run {paid : Int} (h : Fair paid p g) (hpaid : 0 ≤ paid) :
    Fair (paid + g.penalties p events) p (g.run events) := by
  induction events generalizing g paid with
  | nil =>
    rw [penalties, add_zero]
    exact h
  | cons e rest ih =>
    rw [penalties, ← add_assoc]
    exact ih (h.step hpaid) (add_nonneg hpaid (penalty_nonneg g p e))

/-! ## A ban ends -/

def isTick (e : GateEvent) : Bool :=
  match e.call with
  | .tick _ => true
  | .receive _ _ => false

def ticks (events : List GateEvent) : Nat := events.countP isTick

/-- Every message of the peer is within the rate, when it comes. -/
def WithinRate (g : PeerGate) (p : PeerId) (events : List GateEvent) : Prop :=
  ∀ before e rest verdict, events = before ++ e :: rest → e.call = .receive (some p) verdict →
    ((g.run before).rateLimiter.check e.now p).1 = true

theorem WithinRate.tail {rest : List GateEvent} (h : WithinRate g p (e :: rest)) :
    WithinRate (g.step e) p rest := fun before e' rest' verdict hsplit hcall =>
  h (e :: before) e' rest' verdict (congrArg (e :: ·) hsplit) hcall

/-- A banned peer within the rate pays nothing more. -/
theorem penalty_of_banned (hwithin : ∀ verdict, e.call = .receive (some p) verdict →
    (g.rateLimiter.check e.now p).1 = true) (hban : g.peerScorer.shouldBan p = true) :
    g.penalty p e = 0 := by
  unfold penalty
  split
  · rfl
  · next source verdict hcall =>
    by_cases hsource : source = some p
    · subst hsource
      simp [hwithin verdict hcall, hban]
    · exact if_pos hsource

/-- A peer that a tick leaves banned has a point more. -/
theorem score_step_of_banned (hwithin : ∀ verdict, e.call = .receive (some p) verdict →
    (g.rateLimiter.check e.now p).1 = true) (hban : g.peerScorer.shouldBan p = true)
    (hafter : (g.step e).peerScorer.shouldBan p = true) :
    (g.step e).score p = g.score p + (isTick e).toNat := by
  have hnone : (∀ order, e.call ≠ .tick order) → isTick e = false := by
    intro h
    unfold isTick
    split
    · next order hcall => exact absurd hcall (h order)
    · rfl
  cases scored_step g p e with
  | bad hcost =>
    rw [penalty_of_banned hwithin hban] at hcost
    exact absurd hcost (lt_irrefl 0)
  | good _ _ _ hfree =>
    rw [hban] at hfree
    cases hfree
  | same _ hscore hcall =>
    rw [hscore, hnone hcall]
    exact (add_zero _).symm
  | tick order _ hcall hscore =>
    have htick : isTick e = true := by
      unfold isTick
      rw [hcall]
    rcases hscore with hscore | ⟨-, hscore⟩
    · have hlow : g.score p ≤ PEER_SCORE_BAN_THRESHOLD := shouldBan_iff.mp hban
      rw [hscore, decayed_of_banned hlow, htick]
      rfl
    · have hlow := shouldBan_iff.mp hafter
      rw [show (g.step e).peerScorer.getScore p = PEER_SCORE_INITIAL from hscore] at hlow
      exact absurd hlow (by decide)

/-- While the ban lasts there is no room for more ticks than points to the threshold; by induction on the events. -/
theorem ticks_le_of_banned (hwithin : WithinRate g p events)
    (hbanned : ∀ soon, soon <+: events → (g.run soon).peerScorer.shouldBan p = true) :
    g.score p + ticks events ≤ PEER_SCORE_BAN_THRESHOLD := by
  induction events generalizing g with
  | nil =>
    rw [ticks, List.countP_nil, Nat.cast_zero, add_zero]
    exact shouldBan_iff.mp (hbanned [] (List.prefix_refl []))
  | cons e rest ih =>
    have hlater : ∀ soon, soon <+: rest → ((g.step e).run soon).peerScorer.shouldBan p = true :=
      fun soon hsoon => hbanned (e :: soon) ((List.prefix_cons_inj e).mpr hsoon)
    have hscore : (g.step e).score p = g.score p + (isTick e).toNat :=
      score_step_of_banned (fun verdict hcall => hwithin [] e rest verdict rfl hcall)
        (hbanned [] List.nil_prefix) (hlater [] List.nil_prefix)
    have hcount : ticks (e :: rest) = (isTick e).toNat + ticks rest := by
      unfold ticks
      rw [List.countP_cons, Nat.add_comm]
      cases isTick e <;> rfl
    calc g.score p + (ticks (e :: rest) : Nat)
        = (g.step e).score p + ticks rest := by rw [hscore, hcount, Nat.cast_add, add_assoc]
      _ ≤ PEER_SCORE_BAN_THRESHOLD := ih hwithin.tail hlater

/-- **A ban costs 150 points of one's own, and ends within 51 ticks for a peer that stays within the rate.** -/
theorem bans_are_fair (p : PeerId) (events : List GateEvent) :
    (((run {} events).peerScorer.shouldBan p = true) → 150 ≤ penalties {} p events) ∧
    ∀ later, WithinRate (run {} events) p later → 51 ≤ ticks later →
      ∃ soon, soon <+: later ∧ ((run {} events).run soon).peerScorer.shouldBan p = false := by
  have hfair : Fair (0 + penalties {} p events) p (run {} events) := fair_new.run (le_refl 0)
  constructor
  · intro hban
    have hscore := shouldBan_iff.mp hban
    have hearned := hfair.earned.trans hscore
    unfold PEER_SCORE_INITIAL PEER_SCORE_BAN_THRESHOLD at hearned
    omega
  · intro later hwithin hticks
    by_contra hstays
    push Not at hstays
    have hbanned : ∀ soon, soon <+: later → ((run {} events).run soon).peerScorer.shouldBan p = true :=
      fun soon hsoon => Bool.of_not_eq_false (hstays soon hsoon)
    have hroom := ticks_le_of_banned hwithin hbanned
    have hlowest := hfair.lowest
    unfold PEER_SCORE_BAN_THRESHOLD at hroom
    unfold PEER_SCORE_MIN at hlowest
    omega

/-! A peer sends eight bad blocks, and the timer runs. -/

def spammer : PeerId := [7]

def badBlocks : List GateEvent := List.replicate 8 ⟨0, .receive (some spammer) (.block false)⟩

def timer : List GateEvent := List.replicate 51 ⟨0, .tick [spammer]⟩

theorem bans_are_fair_sample :
    150 ≤ penalties {} spammer badBlocks ∧
      ∃ soon, soon <+: timer ∧ ((run {} badBlocks).run soon).peerScorer.shouldBan spammer = false := by
  refine ⟨(bans_are_fair spammer badBlocks).1 (by decide +kernel), (bans_are_fair spammer badBlocks).2 timer ?_ ?_⟩
  · intro before e rest verdict hsplit hcall
    have hmem : e ∈ timer := by
      rw [hsplit]
      exact List.mem_append_right _ List.mem_cons_self
    rw [List.eq_of_mem_replicate hmem] at hcall
    cases hcall
  · rw [ticks, timer, List.countP_replicate]
    rfl

end PeerGate

/-! ## The way out -/

section Broadcasts

variable {α : Type} {s : List α × List α} {o : Outbox α} {e : BroadcastEvent α}

theorem flushPendingBroadcasts_perm (published : Nat → Bool) (pending : List α) :
    pending.Perm ((flushPendingBroadcasts published pending).1 ++
      (flushPendingBroadcasts published pending).2) := by
  induction pending generalizing published with
  | nil => exact .refl []
  | cons message rest ih =>
    have hrest := ih fun attempt => published (attempt + 1)
    unfold flushPendingBroadcasts
    dsimp only
    split
    · exact hrest.cons message
    · exact (hrest.cons message).trans List.perm_middle.symm

theorem flushPendingBroadcasts_sublist (published : Nat → Bool) (pending : List α) :
    (flushPendingBroadcasts published pending).2.Sublist pending := by
  induction pending generalizing published with
  | nil => exact .refl []
  | cons message rest ih =>
    have hrest := ih fun attempt => published (attempt + 1)
    unfold flushPendingBroadcasts
    dsimp only
    split
    · exact hrest.cons message
    · exact hrest.cons_cons message

def BroadcastEvent.submitted : BroadcastEvent α → List α
  | .broadcast _ message => [message]
  | .flush _ => []

/-- What the loop publishes and keeps is the outbox's. -/
structure Keeps (s : List α × List α) (o : Outbox α) : Prop where
  sent : o.sent = s.1
  waiting : o.waiting = s.2

/-- **An event is a step of the outbox.** -/
theorem Keeps.step (h : Keeps s o) (e : BroadcastEvent α) :
    ∃ o', Outbox.Step MAX_PENDING_BROADCASTS o o' ∧ Keeps (broadcastStep s e) o' ∧
      o'.submitted = o.submitted ++ e.submitted := by
  obtain ⟨hsent, hwaiting⟩ := h
  cases e with
  | flush published =>
    refine ⟨_, .resend (flushPendingBroadcasts published s.2).2 (flushPendingBroadcasts published s.2).1 ?_ ?_,
      ⟨?_, rfl⟩, (List.append_nil _).symm⟩
    · rw [hwaiting]
      exact flushPendingBroadcasts_perm published s.2
    · rw [hwaiting]
      exact flushPendingBroadcasts_sublist published s.2
    · rw [hsent]
      rfl
  | broadcast published message =>
    cases published with
    | true =>
      refine ⟨_, .send message, ⟨?_, hwaiting⟩, rfl⟩
      rw [hsent]
      rfl
    | false =>
      by_cases hfull : MAX_PENDING_BROADCASTS ≤ s.2.length
      · obtain ⟨oldest, rest, hpending⟩ := List.exists_cons_of_length_pos (Nat.lt_of_lt_of_le (by decide) hfull)
        refine ⟨_, .overflow message oldest rest (hwaiting.trans hpending) (hwaiting ▸ hfull), ⟨?_, ?_⟩, rfl⟩
        · rw [hsent]
          exact (List.append_nil _).symm
        · show rest ++ [message] = enqueuePendingBroadcast s.2 message
          rw [enqueuePendingBroadcast, if_pos hfull, hpending, List.tail_cons]
      · refine ⟨_, .keep message (hwaiting ▸ not_le.mp hfull), ⟨?_, ?_⟩, rfl⟩
        · rw [hsent]
          exact (List.append_nil _).symm
        · show o.waiting ++ [message] = enqueuePendingBroadcast s.2 message
          rw [enqueuePendingBroadcast, if_neg hfull, hwaiting]

theorem Keeps.run (h : Keeps s o) (events : List (BroadcastEvent α)) :
    ∃ o', Relation.ReflTransGen (Outbox.Step MAX_PENDING_BROADCASTS) o o' ∧
      Keeps (events.foldl broadcastStep s) o' ∧
      o'.submitted = o.submitted ++ events.flatMap BroadcastEvent.submitted := by
  induction events generalizing s o with
  | nil => exact ⟨o, .refl, h, (List.append_nil _).symm⟩
  | cons e rest ih =>
    obtain ⟨o₁, hstep, hkeeps, hone⟩ := h.step e
    obtain ⟨o₂, hrun, hlast, hmore⟩ := ih hkeeps
    refine ⟨o₂, .head hstep hrun, hlast, ?_⟩
    rw [hmore, hone, List.flatMap_cons, List.append_assoc]

end Broadcasts

end Curs3d
