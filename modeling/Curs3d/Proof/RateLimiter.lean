import Curs3d.Network.RateLimiter
import Curs3d.Lib.KeyMap
import Curs3d.Proof.Encoding

/-!
# What the rate limiter lets through

Within ten seconds a peer gets at most five hundred messages through, and none under a ban, as long as its
entry is there. `cleanup` drops entries in two ways. A stale entry holds no message that a window could still
count, so it is not missed. The hard cap, which keeps the table bounded, takes any entry without a ban, and a peer
it takes starts again from zero: each time within a window is worth another five hundred messages
(`rate_limit_within_drops`). A ban outlasts both.
-/

set_option autoImplicit false

namespace Curs3d

open Std (ExtTreeMap)
open PeerRateLimiter

namespace PeerRateState

variable {now t : Nat} {s : PeerRateState} {l : List Nat}

/-- How many of the times are at `t` or later. -/
def since (t : Nat) (l : List Nat) : Nat := l.countP fun ts => t ≤ ts

/-- The times are in order, none is later than `now`, and there are no more than the limit. -/
structure Ordered (now : Nat) (s : PeerRateState) : Prop where
  sorted : s.messageTimestamps.Pairwise (· ≤ ·)
  past : ∀ ts ∈ s.messageTimestamps, ts ≤ now
  length : s.messageTimestamps.length ≤ PEER_MAX_MESSAGES_PER_WINDOW

theorem since_le_length : since t l ≤ l.length := List.countP_le_length

theorem since_eq_zero (h : ∀ ts ∈ l, ts < t) : since t l = 0 := by
  apply List.countP_eq_zero.mpr
  intro ts hts
  simpa using h ts hts

/-- Nothing that a window still counts is evicted. -/
theorem since_evict (h : now ≤ t + fromSecs PEER_RATE_LIMIT_WINDOW_SECS) :
    since t (evict now l) = since t l := by
  induction l with
  | nil => rfl
  | cons ts l ih =>
    unfold evict at ih ⊢
    rw [List.dropWhile_cons]
    split
    · next hold =>
      have hbefore : ¬ t ≤ ts := by
        have hage := of_decide_eq_true hold
        omega
      rw [ih, since, since, List.countP_cons_of_neg (by simpa using hbefore)]
    · rfl

theorem evict_sublist : (evict now l).Sublist l := (List.dropWhile_suffix _).sublist

/-- What a check leaves: the times it had, or those inside the window, or these and its own. -/
theorem check_cases (now : Nat) (s : PeerRateState) :
    ((s.check now).1 = true ∧ (evict now s.messageTimestamps).length < PEER_MAX_MESSAGES_PER_WINDOW ∧
      (s.check now).2.messageTimestamps = evict now s.messageTimestamps ++ [now]) ∨
    ((s.check now).1 = false ∧ ((s.check now).2.messageTimestamps = s.messageTimestamps ∨
      (s.check now).2.messageTimestamps = evict now s.messageTimestamps)) := by
  have hrate : ∀ s : PeerRateState,
      ((s.checkRate now).1 = true ∧
        (evict now s.messageTimestamps).length < PEER_MAX_MESSAGES_PER_WINDOW ∧
        (s.checkRate now).2.messageTimestamps = evict now s.messageTimestamps ++ [now]) ∨
      ((s.checkRate now).1 = false ∧
        (s.checkRate now).2.messageTimestamps = evict now s.messageTimestamps) := by
    intro s
    unfold checkRate
    dsimp only
    split
    · exact Or.inr ⟨rfl, rfl⟩
    · next hroom => exact Or.inl ⟨rfl, not_le.mp hroom, rfl⟩
  unfold check
  split
  · rcases hrate s with h | ⟨hfalse, htimes⟩
    · exact Or.inl h
    · exact Or.inr ⟨hfalse, Or.inr htimes⟩
  · split
    · exact Or.inr ⟨rfl, Or.inl rfl⟩
    · rcases hrate { s with bannedUntil := none } with h | ⟨hfalse, htimes⟩
      · exact Or.inl h
      · exact Or.inr ⟨hfalse, Or.inr htimes⟩

theorem Ordered.mono {later : Nat} (h : Ordered now s) (hle : now ≤ later) : Ordered later s :=
  ⟨h.sorted, fun ts hts => (h.past ts hts).trans hle, h.length⟩

theorem ordered_new : Ordered now {} := ⟨List.Pairwise.nil, by simp, by simp⟩

theorem Ordered.check (h : Ordered now s) : Ordered now (s.check now).2 := by
  have hevict : (evict now s.messageTimestamps).Sublist s.messageTimestamps := evict_sublist
  have hpast : ∀ ts ∈ evict now s.messageTimestamps, ts ≤ now := fun ts hts =>
    h.past ts (hevict.subset hts)
  rcases check_cases now s with ⟨-, hroom, htimes⟩ | ⟨-, htimes | htimes⟩
  · constructor
    · rw [htimes, List.pairwise_append]
      refine ⟨h.sorted.sublist hevict, List.pairwise_singleton _ _, ?_⟩
      intro ts hts last hlast
      rw [List.mem_singleton.mp hlast]
      exact hpast ts hts
    · rw [htimes]
      intro ts hts
      rcases List.mem_append.mp hts with hts | hts
      · exact hpast ts hts
      · exact le_of_eq (List.mem_singleton.mp hts)
    · rw [htimes, List.length_append]
      exact hroom
  · exact ⟨htimes ▸ h.sorted, htimes ▸ h.past, htimes ▸ h.length⟩
  · refine ⟨htimes ▸ h.sorted.sublist hevict, htimes ▸ hpast, ?_⟩
    rw [htimes]
    exact hevict.length_le.trans h.length

/-- A message that is let through is counted from then on. -/
theorem since_check (ht : t ≤ now) (hw : now ≤ t + fromSecs PEER_RATE_LIMIT_WINDOW_SECS) :
    (s.check now).1.toNat + since t s.messageTimestamps =
      since t (s.check now).2.messageTimestamps := by
  rcases check_cases now s with ⟨hallowed, -, htimes⟩ | ⟨hrefused, htimes | htimes⟩
  · have hnew : since t [now] = 1 := by
      rw [since, List.countP_singleton, if_pos (by simpa using ht)]
    have hsplit : since t (evict now s.messageTimestamps ++ [now]) =
        since t (evict now s.messageTimestamps) + since t [now] := List.countP_append
    rw [hallowed, htimes, hsplit, hnew, since_evict hw, Nat.add_comm]
    rfl
  · rw [hrefused, htimes]
    exact Nat.zero_add _
  · rw [hrefused, htimes, since_evict hw]
    exact Nat.zero_add _

/-- A stale entry has no message that a window still counts. -/
theorem since_of_stale (h : Ordered now s) (hstale : s.recent now = false)
    (hw : now ≤ t + fromSecs PEER_RATE_LIMIT_WINDOW_SECS) : since t s.messageTimestamps = 0 := by
  have hlast : ∀ last ∈ s.messageTimestamps.getLast?, ¬ now - last < fromSecs 60 := by
    intro last hmem hlt
    have hany : (s.messageTimestamps.getLast?.any fun ts =>
        now - ts < fromSecs (PEER_RATE_LIMIT_WINDOW_SECS * 6)) = true := by
      rw [Option.mem_def.mp hmem]
      exact decide_eq_true hlt
    rw [recent, hany, Bool.or_true] at hstale
    exact absurd hstale (by simp)
  apply since_eq_zero
  intro ts hts
  have hage := hlast _ (List.getLast?_eq_some_getLast (List.ne_nil_of_mem hts))
  have hle : ts ≤ s.messageTimestamps.getLast (List.ne_nil_of_mem hts) := h.sorted.rel_getLast hts
  unfold fromSecs PEER_RATE_LIMIT_WINDOW_SECS at *
  omega

end PeerRateState

namespace PeerRateLimiter

variable {now t expiry : Nat} {l : PeerRateLimiter} {peerId sender : PeerId} {order : List PeerId}
  {e : LimiterEvent} {events : List LimiterEvent}

/-! ## Entries -/

theorem stateOf_check : (l.check now sender).2.stateOf peerId =
    if sender = peerId then ((l.stateOf peerId).check now).2 else l.stateOf peerId := by
  show ((l.peers.insert sender ((l.stateOf sender).check now).2)[peerId]?).getD {} = _
  rw [KeyMap.getElem?_insert_eq]
  split
  · next hsame =>
    rw [hsame]
    rfl
  · rfl

theorem getElem?_foldl_erase {keys : List PeerId} {peers : ByteMap PeerRateState} :
    (keys.foldl (fun peers key => peers.erase key) peers)[peerId]? =
      if peerId ∈ keys then none else peers[peerId]? := by
  induction keys generalizing peers with
  | nil => simp
  | cons key keys ih =>
    rw [List.foldl_cons, ih, KeyMap.getElem?_erase_eq]
    by_cases hkey : key = peerId
    · simp [hkey]
    · simp [hkey, Ne.symm hkey]

theorem getElem?_retainRecent {s : PeerRateState} (h : l.peers[peerId]? = some s) :
    (l.retainRecent now).peers[peerId]? = if s.recent now then some s else none := by
  rw [retainRecent, ExtTreeMap.getElem?_filter', h]
  simp [Option.filter]

theorem getElem?_cleanup : (l.cleanup now order).peers[peerId]? =
    if peerId ∈ (l.retainRecent now).keysToRemove order then none
    else (l.retainRecent now).peers[peerId]? := getElem?_foldl_erase

/-- What a clean-up leaves of an entry: it, or nothing because the cap took it or because it was
stale. -/
theorem stateOf_cleanup : peerId ∈ (l.retainRecent now).keysToRemove order ∨
    (l.cleanup now order).stateOf peerId = l.stateOf peerId ∨
    (l.stateOf peerId).recent now = false ∧ (l.cleanup now order).stateOf peerId = {} := by
  by_cases hdrop : peerId ∈ (l.retainRecent now).keysToRemove order
  · exact Or.inl hdrop
  right
  unfold stateOf
  rw [getElem?_cleanup, if_neg hdrop]
  cases hentry : l.peers[peerId]? with
  | none =>
    left
    rw [retainRecent, ExtTreeMap.getElem?_filter', hentry]
    rfl
  | some s =>
    rw [getElem?_retainRecent hentry]
    by_cases hrecent : s.recent now = true
    · rw [if_pos hrecent]
      exact Or.inl rfl
    · rw [if_neg hrecent]
      exact Or.inr ⟨by simpa using hrecent, rfl⟩

theorem stateOf_cleanup_of_mem (h : peerId ∈ (l.retainRecent now).keysToRemove order) :
    (l.cleanup now order).stateOf peerId = {} := by
  unfold stateOf
  rw [getElem?_cleanup, if_pos h]
  rfl

/-! ## One window -/

/-- The ten seconds from `t` on, ends included. -/
def inWindow (t : Nat) (e : LimiterEvent) : Bool :=
  t ≤ e.now ∧ e.now ≤ t + fromSecs PEER_RATE_LIMIT_WINDOW_SECS

/-- The messages of the window that the entry of a peer still counts. -/
def held (t : Nat) (peerId : PeerId) (l : PeerRateLimiter) : Nat :=
  PeerRateState.since t (l.stateOf peerId).messageTimestamps

/-- Every entry is in order. -/
def Ordered (now : Nat) (l : PeerRateLimiter) : Prop := ∀ peerId, (l.stateOf peerId).Ordered now

theorem Ordered.step (h : Ordered now l) (hle : now ≤ e.now) : Ordered e.now (l.step e) := by
  intro peerId
  have hbefore := (h peerId).mono hle
  unfold PeerRateLimiter.step
  split
  · next sender hcall =>
    rw [stateOf_check]
    split
    · exact hbefore.check
    · exact hbefore
  · next order hcall =>
    rcases @stateOf_cleanup e.now l peerId order with
      hdrop | hkept | ⟨-, hnew⟩
    · rw [stateOf_cleanup_of_mem hdrop]
      exact PeerRateState.ordered_new
    · rw [hkept]
      exact hbefore
    · rw [hnew]
      exact PeerRateState.ordered_new

theorem held_le (h : Ordered now l) : held t peerId l ≤ PEER_MAX_MESSAGES_PER_WINDOW :=
  PeerRateState.since_le_length.trans (h peerId).length

theorem held_eq_zero (h : Ordered now l) (hlt : now < t) : held t peerId l = 0 :=
  PeerRateState.since_eq_zero fun ts hts => ((h peerId).past ts hts).trans_lt hlt

/-- **One event**: what it lets through is counted, and the count is lost only to the hard cap. -/
theorem held_step (h : Ordered now l) (hle : now ≤ e.now)
    (hw : e.now ≤ t + fromSecs PEER_RATE_LIMIT_WINDOW_SECS) :
    (inWindow t e && allows peerId l e).toNat + held t peerId l ≤
      held t peerId (l.step e) +
        PEER_MAX_MESSAGES_PER_WINDOW * (inWindow t e && drops peerId l e).toNat := by
  by_cases ht : t ≤ e.now
  swap
  · -- before the window nothing is counted
    have hout : inWindow t e = false := by simp [inWindow, ht]
    rw [held_eq_zero h (by omega), hout]
    exact Nat.zero_le _
  have hin : inWindow t e = true := by simp [inWindow, ht, hw]
  rw [hin, Bool.true_and, Bool.true_and]
  obtain ⟨when, call⟩ := e
  cases call with
  | check sender =>
    show (allows peerId l ⟨when, .check sender⟩).toNat + held t peerId l ≤
      PeerRateState.since t ((l.check when sender).2.stateOf peerId).messageTimestamps + _
    rw [stateOf_check]
    by_cases hsame : sender = peerId
    · have hallows : allows peerId l ⟨when, .check sender⟩ = ((l.stateOf peerId).check when).1 := by
        show decide (sender = peerId ∧ ((l.stateOf sender).check when).1 = true) = _
        rw [hsame]
        simp
      rw [hallows, if_pos hsame, held, PeerRateState.since_check ht hw]
      exact Nat.le_add_right _ _
    · have hallows : allows peerId l ⟨when, .check sender⟩ = false := by
        simp [allows, hsame]
      rw [hallows, if_neg hsame, held]
      simp
  | cleanup order =>
    show false.toNat + held t peerId l ≤
      PeerRateState.since t ((l.cleanup when order).stateOf peerId).messageTimestamps + _
    rw [Bool.toNat_false, Nat.zero_add]
    rcases @stateOf_cleanup when l peerId order with
      hdrop | hkept | ⟨hstale, -⟩
    · have hdrops : drops peerId l ⟨when, .cleanup order⟩ = true := by simpa [drops] using hdrop
      rw [hdrops]
      exact (held_le h).trans (Nat.le_add_left _ _)
    · rw [hkept]
      exact Nat.le_add_right _ _
    · rw [held, PeerRateState.since_of_stale ((h peerId).mono hle) hstale hw]
      exact Nat.zero_le _

/-! ## Runs -/

def Chronological (events : List LimiterEvent) : Prop := events.Pairwise fun e e' => e.now ≤ e'.now

theorem count_eq_zero {f : PeerRateLimiter → LimiterEvent → Bool}
    (h : ∀ e ∈ events, ∀ l, f l e = false) : count f l events = 0 := by
  induction events generalizing l with
  | nil => rfl
  | cons e events ih =>
    rw [count, h e List.mem_cons_self, ih fun e' he' => h e' (List.mem_cons_of_mem _ he')]
    rfl

/-- **A run**, by induction on its events: what is let through in a window is still counted, was lost to
the hard cap, or is the last that the entry had room for. -/
theorem count_allows_le (h : Ordered now l) (hnow : ∀ e ∈ events, now ≤ e.now)
    (hevents : Chronological events) :
    count (fun l e => inWindow t e && allows peerId l e) l events + held t peerId l ≤
      PEER_MAX_MESSAGES_PER_WINDOW +
        PEER_MAX_MESSAGES_PER_WINDOW *
          count (fun l e => inWindow t e && drops peerId l e) l events := by
  induction events generalizing l now with
  | nil =>
    have hheld : held t peerId l ≤ PEER_MAX_MESSAGES_PER_WINDOW := held_le h
    rw [count, count, Nat.zero_add, Nat.mul_zero, Nat.add_zero]
    exact hheld
  | cons e events ih =>
    obtain ⟨hfirst, hrest⟩ := List.pairwise_cons.mp hevents
    by_cases hw : e.now ≤ t + fromSecs PEER_RATE_LIMIT_WINDOW_SECS
    · have hle := hnow e List.mem_cons_self
      have hstep := @held_step now t l peerId e h hle hw
      have hrun := ih (h.step hle) hfirst hrest
      rw [count, count, Nat.mul_add]
      omega
    · have hafter : ∀ e' ∈ e :: events, inWindow t e' = false := by
        intro e' he'
        have hlater : e.now ≤ e'.now := by
          rcases List.mem_cons.mp he' with rfl | he'
          · exact Nat.le_refl _
          · exact hfirst e' he'
        simp only [inWindow, decide_eq_false_iff_not]
        omega
      have hheld : held t peerId l ≤ PEER_MAX_MESSAGES_PER_WINDOW := held_le h
      rw [count_eq_zero fun e' he' l => by rw [hafter e' he', Bool.false_and], Nat.zero_add]
      exact hheld.trans (Nat.le_add_right _ _)

theorem ordered_new : Ordered 0 {} := by
  intro peerId
  have hnew : stateOf {} peerId = {} := by simp [stateOf]
  rw [hnew]
  exact PeerRateState.ordered_new

/-! ## Bans -/

/-- A ban stays until it expires, whatever the limiter is called for. -/
theorem bannedUntil_step (h : ((l.peers[peerId]?).bind fun s => s.bannedUntil) = some expiry)
    (hlt : e.now < expiry) :
    (((l.step e).peers[peerId]?).bind fun s => s.bannedUntil) = some expiry := by
  obtain ⟨s, hs, hban⟩ := Option.bind_eq_some_iff.mp h
  unfold step
  split
  · next sender hcall =>
    show ((l.peers.insert sender ((l.stateOf sender).check e.now).2)[peerId]?).bind _ = _
    rw [KeyMap.getElem?_insert_eq]
    split
    · next hsame =>
      have hstate : l.stateOf sender = s := by
        rw [hsame, stateOf, hs]
        rfl
      have hcheck : (s.check e.now).2 = s := by
        simp [PeerRateState.check, hban, hlt]
      rw [hstate, hcheck]
      exact hban
    · exact h
  · next order hcall =>
    have hrecent : s.recent e.now = true := by
      simp [PeerRateState.recent, PeerRateState.isBanned, hban, hlt]
    have hkept : (l.retainRecent e.now).peers[peerId]? = some s := by
      rw [getElem?_retainRecent hs, if_pos hrecent]
    have hspared : peerId ∉ (l.retainRecent e.now).keysToRemove order := by
      unfold keysToRemove
      split
      · intro hmem
        have hunbanned := (List.mem_filter.mp (List.mem_of_mem_take hmem)).2
        rw [hkept] at hunbanned
        simp [hban] at hunbanned
      · simp
    rw [getElem?_cleanup, if_neg hspared, hkept]
    exact hban

theorem bannedUntil_run (h : ((l.peers[peerId]?).bind fun s => s.bannedUntil) = some expiry)
    (hlt : ∀ e ∈ events, e.now < expiry) :
    (((l.run events).peers[peerId]?).bind fun s => s.bannedUntil) = some expiry := by
  induction events generalizing l with
  | nil => exact h
  | cons e events ih =>
    exact ih (bannedUntil_step h (hlt e List.mem_cons_self)) fun e' he' =>
      hlt e' (List.mem_cons_of_mem _ he')

theorem check_of_banned (h : ((l.peers[peerId]?).bind fun s => s.bannedUntil) = some expiry)
    (hlt : now < expiry) : (l.check now peerId).1 = false := by
  obtain ⟨s, hs, hban⟩ := Option.bind_eq_some_iff.mp h
  show ((l.stateOf peerId).check now).1 = false
  rw [stateOf, hs]
  simp [PeerRateState.check, hban, hlt]

/-- **Within a window a peer gets the limit through, and once more for each time the hard cap drops its
entry; and nothing under a ban.** -/
theorem rate_limit_within_drops :
    (∀ (events : List LimiterEvent) (peerId : PeerId) (t : Nat), Chronological events →
      count (fun l e => inWindow t e && allows peerId l e) {} events ≤
        PEER_MAX_MESSAGES_PER_WINDOW *
          (1 + count (fun l e => inWindow t e && drops peerId l e) {} events)) ∧
    ∀ (before between : List LimiterEvent) (peerId : PeerId) (now expiry : Nat),
      Chronological (before ++ between ++ [⟨now, .check peerId⟩]) →
      (((run {} before).peers[peerId]?).bind fun s => s.bannedUntil) = some expiry → now < expiry →
        ((run {} (before ++ between)).check now peerId).1 = false := by
  constructor
  · intro events peerId t hevents
    have hrun := @count_allows_le 0 t {} peerId events ordered_new
      (fun e _ => Nat.zero_le e.now) hevents
    have hheld : held t peerId {} = 0 := by simp [held, stateOf, PeerRateState.since]
    rw [Nat.mul_add]
    omega
  · intro before between peerId now expiry hevents hban hlt
    have hbetween : ∀ e ∈ between, e.now < expiry := by
      intro e he
      have hlast := (List.pairwise_append.mp hevents).2.2 e (List.mem_append_right _ he) _
        (List.mem_singleton_self _)
      exact Nat.lt_of_le_of_lt hlast hlt
    have hafter : run {} (before ++ between) = run (run {} before) between := List.foldl_append
    rw [hafter]
    exact check_of_banned (bannedUntil_run hban hbetween) hlt

end PeerRateLimiter

/-! ## A flood, and a crowd -/

namespace RateSample

open PeerRateState

variable {f : PeerRateLimiter → LimiterEvent → Bool} {l : PeerRateLimiter}
  {events rest : List LimiterEvent}

def peer : PeerId := [0]

def other (n : Nat) : PeerId := 1 :: Bincode.u64 n

def flood (n : Nat) : List LimiterEvent := List.replicate n ⟨0, .check peer⟩

def crowd (n : Nat) : List LimiterEvent := (List.range n).map fun k => ⟨0, .check (other k)⟩

/-- A crowd, a flood, a clean-up that meets the flooding peer first, and one more message. -/
def forgetfulRun : List LimiterEvent :=
  crowd 2000 ++ flood 500 ++
    [⟨0, .cleanup (peer :: (List.range 2000).map other)⟩, ⟨0, .check peer⟩]

/-- An entry with `k` messages at time 0. -/
def counted (k : Nat) : PeerRateState := { messageTimestamps := List.replicate k 0 }

theorem count_append : count f l (events ++ rest) = count f l events + count f (run l events) rest := by
  induction events generalizing l with
  | nil => exact (Nat.zero_add _).symm
  | cons e events ih =>
    rw [List.cons_append, count, count, ih, Nat.add_assoc]
    rfl

theorem run_append : run l (events ++ rest) = run (run l events) rest := List.foldl_append

theorem evict_counted (k : Nat) : evict 0 (List.replicate k 0) = List.replicate k 0 := by
  cases k with
  | zero => rfl
  | succ k =>
    rw [evict, List.replicate_succ, List.dropWhile_cons_of_neg (by decide)]

theorem check_counted {k : Nat} (h : k < 500) : (counted k).check 0 = (true, counted (k + 1)) := by
  have hroom : ¬ PEER_MAX_MESSAGES_PER_WINDOW ≤ (evict 0 (List.replicate k 0)).length := by
    rw [evict_counted, List.length_replicate]
    exact Nat.not_le.mpr h
  show checkRate 0 (counted k) = _
  unfold checkRate
  dsimp only
  rw [show (counted k).messageTimestamps = List.replicate k 0 from rfl, if_neg hroom, evict_counted,
    ← List.replicate_succ']
  rfl

/-- The limiter after `n` of the crowd. -/
structure Crowded (n : Nat) (l : PeerRateLimiter) : Prop where
  size : l.peers.size = n
  absent : ∀ k, n ≤ k → k < 4096 → l.peers[other k]? = none
  peer : l.peers[RateSample.peer]? = none
  counted : ∀ (q : PeerId) (s : PeerRateState), l.peers[q]? = some s → s = RateSample.counted 1

theorem other_injOn {k n : Nat} (hk : k < 4096) (hn : n < 4096) (h : other n = other k) : n = k := by
  have hbytes : Bincode.u64 n = Bincode.u64 k := List.tail_eq_of_cons_eq h
  exact Bincode.prefixFree_u64.injOn (hn.trans (by decide)) (hk.trans (by decide)) hbytes

theorem crowded_run {n : Nat} (hn : n ≤ 2000) : Crowded n (run {} (crowd n)) := by
  induction n with
  | zero =>
    constructor
    · rfl
    · intro k _ _
      exact ExtTreeMap.getElem?_empty
    · exact ExtTreeMap.getElem?_empty
    · intro q s h
      exact absurd h (by simp [crowd, run])
  | succ n ih =>
    have hbefore := ih (by omega)
    have hnew : (run {} (crowd n)).peers[other n]? = none := hbefore.absent n (Nat.le_refl n) (by omega)
    have hrun : (run {} (crowd (n + 1))).peers =
        (run {} (crowd n)).peers.insert (other n) (counted 1) := by
      have hcheck := check_counted (k := 0) (by decide)
      have hstate : (run {} (crowd n)).stateOf (other n) = counted 0 := by
        rw [stateOf, hnew]
        rfl
      have hsnoc : run {} (crowd (n + 1)) = (run {} (crowd n)).step ⟨0, .check (other n)⟩ := by
        rw [crowd, List.range_succ, List.map_append, run, List.foldl_append]
        rfl
      rw [hsnoc]
      show (run {} (crowd n)).peers.insert (other n)
        (((run {} (crowd n)).stateOf (other n)).check 0).2 = _
      rw [hstate, hcheck]
    constructor
    · rw [hrun, ExtTreeMap.size_insert, if_neg, hbefore.size]
      rw [ExtTreeMap.contains_eq_isSome_getElem?, hnew]
      simp
    · intro k hk hlt
      rw [hrun, KeyMap.getElem?_insert_ne _ _ fun heq => by
        have := other_injOn hlt (by omega) heq
        omega]
      exact hbefore.absent k (by omega) hlt
    · rw [hrun, KeyMap.getElem?_insert_ne _ _ (by simp [other, peer])]
      exact hbefore.peer
    · intro q s h
      rw [hrun, KeyMap.getElem?_insert_eq] at h
      split at h
      · exact (Option.some.inj h).symm
      · exact hbefore.counted q s h

/-- The limiter after `n` messages of the flood. -/
structure Flooded (n : Nat) (l : PeerRateLimiter) : Prop where
  size : l.peers.size = 2000 + min n 1
  own : l.stateOf peer = RateSample.counted n
  mem : peer ∈ l.peers ↔ n ≠ 0
  counted : ∀ (q : PeerId) (s : PeerRateState), l.peers[q]? = some s →
    ∃ k, s = RateSample.counted (k + 1)

def passes (l : PeerRateLimiter) (e : LimiterEvent) : Bool := inWindow 0 e && allows peer l e

theorem flood_run (h : Crowded 2000 l) {n : Nat} (hn : n ≤ 500) :
    Flooded n (run l (flood n)) ∧ count passes l (flood n) = n := by
  induction n with
  | zero =>
    have hnone : l.peers[peer]? = none := h.peer
    refine ⟨⟨h.size, ?_, ?_, fun q s hs => ⟨0, h.counted q s hs⟩⟩, rfl⟩
    · show stateOf l peer = _
      rw [stateOf, hnone]
      rfl
    · show peer ∈ l.peers ↔ _
      rw [ExtTreeMap.mem_iff_isSome_getElem?, hnone]
      simp
  | succ n ih =>
    obtain ⟨hbefore, hcount⟩ := ih (by omega)
    have hcheck := check_counted (k := n) (by omega)
    have hflood : flood (n + 1) = flood n ++ [⟨0, .check peer⟩] := List.replicate_succ'
    have hrun : (run l (flood (n + 1))).peers =
        (run l (flood n)).peers.insert peer (counted (n + 1)) := by
      rw [hflood, run_append]
      show (run l (flood n)).peers.insert peer (((run l (flood n)).stateOf peer).check 0).2 = _
      rw [hbefore.own, hcheck]
    refine ⟨⟨?_, ?_, ?_, ?_⟩, ?_⟩
    · rw [hrun, ExtTreeMap.size_insert, hbefore.size]
      split
      · next hmem =>
        have hpos := hbefore.mem.mp hmem
        omega
      · next hmem =>
        have hzero : n = 0 := not_not.mp fun hne => hmem (hbefore.mem.mpr hne)
        omega
    · rw [stateOf, hrun, KeyMap.getElem?_insert_eq, if_pos rfl]
      rfl
    · rw [hrun]
      simp
    · intro q s hs
      rw [hrun, KeyMap.getElem?_insert_eq] at hs
      split at hs
      · exact ⟨n, (Option.some.inj hs).symm⟩
      · exact hbefore.counted q s hs
    · have hpass : passes (run l (flood n)) ⟨0, .check peer⟩ = true := by
        have hallows : ((run l (flood n)).check 0 peer).1 = true := by
          show (((run l (flood n)).stateOf peer).check 0).1 = true
          rw [hbefore.own, hcheck]
        simp [passes, inWindow, allows, hallows]
      rw [hflood, count_append, hcount, count, hpass]
      rfl

/-- The clean-up forgets the peer that fills its window. -/
theorem stateOf_forgotten {order : List PeerId} (h : Flooded 500 l) :
    (l.cleanup 0 (peer :: order)).stateOf peer = {} := by
  have hrecent : ∀ k, (counted (k + 1)).recent 0 = true := by
    intro k
    simp [counted, PeerRateState.recent, List.getLast?_replicate, fromSecs, PEER_RATE_LIMIT_WINDOW_SECS]
  have hkept : l.retainRecent 0 = l := by
    have hpeers : (l.retainRecent 0).peers = l.peers := by
      apply ExtTreeMap.ext_getElem?
      intro q
      cases hentry : l.peers[q]? with
      | none =>
        rw [retainRecent, ExtTreeMap.getElem?_filter', hentry]
        rfl
      | some s =>
        obtain ⟨k, rfl⟩ := h.counted q s hentry
        rw [getElem?_retainRecent hentry, if_pos (hrecent k)]
    exact congrArg PeerRateLimiter.mk hpeers
  have hmem : peer ∈ l.peers := h.mem.mpr (by decide)
  have hunbanned : ((l.peers[peer]?).any fun state => state.bannedUntil.isNone) = true := by
    obtain ⟨s, hs⟩ := Option.isSome_iff_exists.mp (ExtTreeMap.mem_iff_isSome_getElem?.mp hmem)
    obtain ⟨k, rfl⟩ := h.counted _ _ hs
    rw [hs]
    rfl
  have hfirst : (peer :: order).filter
      (fun key => (l.peers[key]?).any fun state => state.bannedUntil.isNone) =
        peer :: order.filter fun key => (l.peers[key]?).any fun state => state.bannedUntil.isNone :=
    List.filter_cons_of_pos hunbanned
  apply stateOf_cleanup_of_mem
  rw [hkept, keysToRemove, if_pos (by rw [h.size]; decide), h.size, hfirst]
  exact List.mem_cons_self

theorem chronological_of_zero (h : ∀ e ∈ events, e.now = 0) : Chronological events := by
  apply List.pairwise_of_forall_mem_list
  intro e he e' he'
  rw [h e he, h e' he']

theorem now_crowd_flood {n k : Nat} : ∀ e ∈ crowd n ++ flood k, e.now = 0 := by
  intro e he
  rcases List.mem_append.mp he with he | he
  · obtain ⟨j, -, rfl⟩ := List.mem_map.mp he
    rfl
  · rw [List.eq_of_mem_replicate he]

theorem chronological_forgetfulRun : Chronological forgetfulRun := by
  apply chronological_of_zero
  intro e he
  rcases List.mem_append.mp he with he | he
  · exact now_crowd_flood e he
  · simp only [List.mem_cons, List.not_mem_nil, or_false] at he
    rcases he with rfl | rfl <;> rfl

/-- The message after the limit brings a ban of five minutes. -/
theorem bannedUntil_full : ((counted 500).check 0).2.bannedUntil = some (fromSecs 300) := by
  have hfull : PEER_MAX_MESSAGES_PER_WINDOW ≤ (evict 0 (counted 500).messageTimestamps).length := by
    rw [counted, evict_counted, List.length_replicate]
    decide
  have hnone : (counted 500).bannedUntil = none := rfl
  have hviolations : (counted 500).totalViolations = 0 := rfl
  unfold PeerRateState.check
  rw [hnone]
  simp only [checkRate, if_pos hfull, hviolations]
  rfl

theorem banned_after_flood :
    (((run {} (crowd 2000 ++ flood 500 ++ [⟨0, .check peer⟩])).peers[peer]?).bind fun s =>
      s.bannedUntil) = some (fromSecs 300) := by
  obtain ⟨hflooded, -⟩ := flood_run (crowded_run (n := 2000) (Nat.le_refl _)) (Nat.le_refl 500)
  have hlast : ∀ l : PeerRateLimiter, (run l [⟨0, .check peer⟩]).peers =
      l.peers.insert peer ((l.stateOf peer).check 0).2 := fun l => rfl
  rw [run_append, run_append, hlast, KeyMap.getElem?_insert_eq, if_pos rfl, hflooded.own]
  exact bannedUntil_full

end RateSample

open RateSample in
/-- The limit with a drop in the window, and a ban in its last second. -/
theorem rate_limit_within_drops_sample :
    count (fun l e => inWindow 0 e && allows peer l e) {} forgetfulRun ≤
        PEER_MAX_MESSAGES_PER_WINDOW *
          (1 + count (fun l e => inWindow 0 e && drops peer l e) {} forgetfulRun) ∧
      ((run {} (crowd 2000 ++ flood 500 ++ [⟨0, .check peer⟩] ++ [])).check (fromSecs 299) peer).1 =
        false := by
  obtain ⟨hwindow, hban⟩ := rate_limit_within_drops
  refine ⟨hwindow forgetfulRun peer 0 chronological_forgetfulRun, ?_⟩
  apply hban _ [] peer (fromSecs 299) (fromSecs 300) _ banned_after_flood (by decide)
  rw [List.append_nil]
  apply List.pairwise_append.mpr
  have hzero : ∀ e ∈ crowd 2000 ++ flood 500 ++ [⟨0, .check peer⟩], e.now = 0 := by
    intro e he
    rcases List.mem_append.mp he with he | he
    · exact now_crowd_flood e he
    · rw [List.mem_singleton.mp he]
  refine ⟨chronological_of_zero hzero, List.pairwise_singleton _ _, ?_⟩
  intro e he e' he'
  rw [hzero e he]
  exact Nat.zero_le _

open RateSample in
/-- In one instant a peer gets five hundred and one messages through. -/
theorem rate_limit_exceeded :
    Chronological forgetfulRun ∧
      PEER_MAX_MESSAGES_PER_WINDOW <
        count (fun l e => inWindow 0 e && allows peer l e) {} forgetfulRun := by
  constructor
  · exact chronological_forgetfulRun
  · obtain ⟨hflooded, hcount⟩ := flood_run (crowded_run (n := 2000) (Nat.le_refl _)) (Nat.le_refl 500)
    have hlast : ∀ l : PeerRateLimiter, l.stateOf peer = {} → passes l ⟨0, .check peer⟩ = true := by
      intro l hl
      have hallows : (l.check 0 peer).1 = true := by
        show ((l.stateOf peer).check 0).1 = true
        rw [hl]
        rfl
      simp [passes, inWindow, allows, hallows]
    have hforgotten := hlast _ (@stateOf_forgotten _ ((List.range 2000).map other) hflooded)
    show 500 < count passes {} forgetfulRun
    rw [forgetfulRun, List.append_assoc, count_append, count_append, hcount, count, count]
    have hpassed : passes ((run (run {} (crowd 2000)) (flood 500)).step
        ⟨0, .cleanup (peer :: (List.range 2000).map other)⟩) ⟨0, .check peer⟩ = true := hforgotten
    rw [hpassed, Bool.toNat_true]
    omega

end Curs3d
