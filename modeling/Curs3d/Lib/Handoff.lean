import Mathlib.Data.List.Basic
import Mathlib.Data.Option.Basic

/-!
# A latest-wins slot beside a bounded channel

One producer, one worker. Large values (`σ`) are left in a slot that keeps only the newest; a
message in a bounded channel wakes the worker and is dropped when the channel is full. Small jobs
(`ι`) travel in the channel itself, and a full channel drops them. The worker takes a message,
empties the slot over and over until it finds nothing there, and only then turns to what the
message says. Everything it executes is a list of transactions (`τ`) committed one at a time to a
store (`δ`); a failed execution gives up the rest of its list.

The producer's call on the slot is two steps, `put` and `signal`, and the worker may move between
them. `hand` is the value of such a call under way. `given` and `executed` record what was put and
what was executed; nothing reads them.

A dropped wake-up loses nothing: a full slot is always owed a look (`Owed`), by a message in the
channel, by a worker that has taken one, or by the producer about to send one. With that, a worker
that waits on an empty channel has executed the last value put (`State.Sound.caughtUp_of_idle`).

Jobs have no such guarantee. What they leave behind depends on four things only, and `Advance` says
what a step of the worker does to them: the slot, the jobs `ahead`, the store the worker is heading
for (`landing`) and the last value `taken`.
-/

set_option autoImplicit false

namespace Handoff

/-- What travels in the channel. -/
inductive Message (ι : Type) where
  | wake
  | job (a : ι)
  | shutdown
deriving DecidableEq, Repr

/-- What the worker is at, and the transactions it has still to commit. -/
inductive Worker (σ ι τ : Type) where
  /-- At `recv`. -/
  | waiting
  /-- About to look into the slot, with a message in hand. -/
  | draining (m : Message ι)
  /-- Executing what was in the slot; it will look again. -/
  | writing (m : Message ι) (s : σ) (todo : List τ)
  /-- Executing a job. -/
  | working (a : ι) (todo : List τ)
  /-- The last look into the slot, after a shutdown. -/
  | closing
  | flushing (s : σ) (todo : List τ)
  | stopped
deriving DecidableEq

/-- What the values stand for, and the room in the channel. -/
structure Protocol (σ ι τ δ : Type) where
  capacity : Nat
  ofState : σ → List τ
  ofJob : ι → List τ
  commit : δ → τ → δ

structure State (σ ι τ δ : Type) where
  store : δ
  slot : Option σ := none
  queue : List (Message ι) := []
  worker : Worker σ ι τ := .waiting
  hand : Option σ := none
  given : List σ := []
  executed : List σ := []
deriving DecidableEq

inductive Event (σ ι : Type) where
  /-- The producer leaves a value in the slot. -/
  | put (s : σ)
  /-- It then tries to wake the worker. -/
  | signal
  /-- It tries to send a job. -/
  | send (a : ι)
  | shutdown
  | receive
  /-- The worker looks into the slot. -/
  | drain
  | commit
  /-- An execution ends. -/
  | finish
  /-- A transaction fails or panics; the rest of its list is given up. -/
  | fail

variable {σ ι τ δ : Type}

/-- The next message is taken off a worker's hands once the slot is empty. -/
def Worker.turnTo (p : Protocol σ ι τ δ) : Message ι → Worker σ ι τ
  | .wake => .waiting
  | .job a => .working a (p.ofJob a)
  | .shutdown => .closing

def Worker.todo : Worker σ ι τ → List τ
  | .writing _ _ todo | .working _ todo | .flushing _ todo => todo
  | _ => []

/-- The message the worker has taken and not turned to. -/
def Worker.held : Worker σ ι τ → Option (Message ι)
  | .draining m | .writing m _ _ => some m
  | _ => none

def Message.job? : Message ι → Option ι
  | .job a => some a
  | _ => none

namespace State

variable (p : Protocol σ ι τ δ) (x : State σ ι τ δ)

/-- `try_send`: refused when the channel is full or the worker has gone. -/
def offer (m : Message ι) : State σ ι τ δ :=
  match x.worker with
  | .stopped => x
  | _ => if x.queue.length < p.capacity then { x with queue := x.queue ++ [m] } else x

/-- One step of either thread; a thread that cannot take it stays where it is. -/
def step : Event σ ι → State σ ι τ δ
  | .put s =>
    if x.hand.isSome then x
    else { x with slot := some s, hand := some s, given := x.given ++ [s] }
  | .signal => if x.hand.isSome then { x.offer p .wake with hand := none } else x
  | .send a => if x.hand.isSome then x else x.offer p (.job a)
  | .shutdown => if x.hand.isSome then x else x.offer p .shutdown
  | .receive =>
    match x.worker, x.queue with
    | .waiting, m :: rest => { x with worker := .draining m, queue := rest }
    | _, _ => x
  | .drain =>
    match x.worker, x.slot with
    | .draining m, some s => { x with slot := none, worker := .writing m s (p.ofState s) }
    | .draining m, none => { x with worker := Worker.turnTo p m }
    | .closing, some s => { x with slot := none, worker := .flushing s (p.ofState s) }
    | .closing, none => { x with worker := .stopped }
    | _, _ => x
  | .commit =>
    match x.worker with
    | .writing m s (t :: todo) => { x with store := p.commit x.store t, worker := .writing m s todo }
    | .working a (t :: todo) => { x with store := p.commit x.store t, worker := .working a todo }
    | .flushing s (t :: todo) => { x with store := p.commit x.store t, worker := .flushing s todo }
    | _ => x
  | .finish =>
    match x.worker with
    | .writing m s [] => { x with worker := .draining m, executed := x.executed ++ [s] }
    | .working _ [] => { x with worker := .waiting }
    | .flushing s [] => { x with worker := .stopped, executed := x.executed ++ [s] }
    | _ => x
  | .fail =>
    match x.worker with
    | .writing m s _ => { x with worker := .writing m s [] }
    | .working a _ => { x with worker := .working a [] }
    | .flushing s _ => { x with worker := .flushing s [] }
    | _ => x

def run (events : List (Event σ ι)) : State σ ι τ δ := events.foldl (step p) x

/-! ## A full slot is owed a look -/

/-- The worker will look into the slot before it waits again. -/
def Looks : Worker σ ι τ → Prop
  | .draining _ | .writing _ _ _ | .closing => True
  | _ => False

/-- Somebody is still going to look, or the worker is gone for good. -/
def Owed : Prop :=
  x.slot = none ∨ x.hand ≠ none ∨ x.queue ≠ [] ∨ Looks x.worker ∨
    (∃ s todo, x.worker = .flushing s todo) ∨ x.worker = .stopped

def isWaiting : Worker σ ι τ → Bool
  | .waiting => true
  | _ => false

def isStopped : Worker σ ι τ → Bool
  | .stopped => true
  | _ => false

/-- What the worker has taken from the slot and not finished. -/
def inFlight : Worker σ ι τ → Option σ
  | .writing _ s _ | .flushing s _ => some s
  | _ => none

/-- The newest value: in the slot, else on its way, else executed. -/
def newest : Option σ := x.slot.or ((inFlight x.worker).or x.executed.getLast?)

/-- The worker waits for a message and there is none. -/
def Idle : Prop := x.worker = .waiting ∧ x.queue = []

instance : Decidable x.Idle :=
  decidable_of_iff (isWaiting x.worker ∧ x.queue.isEmpty) (by
    simp only [Idle, List.isEmpty_iff]
    cases x.worker <;> simp [isWaiting])

structure Sound : Prop where
  owed : x.Owed
  newest : x.newest = x.given.getLast?

variable {p} {x}

theorem sound_start (store : δ) : Sound ({ store } : State σ ι τ δ) :=
  ⟨.inl rfl, rfl⟩

/-- A message more in the channel, or one dropped: the worker has gone, or others are there. -/
theorem offer_spec (hcap : 0 < p.capacity) (m : Message ι) :
    ∃ queue, x.offer p m = { x with queue } ∧ (queue ≠ [] ∨ x.worker = .stopped) ∧
      (queue = x.queue ++ [m] ∨ queue = x.queue) := by
  simp only [offer]
  split
  · next hstopped => exact ⟨x.queue, rfl, .inr hstopped, .inr rfl⟩
  · by_cases hroom : x.queue.length < p.capacity
    · refine ⟨x.queue ++ [m], ?_, .inl (by simp), .inl rfl⟩
      simp [hroom]
    · refine ⟨x.queue, ?_, .inl ?_, .inr rfl⟩
      · simp [hroom]
      · intro hnil
        simp [hnil, hcap] at hroom

/-- Whatever became of a message, a full slot is still owed a look afterwards. -/
theorem owed_of_offered {queue : List (Message ι)} {hand : Option σ}
    (hsent : queue ≠ [] ∨ x.worker = .stopped) : Owed { x with queue, hand } := by
  obtain hne | hstopped := hsent
  · exact .inr (.inr (.inl hne))
  · exact .inr (.inr (.inr (.inr (.inr hstopped))))

theorem Sound.offer (hcap : 0 < p.capacity) (h : x.Sound) (m : Message ι) :
    (x.offer p m).Sound := by
  obtain ⟨queue, heq, hsent, -⟩ := x.offer_spec hcap m
  rw [heq]
  exact ⟨owed_of_offered hsent, h.newest⟩

theorem Sound.put (h : x.Sound) (s : σ) : (x.step p (.put s)).Sound := by
  simp only [State.step]
  split
  · exact h
  · exact ⟨.inr (.inl (by simp)), by simp [State.newest]⟩

theorem Sound.signal (hcap : 0 < p.capacity) (h : x.Sound) : (x.step p .signal).Sound := by
  simp only [State.step]
  split
  · obtain ⟨queue, heq, hsent, -⟩ := x.offer_spec hcap .wake
    rw [heq]
    exact ⟨owed_of_offered hsent, h.newest⟩
  · exact h

theorem Sound.receive (h : x.Sound) : (x.step p .receive).Sound := by
  simp only [State.step]
  split
  · next m rest hworker hqueue =>
    refine ⟨.inr (.inr (.inr (.inl trivial))), ?_⟩
    have hnewest := h.newest
    simpa [State.newest, inFlight, hworker] using hnewest
  · exact h

/-- The worker's look: a value moves from the slot into its hands. -/
theorem Sound.drain (h : x.Sound) : (x.step p .drain).Sound := by
  have hnewest := h.newest
  simp only [State.step]
  split
  · next m s hworker hslot =>
    exact ⟨.inl rfl, by simpa [State.newest, inFlight, hworker, hslot] using hnewest⟩
  · next m hworker hslot =>
    refine ⟨.inl hslot, ?_⟩
    cases m <;> simpa [State.newest, inFlight, hworker, Worker.turnTo] using hnewest
  · next s hworker hslot =>
    exact ⟨.inl rfl, by simpa [State.newest, inFlight, hworker, hslot] using hnewest⟩
  · next hworker hslot =>
    exact ⟨.inl hslot, by simpa [State.newest, inFlight, hworker] using hnewest⟩
  · exact h

theorem Sound.commit (h : x.Sound) : (x.step p .commit).Sound := by
  obtain ⟨howed, hnewest⟩ := h
  simp only [State.step]
  split
  · next hworker =>
    exact ⟨.inr (.inr (.inr (.inl trivial))), by simpa [State.newest, inFlight, hworker] using hnewest⟩
  · next hworker =>
    exact ⟨by simpa [Owed, Looks, hworker] using howed,
      by simpa [State.newest, inFlight, hworker] using hnewest⟩
  · next hworker =>
    exact ⟨.inr (.inr (.inr (.inr (.inl ⟨_, _, rfl⟩)))),
      by simpa [State.newest, inFlight, hworker] using hnewest⟩
  · exact ⟨howed, hnewest⟩

theorem Sound.finish (h : x.Sound) : (x.step p .finish).Sound := by
  obtain ⟨howed, hnewest⟩ := h
  simp only [State.step]
  split
  · next hworker =>
    exact ⟨.inr (.inr (.inr (.inl trivial))), by simpa [State.newest, inFlight, hworker] using hnewest⟩
  · next hworker =>
    exact ⟨by simpa [Owed, Looks, hworker] using howed,
      by simpa [State.newest, inFlight, hworker] using hnewest⟩
  · next hworker =>
    exact ⟨.inr (.inr (.inr (.inr (.inr rfl)))),
      by simpa [State.newest, inFlight, hworker] using hnewest⟩
  · exact ⟨howed, hnewest⟩

theorem Sound.fail (h : x.Sound) : (x.step p .fail).Sound := by
  obtain ⟨howed, hnewest⟩ := h
  simp only [State.step]
  split
  · next hworker =>
    exact ⟨.inr (.inr (.inr (.inl trivial))), by simpa [State.newest, inFlight, hworker] using hnewest⟩
  · next hworker =>
    exact ⟨by simpa [Owed, Looks, hworker] using howed,
      by simpa [State.newest, inFlight, hworker] using hnewest⟩
  · next hworker =>
    exact ⟨.inr (.inr (.inr (.inr (.inl ⟨_, _, rfl⟩)))),
      by simpa [State.newest, inFlight, hworker] using hnewest⟩
  · exact ⟨howed, hnewest⟩

theorem Sound.step (hcap : 0 < p.capacity) (h : x.Sound) (e : Event σ ι) :
    (x.step p e).Sound := by
  cases e with
  | put s => exact h.put s
  | signal => exact h.signal hcap
  | send a =>
    simp only [State.step]
    split
    · exact h
    · exact h.offer hcap _
  | shutdown =>
    simp only [State.step]
    split
    · exact h
    · exact h.offer hcap _
  | receive => exact h.receive
  | drain => exact h.drain
  | commit => exact h.commit
  | finish => exact h.finish
  | fail => exact h.fail

theorem Sound.run (hcap : 0 < p.capacity) (h : x.Sound) (events : List (Event σ ι)) :
    (x.run p events).Sound := by
  induction events generalizing x with
  | nil => exact h
  | cons e rest ih => exact ih (h.step hcap e)

/-- A worker that waits on an empty channel, with no call under way, has nothing left to execute. -/
theorem Sound.slot_of_idle (h : x.Sound) (hidle : x.Idle) (hhand : x.hand = none) :
    x.slot = none := by
  obtain ⟨hworker, hqueue⟩ := hidle
  have howed := h.owed
  simpa [Owed, Looks, hworker, hqueue, hhand] using howed

/-- And the last value it executed is the last one put. -/
theorem Sound.caughtUp_of_idle (h : x.Sound) (hidle : x.Idle) (hhand : x.hand = none) :
    x.executed.getLast? = x.given.getLast? := by
  have hnewest := h.newest
  simpa [State.newest, inFlight, h.slot_of_idle hidle hhand, hidle.1] using hnewest

/-! ## What is still to be executed -/

variable (p) (x)

/-- The store once the worker is through with what it is executing. -/
def landing : δ := (Worker.todo x.worker).foldl p.commit x.store

/-- The jobs nobody has started on, first to be executed first. -/
def ahead : List ι := ((Worker.held x.worker).toList ++ x.queue).filterMap Message.job?

/-- The last value the worker took out of the slot. -/
def taken : Option σ := (inFlight x.worker).or x.executed.getLast?

/-- `try_send` fails: the channel is full, or the worker has gone. -/
def Refuses : Prop := x.worker = .stopped ∨ p.capacity ≤ x.queue.length

instance : Decidable (x.Refuses p) :=
  decidable_of_iff (isStopped x.worker ∨ p.capacity ≤ x.queue.length) (by
    simp only [Refuses]
    cases x.worker <;> simp [isStopped])

/-- What a step of the worker does: nothing to speak of, or it takes the value in the slot, or it
finds the slot empty and starts on the first job. -/
inductive Advance (y : State σ ι τ δ) : Prop where
  | rest (slot : y.slot = x.slot) (ahead : y.ahead = x.ahead)
      (landing : y.landing p = x.landing p) (taken : y.taken = x.taken)
  | take (s : σ) (full : x.slot = some s) (slot : y.slot = none) (ahead : y.ahead = x.ahead)
      (landing : y.landing p = (p.ofState s).foldl p.commit (x.landing p))
      (taken : y.taken = some s)
  | start (a : ι) (empty : x.slot = none) (slot : y.slot = none) (ahead : x.ahead = a :: y.ahead)
      (landing : y.landing p = (p.ofJob a).foldl p.commit (x.landing p))
      (taken : y.taken = x.taken)

variable {p} {x}

theorem advance_receive : x.Advance p (x.step p .receive) := by
  simp only [State.step]
  split
  · next m rest hworker hqueue =>
    refine .rest rfl ?_ ?_ ?_ <;>
      simp [State.ahead, State.landing, State.taken, Worker.held, Worker.todo, inFlight, hworker,
        hqueue]
  · exact .rest rfl rfl rfl rfl

theorem advance_drain : x.Advance p (x.step p .drain) := by
  simp only [State.step]
  split
  · next m s hworker hslot =>
    apply Advance.take s hslot rfl
    · simp [State.ahead, hworker, Worker.held]
    · simp [State.landing, hworker, Worker.todo]
    · rfl
  · next m hworker hslot =>
    cases m with
    | job a =>
      refine .start a hslot hslot ?_ ?_ ?_
      · simp [State.ahead, hworker, Worker.held, Worker.turnTo, Message.job?]
      · simp [State.landing, hworker, Worker.todo, Worker.turnTo]
      · simp [State.taken, hworker, inFlight, Worker.turnTo]
    | wake =>
      refine .rest rfl ?_ ?_ ?_ <;>
        simp [State.ahead, State.landing, State.taken, Worker.held, Worker.todo, inFlight, hworker,
          Worker.turnTo, Message.job?, List.filterMap_cons]
    | shutdown =>
      refine .rest rfl ?_ ?_ ?_ <;>
        simp [State.ahead, State.landing, State.taken, Worker.held, Worker.todo, inFlight, hworker,
          Worker.turnTo, Message.job?, List.filterMap_cons]
  · next s hworker hslot =>
    apply Advance.take s hslot rfl
    · simp [State.ahead, hworker, Worker.held]
    · simp [State.landing, hworker, Worker.todo]
    · rfl
  · next hworker hslot =>
    refine .rest rfl ?_ ?_ ?_ <;>
      simp [State.ahead, State.landing, State.taken, Worker.held, Worker.todo, inFlight, hworker]
  · exact .rest rfl rfl rfl rfl

/-- A committed transaction only moves from the list to the store. -/
theorem advance_commit : x.Advance p (x.step p .commit) := by
  simp only [State.step]
  split
  · next hworker =>
    refine .rest rfl ?_ ?_ ?_ <;>
      simp [State.ahead, State.landing, State.taken, Worker.held, Worker.todo, inFlight, hworker]
  · next hworker =>
    refine .rest rfl ?_ ?_ ?_ <;>
      simp [State.ahead, State.landing, State.taken, Worker.held, Worker.todo, inFlight, hworker]
  · next hworker =>
    refine .rest rfl ?_ ?_ ?_ <;>
      simp [State.ahead, State.landing, State.taken, Worker.held, Worker.todo, inFlight, hworker]
  · exact .rest rfl rfl rfl rfl

theorem advance_finish : x.Advance p (x.step p .finish) := by
  simp only [State.step]
  split
  · next hworker =>
    refine .rest rfl ?_ ?_ ?_ <;>
      simp [State.ahead, State.landing, State.taken, Worker.held, Worker.todo, inFlight, hworker]
  · next hworker =>
    refine .rest rfl ?_ ?_ ?_ <;>
      simp [State.ahead, State.landing, State.taken, Worker.held, Worker.todo, inFlight, hworker]
  · next hworker =>
    refine .rest rfl ?_ ?_ ?_ <;>
      simp [State.ahead, State.landing, State.taken, Worker.held, Worker.todo, inFlight, hworker]
  · exact .rest rfl rfl rfl rfl

/-- A message goes behind the others unless it is refused. -/
theorem offer_eq (m : Message ι) :
    x.offer p m = { x with queue := x.queue ++ [m] } ∨ (x.offer p m = x ∧ x.Refuses p) := by
  simp only [offer]
  split
  · next hstopped => exact .inr ⟨rfl, .inl hstopped⟩
  · split
    · exact .inl rfl
    · next hfull => exact .inr ⟨rfl, .inr (Nat.le_of_not_lt hfull)⟩

/-- A job at the end of the channel is the last one ahead. -/
theorem ahead_append (m : Message ι) :
    ({ x with queue := x.queue ++ [m] } : State σ ι τ δ).ahead = x.ahead ++ m.job?.toList := by
  cases m <;> simp [State.ahead, Message.job?, List.filterMap_cons]

/-- A wake-up is not a job, whether it got through or not. -/
theorem advance_signal : x.Advance p (x.step p .signal) := by
  simp only [State.step]
  split
  · obtain heq | ⟨heq, -⟩ := @offer_eq _ _ _ _ p x .wake
    · rw [heq]
      refine .rest rfl ?_ rfl rfl
      exact (ahead_append .wake).trans (List.append_nil x.ahead)
    · rw [heq]
      exact .rest rfl rfl rfl rfl
  · exact .rest rfl rfl rfl rfl

/-- What a job in the channel changes. -/
structure Sent (p : Protocol σ ι τ δ) (x : State σ ι τ δ) (a : ι) (y : State σ ι τ δ) : Prop where
  slot : y.slot = x.slot
  landing : y.landing p = x.landing p
  taken : y.taken = x.taken
  ahead : y.ahead = x.ahead ++ [a] ∨ (y.ahead = x.ahead ∧ x.Refuses p)

theorem sent_step (hhand : x.hand = none) (a : ι) : Sent p x a (x.step p (.send a)) := by
  simp only [State.step, hhand, Option.isSome_none, Bool.false_eq_true, if_false]
  obtain heq | ⟨heq, hrefused⟩ := @offer_eq _ _ _ _ p x (.job a)
  · rw [heq]
    exact ⟨rfl, rfl, rfl, .inl (ahead_append _)⟩
  · rw [heq]
    exact ⟨rfl, rfl, rfl, .inr ⟨rfl, hrefused⟩⟩

/-- Nothing that waits is left behind by an idle worker. -/
theorem Idle.settled (h : x.Idle) :
    x.ahead = [] ∧ x.landing p = x.store ∧ x.taken = x.executed.getLast? := by
  obtain ⟨hworker, hqueue⟩ := h
  simp [State.ahead, State.landing, State.taken, Worker.held, Worker.todo, inFlight, hworker, hqueue]

end State

end Handoff
