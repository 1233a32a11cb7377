import Curs3d.Chain.Persistence
import Curs3d.Crypto.Reference

/-!
# The full state is never lost

Whatever the schedule of the chain and of the worker, a worker that is blocked on an empty channel
has taken every full state out of the slot, and the last one it executed is the last one enqueued.
Signals are dropped on a full channel, but a full channel is itself a reason for the worker to look
into the slot again.
-/

set_option autoImplicit false

namespace Curs3d

open Handoff

namespace PersistenceHandle

/-- **No full state is lost.** Between the two halves of an `enqueue_full_state` the slot is full
and its signal still to come, and that signal finds room. -/
theorem full_state_never_lost {P : Primitives} {storage : Storage}
    {events : List (Event PersistedChainState PersistJob)} {handle : PersistenceHandle}
    (hrun : handle = (spawn storage).run (protocol P) events) (hidle : handle.Idle) :
    (handle.hand = none →
      handle.slot = none ∧ handle.executed.getLast? = handle.given.getLast?) ∧
    (handle.hand ≠ none → (handle.step (protocol P) .signal).queue = [.wake]) := by
  have hsound : handle.Sound := by
    rw [hrun]
    exact (State.sound_start storage).run protocol_capacity events
  constructor
  · intro hhand
    exact ⟨hsound.slot_of_idle hidle hhand, hsound.caughtUp_of_idle hidle hhand⟩
  · intro hhand
    have hsome : handle.hand.isSome = true := Option.isSome_iff_ne_none.mpr hhand
    obtain ⟨hworker, hqueue⟩ := hidle
    simp [State.step, State.offer, hsome, hworker, hqueue, protocol, PERSISTENCE_QUEUE_CAPACITY]

namespace Sample

def config : GenesisConfig where
  chainId := [1]

/-- A full state that says nothing but a finalized height. -/
def fullState (finalizedHeight : Nat) : PersistedChainState where
  genesisConfig := config
  finalizedHeight := finalizedHeight
  blocks := []
  accounts := ∅
  contracts := ∅
  receipts := ∅
  epochSnapshots := ∅
  pendingTransactions := []
  tokenRegistry := {}
  governance := {}

/-- The worker takes a job, finds the slot empty and does the job. -/
def work : List (Event PersistedChainState PersistJob) := [.receive, .drain, .commit, .finish]

/-- Eight jobs fill the channel, so the signals of both full states are dropped; then the worker
runs until nothing is left. -/
def events : List (Event PersistedChainState PersistJob) :=
  List.flatten
    [(List.range 8).map fun height => Event.send (PersistJob.finalizedHeight height),
      [.put (fullState 8), .signal, .put (fullState 9), .signal, .receive, .drain],
      List.replicate 11 Event.commit,
      [.finish, .drain, .commit, .finish],
      work, work, work, work, work, work, work]

end Sample

open Sample in
theorem full_state_never_lost_sample : ∃ handle : PersistenceHandle,
    handle = (spawn {}).run (protocol Reference.primitives) events ∧ handle.Idle ∧
      ((handle.hand = none →
          handle.slot = none ∧ handle.executed.getLast? = handle.given.getLast?) ∧
        (handle.hand ≠ none →
          (handle.step (protocol Reference.primitives) .signal).queue = [.wake])) := by
  have hidle : ((spawn {}).run (protocol Reference.primitives) events).Idle := by
    decide +kernel
  exact ⟨_, rfl, hidle, full_state_never_lost rfl hidle⟩

end PersistenceHandle

end Curs3d
