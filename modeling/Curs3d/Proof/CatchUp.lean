import Curs3d.Chain.AsyncNode
import Curs3d.Proof.FinalityChain
import Curs3d.Proof.Linear
import Curs3d.Proof.Pool
import Curs3d.Proof.Restart
import Curs3d.Proof.Tracker

/-!
# What the store of an asynchronous node catches up with

Full states are never lost; jobs are. A full channel drops them, and although the source says that
each "is recreated on the next event", nothing sends a finalized height or a piece of evidence
again. A full state also overtakes the jobs in front of it, so the account of a slashed validator
can be written after a full state that was taken later.

When no finalized height and no evidence is refused, and no full state is put while evidence waits,
an idle worker has the store where the chain is (`AsyncNode.store_catches_up`).
-/

set_option autoImplicit false

namespace Curs3d

open Handoff

/-! ## What the transactions write -/

namespace PersistJob

def height? : PersistJob → Option Nat
  | .finalizedHeight height => some height
  | _ => none

def evidence? : PersistJob → Option EquivocationEvidence
  | .equivocationEvidence evidence _ _ => some evidence
  | _ => none

end PersistJob

/-- What a job leaves in the fields the chain is compared with. -/
structure Executed (a : Dated PersistJob) (d d' : DatedStorage) : Prop where
  finalizedHeight : d'.tables.finalizedHeight = a.value.height?.or d.tables.finalizedHeight
  evidence : d'.tables.evidence = match a.value.evidence? with
    | some e => d.tables.evidence.insert e.key e
    | none => d.tables.evidence
  accountTime : ∀ address, d'.accountTime address = d.accountTime address ∨
    (a.value.evidence?.isSome ∧ d'.accountTime address = a.time)

theorem executed_ofJob (P : Primitives) (a : Dated PersistJob) (d : DatedStorage) :
    Executed a d (((datedProtocol P).ofJob a).foldl (datedProtocol P).commit d) := by
  obtain ⟨job, time⟩ := a
  cases job with
  | pendingTransactions txs => exact ⟨rfl, rfl, fun _ => .inl rfl⟩
  | finalizedHeight height => exact ⟨rfl, rfl, fun _ => .inl rfl⟩
  | equivocationEvidence evidence address account =>
    cases account with
    | none => exact ⟨rfl, rfl, fun _ => .inl rfl⟩
    | some account =>
      refine ⟨rfl, rfl, ?_⟩
      intro other
      by_cases heq : other = address
      · exact .inr ⟨rfl, if_pos heq⟩
      · exact .inl (if_neg heq)

/-! ## What the calls do to the chain -/

namespace Blockchain

variable {P : Primitives} {c c' : Blockchain}

instance (evidence : EquivocationEvidence) : Decidable (c.Convicts P evidence) :=
  inferInstanceAs (Decidable (evidence.verify P = true ∧
    addressBytesFromPublicKey P evidence.validatorPublicKey ∉ c.slashedValidators ∧
    addressBytesFromPublicKey P evidence.validatorPublicKey ∈ c.accounts))

/-- Finality and the slashed validators are where they were. -/
structure Keeps (c c' : Blockchain) : Prop where
  finalityTracker : c'.finalityTracker = c.finalityTracker
  slashed : c'.slashedValidators = c.slashedValidators

theorem keeps_addBlock (now : Int) (block : Block) : c.Keeps (c.addBlock P now block).2 := by
  cases hresult : (c.addBlock P now block).1 with
  | error e =>
    refine ⟨congrArg Spine.finalityTracker (addBlock_error_spine hresult), ?_⟩
    obtain ⟨_, he⟩ | ⟨_, -, hok⟩ := addBlock_cases P c now block
    · rw [he, prepareEpoch_eq]
    · rw [hok] at hresult
      exact absurd hresult (by simp)
  | ok =>
    obtain ⟨-, _, hspine⟩ := addBlock_ok_spine hresult
    obtain ⟨_, haccepted⟩ := accepted_of_addBlock hresult
    exact ⟨congrArg Spine.finalityTracker hspine, haccepted.slashed⟩

theorem keeps_addTransaction (now : Int) (tx : Transaction) :
    c.Keeps (c.addTransaction P now tx).2 := by
  obtain ⟨pool, hpool⟩ := @addTransaction_pool P c now tx
  rw [hpool]
  exact ⟨rfl, rfl⟩

theorem slashedValidators_addFinalityVote (vote : FinalityVote) :
    (c.addFinalityVote P vote).2.slashedValidators = c.slashedValidators := by
  obtain ⟨_, _, _, h⟩ := addFinalityVote_leaves P c vote
  rw [h]

theorem finalizedHeight_addFinalityVote_none {vote : FinalityVote}
    (h : c.addFinalityVote P vote = (none, c')) :
    c'.finalityTracker.finalizedHeight = c.finalityTracker.finalizedHeight := by
  obtain hcase | ⟨_, -, ⟨_, hadd, hcase⟩ | ⟨_, _, -, hcase⟩⟩ := addFinalityVote_cases P c vote
  · rw [hcase] at h
    cases h
    rfl
  · rw [hcase] at h
    cases h
    exact (FinalityTracker.finalized_of_addVote_none hadd).1
  · rw [hcase] at h
    cases h

theorem finalizedHeight_addFinalityVote_some {vote : FinalityVote} {finalized : FinalizedBlock}
    (h : c.addFinalityVote P vote = (some finalized, c')) :
    c'.finalityTracker.finalizedHeight = finalized.height := by
  obtain hcase | ⟨_, -, ⟨_, -, hcase⟩ | ⟨tracker, _, hadd, hcase⟩⟩ := addFinalityVote_cases P c vote
  · rw [hcase] at h
    cases h
  · rw [hcase] at h
    cases h
  · rw [hcase] at h
    cases h
    obtain ⟨-, -, hheight, hfinalized⟩ := FinalityTracker.finalized_of_addVote_some hadd
    have hspine := congrArg Spine.finalityTracker (@maybePruneFinalized_spine
      { c with
        finalityTracker := tracker
        blockTree := c.blockTree.setFinalized finalized.hash finalized.height } finalized.height)
    have htracker := congrArg FinalityTracker.finalizedHeight hspine
    refine htracker.trans ?_
    rw [hfinalized]
    exact hheight

/-- Evidence that is accepted convicts, and its validator is slashed from then on. -/
theorem processEquivocation_ok {evidence : EquivocationEvidence} {penalty : Nat}
    (h : c.processEquivocation P evidence = (.ok penalty, c')) :
    c.Convicts P evidence ∧ c'.finalityTracker = c.finalityTracker ∧
      c'.slashedValidators =
        insert (addressBytesFromPublicKey P evidence.validatorPublicKey) c.slashedValidators := by
  by_cases hconvicts : c.Convicts P evidence
  · refine ⟨hconvicts, ?_⟩
    obtain ⟨hverify, hnew, -⟩ := hconvicts
    simp only [processEquivocation, hverify, hnew, Bool.not_true, Bool.false_eq_true, if_false] at h
    split at h
    · cases h
    · cases h
      exact ⟨rfl, rfl⟩
  · exfalso
    apply hconvicts
    simp only [processEquivocation] at h
    split at h
    · cases h
    next hverify =>
    split at h
    · cases h
    next hnew =>
    split at h
    · cases h
    · next a ha =>
      refine ⟨by simpa using hverify, hnew, ?_⟩
      rw [Std.ExtTreeMap.mem_iff_isSome_getElem?, ha]
      rfl

theorem processEquivocation_error {evidence : EquivocationEvidence} {e : SlashingError}
    (h : c.processEquivocation P evidence = (.error e, c')) : c' = c := by
  simp only [processEquivocation] at h
  split at h
  · cases h
    rfl
  split at h
  · cases h
    rfl
  split at h
  · cases h
    rfl
  · cases h

end Blockchain

/-! ## The handle, and the blocks aside -/

/-- The store without its block table, which pruning changes behind the worker's back. -/
def DatedStorage.blockless (d : DatedStorage) : DatedStorage :=
  { d with tables := { d.tables with blocks := {} } }

theorem DatedStorage.blockless_commit (P : Primitives) (d : DatedStorage) (t : Dated StorageTx) :
    (d.commit P t).blockless = (d.blockless.commit P t).blockless := by
  obtain ⟨t, time⟩ := t
  cases t <;> rfl

theorem DatedStorage.blockless_foldl (P : Primitives) (txs : List (Dated StorageTx))
    (d : DatedStorage) :
    (txs.foldl (DatedStorage.commit P) d).blockless =
      (txs.foldl (DatedStorage.commit P) d.blockless).blockless := by
  induction txs generalizing d with
  | nil => rfl
  | cons t rest ih =>
    rw [List.foldl_cons, List.foldl_cons, ih, ih (d.blockless.commit P t), d.blockless_commit]

namespace DatedHandle

variable {P : Primitives} {x y : DatedHandle} {a : Dated PersistJob}

def heightsAhead (x : DatedHandle) : List Nat := x.ahead.filterMap fun a => a.value.height?

def evidenceAhead (x : DatedHandle) : List EquivocationEvidence :=
  x.ahead.filterMap fun a => a.value.evidence?

/-- Nothing changed but blocks. -/
structure Alike (P : Primitives) (x y : DatedHandle) : Prop where
  slot : y.slot = x.slot
  ahead : y.ahead = x.ahead
  taken : y.taken = x.taken
  landing : (y.landing (datedProtocol P)).blockless = (x.landing (datedProtocol P)).blockless

theorem Alike.finalizedHeight (h : Alike P x y) :
    (y.landing (datedProtocol P)).tables.finalizedHeight =
      (x.landing (datedProtocol P)).tables.finalizedHeight :=
  congrArg (fun d => d.tables.finalizedHeight) h.landing

theorem Alike.evidence (h : Alike P x y) :
    (y.landing (datedProtocol P)).tables.evidence =
      (x.landing (datedProtocol P)).tables.evidence :=
  congrArg (fun d => d.tables.evidence) h.landing

theorem Alike.accountTime (h : Alike P x y) :
    (y.landing (datedProtocol P)).accountTime = (x.landing (datedProtocol P)).accountTime :=
  congrArg (fun d => d.accountTime) h.landing

/-! ## The finalized height -/

/-- The last height on its way is the chain's, or else the store is heading for it, and so is the
full state in the slot. -/
structure HeightLands (P : Primitives) (x : DatedHandle) (height : Nat) : Prop where
  last : ∀ h, x.heightsAhead.getLast? = some h → h = height
  landed : x.heightsAhead = [] →
    (x.landing (datedProtocol P)).tables.finalizedHeight.getD 0 = height
  slot : x.heightsAhead = [] → ∀ s, x.slot = some s → s.value.finalizedHeight = height

theorem HeightLands.alike {height : Nat} (h : HeightLands P x height) (ha : Alike P x y) :
    HeightLands P y height := by
  have hheights : y.heightsAhead = x.heightsAhead := by rw [heightsAhead, ha.ahead]; rfl
  refine ⟨?_, ?_, ?_⟩
  · rw [hheights]
    exact h.last
  · rw [hheights, ha.finalizedHeight]
    exact h.landed
  · rw [hheights, ha.slot]
    exact h.slot

theorem HeightLands.advance {height : Nat} (h : HeightLands P x height)
    (ha : x.Advance (datedProtocol P) y) : HeightLands P y height := by
  cases ha with
  | rest slot ahead landing taken => exact h.alike ⟨slot, ahead, taken, congrArg _ landing⟩
  | take s full slot ahead landing taken =>
    have hheights : y.heightsAhead = x.heightsAhead := by rw [heightsAhead, ahead]; rfl
    refine ⟨?_, ?_, ?_⟩
    · rw [hheights]
      exact h.last
    · intro hnone
      rw [landing]
      exact h.slot (hheights ▸ hnone) s full
    · intro _ s' hs'
      rw [slot] at hs'
      cases hs'
  | start a empty slot ahead landing taken =>
    have hexecuted := executed_ofJob P a (x.landing (datedProtocol P))
    have hheights : x.heightsAhead = a.value.height?.toList ++ y.heightsAhead := by
      rw [heightsAhead, ahead, List.filterMap_cons]
      cases a.value.height? <;> rfl
    refine ⟨?_, ?_, ?_⟩
    · intro last hlast
      apply h.last
      rw [hheights, List.getLast?_append, hlast]
      rfl
    · intro hnone
      rw [landing, hexecuted.finalizedHeight]
      rw [hnone, List.append_nil] at hheights
      cases hvalue : a.value.height? with
      | none =>
        rw [hvalue] at hheights
        exact h.landed hheights
      | some last =>
        rw [hvalue] at hheights
        exact h.last last (by rw [hheights]; rfl)
    · intro _ s' hs'
      rw [slot] at hs'
      cases hs'

theorem HeightLands.sent {height : Nat} (h : HeightLands P x height)
    (hs : State.Sent (datedProtocol P) x a y) (hother : a.value.height? = none) :
    HeightLands P y height := by
  have hheights : y.heightsAhead = x.heightsAhead := by
    obtain hahead | ⟨hahead, -⟩ := hs.ahead
    · simp [heightsAhead, hahead, hother]
    · rw [heightsAhead, hahead]
      rfl
  refine ⟨?_, ?_, ?_⟩
  · rw [hheights]
    exact h.last
  · rw [hheights, hs.landing]
    exact h.landed
  · rw [hheights, hs.slot]
    exact h.slot

/-- A height that gets through is the last one on its way. -/
theorem heightLands_of_sent {height : Nat} (hs : State.Sent (datedProtocol P) x a y)
    (hroom : ¬ x.Refuses (datedProtocol P)) (hvalue : a.value.height? = some height) :
    HeightLands P y height := by
  have hheights : y.heightsAhead = x.heightsAhead ++ [height] := by
    obtain hahead | ⟨-, hrefused⟩ := hs.ahead
    · simp [heightsAhead, hahead, hvalue]
    · exact absurd hrefused hroom
  refine ⟨?_, ?_, ?_⟩
  · intro last hlast
    rw [hheights] at hlast
    simpa using hlast.symm
  · intro hnone
    simp [hheights] at hnone
  · intro hnone
    simp [hheights] at hnone

/-! ## The evidence -/

/-- What the chain processed is in the store the worker is heading for, or on its way. -/
structure EvidenceLands (P : Primitives) (x : DatedHandle)
    (processed : List EquivocationEvidence) : Prop where
  landed : ∀ e ∈ processed, (x.landing (datedProtocol P)).tables.evidence[e.key]? = some e ∨
    e ∈ x.evidenceAhead
  known : x.evidenceAhead ⊆ processed
  distinct : (processed.map EquivocationEvidence.key).Nodup

variable {processed : List EquivocationEvidence}

theorem EvidenceLands.alike (h : EvidenceLands P x processed) (ha : Alike P x y) :
    EvidenceLands P y processed := by
  have hevidence : y.evidenceAhead = x.evidenceAhead := by rw [evidenceAhead, ha.ahead]; rfl
  refine ⟨?_, ?_, h.distinct⟩
  · rw [hevidence, ha.evidence]
    exact h.landed
  · rw [hevidence]
    exact h.known

/-- Evidence of the chain with one key is one piece of evidence. -/
theorem EvidenceLands.eq_of_key (h : EvidenceLands P x processed) {e e' : EquivocationEvidence}
    (he : e ∈ processed) (he' : e' ∈ processed) (hkey : e.key = e'.key) : e = e' :=
  List.inj_on_of_nodup_map h.distinct he he' hkey

theorem EvidenceLands.advance (h : EvidenceLands P x processed)
    (ha : x.Advance (datedProtocol P) y) : EvidenceLands P y processed := by
  cases ha with
  | rest slot ahead landing taken => exact h.alike ⟨slot, ahead, taken, congrArg _ landing⟩
  | take s full slot ahead landing taken =>
    -- a full state does not touch the evidence table
    have hevidence : y.evidenceAhead = x.evidenceAhead := by rw [evidenceAhead, ahead]; rfl
    refine ⟨?_, ?_, h.distinct⟩
    · rw [hevidence, landing]
      exact h.landed
    · rw [hevidence]
      exact h.known
  | start a empty slot ahead landing taken =>
    have hexecuted := executed_ofJob P a (x.landing (datedProtocol P))
    have hahead : x.evidenceAhead = a.value.evidence?.toList ++ y.evidenceAhead := by
      rw [evidenceAhead, ahead, List.filterMap_cons]
      cases a.value.evidence? <;> rfl
    refine ⟨?_, ?_, h.distinct⟩
    · intro e he
      rw [landing, hexecuted.evidence]
      have hlanded := h.landed e he
      cases hvalue : a.value.evidence? with
      | none =>
        rw [hahead, hvalue] at hlanded
        exact hlanded
      | some written =>
        rw [hahead, hvalue] at hlanded
        have hwritten : written ∈ processed := h.known (by simp [hahead, hvalue])
        by_cases hkey : written.key = e.key
        · left
          rw [h.eq_of_key hwritten he hkey]
          exact Std.ExtTreeMap.getElem?_insert_self
        · obtain hstored | hwaits := hlanded
          · left
            exact (KeyMap.getElem?_insert_ne _ _ hkey).trans hstored
          · right
            simp only [Option.toList_some, List.singleton_append, List.mem_cons] at hwaits
            obtain heq | hrest := hwaits
            · exact absurd (congrArg EquivocationEvidence.key heq.symm) hkey
            · exact hrest
    · intro e he
      apply h.known
      rw [hahead]
      exact List.mem_append_right _ he

theorem EvidenceLands.sent (h : EvidenceLands P x processed)
    (hs : State.Sent (datedProtocol P) x a y) (hother : a.value.evidence? = none) :
    EvidenceLands P y processed := by
  have hevidence : y.evidenceAhead = x.evidenceAhead := by
    obtain hahead | ⟨hahead, -⟩ := hs.ahead
    · simp [evidenceAhead, hahead, hother]
    · rw [evidenceAhead, hahead]
      rfl
  refine ⟨?_, ?_, h.distinct⟩
  · rw [hevidence, hs.landing]
    exact h.landed
  · rw [hevidence]
    exact h.known

theorem EvidenceLands.process (h : EvidenceLands P x processed) {e : EquivocationEvidence}
    (hs : State.Sent (datedProtocol P) x a y) (hroom : ¬ x.Refuses (datedProtocol P))
    (hvalue : a.value.evidence? = some e) (hnew : ∀ e' ∈ processed, e'.key ≠ e.key) :
    EvidenceLands P y (e :: processed) := by
  have hevidence : y.evidenceAhead = x.evidenceAhead ++ [e] := by
    obtain hahead | ⟨-, hrefused⟩ := hs.ahead
    · simp [evidenceAhead, hahead, hvalue]
    · exact absurd hrefused hroom
  have hdistinct : ((e :: processed).map EquivocationEvidence.key).Nodup := by
    rw [List.map_cons, List.nodup_cons, List.mem_map]
    refine ⟨?_, h.distinct⟩
    rintro ⟨e', he', hkey⟩
    exact hnew e' he' hkey
  refine ⟨?_, ?_, hdistinct⟩
  · intro e' he'
    rw [hevidence, hs.landing]
    obtain rfl | he' := List.mem_cons.mp he'
    · exact .inr (by simp)
    · obtain hstored | hwaits := h.landed e' he'
      · exact .inl hstored
      · exact .inr (List.mem_append_left _ hwaits)
  · intro e' he'
    rw [hevidence, List.mem_append, List.mem_singleton] at he'
    obtain he' | rfl := he'
    · exact List.mem_cons_of_mem _ (h.known he')
    · exact List.mem_cons_self

/-! ## The accounts -/

/-- A full state the worker has not got past: in the slot, or the last one taken. -/
def Recent (x : DatedHandle) (s : Dated PersistedChainState) : Prop :=
  x.slot = some s ∨ x.taken = some s

/-- The store is heading for accounts at least as new as the last full state taken, and the
evidence on its way was found after every full state that can still come before it. -/
structure AccountsLand (P : Primitives) (x : DatedHandle) (clock : Nat) : Prop where
  past : ∀ s, x.Recent s → s.time ≤ clock
  ordered : ∀ a ∈ x.ahead, a.value.evidence?.isSome → ∀ s, x.Recent s → s.time ≤ a.time
  landed : ∀ s, x.taken = some s →
    ∀ address, s.time ≤ (x.landing (datedProtocol P)).accountTime address

variable {clock : Nat}

theorem AccountsLand.later (h : AccountsLand P x clock) : AccountsLand P x (clock + 1) :=
  ⟨fun s hs => Nat.le_succ_of_le (h.past s hs), h.ordered, h.landed⟩

theorem AccountsLand.alike (h : AccountsLand P x clock) (ha : Alike P x y) :
    AccountsLand P y clock := by
  have hrecent : ∀ s, y.Recent s → x.Recent s := by
    intro s hs
    rwa [Recent, ha.slot, ha.taken] at hs
  refine ⟨?_, ?_, ?_⟩
  · intro s hs
    exact h.past s (hrecent s hs)
  · rw [ha.ahead]
    intro a hmem hevidence s hs
    exact h.ordered a hmem hevidence s (hrecent s hs)
  · rw [ha.taken, ha.accountTime]
    exact h.landed

theorem AccountsLand.advance (h : AccountsLand P x clock)
    (ha : x.Advance (datedProtocol P) y) : AccountsLand P y clock := by
  cases ha with
  | rest slot ahead landing taken => exact h.alike ⟨slot, ahead, taken, congrArg _ landing⟩
  | take s full slot ahead landing taken =>
    have hrecent : ∀ s', y.Recent s' → x.Recent s' := by
      intro s' hs'
      rw [Recent, slot, taken] at hs'
      obtain hs' | hs' := hs'
      · cases hs'
      · exact .inl (full.trans hs')
    refine ⟨fun s' hs' => h.past s' (hrecent s' hs'), ?_, ?_⟩
    · rw [ahead]
      intro a hmem hevidence s' hs'
      exact h.ordered a hmem hevidence s' (hrecent s' hs')
    · intro s' hs' address
      rw [taken] at hs'
      cases hs'
      rw [landing]
      exact Nat.le_refl s.time
  | start a empty slot ahead landing taken =>
    have hexecuted := executed_ofJob P a (x.landing (datedProtocol P))
    have hrecent : ∀ s, y.Recent s → x.Recent s := by
      intro s hs
      rwa [Recent, slot, taken, ← empty] at hs
    refine ⟨fun s hs => h.past s (hrecent s hs), ?_, ?_⟩
    · intro a' hmem hevidence s hs
      exact h.ordered a' (by rw [ahead]; exact List.mem_cons_of_mem _ hmem) hevidence s (hrecent s hs)
    · intro s hs address
      rw [taken] at hs
      rw [landing]
      obtain hkept | ⟨hevidence, hwritten⟩ := hexecuted.accountTime address
      · rw [hkept]
        exact h.landed s hs address
      · rw [hwritten]
        exact h.ordered a (by simp [ahead]) hevidence s (.inr hs)

/-- What is sent is dated after every full state so far. -/
theorem AccountsLand.sent (h : AccountsLand P x clock) (hs : State.Sent (datedProtocol P) x a y)
    (htime : a.time = clock) : AccountsLand P y clock := by
  have hrecent : ∀ s, y.Recent s → x.Recent s := by
    intro s hrecent
    rwa [Recent, hs.slot, hs.taken] at hrecent
  refine ⟨fun s hrec => h.past s (hrecent s hrec), ?_, ?_⟩
  · intro a' hmem hevidence s hrec
    have hold : a' ∈ x.ahead ∨ a' = a := by
      obtain hahead | ⟨hahead, -⟩ := hs.ahead
      · simpa [hahead] using hmem
      · exact .inl (hahead ▸ hmem)
    obtain hmem | rfl := hold
    · exact h.ordered a' hmem hevidence s (hrecent s hrec)
    · rw [htime]
      exact h.past s (hrecent s hrec)
  · rw [hs.taken, hs.landing]
    exact h.landed

/-! ## A new full state -/

section Put

variable {s : Dated PersistedChainState}

theorem put_eq (hhand : x.hand = none) : x.step (datedProtocol P) (.put s) =
    { x with slot := some s, hand := some s, given := x.given ++ [s] } := by
  simp [State.step, hhand]

theorem HeightLands.put {height : Nat} (h : HeightLands P x height) (hhand : x.hand = none)
    (hs : s.value.finalizedHeight = height) :
    HeightLands P (x.step (datedProtocol P) (.put s)) height := by
  rw [put_eq hhand]
  refine ⟨h.last, h.landed, ?_⟩
  intro _ s' hs'
  cases hs'
  exact hs

theorem EvidenceLands.put (h : EvidenceLands P x processed) (hhand : x.hand = none) :
    EvidenceLands P (x.step (datedProtocol P) (.put s)) processed := by
  rw [put_eq hhand]
  exact ⟨h.landed, h.known, h.distinct⟩

theorem AccountsLand.put (h : AccountsLand P x clock) (hhand : x.hand = none)
    (htime : s.time = clock) (hclear : ∀ a ∈ x.ahead, a.value.evidence? = none) :
    AccountsLand P (x.step (datedProtocol P) (.put s)) clock := by
  rw [put_eq hhand]
  refine ⟨?_, ?_, h.landed⟩
  · intro s' hs'
    obtain hs' | hs' := hs'
    · cases hs'
      exact Nat.le_of_eq htime
    · exact h.past s' (.inr hs')
  · intro a hmem hevidence
    rw [hclear a hmem] at hevidence
    cases hevidence

end Put

end DatedHandle

/-! ## The node -/

namespace AsyncNode

variable {P : Primitives} {x : AsyncNode}

/-! ## What has to hold of the calls -/

/-- The calls that lose nothing: a finalizing vote and evidence that convicts find room in the
channel, and a full state is not put in front of evidence that waits. -/
def Clear (P : Primitives) (x : AsyncNode) : ChainCall → Prop
  | .addBlock now block =>
    (x.chain.addBlock P now block).1 = .ok () → x.chain.isBoundary block.header.height →
      ∀ a ∈ x.handle.ahead, a.value.evidence? = none
  | .addFinalityVote vote =>
    (x.chain.addFinalityVote P vote).1 ≠ none → ¬ x.handle.Refuses (datedProtocol P)
  | .processEquivocation evidence =>
    x.chain.Convicts P evidence → ¬ x.handle.Refuses (datedProtocol P)
  | .addTransaction _ _ => True

instance (call : ChainCall) : Decidable (x.Clear P call) :=
  match call with
  | .addBlock now block => inferInstanceAs (Decidable
      ((x.chain.addBlock P now block).1 = .ok () → x.chain.isBoundary block.header.height →
        ∀ a ∈ x.handle.ahead, a.value.evidence? = none))
  | .addFinalityVote vote => inferInstanceAs (Decidable
      ((x.chain.addFinalityVote P vote).1 ≠ none → ¬ x.handle.Refuses (datedProtocol P)))
  | .processEquivocation evidence => inferInstanceAs (Decidable
      (x.chain.Convicts P evidence → ¬ x.handle.Refuses (datedProtocol P)))
  | .addTransaction _ _ => inferInstanceAs (Decidable True)

/-- A call is clear where it is served. -/
def ClearStep (P : Primitives) (x : AsyncNode) : AsyncEvent → Prop
  | .call call => ¬ x.Busy → x.Clear P call
  | _ => True

instance (e : AsyncEvent) : Decidable (x.ClearStep P e) :=
  match e with
  | .call call => inferInstanceAs (Decidable (¬ x.Busy → x.Clear P call))
  | .signal | .prune | .receive | .drain | .commit | .finish => inferInstanceAs (Decidable True)

def ClearRun (P : Primitives) : AsyncNode → List AsyncEvent → Prop
  | _, [] => True
  | x, e :: rest => x.ClearStep P e ∧ ClearRun P (x.step P e) rest

instance decidableClearRun : (x : AsyncNode) → (events : List AsyncEvent) →
    Decidable (ClearRun P x events)
  | _, [] => inferInstanceAs (Decidable True)
  | x, e :: rest =>
    have := decidableClearRun (x.step P e) rest
    inferInstanceAs (Decidable (x.ClearStep P e ∧ ClearRun P (x.step P e) rest))

/-- The store is where the chain is. Accounts are compared by their dates, with the last full state
written. -/
structure CaughtUp (x : AsyncNode) : Prop where
  finalizedHeight : x.handle.store.tables.finalizedHeight.getD 0 =
    x.chain.finalityTracker.finalizedHeight
  evidence : ∀ e ∈ x.processed, x.handle.store.tables.evidence[e.key]? = some e
  accounts : ∀ s, x.handle.executed.getLast? = some s →
    ∀ address ∈ x.chain.slashedValidators, s.time ≤ x.handle.store.accountTime address

/-- The store is heading for where the chain is. -/
structure OnTheWay (P : Primitives) (x : AsyncNode) : Prop where
  height : DatedHandle.HeightLands P x.handle x.chain.finalityTracker.finalizedHeight
  evidence : DatedHandle.EvidenceLands P x.handle x.processed
  accounts : DatedHandle.AccountsLand P x.handle x.clock
  slashed : ∀ e ∈ x.processed,
    addressBytesFromPublicKey P e.validatorPublicKey ∈ x.chain.slashedValidators

theorem onTheWay_spawn {c : Blockchain} {storage : Storage}
    (hboot : storage.finalizedHeight.getD 0 = c.finalityTracker.finalizedHeight) :
    OnTheWay P (spawn c storage) := by
  refine ⟨⟨?_, fun _ => hboot, ?_⟩, ⟨?_, ?_, List.nodup_nil⟩, ⟨?_, ?_, ?_⟩, ?_⟩
  · intro h hlast
    cases hlast
  · intro _ s hs
    cases hs
  · intro e he
    cases he
  · exact List.Subset.refl _
  · intro s hs
    obtain hs | hs := hs <;> cases hs
  · intro a hmem
    cases hmem
  · intro s hs
    cases hs
  · intro e he
    cases he

theorem OnTheWay.caughtUp (h : OnTheWay P x) (hidle : x.handle.Idle) : x.CaughtUp := by
  obtain ⟨hahead, hlanding, htaken⟩ := @State.Idle.settled _ _ _ _ (datedProtocol P) _ hidle
  have hheights : DatedHandle.heightsAhead x.handle = [] := by
    simp [DatedHandle.heightsAhead, hahead]
  refine ⟨?_, ?_, ?_⟩
  · rw [← hlanding]
    exact h.height.landed hheights
  · intro e he
    rw [← hlanding]
    obtain hstored | hwaits := h.evidence.landed e he
    · exact hstored
    · simp [DatedHandle.evidenceAhead, hahead] at hwaits
  · intro s hs address _
    rw [← hlanding]
    exact h.accounts.landed s (htaken.trans hs) address

/-! ## One step -/

/-- The handle advances and the chain stays. -/
theorem OnTheWay.turn (h : OnTheWay P x) {e : Event (Dated PersistedChainState) (Dated PersistJob)}
    (ha : x.handle.Advance (datedProtocol P) (x.handle.step (datedProtocol P) e)) :
    OnTheWay P (x.turn P e) :=
  ⟨h.height.advance ha, h.evidence.advance ha, h.accounts.advance ha, h.slashed⟩

theorem OnTheWay.prune (h : OnTheWay P x) : OnTheWay P (x.prune P) := by
  simp only [AsyncNode.prune]
  split
  · exact h
  · next keepFrom _ =>
    have hblocks : DatedHandle.Alike P x.handle { x.handle with store := { x.handle.store with
        tables := x.handle.store.tables.commit P (.pruneBlocksBelow keepFrom) } } := by
      refine ⟨rfl, rfl, rfl, ?_⟩
      simp only [State.landing, datedProtocol]
      rw [DatedStorage.blockless_foldl, DatedStorage.blockless_foldl P _ x.handle.store]
      rfl
    exact ⟨h.height.alike hblocks, h.evidence.alike hblocks, h.accounts.alike hblocks, h.slashed⟩

/-- The chain moves and the handle stays. -/
theorem OnTheWay.keeps (h : OnTheWay P x) {c : Blockchain}
    (hheight : c.finalityTracker.finalizedHeight = x.chain.finalityTracker.finalizedHeight)
    (hslashed : c.slashedValidators = x.chain.slashedValidators) :
    OnTheWay P { x with chain := c } := by
  refine ⟨?_, h.evidence, h.accounts, ?_⟩
  · show DatedHandle.HeightLands P x.handle c.finalityTracker.finalizedHeight
    rw [hheight]
    exact h.height
  · intro e he
    show _ ∈ c.slashedValidators
    rw [hslashed]
    exact h.slashed e he

theorem OnTheWay.addBlock (h : OnTheWay P x) (hhand : x.handle.hand = none) {now : Int}
    {block : Block} (hclear : x.Clear P (.addBlock now block)) :
    OnTheWay P (x.addBlock P now block) := by
  have hkeeps := @Blockchain.keeps_addBlock P x.chain now block
  simp only [AsyncNode.addBlock]
  split
  · next c heq =>
    rw [heq] at hkeeps
    exact h.keeps (congrArg _ hkeeps.finalityTracker) hkeeps.slashed
  · next c heq =>
    rw [heq] at hkeeps
    have hmoved := h.keeps (congrArg _ hkeeps.finalityTracker) hkeeps.slashed
    split
    · next hboundary =>
      have hresult : (x.chain.addBlock P now block).1 = .ok () := by rw [heq]
      obtain ⟨_, haccepted⟩ := Blockchain.accepted_of_addBlock hresult
      have hconfig := haccepted.config
      rw [heq] at hconfig
      have hwaits := hclear hresult (by rwa [Blockchain.isBoundary, ← hconfig])
      exact ⟨hmoved.height.put hhand rfl, hmoved.evidence.put hhand,
        hmoved.accounts.put hhand rfl hwaits, hmoved.slashed⟩
    · exact hmoved

theorem OnTheWay.addFinalityVote (h : OnTheWay P x) (hhand : x.handle.hand = none)
    {vote : FinalityVote} (hclear : x.Clear P (.addFinalityVote vote)) :
    OnTheWay P (x.addFinalityVote P vote) := by
  have hslashed := @Blockchain.slashedValidators_addFinalityVote P x.chain vote
  simp only [AsyncNode.addFinalityVote]
  split
  · next c heq =>
    rw [heq] at hslashed
    exact h.keeps (Blockchain.finalizedHeight_addFinalityVote_none heq) hslashed
  · next finalized c heq =>
    rw [heq] at hslashed
    have hroom := hclear (by rw [heq]; simp)
    have hsent := State.sent_step (p := datedProtocol P) hhand
      { value := .finalizedHeight finalized.height, time := x.clock }
    refine ⟨?_, h.evidence.sent hsent rfl, h.accounts.sent hsent rfl, ?_⟩
    · show DatedHandle.HeightLands P _ c.finalityTracker.finalizedHeight
      rw [Blockchain.finalizedHeight_addFinalityVote_some heq]
      exact DatedHandle.heightLands_of_sent hsent hroom rfl
    · intro e he
      show _ ∈ c.slashedValidators
      rw [hslashed]
      exact h.slashed e he

theorem OnTheWay.processEquivocation (h : OnTheWay P x) (hhand : x.handle.hand = none)
    {evidence : EquivocationEvidence} (hclear : x.Clear P (.processEquivocation evidence)) :
    OnTheWay P (x.processEquivocation P evidence) := by
  simp only [AsyncNode.processEquivocation]
  split
  · next c heq =>
    obtain rfl := Blockchain.processEquivocation_error heq
    exact h
  · next c heq =>
    obtain ⟨hconvicts, htracker, hslashed⟩ := Blockchain.processEquivocation_ok heq
    -- an earlier piece of evidence had another public key, its validator being slashed already
    have hnew : ∀ e ∈ x.processed, e.key ≠ evidence.key := by
      intro e he
      apply EquivocationEvidence.key_ne
      intro hsame
      have hmem := h.slashed e he
      rw [hsame] at hmem
      exact hconvicts.2.1 hmem
    have hsent := State.sent_step (p := datedProtocol P) hhand
      { value := .equivocationEvidence evidence
          (addressBytesFromPublicKey P evidence.validatorPublicKey)
          c.accounts[addressBytesFromPublicKey P evidence.validatorPublicKey]?
        time := x.clock }
    refine ⟨?_, h.evidence.process hsent (hclear hconvicts) rfl hnew, h.accounts.sent hsent rfl, ?_⟩
    · show DatedHandle.HeightLands P _ c.finalityTracker.finalizedHeight
      rw [htracker]
      exact h.height.sent hsent rfl
    · intro e he
      show _ ∈ c.slashedValidators
      rw [hslashed, Finset.mem_insert]
      obtain rfl | he := List.mem_cons.mp he
      · exact .inl rfl
      · exact .inr (h.slashed e he)

theorem OnTheWay.addTransaction (h : OnTheWay P x) (hhand : x.handle.hand = none) {now : Int}
    {tx : Transaction} :
    OnTheWay P (x.addTransaction P now tx) := by
  have hkeeps := @Blockchain.keeps_addTransaction P x.chain now tx
  simp only [AsyncNode.addTransaction]
  split
  · next c heq =>
    rw [heq] at hkeeps
    exact h.keeps (congrArg _ hkeeps.finalityTracker) hkeeps.slashed
  · next c heq =>
    rw [heq] at hkeeps
    have hmoved := h.keeps (congrArg _ hkeeps.finalityTracker) hkeeps.slashed
    have hsent := State.sent_step (p := datedProtocol P) hhand
      { value := .pendingTransactions c.pendingTransactions, time := x.clock }
    exact ⟨hmoved.height.sent hsent rfl, hmoved.evidence.sent hsent rfl,
      hmoved.accounts.sent hsent rfl, hmoved.slashed⟩

theorem OnTheWay.serve (h : OnTheWay P x) (hfree : ¬ x.Busy) {call : ChainCall}
    (hclear : x.Clear P call) : OnTheWay P (x.serve P call) := by
  have hhand : x.handle.hand = none := by
    by_contra hne
    exact hfree (.inl (Option.isSome_iff_ne_none.mpr hne))
  cases call with
  | addBlock now block => exact h.addBlock hhand hclear
  | addFinalityVote vote => exact h.addFinalityVote hhand hclear
  | processEquivocation evidence => exact h.processEquivocation hhand hclear
  | addTransaction now tx => exact h.addTransaction hhand

theorem OnTheWay.act (h : OnTheWay P x) {e : AsyncEvent} (hclear : x.ClearStep P e) :
    OnTheWay P (x.act P e) := by
  cases e with
  | call call =>
    simp only [AsyncNode.act]
    split
    · exact h
    · next hfree => exact h.serve hfree (hclear hfree)
  | signal => exact h.turn State.advance_signal
  | prune => exact h.prune
  | receive => exact h.turn State.advance_receive
  | drain => exact h.turn State.advance_drain
  | commit => exact h.turn State.advance_commit
  | finish => exact h.turn State.advance_finish

/-- Only `step` moves the clock. -/
theorem act_clock (e : AsyncEvent) : (x.act P e).clock = x.clock := by
  cases e with
  | call call =>
    simp only [AsyncNode.act]
    split
    · rfl
    cases call with
    | addBlock now block =>
      simp only [serve, AsyncNode.addBlock]
      split
      · rfl
      · split <;> rfl
    | addFinalityVote vote =>
      simp only [serve, AsyncNode.addFinalityVote]
      split <;> rfl
    | processEquivocation evidence =>
      simp only [serve, AsyncNode.processEquivocation]
      split <;> rfl
    | addTransaction now tx =>
      simp only [serve, AsyncNode.addTransaction]
      split <;> rfl
  | prune =>
    simp only [AsyncNode.act, AsyncNode.prune]
    split <;> rfl
  | signal | receive | drain | commit | finish => rfl

theorem OnTheWay.run (h : OnTheWay P x) {events : List AsyncEvent} (hclear : ClearRun P x events) :
    OnTheWay P (x.run P events) := by
  induction events generalizing x with
  | nil => exact h
  | cons e rest ih =>
    obtain ⟨hnow, hrest⟩ := hclear
    have hact := h.act hnow
    have hstep : OnTheWay P (x.step P e) := by
      refine ⟨hact.height, hact.evidence, ?_, hact.slashed⟩
      have hlater := hact.accounts.later
      rw [act_clock] at hlater
      exact hlater
    exact ih hstep hrest

/-- **The store catches up.** In a run whose calls are all clear, a worker that is idle has the
finalized height, every piece of evidence and, for a slashed validator, no older account than the
last full state wrote. -/
theorem store_catches_up {P : Primitives} {c : Blockchain} {storage : Storage} {x : AsyncNode}
    {events : List AsyncEvent}
    (hboot : storage.finalizedHeight.getD 0 = c.finalityTracker.finalizedHeight)
    (hrun : x = (spawn c storage).run P events) (hclear : ClearRun P (spawn c storage) events)
    (hidle : x.handle.Idle) : x.CaughtUp := by
  rw [hrun] at hidle ⊢
  exact ((onTheWay_spawn hboot).run hclear).caughtUp hidle

namespace Sample

open Scenario RestartSample

/-- The store that an empty directory is given. -/
def storeOf (c : Blockchain) : Storage :=
  Storage.commitAll Reference.primitives {}
    (writeFullStateToStorage (PersistedChainState.fromChain c))

def blockEvents (now : Int) (block : Block) : List AsyncEvent :=
  [.call (.addBlock now block), .signal]

def voteEvent (block : Block) : AsyncEvent :=
  .call (.addFinalityVote (FinalityVote.new Reference.primitives block.hash block.header.height
    block.header.height (key 1)))

/-- The worker takes a message and writes the full state it finds in the slot. -/
def writeEvents : List AsyncEvent :=
  [.receive, .drain] ++ List.replicate 11 .commit ++ [.finish, .drain]

/-- The first block, the vote that finalizes it, and the worker until it is idle. -/
def inOrder (calls : List (Int × Block)) : List AsyncEvent :=
  (calls.take 1).flatMap (fun e => blockEvents e.1 e.2 ++ [voteEvent e.2]) ++ writeEvents ++
    [.receive, .drain, .commit, .finish]

/-- All blocks, each with its signal, then the vote for the first, then the worker. -/
def crowded (calls : List (Int × Block)) : List AsyncEvent :=
  calls.flatMap (fun e => blockEvents e.1 e.2) ++ (calls.take 1).map (fun e => voteEvent e.2) ++
    writeEvents ++ (List.replicate 7 [AsyncEvent.receive, .drain]).flatten

/-- Eight blocks of the only validator. -/
def steps : List (Int × UInt8) := (List.range 8).map fun i => (Scenario.clock (i + 1), 1)

def runOf (c : Blockchain) (events : List AsyncEvent) : AsyncNode :=
  (spawn c (storeOf c)).run Reference.primitives events

end Sample

open Sample Scenario RestartSample Blockchain in
theorem store_catches_up_sample : ∃ c calls, fromGenesis Reference.primitives config = .ok c ∧
    script c steps = some calls ∧
      (runOf c (inOrder calls)).chain.finalityTracker.finalizedHeight = 1 ∧
      (runOf c (inOrder calls)).CaughtUp := by
  have hrun : (fromGenesis Reference.primitives config).toOption.any (fun c =>
      (script c steps).any fun calls => decide (
        (storeOf c).finalizedHeight.getD 0 = c.finalityTracker.finalizedHeight ∧
        ClearRun Reference.primitives (spawn c (storeOf c)) (inOrder calls) ∧
        (runOf c (inOrder calls)).handle.Idle ∧
        (runOf c (inOrder calls)).chain.finalityTracker.finalizedHeight = 1)) = true := by
    decide +kernel
  obtain ⟨c, hstart, hrest⟩ := Outcome.ok_of_any hrun
  obtain ⟨calls, hscript, hrest⟩ := (Option.any_eq_true _ _).mp hrest
  rw [decide_eq_true_eq] at hrest
  obtain ⟨hboot, hclear, hidle, hfinalized⟩ := hrest
  exact ⟨c, calls, hstart, hscript, hfinalized, store_catches_up hboot rfl hclear hidle⟩

open Sample Scenario RestartSample Blockchain in
/-- The signals of eight boundary blocks fill the channel, and the height that the vote finalizes
is dropped for good. -/
theorem finalized_height_dropped : ∃ c calls, fromGenesis Reference.primitives config = .ok c ∧
    script c steps = some calls ∧ (runOf c (crowded calls)).handle.Idle ∧
      (runOf c (crowded calls)).chain.finalityTracker.finalizedHeight = 1 ∧
      (runOf c (crowded calls)).handle.store.tables.finalizedHeight = some 0 ∧
      ¬ (runOf c (crowded calls)).CaughtUp := by
  have hrun : (fromGenesis Reference.primitives config).toOption.any (fun c =>
      (script c steps).any fun calls => decide ((runOf c (crowded calls)).handle.Idle ∧
        (runOf c (crowded calls)).chain.finalityTracker.finalizedHeight = 1 ∧
        (runOf c (crowded calls)).handle.store.tables.finalizedHeight = some 0)) = true := by
    decide +kernel
  obtain ⟨c, hstart, hrest⟩ := Outcome.ok_of_any hrun
  obtain ⟨calls, hscript, hrest⟩ := (Option.any_eq_true _ _).mp hrest
  rw [decide_eq_true_eq] at hrest
  obtain ⟨hidle, hfinalized, hstored⟩ := hrest
  refine ⟨c, calls, hstart, hscript, hidle, hfinalized, hstored, ?_⟩
  intro hcaught
  have hheight := hcaught.finalizedHeight
  rw [hstored, hfinalized] at hheight
  exact absurd hheight (by decide)

end AsyncNode

end Curs3d
