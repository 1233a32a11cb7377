import Curs3d.Proof.Keys
import Curs3d.Proof.LightSafety
import Curs3d.Proof.Executed

/-!
# A slashed validator stays out

`process_equivocation` takes a third of the stake and puts the address on the list of slashed validators. The list
is what keeps it out: every validator set the node computes from then on leaves the address out, and no call
takes it off the list again. What was computed before stays, so the validator keeps its seat until the
epochs end whose snapshots were frozen before the slash, and a node that recomputes its snapshots (a
reorganisation, a restart) drops it from those too.

`Barred` says so of one chain. A seat is what both a proposer and a voter need: the leaders of a slot are addresses
of the snapshot, and a vote counts under a key of the snapshot, which is the key of the address
(`OwnKeys`).
-/

set_option autoImplicit false

namespace Curs3d

open Outcome

/-! ## Seats -/

/-- The address `a` neither proposes nor votes under this snapshot. -/
def EpochSnapshot.Without (P : Primitives) (a : Bytes) (s : EpochSnapshot) : Prop :=
  ∀ v ∈ s.validators, v.address ≠ a ∧ addressBytesFromPublicKey P v.publicKey ≠ a

variable {P : Primitives} {a : Bytes} {accounts : ByteMap AccountState}

theorem address_of_mem_activeValidators {pos : ProofOfStake} {v : Validator}
    (hslashed : a ∈ pos.slashedValidators) (hv : v ∈ pos.activeValidators accounts) :
    v.address ≠ a := by
  obtain ⟨⟨addr, account⟩, -, hv⟩ := List.mem_filterMap.mp hv
  rintro rfl
  obtain ⟨haddr, -⟩ := validatorOf_eq_some hv
  unfold ProofOfStake.validatorOf at hv
  split at hv
  · exact absurd hv (by simp)
  · rw [haddr] at hslashed
    simp [hslashed] at hv

theorem key_of_mem_activeValidators {pos : ProofOfStake} {v : Validator} (hown : OwnKeys P accounts)
    (hv : v ∈ pos.activeValidators accounts) :
    addressBytesFromPublicKey P v.publicKey = v.address := by
  obtain ⟨⟨addr, account⟩, hmem, hv⟩ := List.mem_filterMap.mp hv
  obtain ⟨rfl, hkey⟩ := validatorOf_eq_some hv
  rw [Std.ExtTreeMap.mem_toList_iff_getElem?_eq_some] at hmem
  exact (hown _ account _ hmem hkey).symm

/-- A vote needs a seat. -/
theorem addVote_of_without {t : FinalityTracker} {vote : FinalityVote} {s : EpochSnapshot}
    (h : s.Without P a) (hvoter : addressBytesFromPublicKey P vote.voterPublicKey = a) :
    t.addVote P vote s = (t, none) := by
  have hkeys : ∀ (validators : List Validator) (m : ByteMap Nat),
      (∀ v ∈ validators, v.publicKey ≠ vote.voterPublicKey) → vote.voterPublicKey ∉ m →
        vote.voterPublicKey ∉ validators.foldl (fun m v => m.insert v.publicKey v.stake) m := by
    intro validators
    induction validators with
    | nil => exact fun _ _ hm => hm
    | cons v rest ih =>
      intro m hne hm
      refine ih _ (fun w hw => hne w (List.mem_cons_of_mem _ hw)) ?_
      rw [Std.ExtTreeMap.mem_iff_isSome_getElem?, KeyMap.getElem?_insert_ne _ _ (hne v List.mem_cons_self),
        ← Std.ExtTreeMap.mem_iff_isSome_getElem?]
      exact hm
  have hnot : vote.voterPublicKey ∉ s.validatorStakes := by
    refine hkeys s.validators ∅ ?_ (by simp)
    intro v hv heq
    exact (h v hv).2 (heq ▸ hvoter)
  unfold FinalityTracker.addVote
  dsimp only
  split
  · rfl
  split
  · rfl
  split
  · rfl
  · rfl

/-! ## Chains that know of the slash -/

namespace Blockchain

variable {old : HeightMap EpochSnapshot} {c c' : Blockchain} {now : Int} {block previous : Block}

theorem ownKeys_replayBlock {r r' : ReplayState} (h : OwnKeys P r.state.accounts)
    (hrun : c.replayBlock P now previous block r = .ok r') : OwnKeys P r'.state.accounts := by
  simp only [replayBlock] at hrun
  split at hrun
  · cases hrun
  next s hvalid =>
  cases hrun
  have hs : OwnKeys P s.accounts := by
    refine ownKeys_validated ?_ hvalid
    unfold applyEpochSettlementForBlock
    split
    · exact h
    split
    · exact h
    · exact h.settlement _
  exact hs

theorem ownKeys_rebuildBlocks {blocks : List Block} {r r' : ReplayState}
    (h : OwnKeys P r.state.accounts)
    (hrun : rebuildBlocks P now c previous blocks r = (.ok r', c')) : OwnKeys P r'.state.accounts := by
  induction blocks generalizing c previous r with
  | nil =>
    cases hrun
    exact h
  | cons block rest ih =>
    obtain ⟨r₁, hreplay, hrest⟩ := rebuildBlocks_cons_ok hrun
    exact ih (ownKeys_replayBlock h hreplay) hrest

theorem ownKeys_rebuildCanonicalState (h : OwnKeys P c.accounts) (now : Int) :
    OwnKeys P (c.rebuildCanonicalState P now).2.accounts := by
  rcases rebuildCanonicalState_cases P c now with ⟨e, -, hstate⟩ |
    ⟨accounts, first, rest, d, d', r, haccounts, -, -, hrun, -, hstate⟩
  · have haccounts : (c.rebuildCanonicalState P now).2.accounts = c.accounts :=
      congrArg ExecState.accounts hstate
    rw [haccounts]
    exact h
  · have hfield : (c.rebuildCanonicalState P now).2.accounts = r.state.accounts :=
      congrArg ExecState.accounts hstate
    rw [hfield]
    exact ownKeys_rebuildBlocks (ownKeys_accountsFromGenesis haccounts) hrun

/-- `a` is slashed, and has no seat but in snapshots that were there before. -/
structure Barred (P : Primitives) (a : Bytes) (old : HeightMap EpochSnapshot) (c : Blockchain) :
    Prop where
  slashed : a ∈ c.slashedValidators
  keys : OwnKeys P c.accounts
  snapshots : ∀ (e : Nat) (s : EpochSnapshot), c.epochSnapshots[e]? = some s → old[e]? = some s ∨ s.Without P a

namespace Barred

theorem congr (h : Barred P a old c) (hslashed : c'.slashedValidators = c.slashedValidators)
    (hkeys : OwnKeys P c'.accounts) (hsnapshots : c'.epochSnapshots = c.epochSnapshots) :
    Barred P a old c' :=
  ⟨hslashed ▸ h.slashed, hkeys, hsnapshots ▸ h.snapshots⟩

theorem of_unindexed (h : Barred P a old c) (hc : c'.unindexed = c.unindexed) : Barred P a old c' := by
  have hslashed := congrArg slashedValidators hc
  have haccounts := congrArg accounts hc
  have hsnapshots := congrArg epochSnapshots hc
  refine h.congr hslashed ?_ hsnapshots
  rw [show c'.accounts = c.accounts from haccounts]
  exact h.keys

/-- A set of validators that the chain computes leaves `a` out. -/
theorem without (h : Barred P a old c) (epoch : Nat) (hkeys : OwnKeys P accounts) :
    (c.snapshotForAccounts epoch accounts).Without P a := by
  intro v hv
  have haddress : v.address ≠ a := address_of_mem_activeValidators h.slashed hv
  exact ⟨haddress, (key_of_mem_activeValidators hkeys hv).trans_ne haddress⟩

theorem withSnapshot (h : Barred P a old c) (epoch : Nat) (hkeys : OwnKeys P accounts) :
    Barred P a old (c.createEpochSnapshotFromAccounts epoch accounts) := by
  refine ⟨h.slashed, h.keys, ?_⟩
  intro e s hs
  rw [createEpochSnapshotFromAccounts, KeyMap.getElem?_insert_eq] at hs
  split at hs
  · cases hs
    exact .inr (h.without epoch hkeys)
  · exact h.snapshots e s hs

/-! ## The paths to the tip -/

theorem prepareEpoch (h : Barred P a old c) (height : Nat) :
    Barred P a old (c.prepareEpoch P height) := by
  have hsnapshot : Barred P a old (c.ensureEpochSnapshot height) := by
    unfold ensureEpochSnapshot
    split
    · exact h.withSnapshot _ h.keys
    · exact h
  refine hsnapshot.congr rfl ?_ rfl
  rw [prepareEpoch_eq]
  exact ownKeys_settledAt h.keys height

theorem addBlock (h : Barred P a old c) (now : Int) (block : Block) :
    Barred P a old (c.addBlock P now block).2 := by
  have hkeys := @ownKeys_addBlock P c now block h.keys
  have hprepared := h.prepareEpoch block.header.height
  rcases addBlock_cases P c now block with ⟨e, he⟩ | ⟨s, -, hok⟩
  · rw [he]
    exact hprepared
  · obtain ⟨hsnapshots, -, hslashed⟩ :=
      commitBlock_epochSnapshots (P := P) (c.prepareEpoch P block.header.height) block s
    rw [hok] at hkeys ⊢
    exact hprepared.congr hslashed hkeys hsnapshots

/-- A rebuild computes every snapshot anew, on the accounts it threads. -/
theorem rebuildBlocks {blocks : List Block} {r : ReplayState} (h : Barred P a old c)
    (hkeys : OwnKeys P r.state.accounts) :
    Barred P a old (rebuildBlocks P now c previous blocks r).2 := by
  induction blocks generalizing c previous r with
  | nil => exact h
  | cons block rest ih =>
    have hboundary : Barred P a old (c.withBoundarySnapshot block.header.height r.state.accounts) := by
      unfold withBoundarySnapshot
      split
      · exact h.withSnapshot _ hkeys
      · exact h
    rw [rebuildBlocks_cons]
    split
    · exact hboundary
    · next r₁ hreplay => exact ih hboundary (ownKeys_replayBlock hkeys hreplay)

theorem rebuildCanonicalState (h : Barred P a old c) (now : Int) :
    Barred P a old (c.rebuildCanonicalState P now).2 := by
  unfold Blockchain.rebuildCanonicalState
  split
  · exact h
  next accounts haccounts =>
  have hown : OwnKeys P accounts := ownKeys_accountsFromGenesis haccounts
  dsimp only
  have hstarted : Barred P a old (reindexBlocks P
      { c with epochSnapshots := genesisSnapshots (c.snapshotForAccounts 0 accounts) }
      c.iterBlocks) := by
    have hfresh : Barred P a old
        { c with epochSnapshots := genesisSnapshots (c.snapshotForAccounts 0 accounts) } := by
      refine ⟨h.slashed, h.keys, ?_⟩
      intro e s hs
      dsimp only [genesisSnapshots] at hs
      rw [KeyMap.getElem?_insert_eq] at hs
      split at hs
      · cases hs
        exact .inr (h.without 0 hown)
      · exact absurd hs (by simp)
    exact hfresh.of_unindexed (reindexBlocks_unindexed c.iterBlocks)
  generalize reindexBlocks P _ c.iterBlocks = d at hstarted ⊢
  split
  · exact hstarted
  next first rest _ =>
  have hblocks := @rebuildBlocks P a old d now first rest (genesisReplay accounts) hstarted hown
  split
  · next hrun =>
    rw [hrun] at hblocks
    exact hblocks
  · next r d' hrun =>
    have hkeys := ownKeys_rebuildBlocks hown hrun
    rw [hrun] at hblocks
    have hfilled : Barred P a old { d' with
        accounts := r.state.accounts
        contracts := r.state.contracts
        receipts := r.state.receipts
        tokenRegistry := r.state.tokenRegistry
        governance := r.state.governance
        validatorMissedEpochs := r.missed } := ⟨hblocks.slashed, hkeys, hblocks.snapshots⟩
    exact hfilled.of_unindexed rebuildReceiptIndexes_unindexed

theorem reorgToCanonicalTip (h : Barred P a old c) (now : Int) :
    Barred P a old (c.reorgToCanonicalTip P now).2 := by
  unfold Blockchain.reorgToCanonicalTip
  dsimp only
  split
  · exact h
  · have hreplaced : Barred P a old (c.replaceAllBlocks c.blockTree.canonicalChain) :=
      ⟨h.slashed, h.keys, h.snapshots⟩
    exact hreplaced.rebuildCanonicalState now

theorem addBlockWithForkChoice (h : Barred P a old c) (now : Int) (block : Block) :
    Barred P a old (c.addBlockWithForkChoice P now block).2 := by
  rcases forkChoice_leaves P c now block with hs | hs | ⟨tree, hs | hs⟩
  · rw [hs]
    exact h
  · rw [hs]
    exact h.addBlock now block
  · rw [hs]
    exact ⟨h.slashed, h.keys, h.snapshots⟩
  · rw [hs]
    have hstaged : Barred P a old { c with blockTree := tree } := ⟨h.slashed, h.keys, h.snapshots⟩
    exact hstaged.reorgToCanonicalTip now

theorem addFinalityVote (h : Barred P a old c) (vote : FinalityVote) :
    Barred P a old (c.addFinalityVote P vote).2 := by
  obtain ⟨tracker, tree, base, hv⟩ := addFinalityVote_leaves P c vote
  rw [hv]
  exact ⟨h.slashed, h.keys, h.snapshots⟩

theorem restart (h : Barred P a old c) (hok : c.restart P now = .ok c') : Barred P a old c' := by
  unfold Blockchain.restart at hok
  simp only [except_bind_eq_ok] at hok
  obtain ⟨accounts, -, _, -, hok⟩ := hok
  split at hok
  · exact absurd hok (by simp)
  next c₁ hrebuilt =>
  cases hok
  have hrun := congrArg Prod.snd hrebuilt
  dsimp only at hrun
  rw [← hrun]
  refine rebuildCanonicalState ?_ now
  exact ⟨h.slashed, OwnKeys.empty, fun e s hs => absurd hs (by simp)⟩

end Barred

/-! ## Runs -/

/-- One call on a chain, or a restart of its node. -/
inductive NodeCall (P : Primitives) (c : Blockchain) : Blockchain → Prop where
  | addTransaction (now : Int) (tx : Transaction) : NodeCall P c (c.addTransaction P now tx).2
  | addBlock (now : Int) (block : Block) : NodeCall P c (c.addBlock P now block).2
  | addBlockWithForkChoice (now : Int) (block : Block) :
    NodeCall P c (c.addBlockWithForkChoice P now block).2
  | addFinalityVote (vote : FinalityVote) : NodeCall P c (c.addFinalityVote P vote).2
  | processEquivocation (evidence : EquivocationEvidence) :
    NodeCall P c (c.processEquivocation P evidence).2
  | setPruneKeepBlocks (keep : Option Nat) : NodeCall P c { c with pruneKeepBlocks := keep }
  | restart {c' : Blockchain} (now : Int) (hok : c.restart P now = .ok c') : NodeCall P c c'

/-- What evidence does to the list and to the accounts. -/
theorem processEquivocation_cases (P : Primitives) (c : Blockchain) (evidence : EquivocationEvidence) :
    (∃ e, c.processEquivocation P evidence = (.error e, c)) ∨
    (∃ amount account, c.accounts[addressBytesFromPublicKey P evidence.validatorPublicKey]? = some account ∧
      c.processEquivocation P evidence = (.ok amount, { c with
        accounts := c.accounts.insert (addressBytesFromPublicKey P evidence.validatorPublicKey)
          (slashAccount account c.height c.genesisConfig.jailDurationBlocks)
        slashedValidators :=
          insert (addressBytesFromPublicKey P evidence.validatorPublicKey) c.slashedValidators })) := by
  unfold Blockchain.processEquivocation
  dsimp only
  split
  · exact .inl ⟨_, rfl⟩
  split
  · exact .inl ⟨_, rfl⟩
  split
  · exact .inl ⟨_, rfl⟩
  · next account haccount => exact .inr ⟨_, account, haccount, rfl⟩

theorem ownKeys_processEquivocation (h : OwnKeys P c.accounts) (evidence : EquivocationEvidence) :
    OwnKeys P (c.processEquivocation P evidence).2.accounts := by
  rcases processEquivocation_cases P c evidence with ⟨e, he⟩ | ⟨amount, account, haccount, hok⟩
  · rw [he]
    exact h
  · rw [hok]
    refine h.insert ?_
    intro publicKey hkey
    exact h _ account publicKey haccount hkey

theorem ownKeys_restart (hok : c.restart P now = .ok c') : OwnKeys P c'.accounts := by
  unfold Blockchain.restart at hok
  simp only [except_bind_eq_ok] at hok
  obtain ⟨accounts, -, _, -, hok⟩ := hok
  split at hok
  · exact absurd hok (by simp)
  next c₁ hrebuilt =>
  cases hok
  have hrun := congrArg Prod.snd hrebuilt
  dsimp only at hrun
  rw [← hrun]
  exact ownKeys_rebuildCanonicalState OwnKeys.empty now

theorem ownKeys_call (h : OwnKeys P c.accounts) (hcall : NodeCall P c c') : OwnKeys P c'.accounts := by
  cases hcall with
  | addTransaction now tx =>
    obtain ⟨pool, hpool⟩ := @addTransaction_pool P c now tx
    rw [hpool]
    exact h
  | addBlock now block => exact ownKeys_addBlock h
  | addBlockWithForkChoice now block =>
    rcases forkChoice_leaves P c now block with hs | hs | ⟨tree, hs | hs⟩
    · rw [hs]
      exact h
    · rw [hs]
      exact ownKeys_addBlock h
    · rw [hs]
      exact h
    · rw [hs]
      unfold reorgToCanonicalTip
      dsimp only
      split
      · exact h
      · refine ownKeys_rebuildCanonicalState ?_ now
        exact h
  | addFinalityVote vote =>
    obtain ⟨tracker, tree, base, hv⟩ := addFinalityVote_leaves P c vote
    rw [hv]
    exact h
  | processEquivocation evidence => exact ownKeys_processEquivocation h evidence
  | setPruneKeepBlocks keep => exact h
  | restart now hok => exact ownKeys_restart hok

theorem ownKeys_calls (h : OwnKeys P c.accounts) (hcalls : Relation.ReflTransGen (NodeCall P) c c') :
    OwnKeys P c'.accounts := by
  induction hcalls with
  | refl => exact h
  | tail _ hcall ih => exact ownKeys_call ih hcall

/-- No call takes an address off the list or gives it a new seat. -/
theorem Barred.call (h : Barred P a old c) (hcall : NodeCall P c c') : Barred P a old c' := by
  cases hcall with
  | addTransaction now tx =>
    obtain ⟨pool, hpool⟩ := @addTransaction_pool P c now tx
    rw [hpool]
    exact ⟨h.slashed, h.keys, h.snapshots⟩
  | addBlock now block => exact h.addBlock now block
  | addBlockWithForkChoice now block => exact h.addBlockWithForkChoice now block
  | addFinalityVote vote => exact h.addFinalityVote vote
  | processEquivocation evidence =>
    have hkeys := ownKeys_processEquivocation h.keys evidence
    rcases processEquivocation_cases P c evidence with ⟨e, he⟩ | ⟨amount, account, -, hok⟩
    · rw [he]
      exact h
    · rw [hok] at hkeys ⊢
      exact ⟨Finset.mem_insert_of_mem h.slashed, hkeys, h.snapshots⟩
  | setPruneKeepBlocks keep => exact ⟨h.slashed, h.keys, h.snapshots⟩
  | restart now hok => exact h.restart hok

theorem Barred.calls (h : Barred P a old c) (hcalls : Relation.ReflTransGen (NodeCall P) c c') :
    Barred P a old c' := by
  induction hcalls with
  | refl => exact h
  | tail _ hcall ih => exact ih.call hcall

/-! ## What it loses -/

/-- The validator set of the epoch was frozen with `a` in it. -/
def Seated (P : Primitives) (a : Bytes) (old : HeightMap EpochSnapshot) (epoch : Nat) : Prop :=
  ∃ s, old[epoch]? = some s ∧ ¬ s.Without P a

/-- Nobody can be elected at `height`; the chain then takes blocks from anybody. -/
def NobodyActive (c : Blockchain) (accounts : ByteMap AccountState) (height : Nat) : Prop :=
  (c.genesisConfig.pos c.slashedValidators height).activeValidators accounts = []

theorem liveSnapshot_cases (c : Blockchain) (accounts : ByteMap AccountState) {height : Nat}
    (hpos : 0 < height) :
    (c.liveSnapshot accounts height = none ∧ c.NobodyActive accounts height) ∨
      ∃ s, c.liveSnapshot accounts height = some s ∧ s.validators ≠ [] ∧
        s.validators = (c.genesisConfig.pos c.slashedValidators height).activeValidators accounts := by
  unfold liveSnapshot
  dsimp only
  split
  · next hcond => exact .inr ⟨_, rfl, by simpa using hcond.2, rfl⟩
  · next hcond =>
    refine .inl ⟨rfl, ?_⟩
    by_contra hsome
    exact hcond ⟨hpos, by simpa [NobodyActive] using hsome⟩

/-- The snapshot of a height is the stored one or the live one, and has validators. -/
theorem snapshotForHeight_cases (c : Blockchain) (accounts : ByteMap AccountState) (height : Nat) :
    (∃ s, c.epochSnapshots[c.epochForHeight height]? = some s ∧ s.validators ≠ [] ∧
      c.snapshotForHeight accounts height = some s) ∨
    c.snapshotForHeight accounts height = c.liveSnapshot accounts height := by
  unfold snapshotForHeight
  split
  · next s hs =>
    split
    · exact .inr rfl
    · next hne => exact .inl ⟨s, hs, by simpa using hne, rfl⟩
  · exact .inr rfl

/-- A proposer that is let through leads the slot at some rank. -/
theorem leader_of_authorized {publicKey prevHash : Bytes} {height : Nat}
    {parentTimestamp timestamp : Int} (hpos : 0 < height)
    (h : c.authorizeProposer P accounts publicKey height prevHash parentTimestamp timestamp = .ok ()) :
    c.NobodyActive accounts height ∨ ∃ s rank, c.snapshotForHeight accounts height = some s ∧
      slotLeaderAtRank P s height prevHash rank = some (addressBytesFromPublicKey P publicKey) := by
  unfold authorizeProposer ensureValidatorIsAuthorizedAtRank at h
  have hsome : ∀ s, c.snapshotForHeight accounts height = some s → s.validators ≠ [] →
      ∃ rank, slotLeaderAtRank P s height prevHash rank =
        some (addressBytesFromPublicKey P publicKey) := by
    intro s hs hne
    rw [hs] at h
    dsimp only at h
    rw [if_neg (by simpa using hne), ensure_eq_ok, List.any_eq_true] at h
    obtain ⟨rank, -, hleader⟩ := h
    exact ⟨rank, of_decide_eq_true hleader⟩
  rcases snapshotForHeight_cases c accounts height with ⟨s, -, hne, hs⟩ | hlive
  · obtain ⟨rank, hleader⟩ := hsome s hs hne
    exact .inr ⟨s, rank, hs, hleader⟩
  rcases liveSnapshot_cases c accounts hpos with ⟨-, hnobody⟩ | ⟨s, hs, hne, -⟩
  · exact .inl hnobody
  · obtain ⟨rank, hleader⟩ := hsome s (hlive.trans hs) hne
    exact .inr ⟨s, rank, hlive.trans hs, hleader⟩

/-- A block of `a` is refused on any parent, unless it kept its seat or nobody else has one. -/
theorem Barred.proposer (h : Barred P a old c) {s s' : ExecState}
    (hvalid : c.validateBlockAgainstState P now block previous s = .ok s')
    (ha : addressBytesFromPublicKey P block.header.validatorPublicKey = a) :
    Seated P a old (c.epochForHeight block.header.height) ∨
      c.NobodyActive s.accounts block.header.height := by
  have hpos : 0 < block.header.height := by
    rw [(follows_of_validate hvalid).height]
    exact Nat.succ_pos _
  obtain ⟨-, hauth, -⟩ := validate_eq_ok.mp hvalid
  rcases leader_of_authorized hpos hauth with hnobody | ⟨snapshot, rank, hsnapshot, hleader⟩
  · exact .inr hnobody
  rw [ha] at hleader
  obtain ⟨v, hv, haddress⟩ := List.mem_map.mp (mem_of_slotLeaderAtRank hleader)
  rcases snapshotForHeight_cases c s.accounts block.header.height with ⟨stored, hstored, -, hs⟩ | hlive
  · obtain rfl : snapshot = stored := Option.some.inj (hsnapshot.symm.trans hs)
    have hseat : ¬ snapshot.Without P a := fun hwithout => (hwithout v hv).1 haddress
    rcases h.snapshots _ _ hstored with hold | hwithout
    · exact .inl ⟨snapshot, hold, hseat⟩
    · exact absurd hwithout hseat
  · rcases liveSnapshot_cases c s.accounts hpos with ⟨-, hnobody⟩ | ⟨live, hs, -, hactive⟩
    · exact .inr hnobody
    · -- the live set leaves it out
      cases (hlive.trans hs).symm.trans hsnapshot
      rw [hactive] at hv
      exact absurd haddress (address_of_mem_activeValidators h.slashed hv)

/-- A vote of `a` is dropped, unless it kept its seat. -/
theorem Barred.vote (h : Barred P a old c) {vote : FinalityVote}
    (ha : addressBytesFromPublicKey P vote.voterPublicKey = a)
    (hseat : ¬ Seated P a old (c.epochForHeight vote.blockHeight)) :
    c.addFinalityVote P vote = (none, c) := by
  unfold Blockchain.addFinalityVote
  split
  · rfl
  next snapshot hsnapshot =>
  have hstored : c.epochSnapshots[c.epochForHeight vote.blockHeight]? = some snapshot := by
    unfold votableSnapshot at hsnapshot
    split at hsnapshot
    · exact absurd hsnapshot (by simp)
    split at hsnapshot
    · exact absurd hsnapshot (by simp)
    split at hsnapshot
    · exact absurd hsnapshot (by simp)
    split at hsnapshot
    · exact absurd hsnapshot (by simp)
    · exact hsnapshot
  have hwithout : snapshot.Without P a := by
    rcases h.snapshots _ _ hstored with hold | hwithout
    · by_contra hkept
      exact hseat ⟨snapshot, hold, hkept⟩
    · exact hwithout
  rw [addVote_of_without hwithout ha]

end Blockchain

namespace ExpelledSample

open Scenario RestartSample

/-- Validator 2 has signed two blocks at height one. -/
def evidence (c : Blockchain) : EquivocationEvidence :=
  doubleSigned 2 { c.genesis.header with height := 1, validatorPublicKey := (key 2).publicKey }

end ExpelledSample

end Curs3d
