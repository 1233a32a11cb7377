import Curs3d.Proof.Tracker

/-!
# The two-thirds rule and its 64-bit products

A run of correctly signed votes counts, per height, the first vote of each validator of the snapshot
(`counted`). The tracker follows that count above its finalized height (`Follows`), so what is left of
`add_vote` is the comparison of two saturated products. They decide as the exact ones do unless the
larger one is clipped and the smaller one should have stayed below it (`threshold_iff`): then a block
is final with less than two thirds behind it (`half_finalizes`).
-/

set_option autoImplicit false

namespace Curs3d

open U64

/-! ## The count -/

/-- The vote is of the snapshot, and its voter has no counted vote at that height. -/
def Counts (s : EpochSnapshot) (earlier : List FinalityVote) (vote : FinalityVote) : Prop :=
  vote.voterPublicKey ∈ s.keys ∧
    ∀ w ∈ earlier, w.voterPublicKey = vote.voterPublicKey → w.blockHeight ≠ vote.blockHeight

instance (s : EpochSnapshot) (earlier : List FinalityVote) (vote : FinalityVote) :
    Decidable (Counts s earlier vote) :=
  inferInstanceAs (Decidable (_ ∧ ∀ w ∈ earlier, _ → _))

def countOne (s : EpochSnapshot) (earlier : List FinalityVote) (vote : FinalityVote) :
    List FinalityVote :=
  if Counts s earlier vote then earlier ++ [vote] else earlier

/-- The votes that count, in the order they came. -/
def counted (s : EpochSnapshot) (votes : List FinalityVote) : List FinalityVote :=
  votes.foldl (countOne s) []

/-- The stake of the distinct voters counted for `hash`. -/
def stakeBehind (s : EpochSnapshot) (votes : List FinalityVote) (hash : Bytes) : Nat :=
  Quorum.weight s.stakeOf (voters ((counted s votes).filter fun v => v.blockHash = hash))

variable {P : Primitives} {s : EpochSnapshot} {votes cs : List FinalityVote} {vote : FinalityVote}
  {t t' : FinalityTracker} {r : Option FinalizedBlock}

theorem counted_append_singleton :
    counted s (votes ++ [vote]) = countOne s (counted s votes) vote := by
  rw [counted, List.foldl_append]
  rfl

theorem countOne_subset : countOne s cs vote ⊆ cs ++ [vote] := by
  unfold countOne
  split
  · exact List.Subset.refl _
  · exact List.subset_append_left _ _

theorem counted_subset : counted s votes ⊆ votes := by
  induction votes using List.reverseRecOn with
  | nil => exact List.Subset.refl _
  | append_singleton votes vote ih =>
    rw [counted_append_singleton]
    exact List.Subset.trans countOne_subset (List.append_subset.mpr
      ⟨List.Subset.trans ih (List.subset_append_left _ _), List.subset_append_right _ _⟩)

/-- In these votes a block hash determines its height. -/
def HashFixesHeight (votes : List FinalityVote) : Prop :=
  ∀ v ∈ votes, ∀ w ∈ votes, v.blockHash = w.blockHash → v.blockHeight = w.blockHeight

instance (votes : List FinalityVote) : Decidable (HashFixesHeight votes) :=
  inferInstanceAs (Decidable (∀ v ∈ votes, ∀ w ∈ votes, _ → _))

theorem HashFixesHeight.mono {fewer : List FinalityVote} (h : HashFixesHeight votes)
    (hsub : fewer ⊆ votes) : HashFixesHeight fewer :=
  fun v hv w hw => h v (hsub hv) w (hsub hw)

/-! ## The tracker follows the count -/

/-- Above the finalized height the tracker holds the counted votes `cs`. -/
structure Follows (cs : List FinalityVote) (t : FinalityTracker) : Prop where
  distinct : (cs.map fun v => (v.voterPublicKey, v.blockHeight)).Nodup
  seen : ∀ publicKey height, t.finalizedHeight < height →
    ((publicKey, height) ∈ t.seenVotes ↔
      ∃ w ∈ cs, w.voterPublicKey = publicKey ∧ w.blockHeight = height)
  votes : ∀ hash, t.votes[hash]?.getD [] =
    cs.filter fun w => w.blockHash = hash ∧ t.finalizedHeight < w.blockHeight

theorem follows_withFinalized (height : Nat) (hash : Bytes) :
    Follows [] (.withFinalized height hash) where
  distinct := List.nodup_nil
  seen := by
    intro publicKey h _
    simp [FinalityTracker.withFinalized]
  votes := by
    intro h
    simp [FinalityTracker.withFinalized]

theorem mem_validatorStakes {publicKey : Bytes} :
    publicKey ∈ s.validatorStakes ↔ publicKey ∈ s.keys := by
  rw [EpochSnapshot.keys, List.mem_toFinset, Std.ExtTreeMap.mem_iff_isSome_getElem?,
    EpochSnapshot.validatorStakes]
  constructor
  · intro h
    by_contra hnot
    rw [KeyMap.getElem?_foldl_insert_of_notMem _ _ _ _ hnot] at h
    simp at h
  · intro h
    obtain ⟨stake, hstake⟩ := KeyMap.getElem?_foldl_insert_isSome Validator.publicKey
      Validator.stake s.validators (∅ : ByteMap Nat) h
    rw [hstake]
    rfl

namespace Follows

theorem distinct_append (h : Follows cs t) (hcounts : Counts s cs vote) :
    ((cs ++ [vote]).map fun v => (v.voterPublicKey, v.blockHeight)).Nodup := by
  rw [List.map_append, List.map_singleton]
  refine List.nodup_append.mpr ⟨h.distinct, List.nodup_singleton _, ?_⟩
  intro a ha b hb hab
  obtain ⟨w, hw, rfl⟩ := List.mem_map.mp ha
  rw [List.mem_singleton] at hb
  obtain ⟨hkey, hheight⟩ := Prod.mk.inj (hab.trans hb)
  exact hcounts.2 w hw hkey hheight

/-- A vote that does not reach above the finalized height changes nothing there. -/
theorem countOne_below (h : Follows cs t) (hle : vote.blockHeight ≤ t.finalizedHeight) :
    Follows (countOne s cs vote) t := by
  unfold countOne
  split
  · next hcounts =>
    refine ⟨h.distinct_append hcounts, ?_, ?_⟩
    · intro publicKey height hlt
      rw [h.seen publicKey height hlt]
      constructor
      · rintro ⟨w, hw, hkey⟩
        exact ⟨w, List.mem_append_left _ hw, hkey⟩
      · rintro ⟨w, hw, hkey, hheight⟩
        rcases List.mem_append.mp hw with hw | hw
        · exact ⟨w, hw, hkey, hheight⟩
        · rw [List.mem_singleton] at hw
          subst hw
          omega
    · intro hash
      rw [h.votes hash, List.filter_append, List.filter_cons_of_neg (by simp [hle]), List.filter_nil,
        List.append_nil]
  · exact h

/-- The votes recorded for the block of a vote above the finalized height are the counted ones. -/
theorem votes_of_lt (h : Follows cs t) (hfix : HashFixesHeight (cs ++ [vote]))
    (hlt : t.finalizedHeight < vote.blockHeight) :
    t.votes[vote.blockHash]?.getD [] = cs.filter fun w => w.blockHash = vote.blockHash := by
  rw [h.votes]
  apply List.filter_congr
  intro w hw
  have hsame : w.blockHash = vote.blockHash → t.finalizedHeight < w.blockHeight := by
    intro heq
    rw [hfix w (List.mem_append_left _ hw) vote (by simp) heq]
    exact hlt
  by_cases heq : w.blockHash = vote.blockHash
  · simp [heq, hsame heq]
  · simp [heq]

theorem recordVote (h : Follows cs t) (hcounts : Counts s cs vote)
    (hlt : t.finalizedHeight < vote.blockHeight) : Follows (cs ++ [vote]) (t.recordVote vote) where
  distinct := h.distinct_append hcounts
  seen := by
    intro publicKey height hh
    have hseen := h.seen publicKey height hh
    simp only [FinalityTracker.recordVote, Finset.mem_insert, Prod.mk.injEq, hseen,
      List.mem_append, List.mem_singleton]
    constructor
    · rintro (⟨rfl, rfl⟩ | ⟨w, hw, hkey⟩)
      · exact ⟨vote, .inr rfl, rfl, rfl⟩
      · exact ⟨w, .inl hw, hkey⟩
    · rintro ⟨w, hw | rfl, hkey, hheight⟩
      · exact .inr ⟨w, hw, hkey, hheight⟩
      · exact .inl ⟨hkey.symm, hheight.symm⟩
  votes := by
    intro hash
    have hfin : (t.recordVote vote).finalizedHeight = t.finalizedHeight := rfl
    rw [hfin, FinalityTracker.recordVote, KeyMap.getElem?_insert_eq, List.filter_append]
    split
    · next heq =>
      subst heq
      rw [Option.getD_some, h.votes, List.filter_cons_of_pos (by simp [hlt]), List.filter_nil]
    · next hne =>
      rw [h.votes, List.filter_cons_of_neg (by simp [hne]), List.filter_nil, List.append_nil]

/-- The first vote for a hash decides whether all of them stay. -/
theorem votes_finalize (t : FinalityTracker) (hash : Bytes) (height : Nat) (k : Bytes) :
    (t.finalize hash height).votes[k]?.getD [] =
      (t.votes[k]?.getD []).head?.elim [] fun first =>
        if height < first.blockHeight then t.votes[k]?.getD [] else [] := by
  rw [FinalityTracker.finalize, Std.ExtTreeMap.getElem?_filter']
  cases t.votes[k]? with
  | none => rfl
  | some l =>
    cases l with
    | nil => rfl
    | cons first rest =>
      by_cases hfirst : height < first.blockHeight
      · simp [Option.filter, hfirst]
      · simp [Option.filter, hfirst]

/-- Finalizing forgets the votes up to the new height, whole lists at a time. -/
theorem finalize (h : Follows cs t) (hfix : HashFixesHeight cs) {hash : Bytes} {height : Nat}
    (hlt : t.finalizedHeight < height) : Follows cs (t.finalize hash height) where
  distinct := h.distinct
  seen := by
    intro publicKey k hk
    have hk : height < k := hk
    rw [← h.seen publicKey k (by omega)]
    simp [FinalityTracker.finalize, hk]
  votes := by
    intro k
    have hlist := h.votes k
    have hheight : (t.finalize hash height).finalizedHeight = height := rfl
    rw [votes_finalize, hheight]
    cases hhead : (t.votes[k]?.getD []).head? with
    | some first =>
      rw [Option.elim_some]
      have hmem : first ∈ t.votes[k]?.getD [] := List.mem_of_mem_head? (by rw [hhead]; rfl)
      rw [hlist, List.mem_filter, decide_eq_true_eq] at hmem
      have hsame : ∀ w ∈ cs, w.blockHash = k → w.blockHeight = first.blockHeight :=
        fun w hw hwk => hfix w hw first hmem.1 (hwk.trans hmem.2.1.symm)
      -- the first vote stands for all of its block
      split
      · next hfirst =>
        rw [hlist]
        apply List.filter_congr
        intro w hw
        by_cases hwk : w.blockHash = k
        · have hheight := hsame w hw hwk
          simp only [hwk, true_and, decide_eq_decide]
          omega
        · simp [hwk]
      · next hfirst =>
        symm
        apply List.filter_eq_nil_iff.mpr
        intro w hw hboth
        rw [decide_eq_true_eq] at hboth
        have hheight := hsame w hw hboth.1
        omega
    | none =>
      rw [List.head?_eq_none_iff, hlist] at hhead
      rw [Option.elim_none]
      symm
      apply List.filter_eq_nil_iff.mpr
      intro w hw hboth
      rw [decide_eq_true_eq] at hboth
      have hnone := List.filter_eq_nil_iff.mp hhead w hw
      rw [decide_eq_true_eq] at hnone
      exact hnone ⟨hboth.1, by omega⟩

/-- A vote above the finalized height that does not count is not recorded. -/
theorem addVote_of_not_counts (h : Follows cs t) (hlt : t.finalizedHeight < vote.blockHeight)
    (hnot : ¬ Counts s cs vote) : t.addVote P vote s = (t, none) := by
  unfold FinalityTracker.addVote
  dsimp only
  split
  · rfl
  split
  · rfl
  split
  · rfl
  split
  · rfl
  next hmember =>
  split
  · rfl
  next hseen =>
  rw [not_not, mem_validatorStakes] at hmember
  rw [h.seen _ _ hlt] at hseen
  exact absurd ⟨hmember, fun w hw hkey hheight => hseen ⟨w, hw, hkey, hheight⟩⟩ hnot

/-- One that counts is, and decides. -/
theorem addVote_of_counts (h : Follows cs t) (hs : s.Exact) (hpos : 0 < s.totalStake)
    (hverify : vote.verify P = true) (hepoch : vote.epoch = s.epoch)
    (hfix : HashFixesHeight (cs ++ [vote])) (hlt : t.finalizedHeight < vote.blockHeight)
    (hcounts : Counts s cs vote) :
    t.addVote P vote s =
      if satMul s.totalStake 2 ≤ satMul (Quorum.weight s.stakeOf
          (voters ((cs ++ [vote]).filter fun v => v.blockHash = vote.blockHash))) 3 then
        ((t.recordVote vote).finalize vote.blockHash vote.blockHeight,
          some { hash := vote.blockHash, height := vote.blockHeight })
      else (t.recordVote vote, none) := by
  have hseen : (vote.voterPublicKey, vote.blockHeight) ∉ t.seenVotes := by
    rw [h.seen _ _ hlt]
    rintro ⟨w, hw, hkey, hheight⟩
    exact hcounts.2 w hw hkey hheight
  have hlist := h.votes_of_lt hfix hlt
  have hfresh : ¬ ((t.votes[vote.blockHash]?.getD []).any fun v =>
      v.voterPublicKey = vote.voterPublicKey) = true := by
    rw [hlist, List.any_eq_true]
    rintro ⟨w, hw, hkey⟩
    rw [List.mem_filter, decide_eq_true_eq] at hw
    rw [decide_eq_true_eq] at hkey
    exact hcounts.2 w hw.1 hkey (hfix w (List.mem_append_left _ hw.1) vote (by simp) hw.2)
  have hfollows := h.recordVote hcounts hlt
  have hrecorded : (t.recordVote vote).votes[vote.blockHash]?.getD [] =
      (cs ++ [vote]).filter fun v => v.blockHash = vote.blockHash := by
    rw [FinalityTracker.recordVote, KeyMap.getElem?_insert_eq, if_pos rfl, Option.getD_some, hlist,
      List.filter_append, List.filter_cons_of_pos (by simp), List.filter_nil]
  have hnodup : (((cs ++ [vote]).filter fun v => v.blockHash = vote.blockHash).map
      FinalityVote.voterPublicKey).Nodup := by
    -- votes for one hash are at one height, so their voters differ
    have hpairs := (List.filter_sublist (p := fun v => decide (v.blockHash = vote.blockHash))
      (l := cs ++ [vote])).map (fun v => (v.voterPublicKey, v.blockHeight)) |>.nodup hfollows.distinct
    rw [List.Nodup, List.pairwise_map] at hpairs ⊢
    refine hpairs.imp_of_mem ?_
    intro v w hv hw hne hkey
    rw [List.mem_filter, decide_eq_true_eq] at hv hw
    exact hne (Prod.ext hkey (hfix v hv.1 w hw.1 (hv.2.trans hw.2.symm)))
  unfold FinalityTracker.addVote
  dsimp only
  rw [if_neg (by simp [hverify]), if_neg (not_not_intro hepoch), if_neg (Nat.not_le.mpr hlt),
    if_neg (not_not_intro (mem_validatorStakes.mpr hcounts.1)), if_neg hseen, if_neg hfresh,
    if_neg (Nat.ne_of_gt hpos), hrecorded, FinalityTracker.votedStake_eq_weight hs hnodup]

theorem addVote_of_below (hle : vote.blockHeight ≤ t.finalizedHeight) :
    t.addVote P vote s = (t, none) := by
  unfold FinalityTracker.addVote
  dsimp only
  split
  · rfl
  split
  · rfl
  · rfl

/-- **One vote.** -/
theorem addVote (h : Follows cs t) (hs : s.Exact) (hpos : 0 < s.totalStake)
    (hverify : vote.verify P = true) (hepoch : vote.epoch = s.epoch)
    (hfix : HashFixesHeight (cs ++ [vote])) :
    Follows (countOne s cs vote) (t.addVote P vote s).1 := by
  rcases Nat.lt_or_ge t.finalizedHeight vote.blockHeight with hlt | hle
  · by_cases hcounts : Counts s cs vote
    · have hrecord := h.recordVote hcounts hlt
      rw [h.addVote_of_counts hs hpos hverify hepoch hfix hlt hcounts, countOne, if_pos hcounts]
      split
      · exact hrecord.finalize hfix hlt
      · exact hrecord
    · rw [h.addVote_of_not_counts hlt hcounts, countOne, if_neg hcounts]
      exact h
  · rw [addVote_of_below hle]
    exact h.countOne_below hle

end Follows

/-- Correctly signed votes for the epoch of the snapshot, in which a block hash determines its
height. -/
structure SignedVotes (P : Primitives) (s : EpochSnapshot) (votes : List FinalityVote) : Prop where
  verify : ∀ v ∈ votes, v.verify P = true
  epoch : ∀ v ∈ votes, v.epoch = s.epoch
  fixes : HashFixesHeight votes

/-- **A tracker fed a run of votes follows the count.** -/
theorem follows_feed (hs : s.Exact) (hpos : 0 < s.totalStake) (hvotes : SignedVotes P s votes)
    (height : Nat) (hash : Bytes) :
    Follows (counted s votes) (FinalityTracker.feed P s (.withFinalized height hash) votes) := by
  induction votes using List.reverseRecOn with
  | nil => exact follows_withFinalized height hash
  | append_singleton votes vote ih =>
    have hfirst : SignedVotes P s votes :=
      ⟨fun v hv => hvotes.verify v (List.mem_append_left _ hv),
        fun v hv => hvotes.epoch v (List.mem_append_left _ hv),
        hvotes.fixes.mono (List.subset_append_left _ _)⟩
    have hsub : counted s votes ++ [vote] ⊆ votes ++ [vote] :=
      List.append_subset.mpr ⟨List.Subset.trans counted_subset (List.subset_append_left _ _),
        List.subset_append_right _ _⟩
    rw [counted_append_singleton, FinalityTracker.feed, List.foldl_append]
    exact (ih hfirst).addVote hs hpos (hvotes.verify vote (by simp)) (hvotes.epoch vote (by simp))
      (hvotes.fixes.mono hsub)

/-! ## The comparison -/

/-- The saturated products decide as the exact ones do unless the voted stake is in the window above
the clip and below two thirds. -/
theorem threshold_iff {total voted : Nat} :
    (satMul total 2 ≤ satMul voted 3 ↔ 2 * total ≤ 3 * voted) ↔
      ¬ (u64Max ≤ 3 * voted ∧ 3 * voted < 2 * total) := by
  unfold satMul
  omega

/-- A total that can be doubled leaves no window. -/
theorem no_window_of_le {total voted : Nat} (h : 2 * total ≤ u64Max) :
    ¬ (u64Max ≤ 3 * voted ∧ 3 * voted < 2 * total) := by
  omega

/-- A vote finalizes its block exactly when it counts and completes two thirds of the stake. -/
def DecidesAt (P : Primitives) (s : EpochSnapshot) (start : FinalityTracker)
    (before : List FinalityVote) (vote : FinalityVote) : Prop :=
  ((start.feed P s before).addVote P vote s).2.isSome ↔
    Counts s (counted s before) vote ∧
      2 * s.totalStake ≤ 3 * stakeBehind s (before ++ [vote]) vote.blockHash

/-- **The two-thirds rule is exact** for the votes of a run above the finalized height, exactly when none
that counts leaves the stake behind its block above the clip and below two thirds. -/
theorem finality_threshold_exact_iff (P : Primitives) (s : EpochSnapshot) (hs : s.Exact)
    (hpos : 0 < s.totalStake) (height : Nat) (hash : Bytes) (votes : List FinalityVote)
    (hvotes : SignedVotes P s votes) :
    (∀ before vote after, votes = before ++ vote :: after →
        (FinalityTracker.feed P s (.withFinalized height hash) before).finalizedHeight <
          vote.blockHeight →
        DecidesAt P s (.withFinalized height hash) before vote) ↔
      ∀ before vote after, votes = before ++ vote :: after →
        (FinalityTracker.feed P s (.withFinalized height hash) before).finalizedHeight <
          vote.blockHeight →
        Counts s (counted s before) vote →
        ¬ (u64Max ≤ 3 * stakeBehind s (before ++ [vote]) vote.blockHash ∧
          3 * stakeBehind s (before ++ [vote]) vote.blockHash < 2 * s.totalStake) := by
  have hone : ∀ before vote after, votes = before ++ vote :: after →
      (FinalityTracker.feed P s (.withFinalized height hash) before).finalizedHeight <
        vote.blockHeight →
      (DecidesAt P s (.withFinalized height hash) before vote ↔
        (Counts s (counted s before) vote →
          ¬ (u64Max ≤ 3 * stakeBehind s (before ++ [vote]) vote.blockHash ∧
            3 * stakeBehind s (before ++ [vote]) vote.blockHash < 2 * s.totalStake))) := by
    intro before vote after heq hlt
    have hbefore : SignedVotes P s before := by
      rw [heq] at hvotes
      exact ⟨fun v hv => hvotes.verify v (List.mem_append_left _ hv),
        fun v hv => hvotes.epoch v (List.mem_append_left _ hv),
        hvotes.fixes.mono (List.subset_append_left _ _)⟩
    have hmem : vote ∈ votes := by
      rw [heq]
      simp
    have hfix : HashFixesHeight (counted s before ++ [vote]) := by
      refine hvotes.fixes.mono (List.append_subset.mpr ⟨?_, by simpa using hmem⟩)
      rw [heq]
      exact List.Subset.trans counted_subset (List.subset_append_left _ _)
    have hfollows := follows_feed hs hpos hbefore height hash
    unfold DecidesAt
    by_cases hcounts : Counts s (counted s before) vote
    · have hbehind : stakeBehind s (before ++ [vote]) vote.blockHash =
          Quorum.weight s.stakeOf (voters ((counted s before ++ [vote]).filter
            fun v => v.blockHash = vote.blockHash)) := by
        rw [stakeBehind, counted_append_singleton, countOne, if_pos hcounts]
      rw [hfollows.addVote_of_counts hs hpos (hvotes.verify vote hmem) (hvotes.epoch vote hmem) hfix
        hlt hcounts, ← hbehind, ← threshold_iff]
      split
      · next hreached => simp [hcounts, hreached]
      · next hreached => simp [hcounts, hreached]
    · rw [hfollows.addVote_of_not_counts hlt hcounts]
      simp [hcounts]
  constructor
  · intro hall before vote after heq hlt
    exact (hone before vote after heq hlt).mp (hall before vote after heq hlt)
  · intro hall before vote after heq hlt
    exact (hone before vote after heq hlt).mpr (hall before vote after heq hlt)

open AgreementSample in
/-- Two of three equal validators: the second vote is decided as it should be. -/
theorem finality_threshold_exact_sample :
    DecidesAt Reference.primitives snapshot (.withFinalized 0 []) [voteOf 1 [10]] (voteOf 2 [10]) := by
  have hvotes : SignedVotes Reference.primitives snapshot [voteOf 1 [10], voteOf 2 [10]] :=
    ⟨by decide +kernel, by decide +kernel, by decide +kernel⟩
  refine (finality_threshold_exact_iff Reference.primitives snapshot wellFormed.exact (by decide) 0 []
    _ hvotes).mpr ?_ [voteOf 1 [10]] (voteOf 2 [10]) [] rfl (by decide +kernel)
  intro _ _ _ _ _ _
  exact no_window_of_le (by decide)

namespace HalfSample

/-- Two validators with nine quintillion each. -/
def snapshot : EpochSnapshot where
  epoch := 0
  startHeight := 0
  validators := [1, 2].map fun n =>
    { address := [n], publicKey := [n], stake := 9000000000000000000 }
  totalStake := 18000000000000000000

end HalfSample

open HalfSample in
/-- The vote of the first finalizes its block, with half of the stake behind it. -/
theorem half_finalizes : ¬ ∀ (P : Primitives) (s : EpochSnapshot) (votes : List FinalityVote),
    s.Exact → 0 < s.totalStake → SignedVotes P s votes →
      ∀ before vote after, votes = before ++ vote :: after →
        (FinalityTracker.feed P s {} before).finalizedHeight < vote.blockHeight →
          DecidesAt P s {} before vote := by
  intro hall
  have hexact : snapshot.Exact := ⟨by decide, by decide, by decide⟩
  have hvotes : SignedVotes Reference.primitives snapshot [AgreementSample.voteOf 1 [10]] :=
    ⟨by decide +kernel, by decide +kernel, by decide +kernel⟩
  have hdecides := hall Reference.primitives snapshot _ hexact (by decide) hvotes []
    (AgreementSample.voteOf 1 [10]) [] rfl (by decide +kernel)
  have hwrong : ¬ DecidesAt Reference.primitives snapshot {} [] (AgreementSample.voteOf 1 [10]) := by
    unfold DecidesAt
    decide +kernel
  exact hwrong hdecides

end Curs3d
