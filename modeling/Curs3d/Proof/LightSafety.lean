import Curs3d.Proof.Production
import Curs3d.Proof.SlotGate
import Curs3d.Proof.SlotLeaders
import Curs3d.Proof.StateProofs

/-!
# What a light client follows

The headers a light client keeps have heights 0, 1, 2, .. and each names the hash of the one before,
whatever it was sent (`Chained`). Who signed them is another matter: the signature of a header is
checked under the key that the header itself carries, and nothing ties that key to a validator. So a
sequence the client takes is of blocks that full nodes accepted exactly when all its keys are keys of
validators (`light_client_follows_iff`), and an outsider's block is taken as well
(`light_client_follows_outsider`).
-/

set_option autoImplicit false

namespace Curs3d

open Outcome

variable {P : Primitives}

/-! ## The headers a client keeps -/

namespace LightClient

variable {lc lc' : LightClient} {h : SignedHeader} {headers : List SignedHeader}

/-- The client after these calls, successful or not. -/
def syncAll (P : Primitives) (lc : LightClient) (calls : List (List SignedHeader)) : LightClient :=
  calls.foldl (fun lc headers => (lc.syncHeaders P headers).2) lc

/-- Heights from 0 on, each header hashed, and linked to the one before. -/
structure Chained (P : Primitives) (headers : List SignedHeader) : Prop where
  height : ∀ (i : Nat) (h : SignedHeader), headers[i]? = some h → h.header.height = i
  hash : ∀ h ∈ headers, h.blockHash = Block.computeHash P h.header
  linked : ∀ (i : Nat) (prev h : SignedHeader), headers[i]? = some prev → headers[i + 1]? = some h →
    h.header.prevHash = prev.blockHash

theorem chained_nil : Chained P [] :=
  ⟨by simp, by simp, by simp⟩

theorem Chained.expectedHeight (hlc : Chained P lc.headers) :
    lc.expectedHeight = lc.headers.length := by
  simp only [LightClient.expectedHeight, List.getLast?_eq_getElem?]
  cases hlast : lc.headers[lc.headers.length - 1]? with
  | none =>
    have hle := List.getElem?_eq_none_iff.mp hlast
    simp
    omega
  | some prev =>
    have hlt := (List.getElem?_eq_some_iff.mp hlast).1
    simp [hlc.height _ _ hlast]
    omega

theorem verifyHeader_zero (hheight : h.header.height = 0) (hok : lc.verifyHeader P h = .ok ()) :
    lc.expectedHeight = 0 ∧ h.blockHash = Block.computeHash P h.header ∧
      h.blockHash = lc.genesisHash := by
  simp only [verifyHeader, hheight, if_true, ne_eq] at hok
  split at hok
  · exact absurd hok (by simp)
  split at hok
  · exact absurd hok (by simp)
  next hexpected =>
  split at hok
  · exact absurd hok (by simp)
  next hhash =>
  split at hok
  · exact absurd hok (by simp)
  next hgenesis =>
  rw [not_or] at hgenesis
  exact ⟨(not_not.mp hexpected).symm, (not_not.mp hhash).symm, not_not.mp hgenesis.1⟩

/-- What every header that passes has in common. -/
theorem verifyHeader_links (hok : lc.verifyHeader P h = .ok ()) :
    h.header.height = lc.expectedHeight ∧ h.blockHash = Block.computeHash P h.header ∧
      ∀ prev, h.header.height ≠ 0 → lc.headers.getLast? = some prev →
        h.header.prevHash = prev.blockHash := by
  by_cases hheight : h.header.height = 0
  · obtain ⟨hexpected, hhash, -⟩ := verifyHeader_zero hheight hok
    exact ⟨hheight.trans hexpected.symm, hhash, fun _ hne => absurd hheight hne⟩
  · obtain ⟨-, hexpected, hhash, prev, signature, hprev, hlink, -⟩ :=
      (verifyHeader_eq_ok hheight).mp hok
    refine ⟨hexpected, hhash.symm, ?_⟩
    intro last _ hlast
    rw [hprev] at hlast
    cases hlast
    exact hlink

theorem Chained.push (hlc : Chained P lc.headers) (hok : lc.verifyHeader P h = .ok ()) :
    Chained P (lc.push h).headers := by
  obtain ⟨hexpected, hhash, hlink⟩ := verifyHeader_links hok
  rw [hlc.expectedHeight] at hexpected
  refine ⟨?_, ?_, ?_⟩
  · intro i e he
    rw [LightClient.push, List.getElem?_append] at he
    split at he
    · exact hlc.height i e he
    · next hge =>
      rw [List.getElem?_singleton] at he
      split at he
      · next hi =>
        cases he
        omega
      · exact absurd he (by simp)
  · intro e he
    rw [LightClient.push, List.mem_append, List.mem_singleton] at he
    rcases he with he | rfl
    · exact hlc.hash e he
    · exact hhash
  · intro i prev e hprev he
    rw [LightClient.push, List.getElem?_append] at hprev he
    split at he
    · next hlt =>
      rw [if_pos (by omega)] at hprev
      exact hlc.linked i prev e hprev he
    · next hge =>
      rw [List.getElem?_singleton] at he
      split at he
      · next hi =>
        cases he
        have hlast : i = lc.headers.length - 1 := by omega
        rw [if_pos (by omega), hlast, ← List.getLast?_eq_getElem?] at hprev
        exact hlink prev (by omega) hprev
      · exact absurd he (by simp)

theorem Chained.syncLoop (hlc : Chained P lc.headers) :
    Chained P (lc.syncLoop P headers).2.headers := by
  induction headers generalizing lc with
  | nil => exact hlc
  | cons h headers ih =>
    simp only [LightClient.syncLoop]
    cases hok : lc.verifyHeader P h with
    | error e => exact hlc
    | ok u => exact ih (hlc.push hok)

theorem Chained.syncHeaders (hlc : Chained P lc.headers) :
    Chained P (lc.syncHeaders P headers).2.headers := by
  have hloop := @Chained.syncLoop P lc headers hlc
  simp only [LightClient.syncHeaders]
  split
  · exact hlc
  · split
    · next hsync =>
      rw [hsync] at hloop
      exact hloop
    · next hsync =>
      rw [hsync] at hloop
      exact hloop

theorem Chained.syncAll {calls : List (List SignedHeader)} (hlc : Chained P lc.headers) :
    Chained P (lc.syncAll P calls).headers := by
  induction calls generalizing lc with
  | nil => exact hlc
  | cons headers calls ih => exact ih hlc.syncHeaders

theorem genesisHash_syncLoop : (lc.syncLoop P headers).2.genesisHash = lc.genesisHash := by
  induction headers generalizing lc with
  | nil => rfl
  | cons h headers ih =>
    simp only [LightClient.syncLoop]
    cases lc.verifyHeader P h with
    | error e => rfl
    | ok u => exact ih

theorem genesisHash_syncHeaders : (lc.syncHeaders P headers).2.genesisHash = lc.genesisHash := by
  have hloop := @genesisHash_syncLoop P lc headers
  simp only [LightClient.syncHeaders]
  split
  · rfl
  · split
    · next hsync =>
      rw [hsync] at hloop
      exact hloop
    · next hsync =>
      rw [hsync] at hloop
      exact hloop

theorem genesisHash_syncAll {calls : List (List SignedHeader)} :
    (lc.syncAll P calls).genesisHash = lc.genesisHash := by
  induction calls generalizing lc with
  | nil => rfl
  | cons headers calls ih => exact ih.trans genesisHash_syncHeaders

/-- Every header of a sequence that is taken passed the checks of a client with the same genesis. -/
theorem verified_of_syncLoop (hok : (lc.syncLoop P headers).1 = .ok ()) :
    ∀ h ∈ headers, ∃ lc' : LightClient, lc'.genesisHash = lc.genesisHash ∧
      lc'.verifyHeader P h = .ok () := by
  induction headers generalizing lc with
  | nil => simp
  | cons h headers ih =>
    simp only [LightClient.syncLoop] at hok
    cases hverify : lc.verifyHeader P h with
    | error e =>
      rw [hverify] at hok
      exact absurd hok (by simp)
    | ok u =>
      rw [hverify] at hok
      intro e he
      rcases List.mem_cons.mp he with rfl | he
      · exact ⟨lc, rfl, hverify⟩
      · exact ih hok e he

theorem verified_of_syncHeaders {n : Nat} (hok : (lc.syncHeaders P headers).1 = .ok n) :
    ∀ h ∈ headers, ∃ lc' : LightClient, lc'.genesisHash = lc.genesisHash ∧
      lc'.verifyHeader P h = .ok () := by
  apply verified_of_syncLoop
  simp only [LightClient.syncHeaders] at hok
  split at hok
  · exact absurd hok (by simp)
  · split at hok
    · next hsync => rw [hsync]
    · exact absurd hok (by simp)

end LightClient

/-! ## Validators of the full nodes -/

section Leaders

variable {snapshot : EpochSnapshot} {height : Nat} {parentHash addr : Bytes}

theorem mem_of_slotLeaderExcluding {rank : Nat} {excluded : List Bytes}
    (h : slotLeaderExcluding P snapshot height parentHash rank excluded = some addr) :
    addr ∈ snapshot.validators.map Validator.address := by
  simp only [slotLeaderExcluding] at h
  split at h
  · exact absurd h (by simp)
  · split at h
    · next v hpick =>
      cases h
      exact List.mem_map_of_mem (List.mem_of_mem_filter (mem_of_pickByStake hpick))
    · rw [Option.map_eq_some_iff] at h
      obtain ⟨v, hlast, rfl⟩ := h
      exact List.mem_map_of_mem (List.mem_of_mem_filter (List.mem_of_getLast? hlast))

theorem mem_of_slotLeaderWalk {k n : Nat} {excluded : List Bytes} {last : Option Bytes}
    (hlast : ∀ a, last = some a → a ∈ snapshot.validators.map Validator.address)
    (h : slotLeaderWalk P snapshot height parentHash k n excluded last = some addr) :
    addr ∈ snapshot.validators.map Validator.address := by
  induction n generalizing k excluded last with
  | zero => exact hlast addr h
  | succ n ih =>
    simp only [slotLeaderWalk] at h
    split at h
    · next a hleader =>
      refine ih ?_ h
      rintro b hb
      cases hb
      exact mem_of_slotLeaderExcluding hleader
    · exact hlast addr h

/-- The leader of a slot is a validator of the snapshot. -/
theorem mem_of_slotLeaderAtRank {rank : Nat}
    (h : slotLeaderAtRank P snapshot height parentHash rank = some addr) :
    addr ∈ snapshot.validators.map Validator.address := by
  simp only [slotLeaderAtRank] at h
  split at h
  · exact absurd h (by simp)
  · exact mem_of_slotLeaderWalk (by simp) h

end Leaders

namespace Blockchain

variable {c : Blockchain} {now : Int} {block : Block}

/-- Whether the node takes the holder of this key for a validator at its next height. With no validator
left anybody may propose. -/
def hasValidator (P : Primitives) (c : Blockchain) (publicKey : Bytes) : Bool :=
  let prepared := c.prepareEpoch P c.nextHeight
  match prepared.snapshotForHeight prepared.accounts c.nextHeight with
  | some snapshot =>
    decide (addressBytesFromPublicKey P publicKey ∈ snapshot.validators.map Validator.address)
  | none => true

theorem hasValidator_of_addBlock (hok : (c.addBlock P now block).1 = .ok ()) :
    c.hasValidator P block.header.validatorPublicKey = true := by
  obtain ⟨hfollows, -⟩ := addBlock_ok_spine hok
  obtain ⟨s, ha⟩ := accepted_of_addBlock hok
  have hheight : block.header.height = c.nextHeight := hfollows.height
  obtain ⟨-, hauth, -⟩ := validate_eq_ok.mp ha.valid
  have haccounts : (c.settledAt P block.header.height).1 =
      (c.prepareEpoch P c.nextHeight).accounts := by
    rw [prepareEpoch_eq, hheight]
  rw [haccounts, hheight] at hauth
  simp only [hasValidator]
  split
  · next snapshot hsnapshot =>
    obtain ⟨rank, -, hleader⟩ := (authorizeProposer_eq_ok hsnapshot).mp hauth
    simpa using mem_of_slotLeaderAtRank hleader
  · rfl

/-! ## A network of full nodes -/

/-- A chain that a full node has had, after some of its calls. -/
def Held (P : Primitives) (c₀ : Blockchain) (nodes : List (List (Int × Block))) (c : Blockchain) :
    Prop :=
  ∃ calls ∈ nodes, ∃ before, before <+: calls ∧ c = offer P c₀ before

/-- A block that a full node has accepted. -/
def AcceptedBy (P : Primitives) (c₀ : Blockchain) (nodes : List (List (Int × Block)))
    (block : Block) : Prop :=
  ∃ calls ∈ nodes, ∃ before now, before ++ [(now, block)] <+: calls ∧
    ((offer P c₀ before).addBlock P now block).1 = .ok ()

/-- The key of a validator, of the genesis or of any later state of a full node. -/
def ValidatorKey (P : Primitives) (c₀ : Blockchain) (nodes : List (List (Int × Block)))
    (publicKey : Bytes) : Prop :=
  ∃ c, Held P c₀ nodes c ∧ c.hasValidator P publicKey = true

variable {c₀ : Blockchain} {nodes : List (List (Int × Block))}

theorem AcceptedBy.validatorKey (h : AcceptedBy P c₀ nodes block) :
    ValidatorKey P c₀ nodes block.header.validatorPublicKey := by
  obtain ⟨calls, hcalls, before, now, hpre, hok⟩ := h
  exact ⟨_, ⟨calls, hcalls, before, (List.prefix_append _ _).trans hpre, rfl⟩,
    hasValidator_of_addBlock hok⟩

theorem AcceptedBy.verifyHash (h : AcceptedBy P c₀ nodes block) :
    block.hash = Block.computeHash P block.header := by
  obtain ⟨calls, -, before, now, -, hok⟩ := h
  obtain ⟨hfollows, -⟩ := addBlock_ok_spine hok
  exact of_decide_eq_true hfollows.verifyHash

/-- The header is that of the genesis or of a block a full node has accepted. -/
def OnFullNodes (P : Primitives) (c₀ : Blockchain) (nodes : List (List (Int × Block)))
    (header : BlockHeader) : Prop :=
  header = c₀.genesis.header ∨ ∃ block, AcceptedBy P c₀ nodes block ∧ block.header = header

/-- What the scheme promises of the headers an adversary sends who has no validator's secret key. A
signature that verifies under a validator's key was made by its holder (`signed` is what the holders
of keys have signed); validators sign the hashes of blocks that full nodes accept; and no header sent
collides with that of another such block. -/
structure Unforged (P : Primitives) (c₀ : Blockchain) (nodes : List (List (Int × Block)))
    (signed : Bytes → Bytes → Prop) (headers : List SignedHeader) : Prop where
  logged : ∀ h ∈ headers, ∀ signature, h.signature = some signature →
    ValidatorKey P c₀ nodes h.header.validatorPublicKey →
    P.dilithiumVerify (Block.signableBlockHash h.blockHash) signature h.header.validatorPublicKey =
      true → signed h.header.validatorPublicKey (Block.signableBlockHash h.blockHash)
  honest : ∀ publicKey hash, ValidatorKey P c₀ nodes publicKey →
    signed publicKey (Block.signableBlockHash hash) →
    ∃ block, AcceptedBy P c₀ nodes block ∧ block.hash = hash
  collisionFree : ∀ h ∈ headers, ∀ header, OnFullNodes P c₀ nodes header →
    Block.computeHash P h.header = Block.computeHash P header → h.header = header

end Blockchain

namespace Blockchain

open LightClient

variable {c₀ : Blockchain} {nodes : List (List (Int × Block))} {g : GenesisConfig}

theorem genesis_of_fromGenesis (hg : fromGenesis P g = .ok c₀) :
    c₀.genesis.header.height = 0 ∧ c₀.genesis.hash = Block.computeHash P c₀.genesis.header := by
  simp only [fromGenesis, except_bind_eq_ok] at hg
  obtain ⟨accounts, -, hc⟩ := hg
  cases hc
  exact ⟨rfl, rfl⟩

/-- **For every genesis: after any calls a light client of it has linked headers of heights 0, 1, 2, ..;
and a sequence that it then takes from one who can forge no validator's signature is of blocks the full
nodes accepted exactly when every header of it, the genesis apart, carries the key of a validator.** -/
theorem light_client_follows_iff (P : Primitives) (g : GenesisConfig) (c₀ : Blockchain)
    (hg : fromGenesis P g = .ok c₀) (calls : List (List SignedHeader)) :
    let client := c₀.lightClient.syncAll P calls
    Chained P client.headers ∧
      ∀ nodes signed headers n, Unforged P c₀ nodes signed headers →
        (client.syncHeaders P headers).1 = .ok n →
        ((∀ h ∈ headers, OnFullNodes P c₀ nodes h.header) ↔
          ∀ h ∈ headers, h.header.height ≠ 0 →
            ValidatorKey P c₀ nodes h.header.validatorPublicKey) := by
  obtain ⟨hzero, hgenesis⟩ := genesis_of_fromGenesis hg
  refine ⟨Chained.syncAll chained_nil, ?_⟩
  intro nodes signed headers n hforge hok
  constructor
  · intro hall h hmem hheight
    rcases hall h hmem with heq | ⟨block, hblock, heq⟩
    · rw [heq] at hheight
      exact absurd hzero hheight
    · rw [← heq]
      exact hblock.validatorKey
  · intro hkeys h hmem
    obtain ⟨lc, hlc, hverify⟩ := verified_of_syncHeaders hok h hmem
    by_cases hheight : h.header.height = 0
    · -- The first header has the hash of the genesis.
      obtain ⟨-, hhash, hsame⟩ := verifyHeader_zero hheight hverify
      rw [hlc, genesisHash_syncAll] at hsame
      left
      apply hforge.collisionFree h hmem _ (Or.inl rfl)
      rw [← hhash, hsame, ← hgenesis]
      rfl
    · obtain ⟨-, -, hhash, prev, signature, -, -, hsignature, hverify⟩ :=
        (verifyHeader_eq_ok hheight).mp hverify
      have hkey := hkeys h hmem hheight
      have hsigned := hforge.logged h hmem signature hsignature hkey hverify
      obtain ⟨block, hblock, hsame⟩ := hforge.honest _ _ hkey hsigned
      right
      refine ⟨block, hblock, ?_⟩
      symm
      apply hforge.collisionFree h hmem _ (Or.inr ⟨block, hblock, rfl⟩)
      rw [hhash, ← hsame, hblock.verifyHash]

end Blockchain

/-! ## One node with one block -/

namespace LightSafetySample

open Scenario Blockchain StateProofSample

/-- The client's headers: the genesis and this one. -/
def served (c : Blockchain) (header : SignedHeader) : List SignedHeader :=
  [SignedHeader.ofBlock c.genesisConfig.chainId c.genesis, header]

/-- The block's header under the key of an outsider, who signs it. -/
def outsiderHeader (c : Blockchain) (block : Block) : SignedHeader :=
  let header := { block.header with
    validatorPublicKey := (key 9).publicKey }
  let hash := Block.computeHash Reference.primitives header
  { chainId := c.genesisConfig.chainId, header, blockHash := hash
    signature := some ((key 9).sign Reference.primitives (Block.signableBlockHash hash)) }

/-- The signatures of the one block's validator. -/
def signedOne (block : Block) (publicKey message : Bytes) : Prop :=
  publicKey = block.header.validatorPublicKey ∧ message = Block.signableBlockHash block.hash

/-- The key is one of no validator before or after the block. -/
def outside (c : Blockchain) (block : Block) (publicKey : Bytes) : Bool :=
  !c.hasValidator Reference.primitives publicKey &&
    !(c.addBlock Reference.primitives (clock 1) block).2.hasValidator Reference.primitives publicKey

/-- The header is signed by the block's validator or by an outsider, and does not collide. -/
def harmless (c : Blockchain) (block : Block) (h : SignedHeader) : Bool :=
  (decide (h.signature = none) || decide (h.header.validatorPublicKey = block.header.validatorPublicKey ∧
      h.blockHash = block.hash) || outside c block h.header.validatorPublicKey) &&
    [c.genesis.header, block.header].all fun header =>
      decide (Block.computeHash Reference.primitives h.header =
        Block.computeHash Reference.primitives header → h.header = header)

variable {c : Blockchain} {block : Block}

theorem held_one {c' : Blockchain} (h : Held Reference.primitives c [[(clock 1, block)]] c') :
    c' = c ∨ c' = (c.addBlock Reference.primitives (clock 1) block).2 := by
  obtain ⟨calls, hcalls, before, hpre, rfl⟩ := h
  rw [List.mem_singleton.mp hcalls] at hpre
  cases before with
  | nil => exact Or.inl rfl
  | cons call rest =>
    rw [List.cons_prefix_cons] at hpre
    obtain ⟨rfl, hrest⟩ := hpre
    rw [List.prefix_nil] at hrest
    rw [hrest]
    exact Or.inr rfl

theorem acceptedBy_one {b : Block} (h : AcceptedBy Reference.primitives c [[(clock 1, block)]] b) :
    b = block := by
  obtain ⟨calls, hcalls, before, now, hpre, -⟩ := h
  rw [List.mem_singleton.mp hcalls] at hpre
  cases before with
  | nil =>
    rw [List.nil_append, List.cons_prefix_cons] at hpre
    exact congrArg Prod.snd hpre.1
  | cons call rest =>
    rw [List.cons_append, List.cons_prefix_cons, List.prefix_nil] at hpre
    exact absurd hpre.2 (by simp)

theorem not_validatorKey {publicKey : Bytes} (h : outside c block publicKey = true) :
    ¬ ValidatorKey Reference.primitives c [[(clock 1, block)]] publicKey := by
  simp only [outside, Bool.and_eq_true, Bool.not_eq_true'] at h
  rintro ⟨c', hheld, hvalidator⟩
  rcases held_one hheld with rfl | rfl
  · rw [h.1] at hvalidator
    exact absurd hvalidator (by simp)
  · rw [h.2] at hvalidator
    exact absurd hvalidator (by simp)

theorem unforged_of_harmless {headers : List SignedHeader}
    (hok : (c.addBlock Reference.primitives (clock 1) block).1 = .ok ())
    (h : headers.all (harmless c block) = true) :
    Unforged Reference.primitives c [[(clock 1, block)]] (signedOne block) headers := by
  have haccepted : AcceptedBy Reference.primitives c [[(clock 1, block)]] block :=
    ⟨_, List.mem_singleton.mpr rfl, [], clock 1, List.prefix_rfl, hok⟩
  have hall : ∀ e ∈ headers, harmless c block e = true := List.all_eq_true.mp h
  refine ⟨?_, ?_, ?_⟩
  · intro e he signature hsignature hkey _
    have hharmless := hall e he
    simp only [harmless, Bool.and_eq_true, Bool.or_eq_true, decide_eq_true_eq] at hharmless
    obtain ⟨(hnone | ⟨hpk, hhash⟩) | houtside, -⟩ := hharmless
    · rw [hnone] at hsignature
      exact absurd hsignature (by simp)
    · exact ⟨hpk, by rw [hhash]⟩
    · exact absurd hkey (not_validatorKey houtside)
  · rintro publicKey hash - ⟨-, hmessage⟩
    exact ⟨block, haccepted, (List.append_cancel_left hmessage).symm⟩
  · intro e he header hheader heq
    have hharmless := hall e he
    simp only [harmless, Bool.and_eq_true, List.all_cons, List.all_nil, decide_eq_true_eq] at hharmless
    obtain ⟨-, hgenesis, hblock, -⟩ := hharmless
    rcases hheader with rfl | ⟨b, hb, rfl⟩
    · exact hgenesis heq
    · rw [acceptedBy_one hb] at heq ⊢
      exact hblock heq

end LightSafetySample

open LightSafetySample StateProofSample Scenario Blockchain LightClient in
theorem light_client_follows_sample : ∃ c block n,
    fromGenesis Reference.primitives (genesis 5) = .ok c ∧
      (c.lightClient.syncHeaders Reference.primitives
        (served c (SignedHeader.ofBlock c.genesisConfig.chainId block))).1 = .ok n ∧
      ∀ h ∈ served c (SignedHeader.ofBlock c.genesisConfig.chainId block),
        h.header.height ≠ 0 → ValidatorKey Reference.primitives c [[(clock 1, block)]]
          h.header.validatorPublicKey := by
  obtain ⟨c, block, hgenesis, hok, htest⟩ := @grown_of_any 5
    (fun c block =>
      let headers := served c (SignedHeader.ofBlock c.genesisConfig.chainId block)
      headers.all (harmless c block) &&
        (c.lightClient.syncHeaders Reference.primitives headers).1.toOption.any fun _ => true)
    (by decide +kernel)
  simp only [Bool.and_eq_true] at htest
  obtain ⟨hharmless, hsync⟩ := htest
  obtain ⟨n, hn, -⟩ := ok_of_any hsync
  have haccepted : AcceptedBy Reference.primitives c [[(clock 1, block)]] block :=
    ⟨_, List.mem_singleton.mpr rfl, [], clock 1, List.prefix_rfl, hok⟩
  refine ⟨c, block, n, hgenesis, hn, ?_⟩
  apply ((light_client_follows_iff Reference.primitives (genesis 5) c hgenesis []).2 _ _ _ n
    (unforged_of_harmless hok hharmless) hn).mp
  intro h hmem
  rcases List.mem_cons.mp hmem with rfl | hmem
  · exact Or.inl rfl
  · rw [List.mem_singleton.mp hmem]
    exact Or.inr ⟨block, haccepted, rfl⟩

open LightSafetySample StateProofSample Scenario Blockchain LightClient in
/-- The client takes a header that an outsider made up and signed with a key of his own. -/
theorem light_client_follows_outsider : ∃ c block n,
    fromGenesis Reference.primitives (genesis 5) = .ok c ∧
      Unforged Reference.primitives c [[(clock 1, block)]] (signedOne block)
        (served c (outsiderHeader c block)) ∧
      ¬ ValidatorKey Reference.primitives c [[(clock 1, block)]] (key 9).publicKey ∧
      (c.lightClient.syncHeaders Reference.primitives (served c (outsiderHeader c block))).1 = .ok n ∧
      ¬ ∀ h ∈ served c (outsiderHeader c block),
        OnFullNodes Reference.primitives c [[(clock 1, block)]] h.header := by
  obtain ⟨c, block, hgenesis, hok, htest⟩ := @grown_of_any 5
    (fun c block =>
      let headers := served c (outsiderHeader c block)
      headers.all (harmless c block) && outside c block (key 9).publicKey &&
        ((c.lightClient.syncHeaders Reference.primitives headers).1.toOption.any fun _ => true) &&
        decide ((outsiderHeader c block).header ≠ c.genesis.header ∧
          (outsiderHeader c block).header ≠ block.header))
    (by decide +kernel)
  simp only [Bool.and_eq_true, decide_eq_true_eq] at htest
  obtain ⟨⟨⟨hharmless, houtside⟩, hsync⟩, hgenesisHeader, hblockHeader⟩ := htest
  obtain ⟨n, hn, -⟩ := ok_of_any hsync
  refine ⟨c, block, n, hgenesis, unforged_of_harmless hok hharmless, not_validatorKey houtside, hn, ?_⟩
  intro hall
  rcases hall (outsiderHeader c block) (by simp [served]) with heq | ⟨b, hb, heq⟩
  · exact hgenesisHeader heq
  · rw [acceptedBy_one hb] at heq
    exact hblockHeader heq.symm

end Curs3d
