import Curs3d.Proof.Deployments
import Curs3d.Proof.EvmCharge
import Curs3d.Proof.Pool
import Curs3d.Proof.Rebuilt

/-!
# What a node has executed

A node comes to its state block by block, past refused blocks, votes, evidence and restarts, and by reorganisations
that put other blocks in the place of its own. `Evolves` forgets the way: the state came from the accounts of
the genesis by the transactions of the canonical chain, one after the other, with the unlocks at the start of
each block. What else happens (settlements, coinbases, slashes) moves no nonce, takes from no balance, adds to no
stake and leaves the unstakes alone (`Between`). That is so for every chain an archival node can come to hold
(`Archival.settled`), so whatever each transaction keeps is true of the node, by induction on `Evolves`.

The blocks carry this, not the calls: a block that was validated on a state continues what that state has
executed. A reorganisation or a restart that goes through has validated the whole chain again, from the
genesis. One that gives up after it has replaced the blocks leaves them beside the old accounts, and nothing
is said about a node that has been there.
-/

set_option autoImplicit false

namespace Curs3d

open U64 Outcome

/-! ## Between two transactions -/

/-- `a'` is `a` with the same nonce, no less to spend, no more at stake, and the same unstakes waiting. -/
structure AccountState.Credited (a a' : AccountState) : Prop where
  nonce : a'.nonce = a.nonce
  balance : a.balance ≤ u64Max → a.balance ≤ a'.balance ∧ a'.balance ≤ u64Max
  stake : a'.stakedBalance ≤ a.stakedBalance
  pending : a'.pendingUnstakes = a.pendingUnstakes

/-- Every account is credited, or left alone. -/
def Credited (accounts accounts' : ByteMap AccountState) : Prop :=
  ∀ addr : Bytes, (accounts[addr]?.getD {}).Credited (accounts'[addr]?.getD {})

theorem AccountState.Credited.refl (a : AccountState) : a.Credited a :=
  ⟨rfl, fun h => ⟨le_rfl, h⟩, le_rfl, rfl⟩

theorem AccountState.Credited.trans {a b d : AccountState} (h : a.Credited b) (h' : b.Credited d) :
    a.Credited d := by
  refine ⟨h'.nonce.trans h.nonce, fun hmax => ?_, h'.stake.trans h.stake, h'.pending.trans h.pending⟩
  obtain ⟨hle, hmax'⟩ := h.balance hmax
  obtain ⟨hle', hmax''⟩ := h'.balance hmax'
  exact ⟨hle.trans hle', hmax''⟩

theorem le_satAdd {n k : Nat} (hmax : n ≤ u64Max) : n ≤ satAdd n k ∧ satAdd n k ≤ u64Max :=
  ⟨le_min (Nat.le_add_right _ _) hmax, min_le_right _ _⟩

theorem AccountState.credited_satAdd (a : AccountState) (n : Nat) :
    a.Credited { a with balance := satAdd a.balance n } :=
  ⟨rfl, le_satAdd, le_rfl, rfl⟩

namespace Credited

variable {accounts accounts' accounts'' : ByteMap AccountState}

theorem refl (accounts : ByteMap AccountState) : Credited accounts accounts := fun _ => .refl _

theorem trans (h : Credited accounts accounts') (h' : Credited accounts' accounts'') :
    Credited accounts accounts'' := fun addr => (h addr).trans (h' addr)

theorem upsert {f : AccountState → AccountState} (hf : ∀ a : AccountState, a.Credited (f a))
    (accounts : ByteMap AccountState) (addr : Bytes) :
    Credited accounts (KeyMap.upsert accounts addr {} f) := by
  intro a
  rw [KeyMap.getElem?_upsert]
  split
  · next h =>
    subst h
    exact hf _
  · exact .refl _

theorem credit (accounts : ByteMap AccountState) (addr : Bytes) (amount : Nat) :
    Credited accounts (credit accounts addr amount) := by
  apply upsert
  exact fun a => AccountState.credited_satAdd a amount

theorem foldl {α : Type} {f : ByteMap AccountState → α → ByteMap AccountState}
    (hf : ∀ accounts x, Credited accounts (f accounts x)) (l : List α)
    (accounts : ByteMap AccountState) : Credited accounts (l.foldl f accounts) := by
  induction l generalizing accounts with
  | nil => exact refl accounts
  | cons x rest ih => exact (hf accounts x).trans (ih _)

/-- Rewards are credited; penalties are taken from the stake. -/
theorem settlement (g : GenesisConfig) (height : Nat) (snapshots : HeightMap EpochSnapshot)
    (producers : List Bytes) (accounts : ByteMap AccountState) (missed : ByteMap Nat) :
    Credited accounts
      (Blockchain.applyEpochSettlementForBlock g height snapshots producers accounts missed).1 := by
  unfold Blockchain.applyEpochSettlementForBlock
  cases Blockchain.settlingEpoch g height with
  | none => exact refl accounts
  | some epoch =>
    dsimp only
    cases snapshots[epoch]? with
    | none => exact refl accounts
    | some snapshot =>
      have hreward : ∀ accounts reward, Credited accounts (creditReward accounts reward) := by
        intro accounts reward
        apply upsert
        exact fun a => AccountState.credited_satAdd a _
      have hpenalty : ∀ accounts penalty, Credited accounts (deductPenalty accounts penalty) := by
        intro accounts penalty
        apply upsert
        exact fun _ => ⟨rfl, fun h => ⟨le_rfl, h⟩, Nat.sub_le _ _, rfl⟩
      exact (foldl hreward _ accounts).trans (foldl hpenalty _ _)

end Credited

/-- What lies between two transactions. -/
structure Between (s s' : ExecState) : Prop where
  accounts : Credited s.accounts s'.accounts
  contracts : s'.contracts = s.contracts
  tokens : s'.tokenRegistry = s.tokenRegistry

theorem Between.of_accounts {s s' : ExecState} (haccounts : s'.accounts = s.accounts)
    (hcontracts : s'.contracts = s.contracts) (htokens : s'.tokenRegistry = s.tokenRegistry) :
    Between s s' :=
  ⟨haccounts ▸ Credited.refl _, hcontracts, htokens⟩

/-- The unlocks of a block, account by account. -/
theorem account_startState (s : ExecState) (height : Nat) (a : Bytes) :
    (Blockchain.startState s height).accounts[a]?.getD {} = unlockAccount height (s.accounts[a]?.getD {}) := by
  simp only [Blockchain.startState]
  rw [applyUnstakeUnlocks, Std.ExtTreeMap.getElem?_map]
  cases s.accounts[a]? with
  | none => rfl
  | some account => rfl

/-! ## Executions -/

/-- The transactions of a block that its senders signed. -/
def Block.userTransactions (b : Block) : List Transaction :=
  b.transactions.filter fun tx => !tx.isCoinbase

/-- The same, with the height they are executed at. -/
def Block.executions (b : Block) : List (Nat × Transaction) :=
  b.userTransactions.map fun tx => (b.header.height, tx)

/-- `s`, at height `n`, came from `s₀` at `n₀` by the transactions of the list, in their order and at their heights;
an unstake waits for `delay` blocks. -/
inductive Evolves (P : Primitives) (delay n₀ : Nat) (s₀ : ExecState) :
    Nat → List (Nat × Transaction) → ExecState → Prop where
  | start : Evolves P delay n₀ s₀ n₀ [] s₀
  | unlocks {n n' : Nat} {txs : List (Nat × Transaction)} {s : ExecState} (h : Evolves P delay n₀ s₀ n txs s)
    (hlt : n < n') : Evolves P delay n₀ s₀ n' txs (Blockchain.startState s n')
  | apply {txs : List (Nat × Transaction)} {s s' : ExecState} {ctx : TxContext} {tx : Transaction} {gasUsed : Nat}
    (h : Evolves P delay n₀ s₀ ctx.currentHeight txs s) (hdelay : ctx.unstakeDelayBlocks = delay)
    (happly : applyUserTransaction P ctx tx s = .ok gasUsed s') :
    Evolves P delay n₀ s₀ ctx.currentHeight (txs ++ [(ctx.currentHeight, tx)]) s'
  | between {n : Nat} {txs : List (Nat × Transaction)} {s s' : ExecState} (h : Evolves P delay n₀ s₀ n txs s)
    (hbetween : Between s s') : Evolves P delay n₀ s₀ n txs s'

namespace Evolves

variable {P : Primitives} {ctx : TxContext} {delay n₀ n n' : Nat} {s₀ s s' : ExecState}
variable {done txs : List (Nat × Transaction)} {c c' : Blockchain} {now : Int} {block previous : Block}

theorem trans (h : Evolves P delay n₀ s₀ n done s) (h' : Evolves P delay n s n' txs s') :
    Evolves P delay n₀ s₀ n' (done ++ txs) s' := by
  induction h' with
  | start => simpa using h
  | unlocks _ hlt ih => exact ih.unlocks hlt
  | apply _ hdelay happly ih =>
    rw [← List.append_assoc]
    exact ih.apply hdelay happly
  | between _ hbetween ih => exact ih.between hbetween

/-- The loop over the transactions of a block. -/
theorem run {g : GenesisConfig} {index : Nat} {block : List Transaction} {p p' : BlockProgress}
    (h : Evolves P delay n₀ s₀ ctx.currentHeight done p.state) (hdelay : ctx.unstakeDelayBlocks = delay)
    (hrun : runBlockTransactions P g ctx index block p = .ok p') :
    Evolves P delay n₀ s₀ ctx.currentHeight
      (done ++ (block.filter fun tx => !tx.isCoinbase).map fun tx => (ctx.currentHeight, tx)) p'.state := by
  induction block generalizing index p done with
  | nil =>
    cases hrun
    simpa using h
  | cons tx rest ih =>
    unfold runBlockTransactions at hrun
    split at hrun
    · exact absurd hrun (by simp)
    next p₁ hstep =>
    rcases stepBlockTransaction_cases hstep with ⟨hcoinbase, rfl⟩ | ⟨hcoinbase, gas, s₁, happly, rfl⟩
    · rw [List.filter_cons_of_neg (by simp [hcoinbase])]
      refine ih ?_ hrun
      exact h
    · rw [List.filter_cons_of_pos (by simp [hcoinbase]), List.map_cons]
      have hrest := ih (h.apply hdelay happly) hrun
      rwa [List.append_assoc] at hrest

/-- **A block that validates continues the execution of its parent state.** -/
theorem validate (h : Evolves P delay n₀ s₀ previous.header.height done s)
    (hdelay : c.genesisConfig.unstakeDelayBlocks = delay)
    (hvalid : c.validateBlockAgainstState P now block previous s = .ok s') :
    Evolves P delay n₀ s₀ block.header.height (done ++ block.executions) s' := by
  obtain ⟨hheader, -, q, hrun, hfinish⟩ := Blockchain.validate_eq_ok.mp hvalid
  have hnext : block.header.height = previous.header.height + 1 := by
    simp only [Blockchain.checkHeader, except_bind_eq_ok, ensure_eq_ok, decide_eq_true_eq] at hheader
    obtain ⟨-, hnext, -⟩ := hheader
    exact hnext
  have hafter : previous.header.height < block.header.height := hnext ▸ Nat.lt_succ_self _
  have hstart := h.unlocks hafter
  have hctx : (c.txContext block.header.height block.header.baseFeePerGas).unstakeDelayBlocks = delay := hdelay
  have hran := hstart.run hctx hrun
  obtain ⟨coinbase, -, -, -, hcredit⟩ := Blockchain.finishBlock_eq_ok hfinish
  obtain ⟨hcontracts, htokens⟩ := Blockchain.finishBlock_maps hfinish
  exact hran.between ⟨hcredit ▸ Credited.credit _ _ _, hcontracts, htokens⟩

theorem replayBlock {r r' : Blockchain.ReplayState}
    (h : Evolves P delay n₀ s₀ previous.header.height done r.state)
    (hdelay : c.genesisConfig.unstakeDelayBlocks = delay)
    (hrun : c.replayBlock P now previous block r = .ok r') :
    Evolves P delay n₀ s₀ block.header.height (done ++ block.executions) r'.state := by
  simp only [Blockchain.replayBlock] at hrun
  split at hrun
  · cases hrun
  next s' hvalid =>
  cases hrun
  have hsettled : Between r.state { r.state with
      accounts := (Blockchain.applyEpochSettlementForBlock c.genesisConfig block.header.height
        c.epochSnapshots (c.proposerAddressesForSettlingEpoch P block.header.height) r.state.accounts
        r.missed).1 } := ⟨Credited.settlement _ _ _ _ r.state.accounts r.missed, rfl, rfl⟩
  exact ((h.between hsettled).validate hdelay hvalid).between (.of_accounts rfl rfl rfl)

theorem rebuildBlocks {blocks : List Block} {r r' : Blockchain.ReplayState}
    (h : Evolves P delay n₀ s₀ previous.header.height done r.state)
    (hdelay : c.genesisConfig.unstakeDelayBlocks = delay)
    (hrun : Blockchain.rebuildBlocks P now c previous blocks r = (.ok r', c')) :
    Evolves P delay n₀ s₀ (blocks.getLast?.getD previous).header.height
      (done ++ blocks.flatMap Block.executions) r'.state := by
  induction blocks generalizing c previous r done with
  | nil =>
    cases hrun
    simpa using h
  | cons block rest ih =>
    obtain ⟨r₁, hreplay, hrest⟩ := Blockchain.rebuildBlocks_cons_ok hrun
    have hconfig := (@Blockchain.poolWithin_withBoundarySnapshot c block.header.height
      r.state.accounts).genesisConfig
    have hdelay' : (c.withBoundarySnapshot block.header.height
        r.state.accounts).genesisConfig.unstakeDelayBlocks = delay := by rw [hconfig, hdelay]
    have hall := ih (h.replayBlock hdelay' hreplay) hdelay' hrest
    rw [List.getLast?_cons, Option.getD_some]
    rwa [List.flatMap_cons, ← List.append_assoc]

end Evolves

namespace Blockchain

variable {P : Primitives} {g : GenesisConfig} {c c' : Blockchain} {now : Int} {block previous : Block}

/-! ## Whole chains -/

/-- A chain that can read every block above the genesis. -/
structure Whole (c : Blockchain) : Prop where
  base : c.baseHeight ≤ 1
  keep : c.pruneKeepBlocks = none
  head : c.blocks.head? = some c.genesis

theorem Whole.of_spine (h : c.Whole) (hs : c'.spine = c.spine) : c'.Whole := by
  have hbase : c'.baseHeight = c.baseHeight := congrArg Spine.baseHeight hs
  have hkeep : c'.pruneKeepBlocks = c.pruneKeepBlocks := congrArg Spine.pruneKeepBlocks hs
  have hblocks : c'.blocks = c.blocks := congrArg Spine.blocks hs
  have hgenesis : c'.genesis = c.genesis := congrArg Spine.genesis hs
  exact ⟨hbase ▸ h.base, hkeep.trans h.keep, by rw [hblocks, hgenesis, h.head]⟩

theorem Whole.iterBlocks (h : c.Whole) : c.iterBlocks = c.blocks := by
  have hread : c.blockAtHeight = fun k => c.blocks[k]? := by
    funext k
    unfold blockAtHeight
    split
    · next hk => rw [hk, ← h.head, List.head?_eq_getElem?]
    · next hk => rw [if_neg (by have := h.base; omega)]
  unfold Blockchain.iterBlocks blockCount
  rw [hread]
  exact filterMap_getElem?_range c.blocks

theorem Whole.latestBlock (h : c.Whole) : c.blocks.getLast? = some c.latestBlock := by
  have hhead := h.head
  have hbase := h.base
  unfold Blockchain.latestBlock height blockCount blockAtHeight
  rw [List.getLast?_eq_getElem?]
  cases hlength : c.blocks.length - 1 with
  | zero => rw [if_pos rfl, ← List.head?_eq_getElem?, hhead, Option.getD_some]
  | succ k =>
    have hlt : k + 1 < c.blocks.length := by omega
    rw [if_neg (Nat.succ_ne_zero k), if_neg (by omega), List.getElem?_eq_getElem hlt, Option.getD_some]

/-- The height of the tip. -/
def tipHeight (c : Blockchain) : Nat := c.latestBlock.header.height

/-- The transactions on the canonical chain, in order. -/
def executedTransactions (c : Blockchain) : List Transaction := c.blocks.tail.flatMap Block.userTransactions

/-- The same, with their heights. -/
def executions (c : Blockchain) : List (Nat × Transaction) := c.blocks.tail.flatMap Block.executions

theorem executedTransactions_eq (c : Blockchain) :
    c.executedTransactions = c.executions.map Prod.snd := by
  have hblock : (fun b : Block => b.executions.map Prod.snd) = Block.userTransactions := by
    funext b
    rw [Block.executions, List.map_map]
    exact List.map_id _
  rw [executedTransactions, executions, List.map_flatMap, hblock]

theorem executions_of_spine (hs : c'.spine = c.spine) :
    c'.executions = c.executions ∧ c'.tipHeight = c.tipHeight := by
  refine ⟨?_, congrArg (fun b => b.header.height) (latestBlock_congr hs)⟩
  unfold executions
  rw [show c'.blocks = c.blocks from congrArg Spine.blocks hs]

/-! ## Calls that keep the chain -/

/-- `c'` is `c` after it has executed more transactions. -/
structure Prolongs (P : Primitives) (c c' : Blockchain) : Prop where
  config : c'.genesisConfig = c.genesisConfig
  whole : c'.Whole
  executed : ∃ txs, c'.executions = c.executions ++ txs ∧
    Evolves P c.genesisConfig.unstakeDelayBlocks c.tipHeight c.execState c'.tipHeight txs c'.execState

theorem Prolongs.trans {c'' : Blockchain} (h : Prolongs P c c') (h' : Prolongs P c' c'') :
    Prolongs P c c'' := by
  obtain ⟨txs, hmore, hrun⟩ := h.executed
  obtain ⟨txs', hmore', hrun'⟩ := h'.executed
  rw [h.config] at hrun'
  refine ⟨h'.config.trans h.config, h'.whole, txs ++ txs', ?_, hrun.trans hrun'⟩
  rw [hmore', hmore, List.append_assoc]

/-- What leaves the blocks alone executes nothing. -/
theorem Whole.quiet (h : c.Whole) (hs : c'.spine = c.spine) (hconfig : c'.genesisConfig = c.genesisConfig)
    (hbetween : Between c.execState c'.execState) : Prolongs P c c' := by
  obtain ⟨hsame, htip⟩ := executions_of_spine hs
  refine ⟨hconfig, h.of_spine hs, [], ?_, ?_⟩
  · rw [List.append_nil, hsame]
  · rw [htip]
    exact .between .start hbetween

theorem Whole.refl (h : c.Whole) : Prolongs P c c := h.quiet rfl rfl (.of_accounts rfl rfl rfl)

theorem between_prepareEpoch (height : Nat) :
    Between c.execState (c.prepareEpoch P height).execState := by
  have hkept : (c.ensureEpochSnapshot height).execState = c.execState := by
    unfold ensureEpochSnapshot
    split <;> rfl
  have hsettled : Between (c.ensureEpochSnapshot height).execState (c.prepareEpoch P height).execState :=
    ⟨Credited.settlement _ _ _ _ _ _, rfl, rfl⟩
  rwa [hkept] at hsettled

theorem Whole.prepareEpoch (h : c.Whole) (height : Nat) : Prolongs P c (c.prepareEpoch P height) :=
  h.quiet (prepareEpoch_spine height) (poolWithin_prepareEpoch height).genesisConfig
    (between_prepareEpoch height)

/-- The transactions of an accepted block are executed on the settled state. -/
theorem Whole.commitBlock (h : c.Whole) {s : ExecState}
    (hvalid : c.validateBlockAgainstState P now block c.latestBlock c.execState = .ok s) :
    Prolongs P c (c.commitBlock P block s) := by
  have hspine := @commitBlock_spine P c block s
  have hblocks : (c.commitBlock P block s).blocks = c.blocks ++ [block] := congrArg Spine.blocks hspine
  have hne : c.blocks ≠ [] := by
    intro hnil
    exact absurd (hnil ▸ h.head) (by simp)
  have hstate : (c.commitBlock P block s).execState =
      { s with receipts := extendReceipts c.receipts s.receipts } :=
    congrArg execState (commitBlock_unindexed block s)
  have hwhole : (c.commitBlock P block s).Whole := by
    refine ⟨?_, ?_, ?_⟩
    · exact (congrArg Spine.baseHeight hspine).trans_le h.base
    · exact (congrArg Spine.pruneKeepBlocks hspine).trans h.keep
    · rw [hblocks, List.head?_append, h.head]
      exact congrArg some (congrArg Spine.genesis hspine).symm
  have htip : (c.commitBlock P block s).tipHeight = block.header.height := by
    have hlast := hwhole.latestBlock
    rw [hblocks, List.getLast?_concat] at hlast
    rw [tipHeight, ← Option.some.inj hlast]
  refine ⟨(poolWithin_commitBlock block s).genesisConfig, hwhole, block.executions, ?_, ?_⟩
  · unfold executions
    rw [hblocks, List.tail_append_of_ne_nil hne, List.flatMap_append, List.flatMap_singleton]
  · rw [hstate, htip]
    exact (Evolves.start.validate rfl hvalid).between (.of_accounts rfl rfl rfl)

theorem Whole.addBlock (h : c.Whole) (now : Int) (block : Block) :
    Prolongs P c (c.addBlock P now block).2 := by
  have hprepared : Prolongs P c (c.prepareEpoch P block.header.height) := h.prepareEpoch _
  rcases addBlock_cases P c now block with ⟨e, he⟩ | ⟨s, hvalid, hok⟩
  · rw [he]
    exact hprepared
  · rw [hok]
    exact hprepared.trans (hprepared.whole.commitBlock hvalid)

theorem Whole.addTransaction (h : c.Whole) (now : Int) (tx : Transaction) :
    Prolongs P c (c.addTransaction P now tx).2 := by
  obtain ⟨pool, hpool⟩ := @addTransaction_pool P c now tx
  rw [hpool]
  exact h.quiet rfl rfl (.of_accounts rfl rfl rfl)

theorem Whole.addFinalityVote (h : c.Whole) (vote : FinalityVote) :
    Prolongs P c (c.addFinalityVote P vote).2 := by
  obtain ⟨tracker, tree, hv⟩ := @addFinalityVote_of_none P c h.keep vote
  rw [hv]
  have htip : ({ c with finalityTracker := tracker, blockTree := tree } : Blockchain).tipHeight = c.tipHeight := rfl
  exact ⟨rfl, ⟨h.base, h.keep, h.head⟩, [], (List.append_nil _).symm, htip ▸ .start⟩

/-- A slash takes from the stake. -/
theorem Whole.processEquivocation (h : c.Whole) (evidence : EquivocationEvidence) :
    Prolongs P c (c.processEquivocation P evidence).2 := by
  refine h.quiet (processEquivocation_spine evidence)
    (poolWithin_processEquivocation evidence).genesisConfig ?_
  unfold Blockchain.processEquivocation
  dsimp only
  split
  · exact .of_accounts rfl rfl rfl
  split
  · exact .of_accounts rfl rfl rfl
  split
  · exact .of_accounts rfl rfl rfl
  · next account haccount =>
    refine ⟨?_, rfl, rfl⟩
    intro addr
    simp only [execState]
    rw [KeyMap.getElem?_insert_eq]
    split
    · next heq =>
      rw [← heq, haccount]
      exact ⟨rfl, fun hmax => ⟨le_rfl, hmax⟩, Nat.sub_le _ _, rfl⟩
    · exact .refl _

/-- One call that keeps the blocks a node has. -/
inductive Onward (P : Primitives) (c : Blockchain) : Blockchain → Prop where
  | addTransaction (now : Int) (tx : Transaction) : Onward P c (c.addTransaction P now tx).2
  | addBlock (now : Int) (block : Block) : Onward P c (c.addBlock P now block).2
  | addFinalityVote (vote : FinalityVote) : Onward P c (c.addFinalityVote P vote).2
  | processEquivocation (evidence : EquivocationEvidence) : Onward P c (c.processEquivocation P evidence).2

theorem Whole.onward (h : c.Whole) (hcall : Onward P c c') : Prolongs P c c' := by
  cases hcall with
  | addTransaction now tx => exact h.addTransaction now tx
  | addBlock now block => exact h.addBlock now block
  | addFinalityVote vote => exact h.addFinalityVote vote
  | processEquivocation evidence => exact h.processEquivocation evidence

theorem Whole.onwards (h : c.Whole) (hcalls : Relation.ReflTransGen (Onward P) c c') :
    Prolongs P c c' := by
  induction hcalls with
  | refl => exact h.refl
  | tail _ hcall ih => exact ih.trans (ih.whole.onward hcall)

/-! ## The state of a chain -/

/-- The whole chain is there, and its transactions made the state out of the accounts of the genesis. -/
structure Settled (P : Primitives) (g : GenesisConfig) (c : Blockchain) : Prop where
  config : c.genesisConfig = g
  whole : c.Whole
  executed : ∃ accounts n₀, accountsFromGenesis P g = .ok accounts ∧
    Evolves P g.unstakeDelayBlocks n₀ (genesisReplay accounts).state c.tipHeight c.executions c.execState

theorem Settled.prolong (h : c.Settled P g) (hmore : Prolongs P c c') : c'.Settled P g := by
  obtain ⟨accounts, n₀, haccounts, hrun⟩ := h.executed
  obtain ⟨txs, heq, hnext⟩ := hmore.executed
  rw [h.config] at hnext
  exact ⟨hmore.config.trans h.config, hmore.whole, accounts, n₀, haccounts, heq ▸ hrun.trans hnext⟩

/-! ## Reorganisations and restarts -/

theorem rebuildBlocks_execState {blocks : List Block} {r : ReplayState} :
    (rebuildBlocks P now c previous blocks r).2.execState = c.execState := by
  have hboundary : ∀ (c : Blockchain) (height : Nat) (accounts : ByteMap AccountState),
      (c.withBoundarySnapshot height accounts).execState = c.execState := by
    intro c height accounts
    unfold withBoundarySnapshot
    split <;> rfl
  induction blocks generalizing c previous r with
  | nil => rfl
  | cons block rest ih =>
    rw [rebuildBlocks_cons]
    split
    · exact hboundary _ _ _
    · rw [ih]
      exact hboundary _ _ _

/-- A rebuild fails and leaves the state as it was, or runs the blocks from an empty state and takes over
what comes out. -/
theorem rebuildCanonicalState_cases (P : Primitives) (c : Blockchain) (now : Int) :
    (∃ e, (c.rebuildCanonicalState P now).1 = .error e ∧
      (c.rebuildCanonicalState P now).2.execState = c.execState) ∨
    (∃ accounts first rest d d' r, accountsFromGenesis P c.genesisConfig = .ok accounts ∧
      c.iterBlocks = first :: rest ∧ d.genesisConfig = c.genesisConfig ∧
      rebuildBlocks P now d first rest (genesisReplay accounts) = (.ok r, d') ∧
      (c.rebuildCanonicalState P now).1 = .ok () ∧
      (c.rebuildCanonicalState P now).2.execState = r.state) := by
  unfold rebuildCanonicalState
  cases haccounts : accountsFromGenesis P c.genesisConfig with
  | error e => exact .inl ⟨e, rfl, rfl⟩
  | ok accounts =>
    dsimp only
    have hstate : (reindexBlocks P
        { c with epochSnapshots := genesisSnapshots (c.snapshotForAccounts 0 accounts) }
        c.iterBlocks).execState = c.execState := by
      have hfield := congrArg execState (@reindexBlocks_unindexed P
        { c with epochSnapshots := genesisSnapshots (c.snapshotForAccounts 0 accounts) } c.iterBlocks)
      exact hfield
    have hsame : (reindexBlocks P
        { c with epochSnapshots := genesisSnapshots (c.snapshotForAccounts 0 accounts) }
        c.iterBlocks).genesisConfig = c.genesisConfig := by
      have hfield := congrArg Blockchain.genesisConfig (@reindexBlocks_unindexed P
        { c with epochSnapshots := genesisSnapshots (c.snapshotForAccounts 0 accounts) } c.iterBlocks)
      exact hfield
    generalize reindexBlocks P _ c.iterBlocks = d at hstate hsame ⊢
    cases hblocks : c.iterBlocks with
    | nil => exact .inl ⟨_, rfl, hstate⟩
    | cons first rest =>
      dsimp only
      have hkept := @rebuildBlocks_execState P d now first rest (genesisReplay accounts)
      cases hrun : rebuildBlocks P now d first rest (genesisReplay accounts) with
      | mk result d' =>
        rw [hrun] at hkept
        cases result with
        | error e => exact .inl ⟨e, rfl, hkept.trans hstate⟩
        | ok r =>
          refine .inr ⟨accounts, first, rest, d, d', r, rfl, rfl, hsame, hrun, rfl, ?_⟩
          have hfield := congrArg execState (@rebuildReceiptIndexes_unindexed P
            { d' with
              accounts := r.state.accounts
              contracts := r.state.contracts
              receipts := r.state.receipts
              tokenRegistry := r.state.tokenRegistry
              governance := r.state.governance
              validatorMissedEpochs := r.missed })
          exact hfield

/-- A rebuild of a whole chain that goes through settles it. -/
theorem Whole.rebuilt (h : c.Whole) (hconfig : c.genesisConfig = g)
    (hrun : c.rebuildCanonicalState P now = (.ok (), c')) : c'.Settled P g := by
  have hspine : c'.spine = c.spine := by
    have hkept := @rebuildCanonicalState_spine P c now
    rwa [hrun] at hkept
  have hsame : c'.genesisConfig = c.genesisConfig := by
    have hwithin := @poolWithin_rebuildCanonicalState P c now
    rw [hrun] at hwithin
    exact hwithin.genesisConfig
  rcases rebuildCanonicalState_cases P c now with ⟨e, herror, -⟩ |
    ⟨accounts, first, rest, d, d', r, haccounts, hblocks, hd, hrebuilt, -, hstate⟩
  · rw [hrun] at herror
    exact absurd herror (by simp)
  obtain ⟨hexecutions, htip⟩ := executions_of_spine hspine
  have hall : c.blocks = first :: rest := by rw [← h.iterBlocks, hblocks]
  have hlast : c.tipHeight = (rest.getLast?.getD first).header.height := by
    have hlatest := h.latestBlock
    rw [hall, List.getLast?_cons] at hlatest
    rw [tipHeight, ← Option.some.inj hlatest]
  refine ⟨hsame.trans hconfig, h.of_spine hspine, accounts, first.header.height, hconfig ▸ haccounts, ?_⟩
  have hdelay : d.genesisConfig.unstakeDelayBlocks = g.unstakeDelayBlocks := by rw [hd, hconfig]
  rw [hrun] at hstate
  rw [hstate, hexecutions, htip, hlast, executions, hall, List.tail_cons]
  exact Evolves.start.rebuildBlocks hdelay hrebuilt

/-- A reorganisation that goes through has executed the new blocks from the genesis on; one that fails
and has kept the blocks has kept the state. -/
theorem Settled.reorgToCanonicalTip (h : c.Settled P g)
    (hdone : ∀ e, (c.reorgToCanonicalTip P now).1 = .error e →
      (c.reorgToCanonicalTip P now).2.blocks = c.blocks) :
    (c.reorgToCanonicalTip P now).2.Settled P g := by
  rcases @reorgToCanonicalTip_spine P c now with ⟨hsame, -⟩ | ⟨hcheck, hspine⟩
  · rw [hsame]
    exact h
  have hrun : c.reorgToCanonicalTip P now =
      (c.replaceAllBlocks c.blockTree.canonicalChain).rebuildCanonicalState P now := by
    unfold Blockchain.reorgToCanonicalTip
    dsimp only
    rw [hcheck]
  have hconfig := (@poolWithin_reorgToCanonicalTip P c now).genesisConfig
  have hblocks := congrArg Spine.blocks hspine
  cases hresult : (c.reorgToCanonicalTip P now).1 with
  | error e =>
    have hreplaced : c.blockTree.canonicalChain = c.blocks := hblocks.symm.trans (hdone e hresult)
    refine h.prolong (h.whole.quiet (P := P) ?_ hconfig ?_)
    · rw [hspine, hreplaced, h.whole.head]
      rfl
    · -- the state is that of the chain before
      rw [hrun] at hresult ⊢
      rcases rebuildCanonicalState_cases P (c.replaceAllBlocks c.blockTree.canonicalChain) now with
        ⟨_, -, hstate⟩ | ⟨_, _, _, _, _, _, -, -, -, -, hok, -⟩
      · rw [hstate]
        exact .of_accounts rfl rfl rfl
      · rw [hok] at hresult
        exact absurd hresult (by simp)
  | ok u =>
    have hwhole : (c.replaceAllBlocks c.blockTree.canonicalChain).Whole := by
      refine ⟨h.whole.base, h.whole.keep, ?_⟩
      unfold replaceAllBlocks
      cases hchain : c.blockTree.canonicalChain with
      | nil =>
        -- a rebuild needs a first block
        rw [hrun, hchain] at hresult
        rcases rebuildCanonicalState_cases P (c.replaceAllBlocks []) now with
          ⟨_, herror, -⟩ | ⟨_, _, _, _, _, _, -, hsome, -, -, -, -⟩
        · rw [herror] at hresult
          exact absurd hresult (by simp)
        · exact absurd hsome (by simp [Blockchain.iterBlocks, blockCount, replaceAllBlocks])
      | cons first rest => rfl
    rw [hrun] at hresult ⊢
    exact hwhole.rebuilt h.config (Prod.ext hresult rfl)

theorem Settled.addBlockWithForkChoice (h : c.Settled P g) (now : Int) (block : Block)
    (hdone : ∀ e, (c.addBlockWithForkChoice P now block).1 = .error e →
      (c.addBlockWithForkChoice P now block).2.blocks = c.blocks) :
    (c.addBlockWithForkChoice P now block).2.Settled P g := by
  unfold Blockchain.addBlockWithForkChoice at hdone ⊢
  split at hdone
  · next hold =>
    rw [if_pos hold]
    exact h
  next hold =>
  rw [if_neg hold]
  split at hdone
  · next hprev =>
    rw [if_pos hprev]
    have hadded := h.prolong (h.whole.addBlock (P := P) now block)
    split
    · next heq =>
      rw [heq] at hadded
      exact hadded
    · next heq =>
      rw [heq] at hadded
      exact hadded
  next hprev =>
  rw [if_neg hprev]
  cases hstage : c.stageForkBlock P now block with
  | error e => exact h
  | ok staged =>
    obtain ⟨tree, switched⟩ := staged
    rw [hstage] at hdone
    have htree : Settled P g { c with blockTree := tree } :=
      ⟨h.config, ⟨h.whole.base, h.whole.keep, h.whole.head⟩, h.executed⟩
    cases switched with
    | false => exact htree
    | true =>
      dsimp only at hdone ⊢
      have hreorg := @Settled.reorgToCanonicalTip P g { c with blockTree := tree } now htree
      cases hrun : ({ c with blockTree := tree } : Blockchain).reorgToCanonicalTip P now with
      | mk result c' =>
        rw [hrun] at hdone hreorg
        cases result with
        | error e => exact hreorg fun _ _ => hdone e rfl
        | ok u => exact hreorg fun _ herror => absurd herror (by simp)

theorem Settled.restart (h : c.Settled P g) (hok : c.restart P now = .ok c') : c'.Settled P g := by
  unfold Blockchain.restart at hok
  simp only [except_bind_eq_ok] at hok
  obtain ⟨accounts, -, _, -, hok⟩ := hok
  split at hok
  · exact absurd hok (by simp)
  next c₁ hrebuilt =>
  cases hok
  refine Whole.rebuilt ?_ ?_ hrebuilt
  · refine ⟨?_, rfl, h.whole.head⟩
    have hbase := h.whole.base
    dsimp only
    split <;> omega
  · exact h.config

/-! ## Runs -/

/-- The chains an archival node can come to hold: it takes transactions, blocks, votes and evidence in any order,
whether it accepts them or not, and restarts. No reorganisation has given up after replacing the
blocks. -/
inductive Archival (P : Primitives) (g : GenesisConfig) : Blockchain → Prop where
  | fromGenesis {c : Blockchain} (h : fromGenesis P g = .ok c) : Archival P g c
  | addTransaction {c : Blockchain} (now : Int) (tx : Transaction) (h : Archival P g c) :
    Archival P g (c.addTransaction P now tx).2
  | addBlock {c : Blockchain} (now : Int) (block : Block) (h : Archival P g c) :
    Archival P g (c.addBlock P now block).2
  | addBlockWithForkChoice {c : Blockchain} (now : Int) (block : Block) (h : Archival P g c)
    (hdone : ∀ e, (c.addBlockWithForkChoice P now block).1 = .error e →
      (c.addBlockWithForkChoice P now block).2.blocks = c.blocks) :
    Archival P g (c.addBlockWithForkChoice P now block).2
  | addFinalityVote {c : Blockchain} (vote : FinalityVote) (h : Archival P g c) :
    Archival P g (c.addFinalityVote P vote).2
  | processEquivocation {c : Blockchain} (evidence : EquivocationEvidence) (h : Archival P g c) :
    Archival P g (c.processEquivocation P evidence).2
  | restart {c c' : Blockchain} (now : Int) (h : Archival P g c) (hok : c.restart P now = .ok c') :
    Archival P g c'

/-- **The state of a node is what the transactions on its chain made of the genesis.** -/
theorem Archival.settled (h : Archival P g c) : c.Settled P g := by
  induction h with
  | @fromGenesis c h =>
    unfold Curs3d.fromGenesis at h
    simp only [except_bind_eq_ok] at h
    obtain ⟨accounts, haccounts, hc⟩ := h
    cases hc
    exact ⟨rfl, ⟨Nat.zero_le _, rfl, rfl⟩, accounts, _, haccounts, .start⟩
  | addTransaction now tx _ ih => exact ih.prolong (ih.whole.addTransaction now tx)
  | addBlock now block _ ih => exact ih.prolong (ih.whole.addBlock now block)
  | addBlockWithForkChoice now block _ hdone ih => exact ih.addBlockWithForkChoice now block hdone
  | addFinalityVote vote _ ih => exact ih.prolong (ih.whole.addFinalityVote vote)
  | processEquivocation evidence _ ih => exact ih.prolong (ih.whole.processEquivocation evidence)
  | restart now _ hok ih => exact ih.restart hok

end Blockchain

end Curs3d
