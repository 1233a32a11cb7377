import Curs3d.Api.Logs
import Curs3d.Proof.Addresses
import Curs3d.Proof.Indexes
import Curs3d.Proof.Pool
import Curs3d.Vm.Metering

/-!
# What `eth_getLogs` answers

The index holds the logs of the canonical receipts in order, block after block: every path that changes blocks or receipts
ends with a walk over the blocks that are readable then (`Hosted.logsIndexed`). Between two walks pruning can
only hide more blocks. A filter object that says what to look for is read as that (`parse_of_describes`), and the
answer is the first hundred matching logs (`get_logs_first_hundred`).
-/

set_option autoImplicit false

namespace Curs3d

namespace Blockchain

variable {P : Primitives} {deserialize : Bytes → Except String SnapshotState} {g : GenesisConfig}
  {c d : Blockchain} {now : Int} {block : Block}

/-! ## The index -/

/-- The logs of the receipts of the canonical chain from height `base` on, and of the genesis, in (block, transaction, log)
order. -/
def canonicalLogs (P : Primitives) (c : Blockchain) (base : Nat) : List IndexedLogEntry :=
  ((placements ({ c with baseHeight := base } : Blockchain).iterBlocks).flatMap
    (Placement.logs P c.receipts)).insertionSort fun a b => logEntryLe a b

theorem mem_canonicalLogs {base : Nat} {entry : IndexedLogEntry} :
    entry ∈ c.canonicalLogs P base ↔
      ∃ p ∈ placements ({ c with baseHeight := base } : Blockchain).iterBlocks,
        entry ∈ p.logs P c.receipts := by
  unfold canonicalLogs
  rw [List.mem_insertionSort, List.mem_flatMap]

theorem logEntryLe_total (a b : IndexedLogEntry) : logEntryLe a b = true ∨ logEntryLe b a = true := by
  simp only [logEntryLe, decide_eq_true_eq]
  omega

theorem logEntryLe_trans {x y z : IndexedLogEntry} (h : logEntryLe x y = true) (h' : logEntryLe y z = true) :
    logEntryLe x z = true := by
  simp only [logEntryLe, decide_eq_true_eq] at *
  omega

theorem pairwise_canonicalLogs (base : Nat) :
    (c.canonicalLogs P base).Pairwise fun a b => logEntryLe a b = true :=
  have : Std.Total fun a b => logEntryLe a b = true := ⟨logEntryLe_total⟩
  have : IsTrans IndexedLogEntry fun a b => logEntryLe a b = true := ⟨fun _ _ _ => logEntryLe_trans⟩
  List.pairwise_insertionSort _ _

/-- The genesis block is always there, so the height 1 hides nothing. -/
theorem canonicalLogs_one : c.canonicalLogs P 1 = c.canonicalLogs P 0 := by
  have hblocks : ({ c with baseHeight := 1 } : Blockchain).blockAtHeight =
      ({ c with baseHeight := 0 } : Blockchain).blockAtHeight := by
    funext h
    unfold blockAtHeight
    dsimp only
    split
    · rfl
    · rw [if_neg (by omega), if_neg (by omega)]
  unfold canonicalLogs iterBlocks
  rw [hblocks]
  rfl

/-- The index covers the canonical chain at least as far down as it can be read. -/
def LogsIndexed (P : Primitives) (c : Blockchain) : Prop :=
  ∃ base ≤ c.baseHeight, c.logIndex = c.canonicalLogs P base

theorem logsIndexed_rebuild : (c.rebuildReceiptIndexes P).LogsIndexed P := by
  obtain ⟨locations, logs, heq⟩ := @rebuildReceiptIndexes_eq P c
  refine ⟨c.baseHeight, by rw [heq], ?_⟩
  have hlogs : (c.rebuildReceiptIndexes P).logIndex = c.canonicalLogs P c.baseHeight := by
    simp only [rebuildReceiptIndexes, foldl_indexReceipts, List.nil_append]
    rfl
  rw [hlogs, heq]
  rfl

/-- What the index is about stays. -/
structure KeepsLogs (c d : Blockchain) : Prop where
  logIndex : d.logIndex = c.logIndex
  receipts : d.receipts = c.receipts
  baseHeight : c.baseHeight ≤ d.baseHeight

/-- The canonical chain stays, apart from what is pruned of it. -/
structure KeepsBlocks (c d : Blockchain) : Prop where
  blocks : d.blocks = c.blocks
  genesis : d.genesis = c.genesis

theorem LogsIndexed.congr (h : c.LogsIndexed P) (hlogs : c.KeepsLogs d) (hblocks : c.KeepsBlocks d) :
    d.LogsIndexed P := by
  obtain ⟨base, hbase, hindex⟩ := h
  refine ⟨base, hbase.trans hlogs.baseHeight, ?_⟩
  rw [hlogs.logIndex, hindex]
  unfold canonicalLogs iterBlocks blockCount blockAtHeight
  rw [hlogs.receipts, hblocks.blocks, hblocks.genesis]

theorem keepsBlocks_of_spine (h : d.spine = c.spine) : c.KeepsBlocks d :=
  ⟨congrArg Spine.blocks h, congrArg Spine.genesis h⟩

theorem KeepsLogs.trans {e : Blockchain} (h : c.KeepsLogs d) (h' : d.KeepsLogs e) : c.KeepsLogs e :=
  ⟨h'.logIndex.trans h.logIndex, h'.receipts.trans h.receipts, h.baseHeight.trans h'.baseHeight⟩

theorem keepsLogs_prepareEpoch (height : Nat) : c.KeepsLogs (c.prepareEpoch P height) := by
  simp only [prepareEpoch, settleEpoch, ensureEpochSnapshot]
  split <;> exact ⟨rfl, rfl, Nat.le_refl _⟩

theorem keepsLogs_withBoundarySnapshot (height : Nat) (accounts : ByteMap AccountState) :
    c.KeepsLogs (c.withBoundarySnapshot height accounts) := by
  unfold withBoundarySnapshot
  split <;> exact ⟨rfl, rfl, Nat.le_refl _⟩

theorem keepsLogs_rebuildBlocks {previous : Block} {blocks : List Block} {r : ReplayState} :
    c.KeepsLogs (rebuildBlocks P now c previous blocks r).2 := by
  induction blocks generalizing c previous r with
  | nil => exact ⟨rfl, rfl, Nat.le_refl _⟩
  | cons block rest ih =>
    have hsnapshot := @keepsLogs_withBoundarySnapshot c block.header.height r.state.accounts
    rw [rebuildBlocks_cons]
    split
    · exact hsnapshot
    · exact hsnapshot.trans ih

theorem keepsLogs_indexBlock (block : Block) : c.KeepsLogs (c.indexBlock P block) := by
  unfold indexBlock
  refine List.foldlRecOn (motive := c.KeepsLogs) _ _ ⟨rfl, rfl, Nat.le_refl _⟩ ?_
  intro d h e _
  exact ⟨h.logIndex, h.receipts, h.baseHeight⟩

theorem keepsLogs_reindexBlocks (blocks : List Block) : c.KeepsLogs (c.reindexBlocks P blocks) := by
  unfold reindexBlocks
  refine List.foldlRecOn (motive := c.KeepsLogs) _ _ ⟨rfl, rfl, Nat.le_refl _⟩ ?_
  intro d h block _
  exact h.trans (keepsLogs_indexBlock block)

/-- A rebuild that succeeds ends with the walk, and one that fails leaves the index. -/
theorem rebuildCanonicalState_logs (P : Primitives) (c : Blockchain) (now : Int) :
    ((c.rebuildCanonicalState P now).1 = .ok () → (c.rebuildCanonicalState P now).2.LogsIndexed P) ∧
      ((c.rebuildCanonicalState P now).1 ≠ .ok () →
        c.KeepsLogs (c.rebuildCanonicalState P now).2) := by
  unfold rebuildCanonicalState
  split
  · exact ⟨fun h => absurd h (by simp), fun _ => ⟨rfl, rfl, Nat.le_refl _⟩⟩
  next accounts _ =>
  dsimp only
  set started : Blockchain :=
    { c with epochSnapshots := genesisSnapshots (c.snapshotForAccounts 0 accounts) } with hstarted
  have hstart : c.KeepsLogs started := ⟨rfl, rfl, Nat.le_refl _⟩
  have hreindexed := hstart.trans (keepsLogs_reindexBlocks (P := P) c.iterBlocks)
  split
  · exact ⟨fun h => absurd h (by simp), fun _ => hreindexed⟩
  next first rest _ =>
  have hrebuilt := hreindexed.trans (@keepsLogs_rebuildBlocks P _ now first rest (genesisReplay accounts))
  split
  · next h =>
    rw [h] at hrebuilt
    exact ⟨fun h => absurd h (by simp), fun _ => hrebuilt⟩
  · exact ⟨fun _ => logsIndexed_rebuild, fun h => absurd rfl h⟩

/-- The same of a reorganisation; one that is refused changes nothing at all. -/
theorem reorgToCanonicalTip_logs (P : Primitives) (c : Blockchain) (now : Int) :
    ((c.reorgToCanonicalTip P now).1 = .ok () → (c.reorgToCanonicalTip P now).2.LogsIndexed P) ∧
      ((c.reorgToCanonicalTip P now).1 ≠ .ok () → c.KeepsLogs (c.reorgToCanonicalTip P now).2) := by
  unfold reorgToCanonicalTip
  dsimp only
  split
  · exact ⟨fun h => absurd h (by simp), fun _ => ⟨rfl, rfl, Nat.le_refl _⟩⟩
  · have hreplaced : c.KeepsLogs (c.replaceAllBlocks c.blockTree.canonicalChain) :=
      ⟨rfl, rfl, Nat.le_refl _⟩
    obtain ⟨hok, hfailed⟩ :=
      rebuildCanonicalState_logs P (c.replaceAllBlocks c.blockTree.canonicalChain) now
    exact ⟨hok, fun h => hreplaced.trans (hfailed h)⟩

theorem logsIndexed_addBlock (h : c.LogsIndexed P) (now : Int) (block : Block) :
    (c.addBlock P now block).2.LogsIndexed P := by
  rcases addBlock_cases P c now block with ⟨e, he⟩ | ⟨s, -, hcommit⟩
  · rw [he]
    exact h.congr (keepsLogs_prepareEpoch _) (keepsBlocks_of_spine (prepareEpoch_spine _))
  · rw [hcommit]
    exact logsIndexed_rebuild.congr ⟨rfl, rfl, Nat.le_refl _⟩ ⟨rfl, rfl⟩

/-- Only a reorganisation that fails while it rebuilds can leave the index behind. -/
theorem logsIndexed_addBlockWithForkChoice (h : c.LogsIndexed P)
    (hrefused : ∀ e, (c.addBlockWithForkChoice P now block).1 = .error e →
      c.KeepsBlocks (c.addBlockWithForkChoice P now block).2) :
    (c.addBlockWithForkChoice P now block).2.LogsIndexed P := by
  have hadd := logsIndexed_addBlock h now block
  revert hrefused
  unfold addBlockWithForkChoice
  split
  · exact fun _ => h
  split
  · split
    · next he =>
      rw [he] at hadd
      exact fun _ => hadd
    · next he =>
      rw [he] at hadd
      exact fun _ => hadd
  split
  · exact fun _ => h
  · exact fun _ => h.congr ⟨rfl, rfl, Nat.le_refl _⟩ ⟨rfl, rfl⟩
  next tree _ =>
  have hstaged : c.KeepsLogs { c with blockTree := tree } := ⟨rfl, rfl, Nat.le_refl _⟩
  obtain ⟨hok, hfailed⟩ := reorgToCanonicalTip_logs P { c with blockTree := tree } now
  split
  · next e d hreorg =>
    rw [hreorg] at hfailed
    exact fun hrefused => h.congr (hstaged.trans (hfailed (by simp))) (hrefused e rfl)
  · next d hreorg =>
    rw [hreorg] at hok
    exact fun _ => hok rfl

theorem logsIndexed_addFinalityVote (h : c.LogsIndexed P) (vote : FinalityVote) :
    (c.addFinalityVote P vote).2.LogsIndexed P := by
  unfold addFinalityVote
  split
  · exact h
  split
  · exact h.congr ⟨rfl, rfl, Nat.le_refl _⟩ ⟨rfl, rfl⟩
  · unfold maybePruneFinalized
    split
    · exact h.congr ⟨rfl, rfl, Nat.le_refl _⟩ ⟨rfl, rfl⟩
    split
    · exact h.congr ⟨rfl, rfl, Nat.le_refl _⟩ ⟨rfl, rfl⟩
    · exact h.congr ⟨rfl, rfl, Nat.le_max_left _ _⟩ ⟨rfl, rfl⟩

theorem logsIndexed_processEquivocation (h : c.LogsIndexed P) (evidence : EquivocationEvidence) :
    (c.processEquivocation P evidence).2.LogsIndexed P := by
  simp only [processEquivocation]
  split
  · exact h
  split
  · exact h
  split
  · exact h
  · exact h.congr ⟨rfl, rfl, Nat.le_refl _⟩ ⟨rfl, rfl⟩

theorem logsIndexed_applySnapshot {manifest : SnapshotManifest} {chunks : List StateChunk}
    (h : c.applySnapshot P deserialize manifest chunks = .ok d) : d.LogsIndexed P := by
  simp only [applySnapshot, Outcome.except_bind_eq_ok] at h
  obtain ⟨-, -, state, -, h⟩ := h
  split at h
  · exact absurd h (by simp)
  · cases h
    exact logsIndexed_rebuild.congr ⟨rfl, rfl, Nat.le_refl _⟩ ⟨rfl, rfl⟩

theorem logsIndexed_restart (h : c.restart P now = .ok d) : d.LogsIndexed P := by
  simp only [restart, Outcome.except_bind_eq_ok] at h
  obtain ⟨accounts, -, -, -, h⟩ := h
  split at h
  · exact absurd h (by simp)
  · next d' hrebuilt =>
    cases h
    have hok := (rebuildCanonicalState_logs P _ now).1 (congrArg Prod.fst hrebuilt)
    rw [hrebuilt] at hok
    exact hok

/-- The chains a node hosts: from its genesis by transactions, blocks, votes, evidence, snapshots, restarts
and changes of the pruning window, refused or not. A reorganisation that fails after it replaced the blocks
leaves state and indexes of the old chain behind, and is no step. -/
inductive Hosted (P : Primitives) (deserialize : Bytes → Except String SnapshotState)
    (g : GenesisConfig) : Blockchain → Prop where
  | fromGenesis {c : Blockchain} (h : Curs3d.fromGenesis P g = .ok c) : Hosted P deserialize g c
  | addTransaction {c : Blockchain} (now : Int) (tx : Transaction) (h : Hosted P deserialize g c) :
    Hosted P deserialize g (c.addTransaction P now tx).2
  | addBlock {c : Blockchain} (now : Int) (block : Block) (h : Hosted P deserialize g c) :
    Hosted P deserialize g (c.addBlock P now block).2
  | addBlockWithForkChoice {c : Blockchain} (now : Int) (block : Block) (h : Hosted P deserialize g c)
    (hrefused : ∀ e, (c.addBlockWithForkChoice P now block).1 = .error e →
      c.KeepsBlocks (c.addBlockWithForkChoice P now block).2) :
    Hosted P deserialize g (c.addBlockWithForkChoice P now block).2
  | addFinalityVote {c : Blockchain} (vote : FinalityVote) (h : Hosted P deserialize g c) :
    Hosted P deserialize g (c.addFinalityVote P vote).2
  | processEquivocation {c : Blockchain} (evidence : EquivocationEvidence)
    (h : Hosted P deserialize g c) : Hosted P deserialize g (c.processEquivocation P evidence).2
  | applySnapshot {c d : Blockchain} (manifest : SnapshotManifest) (chunks : List StateChunk)
    (h : Hosted P deserialize g c) (hok : c.applySnapshot P deserialize manifest chunks = .ok d) :
    Hosted P deserialize g d
  | setPruneKeepBlocks {c : Blockchain} (keep : Option Nat) (h : Hosted P deserialize g c) :
    Hosted P deserialize g { c with pruneKeepBlocks := keep }
  | restart {c d : Blockchain} (now : Int) (h : Hosted P deserialize g c)
    (hok : c.restart P now = .ok d) : Hosted P deserialize g d

/-- **The index mirrors the canonical receipts** of every chain that a node hosts. -/
theorem Hosted.logsIndexed (h : Hosted P deserialize g c) : c.LogsIndexed P := by
  induction h with
  | fromGenesis h =>
    simp only [Curs3d.fromGenesis, Outcome.except_bind_eq_ok] at h
    obtain ⟨accounts, -, h⟩ := h
    cases h
    refine ⟨0, Nat.zero_le _, ?_⟩
    rfl
  | @addTransaction c now tx _ ih =>
    obtain ⟨pool, hpool⟩ := @addTransaction_pool P c now tx
    rw [hpool]
    exact ih.congr ⟨rfl, rfl, Nat.le_refl _⟩ ⟨rfl, rfl⟩
  | addBlock now block _ ih => exact logsIndexed_addBlock ih now block
  | addBlockWithForkChoice now block _ hrefused ih => exact logsIndexed_addBlockWithForkChoice ih hrefused
  | addFinalityVote vote _ ih => exact logsIndexed_addFinalityVote ih vote
  | processEquivocation evidence _ ih => exact logsIndexed_processEquivocation ih evidence
  | applySnapshot manifest chunks _ hok _ => exact logsIndexed_applySnapshot hok
  | setPruneKeepBlocks keep _ ih => exact ih.congr ⟨rfl, rfl, Nat.le_refl _⟩ ⟨rfl, rfl⟩
  | restart now _ hok _ => exact logsIndexed_restart hok

end Blockchain

/-! ## Texts in a filter -/

/-- Digits, bare or after `0x`. -/
def Prefixed (t digits : Text) : Prop := t = ascii "0x" ++ digits ∨ t = digits

/-- Bytes in hex, in either case. -/
def HexText (t : Text) (b : Bytes) : Prop := ∃ digits, Prefixed t digits ∧ hexDecode digits = some b

/-- A `u64` in hex. -/
def HexNumber (t : Text) (n : Nat) : Prop :=
  ∃ (digits : Text) (values : List Nat), Prefixed t digits ∧ digits ≠ [] ∧
    digits.map hexDigit = values.map some ∧ n = values.foldl (fun n d => n * 16 + d) 0 ∧ n < U64.modulus

def IsDigits (t : Text) : Prop := ∀ b ∈ t, (hexDigit b).isSome

theorem isDigits_of_map {digits : Text} {values : List Nat} (h : digits.map hexDigit = values.map some) :
    IsDigits digits := by
  intro b hb
  have hmem : hexDigit b ∈ values.map some := h ▸ List.mem_map_of_mem hb
  obtain ⟨n, -, hn⟩ := List.mem_map.mp hmem
  rw [← hn]
  rfl

theorem stripStart_append (start t : Text) : stripStart start (start ++ t) = some t := by
  unfold stripStart
  rw [if_pos (List.isPrefixOf_iff_prefix.mpr (List.prefix_append start t)), List.drop_left]

/-- What is not a digit is no start of digits. -/
theorem stripStart_digits {start digits : Text} (hstart : ∃ b ∈ start, hexDigit b = none)
    (h : IsDigits digits) : stripStart start digits = none := by
  obtain ⟨b, hmem, hb⟩ := hstart
  unfold stripStart
  rw [if_neg]
  intro hpre
  have hsome := h b ((List.isPrefixOf_iff_prefix.mp hpre).subset hmem)
  rw [hb] at hsome
  exact absurd hsome (by decide)

theorem Prefixed.strip {t digits : Text} (h : Prefixed t digits) (hdigits : IsDigits digits) :
    (stripStart (ascii "0x") t).getD t = digits := by
  rcases h with rfl | rfl
  · rw [stripStart_append]
    rfl
  · rw [stripStart_digits ⟨120, by decide, by decide⟩ hdigits]
    rfl

theorem Prefixed.mem {t digits : Text} (h : Prefixed t digits) (hdigits : IsDigits digits) :
    ∀ b ∈ t, (hexDigit b).isSome ∨ b = 120 := by
  intro b hb
  rcases h with rfl | rfl
  · rcases List.mem_append.mp hb with hb | hb
    · have hstart : ∀ b ∈ ascii "0x", (hexDigit b).isSome ∨ b = 120 := by decide +kernel
      exact hstart b hb
    · exact .inl (hdigits b hb)
  · exact .inl (hdigits b hb)

/-- A printed character of ASCII. -/
def Visible (b : UInt8) : Prop := 32 < b.toNat ∧ b.toNat < 128

theorem visible_of_hexDigit {b : UInt8} (h : (hexDigit b).isSome ∨ b = 120) : Visible b := by
  rcases h with h | rfl
  · unfold hexDigit at h
    unfold Visible
    split at h
    · omega
    split at h
    · omega
    split at h
    · omega
    · exact absurd h (by simp)
  · exact ⟨by decide, by decide⟩

/-- Whitespace begins and ends with other bytes than the printed ones. -/
theorem edges_whitespace : ∀ space ∈ whitespace ++ whitespace.map List.reverse,
    space.head?.any fun b => b.toNat ≤ 32 ∨ 128 ≤ b.toNat := by
  decide

theorem trimWith_of_visible {spaces : List Bytes}
    (hspaces : ∀ space ∈ spaces, space.head?.any fun b => b.toNat ≤ 32 ∨ 128 ≤ b.toNat) (n : Nat)
    {t : Bytes} (ht : ∀ b ∈ t, Visible b) : trimWith spaces n t = t := by
  cases n with
  | zero => rfl
  | succ n =>
    have hnone : spaces.find? (fun space => space.isPrefixOf t) = none := by
      refine List.find?_eq_none.mpr fun space hmem => ?_
      have hedge := hspaces space hmem
      cases space with
      | nil => exact absurd hedge (by simp)
      | cons b space =>
        cases t with
        | nil => simp
        | cons a t =>
          have hvisible := ht a List.mem_cons_self
          simp only [List.head?_cons, Option.any_some, decide_eq_true_eq] at hedge
          unfold Visible at hvisible
          have hne : b ≠ a := by
            rintro rfl
            omega
          simp [List.isPrefixOf, hne]
    rw [trimWith, hnone]

theorem trim_of_visible {t : Text} (ht : ∀ b ∈ t, Visible b) : trim t = t := by
  have hstart : trimStart t = t :=
    trimWith_of_visible (fun space hmem => edges_whitespace space (List.mem_append_left _ hmem)) _ ht
  have hend : trimWith (whitespace.map List.reverse) t.length t.reverse = t.reverse :=
    trimWith_of_visible (fun space hmem => edges_whitespace space (List.mem_append_right _ hmem)) _
      fun b hb => ht b (List.mem_reverse.mp hb)
  unfold trim trimEnd
  rw [hstart, hend, List.reverse_reverse]

theorem Prefixed.trim {t digits : Text} (h : Prefixed t digits) (hdigits : IsDigits digits) :
    trim t = t :=
  trim_of_visible fun b hb => visible_of_hexDigit (h.mem hdigits b hb)

theorem parseHexHash_of_hexText {t : Text} {b : Bytes} (h : HexText t b) : parseHexHash t = some b := by
  obtain ⟨digits, hprefixed, hdecode⟩ := h
  have hdigits : IsDigits digits := (digits_of_hexDecode hdecode).2
  simp only [parseHexHash, hprefixed.trim hdigits, hprefixed.strip hdigits, hdecode]

theorem parseHexAddress_of_hexText {t : Text} {b : Bytes} (h : HexText t b)
    (hlength : b.length = ADDRESS_LEN) : parseHexAddress t = some b := by
  obtain ⟨digits, hprefixed, hdecode⟩ := h
  have hdigits : IsDigits digits := (digits_of_hexDecode hdecode).2
  have hstrip : ((stripStart (ascii "0x") t).or (stripStart (ascii "CUR") t)).getD t = digits := by
    rcases hprefixed with rfl | rfl
    · rw [stripStart_append]
      rfl
    · rw [stripStart_digits ⟨120, by decide, by decide⟩ hdigits,
        stripStart_digits ⟨85, by decide, by decide⟩ hdigits]
      rfl
  simp only [parseHexAddress, hprefixed.trim hdigits, hstrip, hdecode, if_pos hlength]

/-- A value only grows as digits come. -/
theorem le_foldl_digits (values : List Nat) (n : Nat) :
    n ≤ values.foldl (fun n d => n * 16 + d) n := by
  induction values generalizing n with
  | nil => exact Nat.le_refl _
  | cons d values ih => exact (by omega : n ≤ n * 16 + d).trans (ih _)

theorem hexDigits_eq {digits : Text} {values : List Nat} (h : digits.map hexDigit = values.map some)
    (n : Nat) (hfits : values.foldl (fun n d => n * 16 + d) n < U64.modulus) :
    hexDigits n digits = some (values.foldl (fun n d => n * 16 + d) n) := by
  induction digits generalizing values n with
  | nil =>
    cases values with
    | nil => rfl
    | cons => exact absurd h (by simp)
  | cons c digits ih =>
    cases values with
    | nil => exact absurd h (by simp)
    | cons d values =>
      simp only [List.map_cons, List.cons.injEq] at h
      rw [List.foldl_cons] at hfits ⊢
      unfold hexDigits
      rw [h.1]
      dsimp only
      rw [if_pos ((le_foldl_digits values _).trans_lt hfits), ih h.2 _ hfits]

theorem parseHexQuantity_of_hexNumber {t : Text} {n : Nat} (h : HexNumber t n) :
    parseHexQuantity t = some n := by
  obtain ⟨digits, values, hprefixed, hne, hvalues, rfl, hfits⟩ := h
  have hdigits := isDigits_of_map hvalues
  unfold parseHexQuantity
  rw [hprefixed.strip hdigits]
  dsimp only
  rw [if_neg hne]
  unfold fromStrRadix16
  cases digits with
  | nil => exact absurd rfl hne
  | cons c digits =>
    have hplus : c ≠ 43 := by
      rintro rfl
      exact absurd (hdigits 43 List.mem_cons_self) (by decide)
    dsimp only
    rw [if_neg hplus, hexDigits_eq hvalues 0 hfits]

/-- A tag is no number: each has a letter that numbers lack. -/
theorem HexNumber.not_tag {t : Text} {n : Nat} (h : HexNumber t n) {tag : Text}
    (htag : ∃ b ∈ tag, ¬ ((hexDigit b).isSome ∨ b = 120)) : t ≠ tag := by
  obtain ⟨digits, values, hprefixed, -, hvalues, -, -⟩ := h
  obtain ⟨b, hmem, hb⟩ := htag
  rintro rfl
  exact hb (hprefixed.mem (isDigits_of_map hvalues) b hmem)

/-! ## What a filter says -/

/-- What a filter object asks for: an address, the topics by position, bounds. -/
structure LogQuery where
  address : Option Bytes
  topics : List (Option Bytes)
  fromBlock : Option Nat
  toBlock : Option Nat

namespace LogQuery

/-- The logs that are asked for. -/
def Selects (q : LogQuery) (entry : IndexedLogEntry) : Prop :=
  (∀ a ∈ q.address, entry.contract = a) ∧
    (∀ (i : Nat) (t : Bytes), q.topics[i]? = some (some t) → entry.topics[i]? = some t) ∧
    (∀ n ∈ q.fromBlock, n ≤ entry.blockHeight) ∧ ∀ n ∈ q.toBlock, entry.blockHeight ≤ n

def toFilter (q : LogQuery) : LogFilter where
  contract := q.address
  topics := if q.topics = [] then none else some q.topics
  fromBlock := q.fromBlock
  toBlock := q.toBlock

/-- The blocks that are asked for are not too many. -/
def WithinRange (q : LogQuery) (c : Blockchain) : Prop :=
  q.toBlock.getD c.height - q.fromBlock.getD 0 ≤ MAX_LOG_RANGE

end LogQuery

theorem isNoneOr_iff {α : Type} {o : Option α} {p : α → Bool} :
    isNoneOr o p = true ↔ ∀ a ∈ o, p a = true := by
  cases o with
  | none => simp [isNoneOr]
  | some a => simp [isNoneOr]

theorem accepts_topics (wanted : List (Option Bytes)) (entry : IndexedLogEntry) :
    (wanted.zipIdx.all fun e => isNoneOr e.1 fun t => entry.topics[e.2]?.any fun actual => actual = t) = true ↔
      ∀ (i : Nat) (t : Bytes), wanted[i]? = some (some t) → entry.topics[i]? = some t := by
  rw [List.all_eq_true]
  constructor
  · intro h i t hi
    have hpair := isNoneOr_iff.mp (h (some t, i) (List.mem_zipIdx_iff_getElem?.mpr hi)) t rfl
    obtain ⟨actual, hactual, heq⟩ := (Option.any_eq_true _ _).mp hpair
    rw [hactual, of_decide_eq_true heq]
  · rintro h ⟨o, i⟩ hmem
    refine isNoneOr_iff.mpr fun t ht => ?_
    cases ht
    rw [h i t (List.mem_zipIdx_iff_getElem?.mp hmem)]
    simp

/-- The filter of a query lets through what the query selects. -/
theorem accepts_iff_selects (q : LogQuery) (entry : IndexedLogEntry) :
    q.toFilter.accepts entry = true ↔ q.Selects entry := by
  have htopics : isNoneOr q.toFilter.topics (fun wanted => wanted.zipIdx.all fun e =>
      isNoneOr e.1 fun t => entry.topics[e.2]?.any fun actual => actual = t) = true ↔
        ∀ (i : Nat) (t : Bytes), q.topics[i]? = some (some t) → entry.topics[i]? = some t := by
    rw [← accepts_topics]
    unfold LogQuery.toFilter
    dsimp only
    split
    · next hnil => simp [hnil, isNoneOr]
    · rfl
  unfold LogFilter.accepts LogQuery.Selects
  simp only [Bool.and_eq_true, htopics]
  simp only [LogQuery.toFilter, isNoneOr_iff, decide_eq_true_eq]
  simp [and_assoc]

instance (q : LogQuery) (entry : IndexedLogEntry) : Decidable (q.Selects entry) :=
  decidable_of_iff _ (accepts_iff_selects q entry)

/-- A field that is absent or says something. -/
inductive FieldSays {α : Type} (R : Json → α → Prop) : Option Json → Option α → Prop where
  | absent : FieldSays R none none
  | given {v : Json} {a : α} (h : R v a) : FieldSays R (some v) (some a)

def AddressIs (v : Json) (a : Bytes) : Prop := ∃ t, v = .string t ∧ HexText t a ∧ a.length = ADDRESS_LEN

/-- One position: anything, or one topic. -/
inductive TopicAt : Json → Option Bytes → Prop where
  | any : TopicAt .null none
  | exactly {t : Text} {b : Bytes} (h : HexText t b) (hlength : b.length = 32) : TopicAt (.string t) (some b)

/-- The positions from the first on. -/
inductive TopicsSay : Option Json → List (Option Bytes) → Prop where
  | absent : TopicsSay none []
  | given {items : List Json} {topics : List (Option Bytes)} (h : List.Forall₂ TopicAt items topics) :
    TopicsSay (some (.array items)) topics

/-- A bound: a number or a tag. -/
inductive BlockTag (c : Blockchain) : Json → Nat → Prop where
  | null : BlockTag c .null c.height
  | latest : BlockTag c (.string (ascii "latest")) c.height
  | pending : BlockTag c (.string (ascii "pending")) c.height
  | earliest : BlockTag c (.string (ascii "earliest")) 0
  | finalized : BlockTag c (.string (ascii "finalized")) c.finalityTracker.finalizedHeight
  | safe : BlockTag c (.string (ascii "safe")) c.finalityTracker.finalizedHeight
  | number {t : Text} {n : Nat} (h : HexNumber t n) : BlockTag c (.string t) n

/-- The fields of a filter object without a limit say what `q` asks for. Fields of other names do not count. -/
structure Describes (c : Blockchain) (fields : List (String × Json)) (q : LogQuery) : Prop where
  address : FieldSays AddressIs (Json.get fields "address") q.address
  topics : TopicsSay (Json.get fields "topics") q.topics
  fromBlock : FieldSays (BlockTag c) (Json.get fields "fromBlock") q.fromBlock
  toBlock : FieldSays (BlockTag c) (Json.get fields "toBlock") q.toBlock
  limit : Json.get fields "limit" = none

/-! ## Reading it -/

theorem addressesOf_eq {v : Option Json} {a : Option Bytes} (h : FieldSays AddressIs v a) :
    (addressesOf v).bind List.getLast? = a := by
  cases h with
  | absent => rfl
  | given h =>
    obtain ⟨t, rfl, htext, hlength⟩ := h
    simp only [addressesOf, parseHexAddress_of_hexText htext hlength]
    rfl

theorem topicOf_of_topicAt {v : Json} {o : Option Bytes} (h : TopicAt v o) : topicOf v = o := by
  cases h with
  | any => rfl
  | exactly htext _ => exact parseHexHash_of_hexText htext

theorem topicsOf_eq {v : Option Json} {topics : List (Option Bytes)} (h : TopicsSay v topics) :
    topicsOf v = if topics = [] then none else some topics := by
  cases h with
  | absent => rfl
  | @given items _ h =>
    have hread : items.map topicOf = topics := by
      induction h with
      | nil => rfl
      | cons hitem _ ih => rw [List.map_cons, topicOf_of_topicAt hitem, ih]
    have hnil : items = [] ↔ topics = [] := by
      rw [← hread, List.map_eq_nil_iff]
    unfold topicsOf
    simp only [hread, hnil]

theorem resolveBlockTag_of_blockTag {c : Blockchain} {v : Json} {n : Nat} (h : BlockTag c v n) :
    resolveBlockTag c v = some n := by
  cases h with
  | null => rfl
  | latest => rfl
  | pending => rfl
  | earliest => rfl
  | finalized => rfl
  | safe => rfl
  | number h =>
    have hlatest : _ ≠ ascii "latest" := h.not_tag ⟨108, by decide +kernel⟩
    have hpending : _ ≠ ascii "pending" := h.not_tag ⟨112, by decide +kernel⟩
    have hearliest : _ ≠ ascii "earliest" := h.not_tag ⟨114, by decide +kernel⟩
    have hfinalized : _ ≠ ascii "finalized" := h.not_tag ⟨105, by decide +kernel⟩
    have hsafe : _ ≠ ascii "safe" := h.not_tag ⟨115, by decide +kernel⟩
    simp only [resolveBlockTag, hlatest, hpending, hearliest, hfinalized, hsafe, or_self, if_false]
    exact parseHexQuantity_of_hexNumber h

theorem bound_eq {c : Blockchain} {v : Option Json} {n : Option Nat} (h : FieldSays (BlockTag c) v n) :
    v.bind (resolveBlockTag c) = n := by
  cases h with
  | absent => rfl
  | given h => exact resolveBlockTag_of_blockTag h

theorem parse_of_describes {c : Blockchain} {fields : List (String × Json)} {q : LogQuery}
    (h : Describes c fields q) : parseEthLogFilter c (.object fields) = q.toFilter := by
  unfold parseEthLogFilter LogQuery.toFilter
  simp only [addressesOf_eq h.address, topicsOf_eq h.topics, bound_eq h.fromBlock,
    bound_eq h.toBlock, h.limit, limitOf, Option.bind_none]

/-! ## The answer -/

/-- The lookup takes a hundred of what the query selects. -/
theorem ethGetLogs_of_describes {c : Blockchain} {fields : List (String × Json)} {q : LogQuery}
    (h : Describes c fields q) (hrange : q.WithinRange c) :
    ethGetLogs c [.object fields] = .ok ((c.logIndex.filter fun e => q.Selects e).take 100) := by
  have hselects : q.toFilter.accepts = fun e => decide (q.Selects e) := by
    funext e
    rw [Bool.eq_iff_iff, accepts_iff_selects, decide_eq_true_eq]
  unfold LogQuery.WithinRange at hrange
  unfold ethGetLogs
  simp only [List.head?_cons, Option.getD_some, parse_of_describes h]
  rw [if_neg (by simp only [LogQuery.toFilter]; omega)]
  unfold Blockchain.queryLogs
  rw [hselects]
  rfl

/-- **A filter that says what to look for is answered with the first hundred of the canonical logs that match.** What
was pruned may be missing from the canonical logs, and where nothing was, none is. -/
theorem get_logs_first_hundred {P : Primitives} {deserialize : Bytes → Except String SnapshotState}
    {g : GenesisConfig} {c : Blockchain} (h : c.Hosted P deserialize g) :
    ∃ base ≤ c.baseHeight, (c.baseHeight ≤ 1 → base = 0) ∧
      ∀ fields q, Describes c fields q → q.WithinRange c → ethGetLogs c [.object fields] =
        .ok (((c.canonicalLogs P base).filter fun e => q.Selects e).take 100) := by
  obtain ⟨base, hbase, hindex⟩ := h.logsIndexed
  by_cases hone : base = 1
  · refine ⟨0, Nat.zero_le _, fun _ => rfl, fun fields q hdescribes hrange => ?_⟩
    rw [ethGetLogs_of_describes hdescribes hrange, hindex, hone, Blockchain.canonicalLogs_one]
  · refine ⟨base, hbase, by omega, fun fields q hdescribes hrange => ?_⟩
    rw [ethGetLogs_of_describes hdescribes hrange, hindex]

namespace LogSample

open Scenario

def topic : Bytes := List.replicate 32 7

/-- A contract whose call emits 101 logs. -/
def primitives : Primitives :=
  { Reference.primitives with
    wasmOperators := fun _ => ([], true)
    wasmFunctionImports := fun _ => some [(ascii "curs3d", ascii "emit_log_bytes")]
    wasmModuleOk := fun _ => true
    wasmRun := fun _ ctx =>
      let cost := 101 * (Vm.HostCall.emitLogBytes 32 0).charges.sum
      if ctx.gasRemaining < cost then .error .execution
      else .ok ({ ctx with
        logs := List.replicate 101 { contract := ctx.contractId, topics := [topic], data := [] }
        gasRemaining := ctx.gasRemaining - cost }, []) }

def genesis : GenesisConfig where
  chainId := [1]
  allocations := [allocation 1 1000000 0]

def transaction (kind : TransactionKind) («to» : Bytes) (nonce : Nat) : Transaction :=
  Transaction.sign primitives
    { chainId := [1]
      kind
      «from» := addressBytesFromPublicKey primitives (key 1).publicKey
      senderPublicKey := (key 1).publicKey
      «to»
      amount := 0
      fee := 1
      maxFeePerGas := 0
      maxPriorityFeePerGas := 0
      nonce
      timestamp := clock 1
      signature := none
      gasLimit := 200000
      data := []
      evmRawTx := [] }
    (key 1)

def deployment : Transaction := transaction .deployContract [0] 0

def address : Bytes := Vm.contractAddressFor primitives deployment.from 0 1

def add (c : Blockchain) (tx : Transaction) : Blockchain := (c.addTransaction primitives (clock 1) tx).2

/-- The chain with one block of both transactions. -/
def prepared (c : Blockchain) : Option Blockchain :=
  let pending := add (add c deployment) (transaction .callContract address 1)
  (pending.createBlock primitives (clock 1) (key 1)).toOption.map fun block =>
    (pending.addBlock primitives (clock 1) block).2

def deserialize : Bytes → Except String SnapshotState := fun _ => .error "no snapshots"

theorem hosted_prepared {c c' : Blockchain} (h : c.Hosted primitives deserialize genesis)
    (hc : prepared c = some c') : c'.Hosted primitives deserialize genesis := by
  obtain ⟨block, -, rfl⟩ := Option.map_eq_some_iff.mp hc
  exact .addBlock (clock 1) block (.addTransaction (clock 1) _ (.addTransaction (clock 1) deployment h))

/-- The contract's logs with its topic from block 1 on. -/
def fields : List (String × Json) :=
  [("address", .string (ascii "0x" ++ hexEncode address)),
    ("topics", .array [.string (ascii "0x" ++ hexEncode topic), .null]),
    ("fromBlock", .string (ascii "0x1"))]

def query : LogQuery where
  address := some address
  topics := [some topic, none]
  fromBlock := some 1
  toBlock := none

theorem describes_fields (c : Blockchain) : Describes c fields query where
  address := .given ⟨_, rfl, ⟨hexEncode address, .inl rfl, hexDecode_hexEncode _⟩, by decide +kernel⟩
  topics := .given (.cons (.exactly ⟨hexEncode topic, .inl rfl, hexDecode_hexEncode _⟩ (by decide +kernel))
    (.cons .any .nil))
  fromBlock := .given (.number ⟨[49], [1], .inl (by decide +kernel), by decide, by decide, rfl, by decide⟩)
  toBlock := .absent
  limit := rfl

/-- What the sample chain is looked at for. -/
def observed (c : Blockchain) : Bool :=
  c.height = 1 && c.baseHeight = 0 &&
    decide (((c.canonicalLogs primitives 0).filter fun e => query.Selects e).length = 101) &&
      (ethGetLogs c [.object fields]).toOption.any fun logs => logs.length = 100

theorem exists_observed : ∃ c, Blockchain.Hosted primitives deserialize genesis c ∧ observed c = true := by
  have hrun : (fromGenesis primitives genesis).toOption.any fun c₀ => (prepared c₀).any observed := by
    decide +kernel
  obtain ⟨c₀, hgenesis, hrun⟩ := Outcome.ok_of_any hrun
  obtain ⟨c, hprepared, hobserved⟩ := (Option.any_eq_true _ _).mp hrun
  exact ⟨c, hosted_prepared (.fromGenesis hgenesis) hprepared, hobserved⟩

end LogSample

open LogSample in
/-- Of the 101 logs of the contract the first hundred are returned. -/
theorem get_logs_first_hundred_sample : ∃ (c : Blockchain) (logs : List IndexedLogEntry),
    ethGetLogs c [.object fields] = .ok (logs.take 100) ∧ logs.length = 101 := by
  obtain ⟨c, hhosted, hobserved⟩ := exists_observed
  simp only [observed, Bool.and_eq_true, decide_eq_true_eq] at hobserved
  obtain ⟨⟨⟨hheight, hbase⟩, hlength⟩, -⟩ := hobserved
  obtain ⟨base, -, hzero, hanswer⟩ := get_logs_first_hundred hhosted
  cases hzero (by omega)
  have hrange : query.WithinRange c := by
    simp only [LogQuery.WithinRange, query, hheight]
    decide
  exact ⟨c, _, hanswer fields query (describes_fields c) hrange, hlength⟩

open LogSample in
/-- Of 101 logs that match, the last is omitted. -/
theorem get_logs_truncated : ¬ ∀ (P : Primitives) (deserialize : Bytes → Except String SnapshotState)
    (g : GenesisConfig) (c : Blockchain), c.Hosted P deserialize g →
      ∀ fields q, Describes c fields q → q.WithinRange c →
        ethGetLogs c [.object fields] = .ok ((c.canonicalLogs P 0).filter fun e => q.Selects e) := by
  intro hall
  obtain ⟨c, hhosted, hobserved⟩ := exists_observed
  simp only [observed, Bool.and_eq_true, decide_eq_true_eq] at hobserved
  obtain ⟨⟨⟨hheight, -⟩, hlength⟩, hanswered⟩ := hobserved
  have hrange : query.WithinRange c := by
    simp only [LogQuery.WithinRange, query, hheight]
    decide
  obtain ⟨logs, hlogs, hcount⟩ := Outcome.ok_of_any hanswered
  rw [hall primitives deserialize genesis c hhosted fields query (describes_fields c) hrange] at hlogs
  cases hlogs
  rw [hlength] at hcount
  exact absurd hcount (by decide)

end Curs3d
