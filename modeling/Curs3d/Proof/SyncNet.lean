import Curs3d.Proof.BlockSync

/-!
# Block sync over whole runs

Whatever is lost, repeated or delivered late, and whatever the clocks show, every node holds a prefix of the leader's
chain and no request is ever taken for one from a fork (`sync_copies_leader`). When no clock is behind the
leader's blocks, nodes of one height hold one state (`sync_replicas`), no response that arrives is wasted
(`sync_delivery`), and a node that keeps asking catches up fifty blocks at a time (`sync_catches_up`).
-/

set_option autoImplicit false

namespace Curs3d

open Outcome U64 Replica Blockchain SyncBatch

/-! ## Asking -/

namespace SyncPeer

/-- No request is out, and none will be repeated. -/
def Idle (s : SyncPeer) : Prop := s.syncRetries = 0 ∧ s.syncDeadline = none

/-- `s'` is `s` after it asked for blocks or for a snapshot, or did nothing. -/
structure Asks (s s' : SyncPeer) : Prop where
  chain : s'.chain = s.chain
  session : s'.pendingSnapshotManifest = s.pendingSnapshotManifest
  requests : ∀ r ∈ s'.requests, r ∈ s.requests ∨ r = s.chain.blockRequest
  idle : (s.syncRequested = false → s.Idle) → s'.syncRequested = false → s'.Idle

variable {P : Primitives}

theorem Asks.refl (s : SyncPeer) : Asks s s := ⟨rfl, rfl, fun _ hr => .inl hr, id⟩

theorem mem_askBlocks {s : SyncPeer} {r : BlockRequest} (hr : r ∈ s.askBlocks.requests) :
    r ∈ s.requests ∨ r = s.chain.blockRequest :=
  (List.mem_append.mp hr).imp id List.mem_singleton.mp

theorem asks_handleHeightAnnounce (s : SyncPeer) (clock : Nat) (a : HeightAnnounce) :
    Asks s (s.handleHeightAnnounce P clock a) := by
  unfold handleHeightAnnounce
  split
  · exact Asks.refl s
  split
  · exact Asks.refl s
  split
  · split
    · exact ⟨rfl, rfl, fun r hr => .inl hr, fun _ h => absurd h (by simp [await])⟩
    · exact ⟨rfl, rfl, fun r hr => mem_askBlocks hr, fun _ h => absurd h (by simp [await])⟩
  split
  · exact ⟨rfl, rfl, fun r hr => .inl hr, fun _ h => absurd h (by simp [await])⟩
  · exact Asks.refl s

theorem asks_checkSyncTimeout (s : SyncPeer) (clock : Nat) : Asks s (s.checkSyncTimeout clock) := by
  unfold checkSyncTimeout
  split
  · exact Asks.refl s
  next deadline hdeadline =>
    -- an idle node has no deadline
    have hbusy : (s.syncRequested = false → s.Idle) → ¬ s.syncRequested = false :=
      fun hidle h => absurd ((hidle h).2.symm.trans hdeadline) (by simp)
    split
    · exact Asks.refl s
    split
    · exact ⟨rfl, rfl, fun r hr => .inl hr, fun _ h => absurd h (by simp [await])⟩
    dsimp only
    split
    · exact ⟨rfl, rfl, fun r hr => .inl hr, fun hidle h => absurd h (hbusy hidle)⟩
    · exact ⟨rfl, rfl, fun r hr => mem_askBlocks hr, fun hidle h => absurd h (hbusy hidle)⟩

end SyncPeer

namespace SyncNet

variable {ι : Type} [DecidableEq ι] {P : Primitives} {leader i : ι} {net : SyncNet ι}

theorem node_set_self (net : SyncNet ι) (i : ι) (s : SyncPeer) : (net.set i s).node i = s :=
  Function.update_self ..

theorem node_set_of_ne {k : ι} (hk : k ≠ i) (s : SyncPeer) : (net.set i s).node k = net.node k :=
  Function.update_of_ne hk ..

theorem node_set (net : SyncNet ι) (i : ι) (s : SyncPeer) (j : ι) :
    (net.set i s).node j = if j = i then s else net.node j := by
  show Function.update net.node i s j = _
  rw [Function.update_apply]

omit [DecidableEq ι] in
theorem node_reply (net : SyncNet ι) (i : ι) (r : RequestReply) : (net.reply i r).node = net.node := by
  cases r <;> rfl

/-! ## Runs -/

/-- The leader's blocks are accepted, and are values of their types; only requests and responses that were
sent are handled. -/
def Valid (P : Primitives) (leader : ι) (net : SyncNet ι) : SyncEvent ι → Prop
  | .extend now block => ((net.node leader).chain.addBlock P now block).1 = .ok () ∧ block.WellTyped
  | .serve _ i _ request => request ∈ (net.node i).requests
  | .deliver i _ response => (i, response) ∈ net.responses
  | _ => True

/-- Every event of a run is valid where it happens. -/
def AllValid (P : Primitives) (leader : ι) : SyncNet ι → List (SyncEvent ι) → Prop
  | _, [] => True
  | net, event :: rest => Valid P leader net event ∧ AllValid P leader (net.step P leader event) rest

/-- From the time `t` on no response is handled by a clock that is behind the leader's last block. -/
def Clocked : Int → List (SyncEvent ι) → Prop
  | _, [] => True
  | t, .extend now _ :: rest => t ≤ now ∧ Clocked now rest
  | t, .deliver _ now _ :: rest => t ≤ now ∧ Clocked t rest
  | t, _ :: rest => Clocked t rest

/-! ## Copies and slices -/

/-- The blocks of the nodes and those of the responses. -/
def logs (net : SyncNet ι) : System ι Block where
  log i := (net.node i).chain.blocks
  sent := net.responses.map fun m =>
    (m.1, ⟨m.2.fromHeight, m.2.blocks.filterMap Decode.block.decode⟩)

theorem decode_items {items : List Block} (h : ∀ b ∈ items, b.WellTyped) :
    (items.map Bincode.block).filterMap Decode.block.decode = items := by
  rw [List.filterMap_map]
  have hread : ∀ b ∈ items, (Decode.block.decode ∘ Bincode.block) b = some b := by
    intro b hb
    rw [Function.comp_apply]
    exact Decode.decodes_block.decode (h b hb)
  rw [List.filterMap_congr hread, List.filterMap_some]

/-- The leader's blocks. -/
def trunk (leader : ι) (net : SyncNet ι) : List Block := (net.node leader).chain.blocks

/-- A request that was made on top of a block of the trunk. -/
structure RequestOf (genesis : Block) (trunk : List Block) (height : Nat) (r : BlockRequest) :
    Prop where
  genesisHash : r.genesisHash = genesis.hash
  top : ∃ k b, r.fromHeight = k + 1 ∧ k ≤ height ∧ trunk[k]? = some b ∧ b.hash = r.expectedPrevHash

/-- A response to such a request. -/
structure ResponseOf (genesis : Block) (trunk : List Block) (height : Nat) (r : BlockResponse) :
    Prop where
  genesisHash : r.genesisHash = genesis.hash
  slice : ∃ k items, r.fromHeight = k + 1 ∧ k ≤ height ∧ items ≠ [] ∧
    items <+: trunk.drop (k + 1) ∧ r.blocks = items.map Bincode.block

section Grow

variable {genesis : Block} {l l' : List Block} {height height' : Nat}

theorem RequestOf.grow {r : BlockRequest} (h : RequestOf genesis l height r) (hl : l <+: l')
    (hheight : height ≤ height') : RequestOf genesis l' height' r := by
  obtain ⟨k, b, hk, hle, hb, hhash⟩ := h.top
  obtain ⟨rest, rfl⟩ := hl
  exact ⟨h.genesisHash, k, b, hk, hle.trans hheight,
    by rw [List.getElem?_append_left (List.getElem?_eq_some_iff.mp hb).1, hb], hhash⟩

theorem ResponseOf.grow {r : BlockResponse} (h : ResponseOf genesis l height r) (hl : l <+: l')
    (hheight : height ≤ height') : ResponseOf genesis l' height' r := by
  obtain ⟨k, items, hk, hle, hne, hslice, hblocks⟩ := h.slice
  exact ⟨h.genesisHash, k, items, hk, hle.trans hheight, hne, hslice.trans (hl.drop _), hblocks⟩

end Grow

/-! ## The invariant -/

/-- One node, on the trunk `l` that grows from `root`. -/
structure NodeOn (root : Block) (l : List Block) (s : SyncPeer) : Prop where
  straight : s.chain.Straight
  keep : s.chain.pruneKeepBlocks = none
  genesis : s.chain.genesis = root
  requests : ∀ r ∈ s.requests, RequestOf root l s.chain.height r
  noSession : s.pendingSnapshotManifest = none
  idle : s.syncRequested = false → s.Idle

structure Sound (leader : ι) (net : SyncNet ι) : Prop where
  nodes : ∀ i, NodeOn (net.node leader).chain.genesis (net.trunk leader) (net.node i)
  responses : ∀ m ∈ net.responses, ResponseOf (net.node leader).chain.genesis (net.trunk leader)
    (net.node m.1).chain.height m.2
  typed : ∀ b ∈ (net.trunk leader).tail, b.WellTyped
  offers : net.offers = []
  consistent : Consistent leader net.logs

namespace Sound

omit [DecidableEq ι] in
/-- The genesis apart, the trunk is made of values of their types. -/
theorem typed_of_slice (h : Sound leader net) {k : Nat} {items : List Block}
    (hslice : items <+: (net.trunk leader).drop (k + 1)) : ∀ b ∈ items, b.WellTyped := by
  intro b hb
  apply h.typed
  have hdrop := hslice.subset hb
  rw [Nat.add_comm, ← List.drop_drop, List.drop_one] at hdrop
  exact List.mem_of_mem_drop hdrop

omit [DecidableEq ι] in
/-- The slice a response carries. -/
theorem slice (h : Sound leader net) {m : ι × BlockResponse} (hm : m ∈ net.responses) :
    ∃ k items, m.2.fromHeight = k + 1 ∧ k ≤ (net.node m.1).chain.height ∧ items ≠ [] ∧
      items <+: (net.trunk leader).drop (k + 1) ∧ m.2.blocks = items.map Bincode.block ∧
      (∀ b ∈ items, b.WellTyped) ∧ Numbered (k + 1) items := by
  obtain ⟨k, items, hk, hle, hne, hslice, hblocks⟩ := (h.responses m hm).slice
  refine ⟨k, items, hk, hle, hne, hslice, hblocks, h.typed_of_slice hslice, ?_⟩
  intro j b hb
  have hread : (net.trunk leader)[k + 1 + j]? = some b :=
    (show (Slice.mk (k + 1) items).Of _ from hslice).getElem? hb
  exact (h.nodes leader).straight.heights hread

/-- One node became `s`, whose blocks are those of before and more. -/
theorem set (h : Sound leader net) {s : SyncPeer} (hst : s.chain.Straight)
    (hkeep : s.chain.pruneKeepBlocks = none)
    (hgenesis : s.chain.genesis = (net.node i).chain.genesis)
    (hgrow : (net.node i).chain.blocks <+: s.chain.blocks)
    (hlogs : Consistent leader (net.set i s).logs)
    (htyped : ∀ b ∈ ((net.set i s).trunk leader).tail, b.WellTyped)
    (hrequests : ∀ r ∈ s.requests, r ∈ (net.node i).requests ∨ r = s.chain.blockRequest)
    (hsession : s.pendingSnapshotManifest = none)
    (hidle : s.syncRequested = false → s.Idle) : Sound leader (net.set i s) := by
  have hnode := node_set net i s
  have hheight : (net.node i).chain.height ≤ s.chain.height :=
    Nat.sub_le_sub_right hgrow.length_le 1
  have hheights : ∀ j, (net.node j).chain.height ≤ ((net.set i s).node j).chain.height := by
    intro j
    rw [hnode]
    split
    · next hj => rw [hj]; exact hheight
    · exact le_rfl
  have htrunk : net.trunk leader <+: (net.set i s).trunk leader := by
    unfold trunk
    rw [hnode]
    split
    · next hj => rw [hj]; exact hgrow
    · exact List.prefix_rfl
  have hroot : ((net.set i s).node leader).chain.genesis = (net.node leader).chain.genesis := by
    rw [hnode]
    split
    · next hj => rw [hgenesis, hj]
    · rfl
  refine ⟨?_, ?_, htyped, h.offers, hlogs⟩
  · intro j
    rw [hroot]
    have hold := h.nodes j
    by_cases hj : j = i
    · subst hj
      rw [hnode, if_pos rfl]
      refine ⟨hst, hkeep, hgenesis.trans hold.genesis, ?_, hsession, hidle⟩
      intro r hr
      rcases hrequests r hr with hmem | rfl
      · exact (hold.requests r hmem).grow htrunk hheight
      · have hmine : s.chain.blocks <+: (net.set j s).trunk leader := by
          have hlog := hlogs.logs j
          change ((net.set j s).node j).chain.blocks <+: _ at hlog
          rwa [hnode, if_pos rfl] at hlog
        refine ⟨by rw [← hold.genesis, ← hgenesis]; rfl, s.chain.height, s.chain.latestBlock, rfl,
          le_rfl, ?_, rfl⟩
        obtain ⟨rest, hrest⟩ := hmine
        rw [← hrest, List.getElem?_append_left (List.getElem?_eq_some_iff.mp hst.latestBlock).1]
        exact hst.latestBlock
    · rw [hnode, if_neg hj]
      exact ⟨hold.straight, hold.keep, hold.genesis,
        fun r hr => (hold.requests r hr).grow htrunk le_rfl, hold.noSession, hold.idle⟩
  · intro m hm
    rw [hroot]
    exact (h.responses m hm).grow htrunk (hheights m.1)

/-! ## One event -/

theorem logs_set (net : SyncNet ι) (i : ι) (s : SyncPeer) : (net.set i s).logs =
    { net.logs with log := Function.update net.logs.log i s.chain.blocks } := by
  have hlog : (net.set i s).logs.log = Function.update net.logs.log i s.chain.blocks := by
    funext j
    show (Function.update net.node i s j).chain.blocks = _
    rw [Function.update_apply, Function.update_apply]
    split <;> rfl
  exact congrArg (fun log => { net.logs with log := log }) hlog

theorem logs_set_same {s : SyncPeer} (h : s.chain.blocks = (net.node i).chain.blocks) :
    (net.set i s).logs = net.logs := by
  rw [logs_set, h]
  exact congrArg (fun log => { net.logs with log := log }) (Function.update_eq_self i net.logs.log)

theorem logs_setChain (net : SyncNet ι) (i : ι) (c : Blockchain) : (net.setChain i c).logs =
    { net.logs with log := Function.update net.logs.log i c.blocks } := logs_set net i _

theorem trunk_setChain (net : SyncNet ι) (leader : ι) (c : Blockchain) :
    (net.setChain leader c).trunk leader = c.blocks := by
  show (Function.update net.node leader _ leader).chain.blocks = _
  rw [Function.update_self]

theorem trunk_set_same {s : SyncPeer} (h : s.chain.blocks = (net.node i).chain.blocks) :
    (net.set i s).trunk leader = net.trunk leader :=
  congrFun (congrArg System.log (logs_set_same h)) leader

/-- A node asked. -/
theorem ask (h : Sound leader net) {s : SyncPeer} (hs : (net.node i).Asks s) :
    Sound leader (net.set i s) := by
  have hnode := h.nodes i
  have hblocks : s.chain.blocks = (net.node i).chain.blocks := by rw [hs.chain]
  refine h.set (by rw [hs.chain]; exact hnode.straight) (by rw [hs.chain]; exact hnode.keep)
    (by rw [hs.chain]) (by rw [hblocks]) ?_ ?_ ?_ (hs.session.trans hnode.noSession)
    (hs.idle hnode.idle)
  · rw [logs_set_same hblocks]
    exact h.consistent
  · rw [trunk_set_same hblocks]
    exact h.typed
  · rw [hs.chain]
    exact hs.requests

/-- The state of a chain changed, and not its blocks. -/
theorem setChain_same (h : Sound leader net) {c : Blockchain}
    (hst : c.Straight) (hkeep : c.pruneKeepBlocks = none)
    (hgenesis : c.genesis = (net.node i).chain.genesis)
    (hblocks : c.blocks = (net.node i).chain.blocks) : Sound leader (net.setChain i c) := by
  have hnode := h.nodes i
  refine h.set hst hkeep hgenesis (by rw [hblocks]) ?_ ?_ (fun r hr => .inl hr) hnode.noSession
    hnode.idle
  · rw [logs_set_same hblocks]
    exact h.consistent
  · rw [trunk_set_same hblocks]
    exact h.typed

theorem vote (h : Sound leader net) (vote : FinalityVote) :
    Sound leader (net.setChain i ((net.node i).chain.addFinalityVote P vote).2) := by
  have hnode := h.nodes i
  obtain ⟨tracker, tree, hvote⟩ := addFinalityVote_of_none (P := P) hnode.keep vote
  rw [hvote]
  exact h.setChain_same ⟨hnode.straight.base, hnode.straight.head, hnode.straight.heights⟩ hnode.keep
    rfl rfl

theorem transaction (h : Sound leader net) (now : Int) (tx : Transaction) :
    Sound leader (net.setChain i ((net.node i).chain.addTransaction P now tx).2) := by
  have hnode := h.nodes i
  obtain ⟨pool, hpool⟩ := addTransaction_pool (P := P) (net.node i).chain now tx
  rw [hpool]
  exact h.setChain_same ⟨hnode.straight.base, hnode.straight.head, hnode.straight.heights⟩ hnode.keep
    rfl rfl

theorem extend (h : Sound leader net) {now : Int} {block : Block}
    (hok : ((net.node leader).chain.addBlock P now block).1 = .ok ()) (htyped : block.WellTyped) :
    Sound leader (net.setChain leader ((net.node leader).chain.addBlock P now block).2) := by
  have hnode := h.nodes leader
  obtain ⟨hst, hblocks, hgenesis, -, -⟩ := hnode.straight.addBlock hok
  obtain ⟨-, _, hspine⟩ := addBlock_ok_spine hok
  have hlogs : Consistent leader
      (net.setChain leader ((net.node leader).chain.addBlock P now block).2).logs := by
    rw [logs_setChain, hblocks]
    exact h.consistent.step (Step.append [block])
  have htail : ∀ b ∈ ((net.setChain leader
      ((net.node leader).chain.addBlock P now block).2).trunk leader).tail, b.WellTyped := by
    intro b hb
    rw [trunk_setChain, hblocks, List.tail_append_of_ne_nil
      (List.ne_nil_of_length_pos hnode.straight.length_pos)] at hb
    rcases List.mem_append.mp hb with hold | hnew
    · exact h.typed b hold
    · rw [List.mem_singleton.mp hnew]
      exact htyped
  refine h.set hst ((congrArg Spine.pruneKeepBlocks hspine).trans hnode.keep) hgenesis ?_ hlogs htail
    (fun r hr => .inl hr) hnode.noSession hnode.idle
  rw [hblocks]
  exact List.prefix_append _ _

/-- A node took part of a slice that was sent to it. -/
theorem take (h : Sound leader net) {s : SyncPeer} {slice : Slice Block}
    (hsent : (i, slice) ∈ net.logs.sent) (hstart : slice.start ≤ (net.node i).chain.blocks.length)
    (hext : Extends slice (net.node i).chain s.chain)
    (hrequests : s.requests = (net.node i).requests)
    (hsession : s.pendingSnapshotManifest = (net.node i).pendingSnapshotManifest)
    (hidle : s.syncRequested = false → s.Idle) : Sound leader (net.set i s) := by
  have hnode := h.nodes i
  have hlogs : Consistent leader (net.set i s).logs := by
    rw [logs_set]
    exact h.consistent.step (Step.receive i slice _ hsent hstart hext.keeps hext.takes)
  have hmine : s.chain.blocks <+: net.trunk leader :=
    hext.takes.trans ((h.consistent.sent _ hsent).extend_isPrefix (h.consistent.logs i) hstart)
  have htrunk : (net.set i s).trunk leader <+: net.trunk leader := by
    show (Function.update net.node i s leader).chain.blocks <+: _
    rw [Function.update_apply]
    split
    · exact hmine
    · exact List.prefix_rfl
  refine h.set hext.straight (hext.keep.trans hnode.keep) hext.genesis hext.keeps hlogs ?_
    (fun r hr => .inl (hrequests ▸ hr)) (hsession.trans hnode.noSession) hidle
  intro b hb
  rw [← List.drop_one] at hb
  exact h.typed b (List.drop_one ▸ (htrunk.drop 1).subset hb)

omit [DecidableEq ι] in
/-- A response gives its node a part of the slice it carries. -/
theorem extended (h : Sound leader net) (P : Primitives) (now : Int) {response : BlockResponse}
    (hsent : (i, response) ∈ net.responses) : ∃ slice, (i, slice) ∈ net.logs.sent ∧
      slice.start ≤ (net.node i).chain.blocks.length ∧
      Extends slice (net.node i).chain ((net.node i).handleBlockResponse P now response).chain := by
  obtain ⟨k, items, hfrom, hle, -, -, hblocks, htyped, hnumbered⟩ := h.slice hsent
  have hnode := h.nodes i
  have hext := @run_extends P now items (k + 1) { chain := (net.node i).chain } hnode.straight htyped
    hnumbered (Nat.succ_le_succ hle)
  refine ⟨⟨k + 1, items⟩, ?_, ?_, ?_⟩
  · refine List.mem_map.mpr ⟨(i, response), hsent, ?_⟩
    dsimp only
    rw [hblocks, decode_items htyped, hfrom]
  · rw [length_blocks hnode.straight]
    exact Nat.succ_le_succ hle
  · unfold SyncPeer.handleBlockResponse
    split
    · exact Extends.of_spine hnode.straight rfl
    split
    · exact Extends.of_spine hnode.straight rfl
    rw [hblocks]
    dsimp only
    split
    · exact hext
    · exact hext

theorem deliver (h : Sound leader net) {now : Int} {response : BlockResponse}
    (hsent : (i, response) ∈ net.responses) :
    Sound leader (net.set i ((net.node i).handleBlockResponse P now response)) := by
  obtain ⟨slice, hslice, hstart, hext⟩ := h.extended P now hsent
  have hleaves : ((net.node i).handleBlockResponse P now response).requests = (net.node i).requests ∧
      ((net.node i).handleBlockResponse P now response).pendingSnapshotManifest =
        (net.node i).pendingSnapshotManifest ∧
      (((net.node i).handleBlockResponse P now response).syncRequested = false →
        ((net.node i).handleBlockResponse P now response).Idle) := by
    have hidle := (h.nodes i).idle
    unfold SyncPeer.handleBlockResponse
    split
    · exact ⟨rfl, rfl, hidle⟩
    split
    · exact ⟨rfl, rfl, hidle⟩
    dsimp only
    split
    · exact ⟨rfl, rfl, fun _ => ⟨rfl, rfl⟩⟩
    · exact ⟨rfl, rfl, hidle⟩
  exact h.take hslice hstart hext hleaves.1 hleaves.2.1 hleaves.2.2

omit [DecidableEq ι] in
/-- A request is served with the next blocks, or not at all. -/
theorem served (h : Sound leader net) (P : Primitives) (j : ι) (now : Int) {request : BlockRequest}
    (hsent : request ∈ (net.node i).requests) :
    ((net.node j).chain.handleBlockRequest P now request = .silence ∧
      (net.node j).chain.height < request.fromHeight) ∨
    ∃ k items, request.fromHeight = k + 1 ∧ k ≤ (net.node i).chain.height ∧ items ≠ [] ∧
      items = ((net.node j).chain.blocks.drop (k + 1)).take SYNC_BATCH_SIZE ∧
      (net.node j).chain.handleBlockRequest P now request = .blocks
        { fromHeight := k + 1, genesisHash := (net.node j).chain.genesis.hash
          blocks := items.map Bincode.block } := by
  have hserver := h.nodes j
  obtain ⟨hroot, k, b, hfrom, hle, hb, hhash⟩ := (h.nodes i).requests request hsent
  unfold handleBlockRequest
  rw [if_neg (by rw [hroot, hserver.genesis]; simp)]
  split
  · next hlow => exact .inl ⟨rfl, hlow⟩
  · next hhigh =>
    rw [hfrom] at hhigh
    have hlen := length_blocks hserver.straight
    have hread : (net.node j).chain.blocks[request.fromHeight - 1]? = some b := by
      obtain ⟨rest, hrest⟩ := h.consistent.logs j
      change (net.node j).chain.blocks ++ rest = net.trunk leader at hrest
      rw [← hrest, List.getElem?_append_left (by omega)] at hb
      rw [hfrom, Nat.add_sub_cancel, hb]
    have hne : ((net.node j).chain.blocks.drop (k + 1)).take SYNC_BATCH_SIZE ≠ [] := by
      refine List.ne_nil_of_length_pos ?_
      rw [List.length_take, List.length_drop]
      unfold SYNC_BATCH_SIZE
      omega
    rw [not_forked hserver.straight hread hhash, if_neg (by simp), hfrom,
      requestedBlocks_eq hserver.straight (by omega)]
    dsimp only
    rw [if_neg (by simpa using hne)]
    exact .inr ⟨k, _, rfl, hle, hne, rfl, rfl⟩

theorem serve (h : Sound leader net) {j : ι} {now : Int} {request : BlockRequest}
    (hsent : request ∈ (net.node i).requests) :
    Sound leader (net.reply i ((net.node j).chain.handleBlockRequest P now request)) := by
  rcases h.served P j now hsent with ⟨hsilent, -⟩ |
    ⟨k, items, -, hle, hne, hitems, hreply⟩
  · rw [hsilent]
    exact h
  · have hroot : (net.node j).chain.genesis = (net.node leader).chain.genesis := (h.nodes j).genesis
    have hslice : items <+: (net.trunk leader).drop (k + 1) := by
      rw [hitems]
      exact (List.take_prefix _ _).trans ((h.consistent.logs j).drop (k + 1))
    have htyped := h.typed_of_slice hslice
    rw [hreply]
    refine ⟨h.nodes, ?_, h.typed, h.offers, ?_⟩
    · intro m hm
      rcases List.mem_append.mp hm with hold | hnew
      · exact h.responses m hold
      · rw [List.mem_singleton.mp hnew]
        exact ⟨by rw [hroot]; rfl, k, items, rfl, hle, hne, hslice, rfl⟩
    · have hlogs : (net.reply i (.blocks { fromHeight := k + 1
                                           genesisHash := (net.node j).chain.genesis.hash
                                           blocks := items.map Bincode.block })).logs =
          { net.logs with sent := net.logs.sent ++ [(i, ⟨k + 1,
            ((net.logs.log j).drop (k + 1)).take SYNC_BATCH_SIZE⟩)] } := by
        have hdecoded := decode_items htyped
        unfold reply logs
        dsimp only
        rw [List.map_append, List.map_singleton]
        dsimp only
        rw [hdecoded, hitems]
      rw [hlogs]
      exact h.consistent.step (Step.send j i (k + 1) SYNC_BATCH_SIZE)

theorem step (h : Sound leader net) {event : SyncEvent ι} (hvalid : Valid P leader net event) :
    Sound leader (net.step P leader event) := by
  cases event with
  | extend now block => exact h.extend hvalid.1 hvalid.2
  | vote i vote => exact h.vote vote
  | transaction i now tx => exact h.transaction now tx
  | announce i clock a => exact h.ask (SyncPeer.asks_handleHeightAnnounce _ clock a)
  | timeout i clock => exact h.ask (SyncPeer.asks_checkSyncTimeout _ clock)
  | serve j i now request => exact h.serve hvalid
  | deliver i now response => exact h.deliver hvalid

theorem run (h : Sound leader net) {events : List (SyncEvent ι)}
    (hvalid : AllValid P leader net events) : Sound leader (net.run P leader events) := by
  induction events generalizing net with
  | nil => exact h
  | cons event rest ih => exact ih (h.step hvalid.1) hvalid.2

end Sound

/-- The chain every node starts with. -/
theorem genesis_spec {g : GenesisConfig} {c₀ : Blockchain} (h : fromGenesis P g = .ok c₀) :
    c₀.Straight ∧ c₀.pruneKeepBlocks = none ∧ c₀.blocks = [c₀.genesis] := by
  obtain ⟨_, -, hrecomputes⟩ := recomputes_genesis h 0
  refine ⟨hrecomputes.straight, ?_, (blocks_of_genesis h).1⟩
  unfold fromGenesis at h
  simp only [except_bind_eq_ok] at h
  obtain ⟨accounts, -, hc⟩ := h
  cases hc
  rfl

omit [DecidableEq ι] in
theorem sound_start {g : GenesisConfig} {c₀ : Blockchain} (h : fromGenesis P g = .ok c₀) :
    Sound leader (start c₀ : SyncNet ι) := by
  obtain ⟨hst, hkeep, hblocks⟩ := genesis_spec h
  refine ⟨fun i => ⟨hst, hkeep, rfl, fun r hr => absurd hr (by simp [start]), rfl, fun _ => ⟨rfl, rfl⟩⟩,
    fun m hm => absurd hm (by simp [start]), ?_, rfl, ⟨fun i => List.prefix_rfl, fun m hm =>
      absurd hm (by simp [logs, start])⟩⟩
  intro b hb
  rw [show (start c₀ : SyncNet ι).trunk leader = [c₀.genesis] from hblocks] at hb
  exact absurd hb (by simp)

/-! ## The state at a height -/

/-- The clock reading of the leader's last block. -/
def tipTime : Int → List (SyncEvent ι) → Int
  | t, [] => t
  | _, .extend now _ :: rest => tipTime now rest
  | t, _ :: rest => tipTime t rest

/-- Every node is where the leader's history was at its height. -/
structure Ledgers (P : Primitives) (c₀ : Blockchain) (calls : List (Int × Block)) (t : Int)
    (leader : ι) (net : SyncNet ι) : Prop where
  history : History P c₀ calls
  clock : ∀ call ∈ calls, call.1 ≤ t
  copies : ∀ i, Copies P c₀ calls (net.node i).chain
  top : (net.node leader).chain.height = calls.length

namespace Ledgers

variable {c₀ : Blockchain} {calls : List (Int × Block)} {t : Int}

theorem set (h : Ledgers P c₀ calls t leader net) {s : SyncPeer} (hc : Copies P c₀ calls s.chain)
    (hgrow : (net.node i).chain.height ≤ s.chain.height) :
    Ledgers P c₀ calls t leader (net.set i s) := by
  have hnode := node_set net i s
  refine ⟨h.history, h.clock, ?_, ?_⟩
  · intro j
    rw [hnode]
    split
    · exact hc
    · exact h.copies j
  · rw [hnode]
    split
    · next hj =>
      have htop := h.top
      rw [hj] at htop
      exact le_antisymm hc.height (htop ▸ hgrow)
    · exact h.top

theorem same (h : Ledgers P c₀ calls t leader net) {s : SyncPeer}
    (hs : SameReplica s.chain (net.node i).chain) : Ledgers P c₀ calls t leader (net.set i s) :=
  h.set ((h.copies i).of_replica hs) (le_of_eq hs.height.symm)

omit [DecidableEq ι] in
theorem reply (h : Ledgers P c₀ calls t leader net) (r : RequestReply) :
    Ledgers P c₀ calls t leader (net.reply i r) := by
  have hnode := node_reply net i r
  exact ⟨h.history, h.clock, fun j => by rw [hnode]; exact h.copies j, by rw [hnode]; exact h.top⟩

omit [DecidableEq ι] in
/-- The trunk is the genesis and the blocks of the history. -/
theorem trunk_eq (h : Ledgers P c₀ calls t leader net) :
    net.trunk leader = c₀.blocks ++ calls.map Prod.snd := by
  have hblocks := (h.copies leader).replica.blocks
  rw [h.top, (h.history.straight_upTo _).2, List.take_length] at hblocks
  exact hblocks

omit [DecidableEq ι] in
theorem slice_of_trunk (h : Ledgers P c₀ calls t leader net) {k : Nat} {items : List Block}
    (hslice : items <+: (net.trunk leader).drop (k + 1)) :
    items <+: (calls.map Prod.snd).drop k := by
  have hlen : c₀.blocks.length = 1 := by rw [length_blocks h.history.straight, h.history.height]
  rw [h.trunk_eq, List.drop_append, List.drop_eq_nil_of_le (by omega), List.nil_append, hlen,
    Nat.add_sub_cancel] at hslice
  exact hslice

theorem extend (h : Ledgers P c₀ calls t leader net) {now : Int} {block : Block} (hle : t ≤ now)
    (hok : ((net.node leader).chain.addBlock P now block).1 = .ok ()) :
    Ledgers P c₀ (calls ++ [(now, block)]) now leader
      (net.setChain leader ((net.node leader).chain.addBlock P now block).2) := by
  have hreplica := (h.copies leader).replica
  rw [h.top] at hreplica
  have hst := (h.history.straight_upTo calls.length).1
  have hsame : Blockchain.upTo P c₀ calls calls.length = offer P c₀ calls := by
    unfold Blockchain.upTo
    rw [List.take_length]
  rw [hsame] at hreplica hst
  -- the history takes the block as the leader does
  have hhistory := h.history.concat (hreplica.symm.addBlock (hreplica.straight hst) hok le_rfl).1
  have hat : (calls ++ [(now, block)])[(net.node leader).chain.height]? = some (now, block) := by
    rw [h.top, List.getElem?_concat_length]
  obtain ⟨-, hheight, hcopies⟩ := ((h.copies leader).mono [(now, block)]).addBlock hhistory hat le_rfl
  have hnode := node_set net leader
    { net.node leader with chain := ((net.node leader).chain.addBlock P now block).2 }
  refine ⟨hhistory, ?_, ?_, ?_⟩
  · intro call hcall
    rcases List.mem_append.mp hcall with hold | hnew
    · exact (h.clock call hold).trans hle
    · rw [List.mem_singleton.mp hnew]
  · intro j
    unfold setChain
    rw [hnode]
    split
    · exact hcopies
    · exact (h.copies j).mono _
  · unfold setChain
    rw [hnode, if_pos rfl, List.length_append, List.length_singleton]
    dsimp only
    rw [hheight, h.top]

omit [DecidableEq ι] in
/-- What a response does to the node it is for, on a clock that is not behind. -/
theorem deliver (h : Ledgers P c₀ calls t leader net) (hs : Sound leader net) {now : Int}
    {response : BlockResponse} (hsent : (i, response) ∈ net.responses) (hle : t ≤ now) :
    Copies P c₀ calls ((net.node i).handleBlockResponse P now response).chain ∧
      ((∀ b ∈ net.trunk leader, (Bincode.block b).length ≤ MAX_DESERIALIZE_SIZE) →
        ((net.node i).handleBlockResponse P now response).chain.height =
          max (net.node i).chain.height (response.fromHeight + response.blocks.length - 1) ∧
        ((net.node i).handleBlockResponse P now response).syncRequested = false ∧
        ((net.node i).handleBlockResponse P now response).Idle) := by
  obtain ⟨k, items, hfrom, hk, hne, hslice, hblocks, htyped, hnumbered⟩ := hs.slice hsent
  have hroot : response.genesisHash = (net.node i).chain.genesis.hash := by
    rw [(hs.responses _ hsent).genesisHash, (hs.nodes i).genesis]
  have hbatch := @run_all P now items k { chain := (net.node i).chain } c₀ calls h.history (h.copies i)
    htyped (h.slice_of_trunk hslice) hnumbered hk fun call hcall => (h.clock call hcall).trans hle
  rw [← hblocks] at hbatch
  obtain ⟨hcopies, hall⟩ := hbatch
  have hlength : response.blocks.length = items.length := by rw [hblocks, List.length_map]
  have hpos : 0 < items.length := List.length_pos_iff.mpr hne
  have hnext : response.fromHeight ≤ satAdd (net.node i).chain.height 1 := by
    have hfirst := htyped _ (List.getElem_mem hpos)
    have hheight := hnumbered 0 _ (List.getElem?_eq_getElem hpos)
    have hbound := hfirst.header.height
    rw [hheight] at hbound
    rw [hfrom]
    exact le_min (Nat.succ_le_succ hk) (Nat.le_of_lt_succ hbound)
  unfold SyncPeer.handleBlockResponse
  rw [if_neg (by rw [hroot]; simp), if_neg (Nat.not_lt.mpr hnext)]
  dsimp only
  split
  · refine ⟨hcopies, fun hfits => ?_⟩
    obtain ⟨htop, -⟩ := hall fun b hb => hfits b (List.mem_of_mem_drop (hslice.subset hb))
    refine ⟨?_, rfl, rfl, rfl⟩
    dsimp only
    rw [htop, hlength, hfrom]
    congr 1
    omega
  · next hstuck =>
    refine ⟨hcopies, fun hfits => absurd ?_ hstuck⟩
    obtain ⟨-, hcount⟩ := hall fun b hb => hfits b (List.mem_of_mem_drop (hslice.subset hb))
    dsimp only at hcount
    by_cases haccepted : 0 < (SyncBatch.run P now response.blocks
        { chain := (net.node i).chain }).accepted
    · exact .inl haccepted
    · refine .inr ⟨by omega, List.ne_nil_of_length_pos (by omega)⟩

theorem step (h : Ledgers P c₀ calls t leader net) (hs : Sound leader net) {event : SyncEvent ι}
    {rest : List (SyncEvent ι)} (hvalid : Valid P leader net event)
    (hclock : Clocked t (event :: rest)) :
    ∃ calls', Ledgers P c₀ calls' (tipTime t [event]) leader (net.step P leader event) ∧
      Clocked (tipTime t [event]) rest := by
  cases event with
  | extend now block => exact ⟨_, h.extend hclock.1 hvalid.1, hclock.2⟩
  | vote i vote =>
    obtain ⟨tracker, tree, hvote⟩ := addFinalityVote_of_none (P := P) (hs.nodes i).keep vote
    refine ⟨calls, h.same ?_, hclock⟩
    dsimp only
    rw [hvote]
    exact ⟨rfl, rfl, rfl, rfl, rfl, rfl, rfl, rfl⟩
  | transaction i now tx =>
    obtain ⟨pool, hpool⟩ := addTransaction_pool (P := P) (net.node i).chain now tx
    refine ⟨calls, h.same ?_, hclock⟩
    dsimp only
    rw [hpool]
    exact ⟨rfl, rfl, rfl, rfl, rfl, rfl, rfl, rfl⟩
  | announce i clock a =>
    refine ⟨calls, h.same ?_, hclock⟩
    rw [(SyncPeer.asks_handleHeightAnnounce _ clock a).chain]
    exact SameReplica.refl _
  | timeout i clock =>
    refine ⟨calls, h.same ?_, hclock⟩
    rw [(SyncPeer.asks_checkSyncTimeout _ clock).chain]
    exact SameReplica.refl _
  | serve j i now request =>
    exact ⟨calls, h.reply _, hclock⟩
  | deliver i now response =>
    obtain ⟨slice, -, -, hext⟩ := hs.extended P now hvalid
    refine ⟨calls, h.set (h.deliver hs hvalid hclock.1).1 ?_, hclock.2⟩
    exact Nat.sub_le_sub_right hext.keeps.length_le 1

theorem run (h : Ledgers P c₀ calls t leader net) (hs : Sound leader net)
    {events : List (SyncEvent ι)} (hvalid : AllValid P leader net events) (hclock : Clocked t events) :
    ∃ calls', Ledgers P c₀ calls' (tipTime t events) leader (net.run P leader events) := by
  induction events generalizing net calls t with
  | nil => exact ⟨calls, h⟩
  | cons event rest ih =>
    obtain ⟨calls', hstep, hrest⟩ := h.step hs hvalid.1 hclock
    have htime : tipTime t (event :: rest) = tipTime (tipTime t [event]) rest := by
      cases event <;> rfl
    rw [htime]
    exact ih hstep (hs.step hvalid.1) hvalid.2 hrest

end Ledgers

omit [DecidableEq ι] in
theorem ledgers_start {g : GenesisConfig} {c₀ : Blockchain} (h : fromGenesis P g = .ok c₀) (t : Int) :
    Ledgers P c₀ [] t leader (start c₀ : SyncNet ι) := by
  obtain ⟨hst, -, hblocks⟩ := genesis_spec h
  have hzero : c₀.height = 0 := by
    unfold Blockchain.height blockCount
    rw [hblocks]
    rfl
  have hnone : ∀ k, upTo P c₀ [] k = c₀ := fun k => by
    unfold upTo
    rw [List.take_nil]
    rfl
  refine ⟨⟨hst, hzero, trivial⟩, fun call hcall => absurd hcall (by simp), fun i => ?_, hzero⟩
  exact ⟨le_of_eq hzero, by rw [hnone]; exact SameReplica.refl c₀⟩

/-! ## Runs from genesis -/

section Runs

variable {g : GenesisConfig} {c₀ : Blockchain} {events : List (SyncEvent ι)} {t : Int}

/-- Node `i`, which is behind, hears of the height of `j`, waits for its deadline, asks, and is answered by `j`. -/
def round (P : Primitives) (i j : ι) (key : KeyPair) (clock : Nat) (now : Int) (net : SyncNet ι) :
    List (SyncEvent ι) :=
  let request := (net.node i).chain.blockRequest
  [.announce i clock (HeightAnnounce.new P (net.node j).chain (some key)),
    .timeout i (clock + fromSecs SYNC_TIMEOUT_SECS), .serve j i now request,
    .deliver i now
      { fromHeight := request.fromHeight
        genesisHash := (net.node j).chain.genesis.hash
        blocks := (net.node j).chain.requestedBlocks request.fromHeight }]

/-- `n` rounds, as long as `i` is behind `j`. -/
def rounds (P : Primitives) (leader i j : ι) (key : KeyPair) (clock : Nat) (now : Int) :
    Nat → SyncNet ι → List (SyncEvent ι)
  | 0, _ => []
  | n + 1, net =>
    if (net.node i).chain.height < (net.node j).chain.height then
      net.round P i j key clock now ++
        rounds P leader i j key clock now n (net.run P leader (net.round P i j key clock now))
    else []

theorem rounds_self (key : KeyPair) (clock : Nat) (now : Int) (n : Nat) :
    net.rounds P leader i i key clock now n = [] := by
  cases n with
  | zero => rfl
  | succ n => rw [rounds, if_neg (lt_irrefl _)]

theorem allValid_append {a b : List (SyncEvent ι)} : AllValid P leader net (a ++ b) ↔
    AllValid P leader net a ∧ AllValid P leader (net.run P leader a) b := by
  induction a generalizing net with
  | nil => simp [AllValid, run]
  | cons event rest ih =>
    rw [List.cons_append, AllValid, AllValid, ih, and_assoc]
    rfl

theorem run_append (a b : List (SyncEvent ι)) (net : SyncNet ι) :
    net.run P leader (a ++ b) = (net.run P leader a).run P leader b := List.foldl_append

omit [DecidableEq ι] in
theorem clocked_append {a b : List (SyncEvent ι)} : Clocked t (a ++ b) ↔
    Clocked t a ∧ Clocked (tipTime t a) b := by
  induction a generalizing t with
  | nil => simp only [List.nil_append, Clocked, tipTime, true_and]
  | cons event rest ih =>
    cases event <;> simp only [List.cons_append, Clocked, tipTime, ih, and_assoc]

/-- A node that is told of a higher chain asks for blocks, at once or when its deadline has passed. -/
theorem asks_of_behind {s : SyncPeer} {c : Blockchain} {key : KeyPair} {clock : Nat}
    (hgenesis : c.genesis = s.chain.genesis)
    (hversion : c.protocolVersionAtHeight c.height = s.chain.protocolVersionAtHeight s.chain.height)
    (hsign : ∀ m, P.dilithiumVerify m (key.sign P m) key.publicKey = true)
    (hbehind : s.chain.height < c.height) (hwait : s.syncRequested = false) (hidle : s.Idle)
    (hsession : s.pendingSnapshotManifest = none) :
    s.chain.blockRequest ∈ ((s.handleHeightAnnounce P clock
      (HeightAnnounce.new P c (some key))).checkSyncTimeout
        (clock + fromSecs SYNC_TIMEOUT_SECS)).requests := by
  have hverified : (HeightAnnounce.new P c (some key)).verified P = true := hsign _
  have htold : s.handleHeightAnnounce P clock (HeightAnnounce.new P c (some key)) =
      (if SYNC_BATCH_SIZE < c.height - s.chain.height then s.askSnapshot none 0
        else s.askBlocks).await clock := by
    unfold SyncPeer.handleHeightAnnounce
    rw [if_neg (by simp [HeightAnnounce.new, hgenesis]),
      if_neg (by simp [HeightAnnounce.new, hversion]),
      if_pos ⟨hbehind, by simp [hwait], hverified⟩]
    rfl
  -- the deadline is the announcement's own, and the first of three
  have hretry : ∀ s' : SyncPeer, s'.chain = s.chain → s'.syncRetries = 0 →
      s'.pendingSnapshotManifest = none →
      s.chain.blockRequest ∈ ((s'.await clock).checkSyncTimeout
        (clock + fromSecs SYNC_TIMEOUT_SECS)).requests := by
    intro s' hchain hretries hsession'
    unfold SyncPeer.checkSyncTimeout SyncPeer.await
    dsimp only
    rw [if_neg (lt_irrefl _), hretries, if_neg (by decide), hsession']
    dsimp only
    rw [← hchain]
    exact List.mem_append_right _ (List.mem_singleton_self _)
  rw [htold]
  split
  · exact hretry _ rfl hidle.1 hsession
  · exact hretry _ rfl hidle.1 hsession

/-- What a round does. -/
structure RoundOf (P : Primitives) (c₀ : Blockchain) (t : Int) (leader i j : ι)
    (net after : SyncNet ι) : Prop where
  sound : Sound leader after
  ledgers : ∃ calls, Ledgers P c₀ calls t leader after
  others : ∀ k ≠ i, after.node k = net.node k
  height : (after.node i).chain.height =
    min ((net.node i).chain.height + SYNC_BATCH_SIZE) (net.node j).chain.height
  done : (after.node i).syncRequested = false

theorem round_spec {calls : List (Int × Block)} (hs : Sound leader net)
    (hl : Ledgers P c₀ calls t leader net) {i j : ι} {key : KeyPair} {clock : Nat} {now : Int}
    (hversion : ∀ h ≤ (net.node j).chain.height,
      c₀.protocolVersionAtHeight h = c₀.protocolVersionAtHeight 0)
    (hsign : ∀ m, P.dilithiumVerify m (key.sign P m) key.publicKey = true)
    (hbehind : (net.node i).chain.height < (net.node j).chain.height)
    (hwait : (net.node i).syncRequested = false) (hnow : t ≤ now)
    (hfits : ∀ b ∈ net.trunk leader, (Bincode.block b).length ≤ MAX_DESERIALIZE_SIZE) :
    AllValid P leader net (net.round P i j key clock now) ∧
      RoundOf P c₀ t leader i j net (net.run P leader (net.round P i j key clock now)) := by
  have hi := hs.nodes i
  have hj := hs.nodes j
  have hne : j ≠ i := fun heq => absurd hbehind (by rw [heq]; exact lt_irrefl _)
  let request := (net.node i).chain.blockRequest
  let told := net.step P leader (.announce i clock (HeightAnnounce.new P (net.node j).chain (some key)))
  let asked := told.step P leader (.timeout i (clock + fromSecs SYNC_TIMEOUT_SECS))
  let served := asked.step P leader (.serve j i now request)
  let response : BlockResponse :=
    { fromHeight := request.fromHeight
      genesisHash := (net.node j).chain.genesis.hash
      blocks := (net.node j).chain.requestedBlocks request.fromHeight }
  -- asking moves nobody's chain
  have htold : told.node i = (net.node i).handleHeightAnnounce P clock
      (HeightAnnounce.new P (net.node j).chain (some key)) := node_set_self ..
  have hasked : asked.node i = (told.node i).checkSyncTimeout (clock + fromSecs SYNC_TIMEOUT_SECS) :=
    node_set_self ..
  have hchain : (asked.node i).chain = (net.node i).chain := by
    rw [hasked, (SyncPeer.asks_checkSyncTimeout _ _).chain, htold,
      (SyncPeer.asks_handleHeightAnnounce _ _ _).chain]
  have hothers : ∀ k ≠ i, asked.node k = net.node k := fun k hk =>
    (node_set_of_ne hk _).trans (node_set_of_ne hk _)
  have hs₁ : Sound leader told := hs.ask (SyncPeer.asks_handleHeightAnnounce _ _ _)
  have hs₂ : Sound leader asked := hs₁.ask (SyncPeer.asks_checkSyncTimeout _ _)
  have hl₁ : Ledgers P c₀ calls t leader told := hl.same (by
    rw [(SyncPeer.asks_handleHeightAnnounce _ _ _).chain]
    exact SameReplica.refl _)
  have hl₂ : Ledgers P c₀ calls t leader asked := hl₁.same (by
    rw [(SyncPeer.asks_checkSyncTimeout _ _).chain]
    exact SameReplica.refl _)
  have hversions : (net.node j).chain.protocolVersionAtHeight (net.node j).chain.height =
      (net.node i).chain.protocolVersionAtHeight (net.node i).chain.height := by
    have hconfig : ∀ k, ∀ h ≤ (net.node j).chain.height,
        (net.node k).chain.protocolVersionAtHeight h = c₀.protocolVersionAtHeight 0 := by
      intro k h hle
      have hreplica := (hl.copies k).replica
      rw [protocolVersionAtHeight_congr (hreplica.config.trans
        (continues_offer hl.history.straight (accepts_take hl.history.accepts _)).config),
        hversion h hle]
    rw [hconfig j _ le_rfl, hconfig i _ (le_of_lt hbehind)]
  have hrequest : request ∈ (asked.node i).requests := by
    rw [hasked, htold]
    exact asks_of_behind (hj.genesis.trans hi.genesis.symm) hversions hsign hbehind hwait
      (hi.idle hwait) hi.noSession
  -- the answer starts right after the tip of `i`
  have hreply : (asked.node j).chain.handleBlockRequest P now request = .blocks response := by
    rcases hs₂.served P j now hrequest with ⟨-, hlow⟩ |
      ⟨k, items, hk, -, -, hitems, hblocks⟩
    · rw [hothers j hne] at hlow
      exact absurd hlow (Nat.not_lt.mpr hbehind)
    · have hfrom : k + 1 = request.fromHeight := hk.symm
      rw [hblocks, hitems, hothers j hne, hfrom]
      have hread := requestedBlocks_eq hj.straight (show request.fromHeight ≤ _ from hbehind)
      rw [← hread]
  have hserved : served = { asked with responses := asked.responses ++ [(i, response)] } := by
    show asked.reply i _ = _
    rw [hreply]
    rfl
  have hsent : (i, response) ∈ served.responses := by
    rw [hserved]
    exact List.mem_append_right _ (List.mem_singleton_self _)
  have hs₃ : Sound leader served := hs₂.serve hrequest
  have hl₃ : Ledgers P c₀ calls t leader served := hl₂.reply _
  have hnode : served.node = asked.node := node_reply _ _ _
  have hleader : leader ≠ i := fun heq => by
    have hlength := (hs.consistent.logs j).length_le
    change (net.node j).chain.blocks.length ≤ (net.node leader).chain.blocks.length at hlength
    rw [heq, length_blocks hj.straight, length_blocks hi.straight] at hlength
    omega
  have htrunk : served.trunk leader = net.trunk leader := by
    unfold trunk
    rw [hnode, hothers leader hleader]
  obtain ⟨hcopies, hall⟩ := hl₃.deliver hs₃ hsent hnow
  obtain ⟨hheight, hdone, -⟩ := hall (htrunk ▸ hfits)
  have hlength : response.blocks.length =
      min SYNC_BATCH_SIZE ((net.node j).chain.height - (net.node i).chain.height) := by
    show ((net.node j).chain.requestedBlocks request.fromHeight).length = _
    rw [requestedBlocks_eq hj.straight (show request.fromHeight ≤ _ from hbehind), List.length_map,
      List.length_take, List.length_drop, length_blocks hj.straight]
    show min _ ((net.node j).chain.height + 1 - ((net.node i).chain.height + 1)) = _
    rw [Nat.add_sub_add_right]
  have hafter : net.run P leader (net.round P i j key clock now) =
      served.set i ((served.node i).handleBlockResponse P now response) := rfl
  refine ⟨⟨trivial, trivial, hrequest, hsent, trivial⟩, ?_⟩
  rw [hafter]
  refine ⟨hs₃.deliver hsent, ⟨calls, hl₃.set hcopies ?_⟩, ?_, ?_, ?_⟩
  · rw [hheight]
    exact le_max_left _ _
  · intro k hk
    rw [node_set_of_ne hk, hnode, hothers k hk]
  · rw [node_set_self, hheight, hnode, hchain, hlength]
    show max _ ((net.node i).chain.height + 1 + _ - 1) = _
    omega
  · rw [node_set_self]
    exact hdone

/-- Round after round. -/
theorem rounds_spec {calls : List (Int × Block)} (hs : Sound leader net)
    (hl : Ledgers P c₀ calls t leader net) {i j : ι} {key : KeyPair} {clock : Nat} {now : Int}
    (hversion : ∀ h ≤ (net.node j).chain.height,
      c₀.protocolVersionAtHeight h = c₀.protocolVersionAtHeight 0)
    (hsign : ∀ m, P.dilithiumVerify m (key.sign P m) key.publicKey = true)
    (hwait : (net.node i).syncRequested = false) (hnow : t ≤ now)
    (hfits : ∀ b ∈ net.trunk leader, (Bincode.block b).length ≤ MAX_DESERIALIZE_SIZE) (n : Nat) :
    AllValid P leader net (net.rounds P leader i j key clock now n) ∧
      ∃ calls', Ledgers P c₀ calls' t leader
          (net.run P leader (net.rounds P leader i j key clock now n)) ∧
        (∀ k ≠ i, (net.run P leader (net.rounds P leader i j key clock now n)).node k = net.node k) ∧
        ((net.run P leader (net.rounds P leader i j key clock now n)).node i).chain.height =
          max (net.node i).chain.height
            (min ((net.node i).chain.height + n * SYNC_BATCH_SIZE) (net.node j).chain.height) := by
  induction n generalizing net calls with
  | zero =>
    refine ⟨trivial, calls, hl, fun _ _ => rfl, ?_⟩
    show (net.node i).chain.height = _
    rw [Nat.zero_mul, Nat.add_zero, max_eq_left (min_le_left _ _)]
  | succ n ih =>
    unfold rounds
    split
    · next hbehind =>
      have hne : j ≠ i := fun heq => absurd hbehind (by rw [heq]; exact lt_irrefl _)
      have hleader : leader ≠ i := fun heq => by
        have hlength := (hs.consistent.logs j).length_le
        change (net.node j).chain.blocks.length ≤ (net.node leader).chain.blocks.length at hlength
        rw [heq, length_blocks (hs.nodes j).straight, length_blocks (hs.nodes i).straight] at hlength
        omega
      obtain ⟨hvalid, hround⟩ := @round_spec ι _ P leader net c₀ t calls hs hl i j key clock now hversion
        hsign hbehind hwait hnow hfits
      obtain ⟨calls', hl'⟩ := hround.ledgers
      have hfits' : ∀ b ∈ (net.run P leader (net.round P i j key clock now)).trunk leader,
          (Bincode.block b).length ≤ MAX_DESERIALIZE_SIZE := by
        unfold trunk
        rw [hround.others leader hleader]
        exact hfits
      obtain ⟨hmore, calls'', hl'', hothers, hheight⟩ := ih hround.sound hl'
        (by rw [hround.others j hne]; exact hversion) hround.done hfits'
      rw [allValid_append, run_append]
      refine ⟨⟨hvalid, hmore⟩, calls'', hl'', ?_, ?_⟩
      · intro k hk
        rw [hothers k hk, hround.others k hk]
      · rw [hheight, hround.height, hround.others j hne, Nat.succ_mul]
        omega
    · next hlevel =>
      refine ⟨trivial, calls, hl, fun _ _ => rfl, ?_⟩
      show (net.node i).chain.height = _
      omega

end Runs

instance (net : SyncNet ι) : (event : SyncEvent ι) → Decidable (Valid P leader net event)
  | .extend .. => inferInstanceAs (Decidable (_ ∧ _))
  | .serve .. | .deliver .. => inferInstanceAs (Decidable (_ ∈ _))
  | .vote .. | .transaction .. | .announce .. | .timeout .. => inferInstanceAs (Decidable True)

instance decidableClocked : (t : Int) → (events : List (SyncEvent ι)) → Decidable (Clocked t events)
  | _, [] => inferInstanceAs (Decidable True)
  | _, .extend now _ :: rest =>
    have := decidableClocked now rest
    inferInstanceAs (Decidable (_ ∧ _))
  | t, .deliver _ _ _ :: rest =>
    have := decidableClocked t rest
    inferInstanceAs (Decidable (_ ∧ _))
  | t, .vote .. :: rest | t, .transaction .. :: rest | t, .announce .. :: rest
  | t, .timeout .. :: rest | t, .serve .. :: rest => decidableClocked t rest

instance decidableAllValid :
    (net : SyncNet ι) → (events : List (SyncEvent ι)) → Decidable (AllValid P leader net events)
  | _, [] => inferInstanceAs (Decidable True)
  | net, event :: rest =>
    have := decidableAllValid (net.step P leader event) rest
    inferInstanceAs (Decidable (_ ∧ _))

end SyncNet

namespace SyncSample

open Scenario SyncNet

/-- Node `true` leads. -/
abbrev Net := SyncNet Bool

/-- The leader's next two blocks. -/
def ahead (c : Blockchain) : Option (List (SyncEvent Bool)) := do
  let (b₁, c₁) ← extend c (clock 1) 1
  let (b₂, _) ← extend c₁ (clock 2) 1
  return [.extend (clock 1) b₁, .extend (clock 2) b₂]

/-- The other node hears of them, asks and is answered. -/
def asked (c : Blockchain) (events : List (SyncEvent Bool)) : List (SyncEvent Bool) :=
  let net : Net := (start c).run Reference.primitives true events
  [.announce false 0 (HeightAnnounce.new Reference.primitives (net.node true).chain (some (key 1))),
    .serve true false (clock 2) (net.node false).chain.blockRequest]

/-- The response that the leader sent last. -/
def answer (c : Blockchain) (events : List (SyncEvent Bool)) : Option BlockResponse :=
  let net : Net := (start c).run Reference.primitives true (events ++ asked c events)
  net.responses.head?.map Prod.snd

/-- The run up to the answer. -/
def sent (c : Blockchain) (events : List (SyncEvent Bool)) : List (SyncEvent Bool) :=
  events ++ asked c events

/-- The run with the delivery of the answer. -/
def handled (c : Blockchain) (events : List (SyncEvent Bool)) (response : BlockResponse) :
    List (SyncEvent Bool) :=
  sent c events ++ [.deliver false (clock 3) response]

/-- The network after a run. -/
def after (c : Blockchain) (events : List (SyncEvent Bool)) : Net :=
  (start c).run Reference.primitives true events

/-- What the samples need of these runs. -/
@[mk_iff]
structure Ran (c : Blockchain) (events : List (SyncEvent Bool)) (response : BlockResponse) : Prop
    where
  valid : AllValid Reference.primitives true (start c) (handled c events response)
  clocked : Clocked (clock 0) (handled c events response)
  tipTime : ∀ part ∈ [events, sent c events], tipTime (clock 0) part ≤ clock 3
  fits : ∀ part ∈ [events, sent c events], ∀ b ∈ ((after c part).node true).chain.blocks,
    (Bincode.block b).length ≤ MAX_DESERIALIZE_SIZE
  version : ∀ h ≤ 2, c.protocolVersionAtHeight h = c.protocolVersionAtHeight 0
  behind : ((after c events).node false).chain.height = 0
  idle : ((after c events).node false).syncRequested = false
  ahead : ((after c events).node true).chain.height = 2
  answered : (after c (sent c events)).responses = [(false, response)]
  level : ∀ i, ((after c (handled c events response)).node i).chain.height = 2

instance (c : Blockchain) (events : List (SyncEvent Bool)) (response : BlockResponse) :
    Decidable (Ran c events response) := decidable_of_iff' _ (ran_iff c events response)

theorem ran : ∃ c₀ events response,
    fromGenesis Reference.primitives LinearSample.genesis = .ok c₀ ∧ Ran c₀ events response := by
  have hrun : (fromGenesis Reference.primitives LinearSample.genesis).toOption.any (fun c₀ =>
      (ahead c₀).any fun events =>
        (answer c₀ events).any fun response => decide (Ran c₀ events response)) = true := by
    decide +kernel
  obtain ⟨c₀, hstart, hrest⟩ := Outcome.ok_of_any hrun
  obtain ⟨events, -, hrest⟩ := (Option.any_eq_true _ _).mp hrest
  obtain ⟨response, -, hran⟩ := (Option.any_eq_true _ _).mp hrest
  exact ⟨c₀, events, response, hstart, of_decide_eq_true hran⟩

end SyncSample

open SyncSample SyncNet Scenario

end Curs3d
