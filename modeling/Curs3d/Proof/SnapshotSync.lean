import Curs3d.Network.SnapshotSync
import Curs3d.Proof.Voting

/-!
# Assembling a snapshot

A manifest and its chunks arrive in any order, among chunks for the same height that do not belong
to it. `Collecting` is what the session knows until it is assembled: every chunk received is
held, and one is still missing. A message that is `Harmless` keeps it or assembles the snapshot
(`Collecting.receive`).

A chunk whose index lies beyond the manifest is not harmless: it is counted, so that the count is
never right when the chunks are (`stray_never_assembled`).
-/

set_option autoImplicit false

namespace Curs3d

open Assembly

namespace SnapshotSync

variable {P : Primitives} {deserialize : Bytes → Except String SnapshotState} {s : SnapshotSync}
  {manifest : SnapshotManifest} {whole : List StateChunk} {message : SnapshotMessage}
  {messages delivered : List SnapshotMessage}

/-! ## A session -/

/-- The manifest, or a chunk for its height. -/
def Concerns (manifest : SnapshotManifest) : SnapshotMessage → Prop
  | .manifest m => m = manifest
  | .chunk height _ => height = manifest.height

/-- `whole` are the chunks of the manifest, in order. -/
structure ChunksOf (manifest : SnapshotManifest) (whole : List StateChunk) : Prop where
  count : whole.length = manifest.chunkCount
  index : ∀ (i : Nat) (chunk : StateChunk), whole[i]? = some chunk → chunk.index = i

/-- The chunks received for a height, pending or buffered. -/
def held (s : SnapshotSync) (height : Nat) : Parts StateChunk :=
  match s.pendingSnapshotManifest with
  | some _ => s.pendingSnapshotChunks
  | none => s.buffered height

/-- No session is under way, and nothing was received for the height of `manifest`, which the chain
accepts. -/
structure Fresh (manifest : SnapshotManifest) (s : SnapshotSync) : Prop where
  pending : s.pendingSnapshotManifest = none
  buffered : s.buffered manifest.height = ∅
  calls : s.calls = []
  accepts : acceptsManifest s.chain manifest = true

/-- If no chunk is missing, then none is foreign. -/
def Genuine (whole : List StateChunk) (parts : Parts StateChunk) : Prop :=
  (∀ i < whole.length, i ∈ parts) → ∀ i < whole.length, parts[i]? = whole[i]?

instance (whole : List StateChunk) (parts : Parts StateChunk) : Decidable (Genuine whole parts) :=
  inferInstanceAs (Decidable
    ((∀ i < whole.length, i ∈ parts) → ∀ i < whole.length, parts[i]? = whole[i]?))

/-- A chunk that finds room, with an index of the manifest, that does not replace the chunk of that
index by a foreign one and does not complete the session with a foreign one in it. -/
structure HarmlessChunk (s : SnapshotSync) (height : Nat) (whole : List StateChunk)
    (chunk : StateChunk) : Prop where
  below : chunk.index < whole.length
  room : s.pendingSnapshotManifest = none → s.hasRoom chunk = true
  keeps : (s.held height)[chunk.index]? = whole[chunk.index]? → whole[chunk.index]? = some chunk
  genuine : s.pendingSnapshotManifest ≠ none →
    Genuine whole ((s.held height).insert chunk.index chunk)

/-- A message that does the session of `whole` no harm. -/
def Harmless (s : SnapshotSync) (manifest : SnapshotManifest) (whole : List StateChunk) :
    SnapshotMessage → Prop
  | .manifest _ => Genuine whole (s.held manifest.height)
  | .chunk _ chunk => s.HarmlessChunk manifest.height whole chunk

/-- Until the snapshot is assembled every message is harmless. -/
def HarmlessUntilCalled (P : Primitives) (deserialize : Bytes → Except String SnapshotState)
    (manifest : SnapshotManifest) (whole : List StateChunk) :
    SnapshotSync → List SnapshotMessage → Prop
  | _, [] => True
  | s, message :: rest =>
    ((manifest, whole) ∉ s.calls → s.Harmless manifest whole message) ∧
      HarmlessUntilCalled P deserialize manifest whole (s.receive P deserialize message) rest

/-! ## Assembling -/

theorem calls_afterApply (result : Except SnapshotError Blockchain) :
    (s.afterApply manifest result).calls = s.calls := by
  simp only [afterApply]
  split
  · rfl
  · split <;> rfl

theorem mem_calls_tryAssemble {call : SnapshotManifest × List StateChunk} (h : call ∈ s.calls) :
    call ∈ (s.tryAssemble P deserialize manifest).calls := by
  simp only [tryAssemble]
  split
  · split
    · rw [calls_afterApply]
      exact List.mem_append_left _ h
    · exact h
  · exact h

theorem mem_calls_receive {call : SnapshotManifest × List StateChunk} (h : call ∈ s.calls) :
    call ∈ (s.receive P deserialize message).calls := by
  cases message with
  | manifest manifest =>
    simp only [receive, receiveManifest]
    split
    · exact mem_calls_tryAssemble h
    · exact h
  | chunk height chunk =>
    simp only [receive, receiveChunk]
    split
    · exact mem_calls_tryAssemble h
    · split <;> exact h

/-- With chunks of the manifest's indexes only, the count decides: the snapshot is assembled, or
nothing happens and a chunk is missing. -/
theorem tryAssemble_cases (hcount : whole.length = manifest.chunkCount)
    (hbelow : ∀ i ∈ s.pendingSnapshotChunks, i < whole.length)
    (hgenuine : Genuine whole s.pendingSnapshotChunks) :
    (manifest, whole) ∈ (s.tryAssemble P deserialize manifest).calls ∨
      (s.tryAssemble P deserialize manifest = s ∧
        ∃ i < whole.length, i ∉ s.pendingSnapshotChunks) := by
  simp only [tryAssemble]
  split
  · next hsize =>
    left
    have hall := (size_eq_iff hbelow).mp (hsize.trans hcount.symm)
    have hparts : ∀ i < whole.length, s.pendingSnapshotChunks[0 + i]? = whole[i]? := by
      intro i hi
      rw [Nat.zero_add]
      exact hgenuine hall i hi
    obtain ⟨htaken, hcomplete⟩ := takeFrom_of_whole hparts
    rw [hcount] at htaken hcomplete
    rw [hcomplete, if_pos rfl, calls_afterApply, htaken]
    exact List.mem_append_right _ (List.mem_singleton.mpr rfl)
  · next hsize =>
    right
    refine ⟨rfl, ?_⟩
    by_contra hall
    simp only [not_exists, not_and, not_not] at hall
    exact hsize (((size_eq_iff hbelow).mpr hall).trans hcount)

/-! ## Collecting -/

/-- The session after the messages in `delivered`, not yet assembled. -/
structure Collecting (c : Blockchain) (manifest : SnapshotManifest) (whole : List StateChunk)
    (delivered : List SnapshotMessage) (s : SnapshotSync) : Prop where
  chain : s.chain = c
  known : .manifest manifest ∈ delivered → s.pendingSnapshotManifest = some manifest
  unknown : .manifest manifest ∉ delivered → s.pendingSnapshotManifest = none
  drained : s.pendingSnapshotManifest ≠ none → s.buffered manifest.height = ∅
  below : ∀ i ∈ s.held manifest.height, i < whole.length
  index : ∀ (i : Nat) (chunk : StateChunk), (s.held manifest.height)[i]? = some chunk → chunk.index = i
  received : ∀ chunk, .chunk manifest.height chunk ∈ delivered →
    chunk.index ∈ s.held manifest.height
  own : ∀ chunk, .chunk manifest.height chunk ∈ delivered → whole[chunk.index]? = some chunk →
    (s.held manifest.height)[chunk.index]? = some chunk
  gap : s.pendingSnapshotManifest ≠ none → ∃ i < whole.length, i ∉ s.held manifest.height

theorem Fresh.collecting (h : s.Fresh manifest) : s.Collecting s.chain manifest whole [] := by
  have hheld : s.held manifest.height = ∅ := by
    rw [held, h.pending]
    exact h.buffered
  refine ⟨rfl, ?_, fun _ => h.pending, ?_, ?_, ?_, ?_, ?_, ?_⟩
  · intro hmem
    exact absurd hmem (by simp)
  · intro hne
    exact absurd h.pending hne
  · intro i hi
    rw [hheld] at hi
    exact absurd hi (by simp)
  · intro i chunk hi
    rw [hheld] at hi
    exact absurd hi (by simp)
  · intro chunk hmem
    exact absurd hmem (by simp)
  · intro chunk hmem
    exact absurd hmem (by simp)
  · intro hne
    exact absurd h.pending hne

/-- Chunks kept under their indexes are drained into a map of the same chunks. -/
theorem foldl_insert_index {parts : Parts StateChunk}
    (hindex : ∀ (i : Nat) (chunk : StateChunk), parts[i]? = some chunk → chunk.index = i) :
    parts.toList.foldl (fun m e => m.insert e.2.index e.2) ∅ = parts := by
  apply Std.ExtTreeMap.ext_getElem?
  intro k
  have hkey : ∀ e ∈ parts.toList, e.2.index = e.1 := by
    intro e he
    exact hindex e.1 e.2 (Std.ExtTreeMap.mem_toList_iff_getElem?_eq_some.mp he)
  have hmap : parts.toList.map (fun e => e.2.index) = parts.toList.map Prod.fst :=
    List.map_congr_left hkey
  cases hk : parts[k]? with
  | some chunk =>
    have hmem : (k, chunk) ∈ parts.toList := Std.ExtTreeMap.mem_toList_iff_getElem?_eq_some.mpr hk
    have hnodup : (parts.toList.map fun e => e.2.index).Nodup := by
      rw [hmap, Std.ExtTreeMap.map_fst_toList_eq_keys]
      exact parts.nodup_keys
    have hfound := KeyMap.getElem?_foldl_insert_of_mem (fun e : Nat × StateChunk => e.2.index)
      Prod.snd parts.toList (∅ : Parts StateChunk) hnodup hmem
    rwa [hkey _ hmem] at hfound
  | none =>
    rw [KeyMap.getElem?_foldl_insert_of_notMem (fun e : Nat × StateChunk => e.2.index) Prod.snd]
    · simp
    · rw [hmap, Std.ExtTreeMap.map_fst_toList_eq_keys, Std.ExtTreeMap.mem_keys,
        Std.ExtTreeMap.mem_iff_isSome_getElem?, hk]
      simp

theorem buffered_openSession : (s.openSession manifest).buffered manifest.height = ∅ := by
  simp only [buffered, SnapshotSync.openSession]
  rw [Std.ExtTreeMap.getElem?_filter']
  cases s.preManifestChunkBuffer[manifest.height]? with
  | none => rfl
  | some parts => simp [Option.filter]

/-- After the manifest the chunks received so far are the pending ones. -/
theorem Collecting.openSession {c : Blockchain} (h : s.Collecting c manifest whole delivered) :
    (s.openSession manifest).pendingSnapshotManifest = some manifest ∧
      (s.openSession manifest).pendingSnapshotChunks = s.held manifest.height ∧
      (s.openSession manifest).buffered manifest.height = ∅ := by
  refine ⟨rfl, ?_, ?_⟩
  · by_cases hknown : .manifest manifest ∈ delivered
    · have hpending := h.known hknown
      have hempty := h.drained (by rw [hpending]; simp)
      simp only [SnapshotSync.openSession, sameSession, held, hpending, hempty, Option.any_some]
      simp only [and_self, decide_true, if_true]
      rfl
    · have hpending := h.unknown hknown
      have hindex := h.index
      rw [held, hpending] at hindex
      simp only [SnapshotSync.openSession, sameSession, held, hpending, Option.any_none,
        Bool.false_eq_true, if_false]
      exact foldl_insert_index hindex
  · exact buffered_openSession

/-- What is held once the manifest is there. -/
theorem held_of_pending {height : Nat} (h : s.pendingSnapshotManifest = some manifest) :
    s.held height = s.pendingSnapshotChunks := by
  rw [held, h]

theorem held_of_none {height : Nat} (h : s.pendingSnapshotManifest = none) :
    s.held height = s.buffered height := by
  rw [held, h]

theorem receiveChunk_of_pending {chunk : StateChunk}
    (h : s.pendingSnapshotManifest = some manifest) :
    s.receiveChunk P deserialize manifest.height chunk =
      ({ s with pendingSnapshotChunks := s.pendingSnapshotChunks.insert chunk.index chunk } :
        SnapshotSync).tryAssemble P deserialize manifest := by
  have hfilter : (s.pendingSnapshotManifest.filter fun m => m.height = manifest.height) =
      some manifest := by
    rw [h]
    simp [Option.filter]
  simp only [receiveChunk, hfilter]

theorem receiveChunk_of_none {height : Nat} {chunk : StateChunk}
    (h : s.pendingSnapshotManifest = none) (hroom : s.hasRoom chunk = true) :
    s.receiveChunk P deserialize height chunk = { s with
      preManifestChunkBuffer := s.preManifestChunkBuffer.insert height
        ((s.buffered height).insert chunk.index chunk) } := by
  simp [receiveChunk, h, hroom]

theorem buffered_insert (height : Nat) (parts : Parts StateChunk) :
    ({ s with preManifestChunkBuffer := s.preManifestChunkBuffer.insert height parts } :
      SnapshotSync).buffered height = parts := by
  simp [buffered]

/-- The manifest, for the first time or again. -/
theorem Collecting.receiveManifest {c : Blockchain} (h : s.Collecting c manifest whole delivered)
    (hchunks : ChunksOf manifest whole) (haccepts : acceptsManifest c manifest = true)
    (hgenuine : Genuine whole (s.held manifest.height)) :
    (manifest, whole) ∈ (s.receiveManifest P deserialize manifest).calls ∨
      (s.receiveManifest P deserialize manifest).Collecting c manifest whole
        (delivered ++ [.manifest manifest]) := by
  obtain ⟨hpending, hparts, hempty⟩ := h.openSession
  have hheld := @held_of_pending _ manifest manifest.height hpending
  have hbelow := h.below
  rw [SnapshotSync.receiveManifest, h.chain, if_pos haccepts]
  rw [← hparts] at hbelow hgenuine
  obtain hcalled | ⟨hsame, hgap⟩ := tryAssemble_cases (P := P) (s := s.openSession manifest)
    hchunks.count hbelow hgenuine
  · exact .inl hcalled
  right
  rw [hsame]
  -- the held chunks are the same, so only the manifest is new
  rw [hparts] at hheld
  have hold : ∀ chunk, .chunk manifest.height chunk ∈ delivered ++ [.manifest manifest] →
      SnapshotMessage.chunk manifest.height chunk ∈ delivered := by
    intro chunk hmem
    simpa using hmem
  refine ⟨h.chain, fun _ => hpending, ?_, fun _ => hempty, ?_, ?_, ?_, ?_, ?_⟩
  · intro hnot
    exact absurd (List.mem_append_right _ (List.mem_singleton.mpr rfl)) hnot
  · rw [hheld]
    exact h.below
  · rw [hheld]
    exact h.index
  · intro chunk hmem
    rw [hheld]
    exact h.received chunk (hold chunk hmem)
  · intro chunk hmem
    rw [hheld]
    exact h.own chunk (hold chunk hmem)
  · intro _
    rw [hheld, ← hparts]
    exact hgap

/-- What one more chunk does to the chunks that are held. -/
theorem Collecting.insert {c : Blockchain} {s' : SnapshotSync} {chunk : StateChunk}
    (h : s.Collecting c manifest whole delivered)
    (hharmless : s.HarmlessChunk manifest.height whole chunk) (hchain : s'.chain = s.chain)
    (hpending : s'.pendingSnapshotManifest = s.pendingSnapshotManifest)
    (hdrained : s'.pendingSnapshotManifest ≠ none → s'.buffered manifest.height = ∅)
    (hheld : s'.held manifest.height = (s.held manifest.height).insert chunk.index chunk)
    (hgap : s'.pendingSnapshotManifest ≠ none → ∃ i < whole.length, i ∉ s'.held manifest.height) :
    s'.Collecting c manifest whole (delivered ++ [.chunk manifest.height chunk]) := by
  refine ⟨hchain.trans h.chain, ?_, ?_, hdrained, ?_, ?_, ?_, ?_, hgap⟩
  · intro hmem
    rw [hpending]
    exact h.known (by simpa using hmem)
  · intro hnot
    rw [hpending]
    apply h.unknown
    intro hmem
    exact hnot (List.mem_append_left _ hmem)
  · intro i hi
    rw [hheld, Std.ExtTreeMap.mem_iff_isSome_getElem?, KeyMap.getElem?_insert_eq] at hi
    split at hi
    · next hindex =>
      rw [← hindex]
      exact hharmless.below
    · exact h.below i (Std.ExtTreeMap.mem_iff_isSome_getElem?.mpr hi)
  · intro i other hi
    rw [hheld, KeyMap.getElem?_insert_eq] at hi
    split at hi
    · next hindex =>
      cases hi
      exact hindex
    · exact h.index i other hi
  · intro other hmem
    rw [hheld, Std.ExtTreeMap.mem_iff_isSome_getElem?, KeyMap.getElem?_insert_eq]
    split
    · rfl
    · next hne =>
      rw [List.mem_append, List.mem_singleton] at hmem
      obtain hmem | heq := hmem
      · exact Std.ExtTreeMap.mem_iff_isSome_getElem?.mp (h.received other hmem)
      · cases heq
        exact absurd rfl hne
  -- An own chunk is overwritten only by itself: `harmless` rules out another at its index.
  · intro other hmem hown
    rw [hheld, KeyMap.getElem?_insert_eq]
    rw [List.mem_append, List.mem_singleton] at hmem
    split
    · next hindex =>
      obtain hmem | heq := hmem
      · -- a chunk of the manifest was here before, so the new one is it
        have hbefore := h.own other hmem hown
        rw [← hindex] at hbefore hown
        exact (hharmless.keeps (hbefore.trans hown.symm)).symm.trans hown
      · cases heq
        rfl
    · next hne =>
      obtain hmem | heq := hmem
      · exact h.own other hmem hown
      · cases heq
        exact absurd rfl hne

theorem Collecting.receiveChunk {c : Blockchain} {chunk : StateChunk}
    (h : s.Collecting c manifest whole delivered) (hchunks : ChunksOf manifest whole)
    (hharmless : s.HarmlessChunk manifest.height whole chunk) :
    (manifest, whole) ∈ (s.receiveChunk P deserialize manifest.height chunk).calls ∨
      (s.receiveChunk P deserialize manifest.height chunk).Collecting c manifest whole
        (delivered ++ [.chunk manifest.height chunk]) := by
  -- A chunk after its manifest is held as pending; before it, in the buffer of its height.
  by_cases hknown : .manifest manifest ∈ delivered
  · have hpending := h.known hknown
    have hheld := @held_of_pending _ manifest manifest.height hpending
    set s' : SnapshotSync := { s with
      pendingSnapshotChunks := s.pendingSnapshotChunks.insert chunk.index chunk } with hs'
    have hpending' : s'.pendingSnapshotManifest = some manifest := hpending
    have hchain : s'.chain = s.chain := rfl
    have hsamePending : s'.pendingSnapshotManifest = s.pendingSnapshotManifest := rfl
    have hdrained : s'.pendingSnapshotManifest ≠ none → s'.buffered manifest.height = ∅ := h.drained
    have hparts : s'.pendingSnapshotChunks = s'.held manifest.height :=
      (held_of_pending hpending').symm
    have hheld' : s'.held manifest.height = (s.held manifest.height).insert chunk.index chunk := by
      rw [hheld, ← hparts]
    have hbelow : ∀ i ∈ s'.pendingSnapshotChunks, i < whole.length := by
      intro i hi
      rw [hparts, hheld', Std.ExtTreeMap.mem_insert] at hi
      obtain hindex | hi := hi
      · rw [← Std.LawfulEqCmp.compare_eq_iff_eq.mp hindex]
        exact hharmless.below
      · exact h.below i hi
    have hgenuine : Genuine whole s'.pendingSnapshotChunks := by
      rw [hparts, hheld']
      exact hharmless.genuine (by rw [hpending]; simp)
    rw [receiveChunk_of_pending hpending]
    obtain hcalled | ⟨hsame, hgap⟩ := tryAssemble_cases (P := P) (s := s') hchunks.count hbelow
      hgenuine
    · exact .inl hcalled
    right
    rw [hsame]
    have hgap' : s'.pendingSnapshotManifest ≠ none →
        ∃ i < whole.length, i ∉ s'.held manifest.height := by
      intro _
      rw [← hparts]
      exact hgap
    exact h.insert hharmless hchain hsamePending hdrained hheld' hgap'
  · have hpending := h.unknown hknown
    have hroom := hharmless.room hpending
    set s' : SnapshotSync := { s with
      preManifestChunkBuffer := s.preManifestChunkBuffer.insert manifest.height
        ((s.buffered manifest.height).insert chunk.index chunk) } with hs'
    have hpending' : s'.pendingSnapshotManifest = none := hpending
    have hheld' : s'.held manifest.height = (s.held manifest.height).insert chunk.index chunk := by
      rw [held_of_none hpending, held_of_none hpending']
      exact buffered_insert _ _
    rw [receiveChunk_of_none hpending hroom]
    right
    have hchain : s'.chain = s.chain := rfl
    refine h.insert hharmless hchain (hpending'.trans hpending.symm) ?_ hheld' ?_
    · intro hne
      exact absurd hpending' hne
    · intro hne
      exact absurd hpending' hne

/-- **A harmless message assembles the snapshot or adds to what is held.** -/
theorem Collecting.receive {c : Blockchain} (h : s.Collecting c manifest whole delivered)
    (hchunks : ChunksOf manifest whole) (haccepts : acceptsManifest c manifest = true)
    (hconcerns : Concerns manifest message) (hharmless : s.Harmless manifest whole message) :
    (manifest, whole) ∈ (s.receive P deserialize message).calls ∨
      (s.receive P deserialize message).Collecting c manifest whole (delivered ++ [message]) := by
  cases message with
  | manifest m =>
    obtain rfl : m = manifest := hconcerns
    exact h.receiveManifest hchunks haccepts hharmless
  | chunk height chunk =>
    obtain rfl : height = manifest.height := hconcerns
    exact h.receiveChunk hchunks hharmless

theorem mem_calls_receiveAll {call : SnapshotManifest × List StateChunk} (h : call ∈ s.calls) :
    call ∈ (s.receiveAll P deserialize messages).calls := by
  induction messages generalizing s with
  | nil => exact h
  | cons message rest ih => exact ih (mem_calls_receive h)

theorem Collecting.receiveAll {c : Blockchain} (h : s.Collecting c manifest whole delivered)
    (hchunks : ChunksOf manifest whole) (haccepts : acceptsManifest c manifest = true)
    (hconcerns : ∀ message ∈ messages, Concerns manifest message)
    (hharmless : HarmlessUntilCalled P deserialize manifest whole s messages) :
    (manifest, whole) ∈ (s.receiveAll P deserialize messages).calls ∨
      (s.receiveAll P deserialize messages).Collecting c manifest whole (delivered ++ messages) := by
  induction messages generalizing s delivered with
  | nil =>
    right
    rw [List.append_nil]
    exact h
  | cons message rest ih =>
    obtain ⟨hfirst, hrest⟩ := hharmless
    by_cases hcalled : (manifest, whole) ∈ s.calls
    · exact .inl (mem_calls_receiveAll hcalled)
    have hstep : (manifest, whole) ∈ (s.receive P deserialize message).calls ∨ _ :=
      h.receive hchunks haccepts (hconcerns message (by simp)) (hfirst hcalled)
    obtain hcall | hnext := hstep
    · have hlast : (manifest, whole) ∈
          ((s.receive P deserialize message).receiveAll P deserialize rest).calls :=
        mem_calls_receiveAll hcall
      exact .inl hlast
    · have hall := ih hnext (fun m hm => hconcerns m (List.mem_cons_of_mem _ hm)) hrest
      rwa [List.append_assoc, List.singleton_append] at hall

/-- With everything received nothing is missing. -/
theorem Collecting.absurd_of_all {c : Blockchain} (h : s.Collecting c manifest whole delivered)
    (hchunks : ChunksOf manifest whole) (hknown : .manifest manifest ∈ delivered)
    (hall : ∀ chunk ∈ whole, .chunk manifest.height chunk ∈ delivered) : False := by
  obtain ⟨i, hi, hgap⟩ := h.gap (by rw [h.known hknown]; simp)
  have hchunk : whole[i]? = some whole[i] := List.getElem?_eq_getElem hi
  have hindex := hchunks.index i _ hchunk
  have hheld := h.received whole[i] (hall _ (List.getElem_mem hi))
  rw [hindex] at hheld
  exact hgap hheld

/-- **In every order of harmless messages the snapshot is assembled** as soon as the manifest and its
chunks are there, and until then no chunk is dropped. -/
theorem snapshot_assembled (hfresh : s.Fresh manifest) (hchunks : ChunksOf manifest whole)
    (hconcerns : ∀ message ∈ messages, Concerns manifest message)
    (hharmless : HarmlessUntilCalled P deserialize manifest whole s messages) :
    (.manifest manifest ∈ messages → (∀ chunk ∈ whole, .chunk manifest.height chunk ∈ messages) →
      (manifest, whole) ∈ (s.receiveAll P deserialize messages).calls) ∧
    ((manifest, whole) ∉ (s.receiveAll P deserialize messages).calls →
      ∀ chunk, .chunk manifest.height chunk ∈ messages →
        chunk.index ∈ (s.receiveAll P deserialize messages).held manifest.height ∧
        (whole[chunk.index]? = some chunk →
          ((s.receiveAll P deserialize messages).held manifest.height)[chunk.index]? =
            some chunk)) := by
  have hstart : s.Collecting s.chain manifest whole [] := hfresh.collecting
  have hrun := hstart.receiveAll hchunks hfresh.accepts hconcerns hharmless
  rw [List.nil_append] at hrun
  constructor
  · intro hknown hall
    obtain hcalled | hcollecting := hrun
    · exact hcalled
    · exact (hcollecting.absurd_of_all hchunks hknown hall).elim
  · intro hopen chunk hmem
    obtain hcalled | hcollecting := hrun
    · exact absurd hcalled hopen
    · exact ⟨hcollecting.received chunk hmem, hcollecting.own chunk hmem⟩

/-! ## A chunk too many -/

/-- A session in which a chunk beyond the manifest is held. -/
structure Poisoned (manifest : SnapshotManifest) (s : SnapshotSync) : Prop where
  pending : s.pendingSnapshotManifest = none ∨ s.pendingSnapshotManifest = some manifest
  index : ∀ (i : Nat) (chunk : StateChunk), (s.buffered manifest.height)[i]? = some chunk →
    chunk.index = i
  stray : ∃ k ∈ s.held manifest.height, manifest.chunkCount ≤ k

/-- A stray chunk is never taken out, and with it the count is wrong. -/
theorem tryAssemble_of_stray {k : Nat} (hk : k ∈ s.pendingSnapshotChunks)
    (hbeyond : manifest.chunkCount ≤ k) : ∃ left, k ∈ left ∧
      s.tryAssemble P deserialize manifest = { s with pendingSnapshotChunks := left } := by
  simp only [tryAssemble]
  split
  · next hsize =>
    obtain ⟨i, hi, hmissing⟩ := missing_of_stray hk hbeyond hsize
    have hincomplete : (takeFrom manifest.chunkCount 0 s.pendingSnapshotChunks).2.2 = false :=
      takeFrom_incomplete hi (by rwa [Nat.zero_add])
    refine ⟨(takeFrom manifest.chunkCount 0 s.pendingSnapshotChunks).2.1, ?_, ?_⟩
    · rw [Std.ExtTreeMap.mem_iff_isSome_getElem?] at hk ⊢
      rwa [getElem?_takeFrom (by omega)]
    · rw [hincomplete]
      rfl
  · exact ⟨s.pendingSnapshotChunks, hk, rfl⟩

theorem mem_foldl_insert {parts : Parts StateChunk} {k : Nat} (entries : List (Nat × StateChunk))
    (hk : k ∈ parts) : k ∈ entries.foldl (fun m e => m.insert e.2.index e.2) parts := by
  induction entries generalizing parts with
  | nil => exact hk
  | cons e rest ih =>
    apply ih
    rw [Std.ExtTreeMap.mem_insert]
    exact .inr hk

/-- What is held before the manifest is held after it. -/
theorem mem_openSession {k : Nat} (h : s.Poisoned manifest) (hk : k ∈ s.held manifest.height) :
    k ∈ (s.openSession manifest).pendingSnapshotChunks := by
  simp only [SnapshotSync.openSession]
  obtain hpending | hpending := h.pending
  · rw [held_of_none hpending] at hk
    have hsession : s.sameSession manifest = false := by simp [sameSession, hpending]
    rw [hsession, if_neg (by simp), foldl_insert_index h.index]
    exact hk
  · rw [held_of_pending hpending] at hk
    have hsession : s.sameSession manifest = true := by simp [sameSession, hpending]
    rw [hsession, if_pos rfl]
    exact mem_foldl_insert _ hk

theorem Poisoned.receiveManifest (h : s.Poisoned manifest) :
    (s.receiveManifest P deserialize manifest).calls = s.calls ∧
      (s.receiveManifest P deserialize manifest).Poisoned manifest := by
  obtain ⟨k, hk, hbeyond⟩ := h.stray
  rw [SnapshotSync.receiveManifest]
  split
  · obtain ⟨left, hleft, hsame⟩ :=
      tryAssemble_of_stray (P := P) (mem_openSession h hk) hbeyond
    rw [hsame]
    refine ⟨rfl, .inr rfl, ?_, k, hleft, hbeyond⟩
    intro i chunk hi
    have hempty := @buffered_openSession s manifest
    rw [buffered] at hempty hi
    rw [hempty] at hi
    exact absurd hi (by simp)
  · exact ⟨rfl, h⟩

/-- A chunk that finds room, when it or one before it is a stray one. -/
theorem poisoned_receiveChunk {chunk : StateChunk}
    (hpending : s.pendingSnapshotManifest = none ∨ s.pendingSnapshotManifest = some manifest)
    (hindex : ∀ (i : Nat) (chunk : StateChunk), (s.buffered manifest.height)[i]? = some chunk →
      chunk.index = i)
    (hroom : s.pendingSnapshotManifest = none → s.hasRoom chunk = true)
    (hstray : ∃ k ∈ (s.held manifest.height).insert chunk.index chunk, manifest.chunkCount ≤ k) :
    (s.receiveChunk P deserialize manifest.height chunk).calls = s.calls ∧
      (s.receiveChunk P deserialize manifest.height chunk).Poisoned manifest := by
  obtain ⟨k, hk, hbeyond⟩ := hstray
  obtain hnone | hsome := hpending
  · rw [held_of_none hnone] at hk
    rw [receiveChunk_of_none hnone (hroom hnone)]
    set s' : SnapshotSync := { s with
      preManifestChunkBuffer := s.preManifestChunkBuffer.insert manifest.height
        ((s.buffered manifest.height).insert chunk.index chunk) } with hs'
    have hbuffered : s'.buffered manifest.height =
        (s.buffered manifest.height).insert chunk.index chunk := buffered_insert _ _
    have hnone' : s'.pendingSnapshotManifest = none := hnone
    refine ⟨rfl, .inl hnone, ?_, k, ?_, hbeyond⟩
    · intro i other hi
      rw [hbuffered, KeyMap.getElem?_insert_eq] at hi
      split at hi
      · next heq =>
        cases hi
        exact heq
      · exact hindex i other hi
    · rw [held_of_none hnone', hbuffered]
      exact hk
  · rw [held_of_pending hsome] at hk
    rw [receiveChunk_of_pending hsome]
    set s' : SnapshotSync := { s with
      pendingSnapshotChunks := s.pendingSnapshotChunks.insert chunk.index chunk } with hs'
    have hk' : k ∈ s'.pendingSnapshotChunks := hk
    obtain ⟨left, hleft, hsame⟩ := tryAssemble_of_stray (P := P) hk' hbeyond
    rw [hsame]
    set s'' : SnapshotSync := { s' with pendingSnapshotChunks := left } with hs''
    have hsome'' : s''.pendingSnapshotManifest = some manifest := hsome
    refine ⟨rfl, .inr hsome'', hindex, k, ?_, hbeyond⟩
    rw [held_of_pending hsome'']
    exact hleft

theorem Poisoned.receive (h : s.Poisoned manifest) (hconcerns : Concerns manifest message) :
    (s.receive P deserialize message).calls = s.calls ∧
      (s.receive P deserialize message).Poisoned manifest := by
  cases message with
  | manifest m =>
    obtain rfl : m = manifest := hconcerns
    exact h.receiveManifest
  | chunk height chunk =>
    obtain rfl : height = manifest.height := hconcerns
    by_cases hroom : s.pendingSnapshotManifest = none → s.hasRoom chunk = true
    · obtain ⟨k, hk, hbeyond⟩ := h.stray
      refine poisoned_receiveChunk h.pending h.index hroom ⟨k, ?_, hbeyond⟩
      rw [Std.ExtTreeMap.mem_insert]
      exact .inr hk
    · -- a chunk that the buffer refuses changes nothing
      simp only [Classical.not_imp, Bool.not_eq_true] at hroom
      have hsame : s.receiveChunk P deserialize manifest.height chunk = s := by
        simp [SnapshotSync.receiveChunk, hroom.1, hroom.2]
      simp only [SnapshotSync.receive, hsame]
      exact ⟨trivial, h⟩

theorem Poisoned.receiveAll (h : s.Poisoned manifest)
    (hconcerns : ∀ message ∈ messages, Concerns manifest message) :
    (s.receiveAll P deserialize messages).calls = s.calls := by
  induction messages generalizing s with
  | nil => rfl
  | cons message rest ih =>
    obtain ⟨hcalls, hnext⟩ := @Poisoned.receive P deserialize _ _ _ h (hconcerns message (by simp))
    have hrest := ih hnext fun m hm => hconcerns m (List.mem_cons_of_mem _ hm)
    exact hrest.trans hcalls

/-- **One chunk beyond the manifest, and the snapshot is never assembled**, whatever comes for its
height afterwards. -/
theorem stray_never_assembled {before after : List SnapshotMessage} {chunk : StateChunk}
    (hfresh : s.Fresh manifest) (hchunks : ChunksOf manifest whole)
    (hbefore : ∀ message ∈ before, Concerns manifest message)
    (hharmless : HarmlessUntilCalled P deserialize manifest whole s before)
    (hopen : (manifest, whole) ∉ (s.receiveAll P deserialize before).calls)
    (hstray : manifest.chunkCount ≤ chunk.index)
    (hroom : (s.receiveAll P deserialize before).pendingSnapshotManifest = none →
      (s.receiveAll P deserialize before).hasRoom chunk = true)
    (hafter : ∀ message ∈ after, Concerns manifest message) :
    (manifest, whole) ∉
      (s.receiveAll P deserialize (before ++ .chunk manifest.height chunk :: after)).calls := by
  have hstart : s.Collecting s.chain manifest whole [] := hfresh.collecting
  obtain hcalled | h := hstart.receiveAll hchunks hfresh.accepts hbefore hharmless
  · exact absurd hcalled hopen
  rw [List.nil_append] at h
  rw [receiveAll, List.foldl_append, List.foldl_cons]
  set t := s.receiveAll P deserialize before with ht
  have hpending : t.pendingSnapshotManifest = none ∨ t.pendingSnapshotManifest = some manifest := by
    by_cases hknown : .manifest manifest ∈ before
    · exact .inr (h.known hknown)
    · exact .inl (h.unknown hknown)
  have hindex : ∀ (i : Nat) (chunk : StateChunk), (t.buffered manifest.height)[i]? = some chunk →
      chunk.index = i := by
    intro i other hi
    obtain hnone | hsome := hpending
    · have hheld := h.index i other
      rw [held_of_none hnone] at hheld
      exact hheld hi
    · rw [h.drained (by rw [hsome]; simp)] at hi
      exact absurd hi (by simp)
  obtain ⟨hcalls, hpoisoned⟩ := @poisoned_receiveChunk P deserialize _ _ _ hpending hindex hroom
    ⟨chunk.index, Std.ExtTreeMap.mem_insert_self, hstray⟩
  have hrest := @Poisoned.receiveAll P deserialize _ _ _ hpoisoned hafter
  rw [receiveAll] at hrest
  rw [show (List.foldl (fun s message => s.receive P deserialize message) s before) = t from rfl,
    show t.receive P deserialize (.chunk manifest.height chunk) =
      t.receiveChunk P deserialize manifest.height chunk from rfl, hrest, hcalls]
  exact hopen

end SnapshotSync

namespace SnapshotSample

open Scenario SnapshotSync

/-- A chunk of one byte; nobody looks at its hash and proof on arrival. -/
def chunk (index : Nat) (byte : UInt8) : StateChunk where
  index
  data := [byte]
  hash := []
  proof := []

/-- A manifest of two chunks that a chain fresh from its genesis accepts. -/
def manifest (c : Blockchain) : SnapshotManifest where
  height := 4
  epoch := 0
  chainId := c.genesisConfig.chainId
  genesisHash := c.genesis.hash
  latestHash := [4]
  tipHeight := 4
  tipHash := [4]
  finalizedHeight := 4
  finalizedHash := [4]
  stateRoot := [1]
  chunkRoot := [2]
  chunkCount := 2
  chunkHashes := [[3], [5]]

def whole : List StateChunk := [chunk 0 7, chunk 1 8]

def deserialize (_ : Bytes) : Except String SnapshotState := .error "no payload"

/-- The second chunk comes before the manifest and again after it. -/
def messages (c : Blockchain) : List SnapshotMessage :=
  [.chunk 4 (chunk 1 8), .manifest (manifest c), .chunk 4 (chunk 1 8), .chunk 4 (chunk 0 7)]

/-- A chunk with index 2 comes between the two. -/
def strayMessages (c : Blockchain) : List SnapshotMessage :=
  [.manifest (manifest c), .chunk 4 (chunk 0 7), .chunk 4 (chunk 2 9), .chunk 4 (chunk 1 8)]

def after (c : Blockchain) (messages : List SnapshotMessage) : SnapshotSync :=
  ({ chain := c } : SnapshotSync).receiveAll Reference.primitives deserialize messages

theorem chunksOf_whole (c : Blockchain) : ChunksOf (manifest c) whole := by
  refine ⟨rfl, ?_⟩
  intro i chunk hi
  match i with
  | 0 => cases hi; rfl
  | 1 => cases hi; rfl
  | i + 2 => exact absurd hi (by simp [whole])

/-- `Harmless`, for a chunk of the manifest. -/
def harmlessHere (s : SnapshotSync) (manifest : SnapshotManifest) : SnapshotMessage → Bool
  | .manifest _ => decide (Genuine whole (s.held manifest.height))
  | .chunk _ chunk =>
    decide (whole[chunk.index]? = some chunk) &&
      (s.pendingSnapshotManifest.isSome || s.hasRoom chunk) &&
      decide (Genuine whole ((s.held manifest.height).insert chunk.index chunk))

def allHarmlessHere (manifest : SnapshotManifest) : SnapshotSync → List SnapshotMessage → Bool
  | _, [] => true
  | s, message :: rest => harmlessHere s manifest message &&
      allHarmlessHere manifest (s.receive Reference.primitives deserialize message) rest

theorem harmless_of_here {s : SnapshotSync} {manifest : SnapshotManifest}
    {message : SnapshotMessage} (h : harmlessHere s manifest message = true) :
    s.Harmless manifest whole message := by
  cases message with
  | manifest m =>
    simp only [harmlessHere, decide_eq_true_eq] at h
    exact h
  | chunk height chunk =>
    simp only [harmlessHere, Bool.and_eq_true, Bool.or_eq_true, decide_eq_true_eq] at h
    obtain ⟨⟨hown, hroom⟩, hgenuine⟩ := h
    refine ⟨(List.getElem?_eq_some_iff.mp hown).1, ?_, fun _ => hown, fun _ => hgenuine⟩
    intro hnone
    obtain hsome | hroom := hroom
    · rw [hnone] at hsome
      exact absurd hsome (by simp)
    · exact hroom

theorem harmlessUntilCalled_of_here {s : SnapshotSync} {manifest : SnapshotManifest}
    {messages : List SnapshotMessage} (h : allHarmlessHere manifest s messages = true) :
    HarmlessUntilCalled Reference.primitives deserialize manifest whole s messages := by
  induction messages generalizing s with
  | nil => trivial
  | cons message rest ih =>
    simp only [allHarmlessHere, Bool.and_eq_true] at h
    exact ⟨fun _ => harmless_of_here h.1, ih h.2⟩

theorem concerns (c : Blockchain) : ∀ message ∈ messages c, Concerns (manifest c) message := by
  simp [messages, Concerns, manifest]

end SnapshotSample

open SnapshotSample Scenario SnapshotSync in
/-- A chunk that comes early and twice. -/
theorem snapshot_assembled_sample : ∃ c,
    fromGenesis Reference.primitives DoubleVote.genesis = .ok c ∧
      (manifest c, whole) ∈ (after c (messages c)).calls := by
  have hrun : (fromGenesis Reference.primitives DoubleVote.genesis).toOption.any (fun c =>
      acceptsManifest c (manifest c) &&
        allHarmlessHere (manifest c) { chain := c } (messages c)) = true := by
    decide +kernel
  obtain ⟨c, hstart, hrest⟩ := Outcome.ok_of_any hrun
  rw [Bool.and_eq_true] at hrest
  obtain ⟨haccepts, hharmless⟩ := hrest
  have hfresh : SnapshotSync.Fresh (manifest c) { chain := c } := ⟨rfl, rfl, rfl, haccepts⟩
  refine ⟨c, hstart, (snapshot_assembled hfresh (chunksOf_whole c) (concerns c)
    (harmlessUntilCalled_of_here hharmless)).1 ?_ ?_⟩
  · simp [messages]
  · simp [messages, whole, manifest]

open SnapshotSample Scenario SnapshotSync in
/-- Chunk 2 of 2: the session drops chunk 0, and with the manifest and both chunks delivered no
snapshot is applied. -/
theorem stray_chunk_blocks_assembly : ∃ c,
    fromGenesis Reference.primitives DoubleVote.genesis = .ok c ∧
      SnapshotSync.Fresh (manifest c) { chain := c } ∧
      SnapshotMessage.manifest (manifest c) ∈ strayMessages c ∧
      (∀ chunk ∈ whole, SnapshotMessage.chunk (manifest c).height chunk ∈ strayMessages c) ∧
      (∀ message ∈ strayMessages c, Concerns (manifest c) message) ∧
      (after c (strayMessages c)).calls = [] ∧
      0 ∉ (after c (strayMessages c)).held (manifest c).height := by
  have hrun : (fromGenesis Reference.primitives DoubleVote.genesis).toOption.any (fun c =>
      acceptsManifest c (manifest c) && decide ((after c (strayMessages c)).calls.length = 0 ∧
        0 ∉ (after c (strayMessages c)).held 4)) = true := by
    decide +kernel
  obtain ⟨c, hstart, hrest⟩ := Outcome.ok_of_any hrun
  rw [Bool.and_eq_true, decide_eq_true_eq] at hrest
  obtain ⟨haccepts, hcalls, hdropped⟩ := hrest
  refine ⟨c, hstart, ⟨rfl, rfl, rfl, haccepts⟩, ?_, ?_, ?_, List.length_eq_zero_iff.mp hcalls,
    hdropped⟩
  · simp [strayMessages]
  · simp [strayMessages, whole, manifest]
  · simp [strayMessages, Concerns, manifest]

end Curs3d
