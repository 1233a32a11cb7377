import Curs3d.Proof.Encoding
import Curs3d.Proof.EvmRun

/-!
# The contracts an EVM execution leaves

Whether `finish_execution` and `merge_evm_outcome` carry revm's post-state over to the contracts map. Code enters
the map only at the address the outer transaction created, storage only where there is a contract already.
`getElem?_mergeContracts` says what is at an address afterwards; `merge_complete_iff` is which reports survive.
-/

set_option autoImplicit false

namespace Curs3d

open U64 Outcome

/-- A reported address has 20 bytes and a reported slot 256 bits. -/
def RevmWords (post : ByteMap EvmAccount) : Prop :=
  ∀ (addr : Bytes) (account : EvmAccount), post[addr]? = some account → addr.length = ADDRESS_LEN ∧
    ∀ (slot value : Nat), account.storage[slot]? = some value → slot < 256 ^ 32

/-- The code revm reports, unless it is empty. -/
def EvmAccount.runtimeCode (account : EvmAccount) : Option Bytes :=
  account.code.filter fun code => !code.isEmpty

/-- **The contracts agree with revm's post-state**, and are as before where revm reports nothing. -/
structure MergeComplete (contracts contracts' : ByteMap ContractState) (post : ByteMap EvmAccount) : Prop where
  code : ∀ (addr : Bytes) (account : EvmAccount) (code : Bytes), post[addr]? = some account →
    account.runtimeCode = some code → ∃ c, contracts'[addr]? = some c ∧ c.code = code
  slots : ∀ (addr : Bytes) (account : EvmAccount) (slot value : Nat), post[addr]? = some account →
    account.storage[slot]? = some value →
      ∃ c, contracts'[addr]? = some c ∧ c.storage[Evm.wordBytes slot]? = some (Evm.wordBytes value)
  otherContracts : ∀ addr : Bytes, post[addr]? = none → contracts'[addr]? = contracts[addr]?
  otherSlots : ∀ (addr : Bytes) (account : EvmAccount) (key : Bytes) (c : ContractState),
    post[addr]? = some account → contracts[addr]? = some c →
      (∀ (slot value : Nat), account.storage[slot]? = some value → Evm.wordBytes slot ≠ key) →
      ∃ c', contracts'[addr]? = some c' ∧ c'.storage[key]? = c.storage[key]?

/-- The contract the outer transaction created. -/
def Created (result : ExecutionResult) (creator : Option Bytes) (addr : Bytes) (account : EvmAccount) : Prop :=
  creator.isSome ∧ result.createdAddress = some addr ∧ account.runtimeCode.isSome

instance (result : ExecutionResult) (creator : Option Bytes) (addr : Bytes) (account : EvmAccount) :
    Decidable (Created result creator addr account) :=
  inferInstanceAs (Decidable (_ ∧ _ ∧ _))

/-- What revm reports at `addr` has a place in the contracts: it is the contract that was created, and takes no
storage from an entry it replaces; or there is a contract with this code; or there is nothing to store. -/
def HasPlace (contracts : ByteMap ContractState) (result : ExecutionResult) (creator : Option Bytes)
    (addr : Bytes) (account : EvmAccount) : Prop :=
  if Created result creator addr account then
    ∀ c, contracts[addr]? = some c → account.storage.isEmpty → c.storage = ∅
  else match contracts[addr]? with
    | some c => ∀ code, account.runtimeCode = some code → c.code = code
    | none => account.runtimeCode = none ∧ account.storage.isEmpty

variable {P : Primitives} {result : ExecutionResult} {post : ByteMap EvmAccount} {seed : EvmStateView}
  {creator : Option Bytes} {outcome : EvmOutcome} {contracts : ByteMap ContractState}

/-! ## The storage of one account -/

theorem leBytes_inj {w m n : Nat} (hm : m < 256 ^ w) (hn : n < 256 ^ w)
    (h : Bincode.leBytes w m = Bincode.leBytes w n) : m = n :=
  Bincode.leBytes_injOn w hm hn h

theorem wordBytes_inj {m n : Nat} (hm : m < 256 ^ 32) (hn : n < 256 ^ 32)
    (h : Evm.wordBytes m = Evm.wordBytes n) : m = n := by
  simp only [Evm.wordBytes, List.reverse_inj] at h
  exact leBytes_inj hm hn h

/-- The reported slots of an account, as the map of 32-byte words that `finish_execution` starts from. -/
def reportedWords (account : EvmAccount) : ByteMap Bytes :=
  account.storage.toList.foldl (fun m (e : Nat × Nat) => m.insert (Evm.wordBytes e.1) (Evm.wordBytes e.2)) ∅

theorem reportedWords_slot {account : EvmAccount} {slot value : Nat}
    (hwords : ∀ (slot value : Nat), account.storage[slot]? = some value → slot < 256 ^ 32)
    (h : account.storage[slot]? = some value) :
    (reportedWords account)[Evm.wordBytes slot]? = some (Evm.wordBytes value) := by
  have hentry : ∀ e ∈ account.storage.toList, e.1 < 256 ^ 32 := by
    intro e he
    exact hwords e.1 e.2 (Std.ExtTreeMap.mem_toList_iff_getElem?_eq_some.mp he)
  have hmem : (slot, value) ∈ account.storage.toList := Std.ExtTreeMap.mem_toList_iff_getElem?_eq_some.mpr h
  have hnd : (account.storage.toList.map fun e => Evm.wordBytes e.1).Nodup := by
    have hkeys := KeyMap.nodup_keys_toList account.storage
    rw [List.Nodup, List.pairwise_map] at hkeys ⊢
    apply hkeys.imp_of_mem
    intro a b ha hb hne heq
    exact hne (wordBytes_inj (hentry a ha) (hentry b hb) heq)
  have hfold := KeyMap.getElem?_foldl_insert_of_mem (fun e : Nat × Nat => Evm.wordBytes e.1)
    (fun e => Evm.wordBytes e.2) account.storage.toList (∅ : ByteMap Bytes) hnd hmem
  dsimp only at hfold
  rw [reportedWords, hfold]

theorem reportedWords_none {account : EvmAccount} {key : Bytes}
    (h : ∀ (slot value : Nat), account.storage[slot]? = some value → Evm.wordBytes slot ≠ key) :
    (reportedWords account)[key]? = none := by
  have hkey : key ∉ account.storage.toList.map fun e => Evm.wordBytes e.1 := by
    intro hmem
    obtain ⟨e, he, heq⟩ := List.mem_map.mp hmem
    exact h e.1 e.2 (Std.ExtTreeMap.mem_toList_iff_getElem?_eq_some.mp he) heq
  exact (KeyMap.getElem?_foldl_insert_of_notMem (fun e : Nat × Nat => Evm.wordBytes e.1)
    (fun e => Evm.wordBytes e.2) account.storage.toList ∅ hkey).trans (by simp)

theorem reportedWords_of_isEmpty {account : EvmAccount} (h : account.storage.isEmpty = true) :
    reportedWords account = ∅ := by
  have hlist : account.storage.toList = [] := by
    rw [Std.ExtTreeMap.isEmpty_iff.mp h]
    simp
  simp only [reportedWords, hlist]
  rfl

/-- The pre-seeding step: a word of the view stays unless it is reported. -/
theorem touches_seed : KeyMap.Touches Prod.fst (fun (e : Bytes × Bytes) (w : Option Bytes) => w.or (some e.2))
    (fun (m : ByteMap Bytes) (e : Bytes × Bytes) => if e.1 ∈ m then m else m.insert e.1 e.2) := by
  intro m e a
  by_cases hmem : e.1 ∈ m
  · simp only [hmem, if_true]
    split
    · next ha =>
      obtain ⟨w, hw⟩ := Option.isSome_iff_exists.mp (Std.ExtTreeMap.mem_iff_isSome_getElem?.mp hmem)
      rw [← ha, hw]
      rfl
    · rfl
  · simp only [hmem, if_false, KeyMap.getElem?_insert_eq]
    split
    · next ha =>
      have hnone : m[e.1]? = none := by
        rw [Std.ExtTreeMap.mem_iff_isSome_getElem?] at hmem
        simpa using hmem
      rw [← ha, hnone]
      rfl
    · rfl

theorem getElem?_storageUpdateOf (seed : EvmStateView) (addr : Bytes) (account : EvmAccount) (key : Bytes) :
    (Evm.storageUpdateOf seed addr account)[key]? =
      (reportedWords account)[key]?.or (seed.contracts[addr]?.bind fun c => c.storage[key]?) := by
  simp only [Evm.storageUpdateOf]
  cases seed.contracts[addr]? with
  | none =>
    rw [Option.bind_none, Option.or_none]
    rfl
  | some existing =>
    refine (touches_seed.foldl_toList existing.storage (reportedWords account) key).trans ?_
    rw [Option.bind_some]
    cases existing.storage[key]? with
    | none =>
      rw [Option.elim_none, Option.or_none]
    | some w => rfl

/-! ## What is at an address after the merge -/

/-- A contract with the words of a storage update written over its own. -/
def ContractState.overwrite (contract : ContractState) (words : ByteMap Bytes) : ContractState :=
  { contract with
    storage := words.toList.foldl (fun st (w : Bytes × Bytes) => st.insert w.1 w.2) contract.storage }

theorem getElem?_overwrite (contract : ContractState) (words : ByteMap Bytes) (key : Bytes) :
    (contract.overwrite words).storage[key]? = words[key]?.or contract.storage[key]? := by
  have htouches := @KeyMap.touches_insert Bytes Bytes compare _ _ _ (Bytes × Bytes) Prod.fst Prod.snd
  refine (htouches.foldl_toList words contract.storage key).trans ?_
  cases words[key]? with
  | none => rfl
  | some w => rfl

/-- The second loop of `merge_evm_outcome`. -/
theorem touches_storageUpdate (created : ByteMap ContractState) :
    KeyMap.Touches Prod.fst
      (fun (e : Bytes × ByteMap Bytes) (c : Option ContractState) =>
        if e.1 ∈ created then c else c.map fun contract => contract.overwrite e.2)
      (fun (m : ByteMap ContractState) (e : Bytes × ByteMap Bytes) =>
        if e.1 ∈ created then m
        else match m[e.1]? with
          | none => m
          | some contract => m.insert e.1 (contract.overwrite e.2)) := by
  intro m e a
  by_cases hmem : e.1 ∈ created
  · simp only [hmem, if_true, ite_self]
  · simp only [hmem, if_false]
    by_cases ha : e.1 = a
    · rw [if_pos ha, ← ha]
      cases hm : m[e.1]? with
      | none => exact hm
      | some contract => exact (KeyMap.getElem?_insert_eq _ _ _ _).trans (if_pos rfl)
    · rw [if_neg ha]
      cases m[e.1]? with
      | none => rfl
      | some contract => exact (KeyMap.getElem?_insert_eq _ _ _ _).trans (if_neg ha)

/-- **The contract at an address after the merge.** -/
theorem getElem?_mergeContracts (contracts : ByteMap ContractState) (outcome : EvmOutcome) (a : Bytes) :
    (mergeContracts contracts outcome)[a]? =
      outcome.contractsCreated[a]?.elim
        (outcome.storageUpdates[a]?.elim contracts[a]? fun words => contracts[a]?.map (·.overwrite words))
        (fun c => some { c with storage := outcome.storageUpdates[a]?.getD c.storage }) := by
  have htouches := @KeyMap.touches_insert Bytes ContractState compare _ _ _ (Bytes × ContractState) Prod.fst
    (fun e => { e.2 with storage := outcome.storageUpdates[e.1]?.getD e.2.storage })
  have hcreated := htouches.foldl_toList outcome.contractsCreated contracts a
  refine ((touches_storageUpdate outcome.contractsCreated).foldl_toList outcome.storageUpdates _ a).trans ?_
  rw [hcreated]
  have hmem : a ∈ outcome.contractsCreated ↔ outcome.contractsCreated[a]?.isSome :=
    Std.ExtTreeMap.mem_iff_isSome_getElem?
  cases hc : outcome.contractsCreated[a]? with
  | none =>
    have hnot : a ∉ outcome.contractsCreated := by
      rw [hmem, hc]
      exact Bool.false_ne_true
    cases outcome.storageUpdates[a]? with
    | none => rfl
    | some words => exact if_neg hnot
  | some c =>
    have hin : a ∈ outcome.contractsCreated := by
      rw [hmem, hc]
      rfl
    simp only [Option.elim_some]
    cases outcome.storageUpdates[a]? with
    | none => rfl
    | some words => exact if_pos hin

/-- The contract `finish_execution` reports as created at `addr`, if it does. -/
def createdContract (P : Primitives) (creator created : Option Bytes) (words : ByteMap (ByteMap Bytes))
    (addr : Bytes) (account : EvmAccount) : Option ContractState :=
  match account.code, creator with
  | some code, some creator =>
    if !code.isEmpty ∧ created = some addr then
      some { codeHash := P.sha3 code, code, storage := words[addr]?.getD ∅, owner := creator }
    else none
  | _, _ => none

theorem finishExecution_created (h : Evm.finishExecution P result post seed creator = .ok outcome) :
    outcome.contractsCreated =
      post.filterMap (createdContract P creator result.createdAddress outcome.storageUpdates) := by
  cases result with
  | success gasUsed logs output =>
    cases output with
    | call data => cases h; rfl
    | create data addr => cases h; rfl
  | revert gasUsed data => cases h; rfl
  | halt gasUsed => cases h

theorem createdContract_eq_some {words : ByteMap (ByteMap Bytes)} {addr : Bytes} {account : EvmAccount}
    (h : Created result creator addr account) :
    ∃ c, createdContract P creator result.createdAddress words addr account = some c ∧
      account.runtimeCode = some c.code ∧ c.storage = words[addr]?.getD ∅ := by
  obtain ⟨hcreator, haddr, hcode⟩ := h
  obtain ⟨owner, rfl⟩ := Option.isSome_iff_exists.mp hcreator
  obtain ⟨code, hcode⟩ := Option.isSome_iff_exists.mp hcode
  obtain ⟨hsome, hne⟩ := Option.filter_eq_some_iff.mp hcode
  refine ⟨{ codeHash := P.sha3 code, code, storage := words[addr]?.getD ∅, owner }, ?_, hcode, rfl⟩
  simp only [createdContract, hsome]
  exact if_pos ⟨hne, haddr⟩

theorem createdContract_eq_none {words : ByteMap (ByteMap Bytes)} {addr : Bytes} {account : EvmAccount}
    (h : ¬ Created result creator addr account) :
    createdContract P creator result.createdAddress words addr account = none := by
  simp only [createdContract]
  split
  · next code owner hsome =>
    apply if_neg
    rintro ⟨hne, haddr⟩
    apply h
    refine ⟨rfl, haddr, ?_⟩
    simp only [EvmAccount.runtimeCode, hsome]
    simp only [Option.filter_some, hne, if_true, Option.isSome_some]
  · rfl

section Merged

variable {a : Bytes} {account : EvmAccount}

theorem storageUpdates_eq (h : Evm.finishExecution P result post seed creator = .ok outcome)
    (hpost : post[a]? = some account) :
    outcome.storageUpdates[a]? =
      if account.storage.isEmpty then none else some (Evm.storageUpdateOf seed a account) := by
  obtain ⟨-, -, -, hupdates, -⟩ := finishExecution_eq_ok h
  rw [hupdates, Std.ExtTreeMap.getElem?_map, Std.ExtTreeMap.getElem?_filter', hpost]
  rw [Option.filter_some]
  cases account.storage.isEmpty with
  | true => rfl
  | false => rfl

/-- An address revm does not report keeps its contract. -/
theorem merged_other (h : Evm.finishExecution P result post seed creator = .ok outcome)
    (hpost : post[a]? = none) : (mergeContracts contracts outcome)[a]? = contracts[a]? := by
  obtain ⟨-, -, -, hupdates, -⟩ := finishExecution_eq_ok h
  rw [getElem?_mergeContracts, finishExecution_created h, Std.ExtTreeMap.getElem?_filterMap', hpost, hupdates,
    Std.ExtTreeMap.getElem?_map, Std.ExtTreeMap.getElem?_filter', hpost]
  rfl

/-- The created contract takes the place of whatever was there. -/
theorem merged_created (contracts : ByteMap ContractState)
    (h : Evm.finishExecution P result post seed creator = .ok outcome)
    (hpost : post[a]? = some account) (hcreated : Created result creator a account) :
    ∃ c, (mergeContracts contracts outcome)[a]? = some c ∧ account.runtimeCode = some c.code ∧
      c.storage = if account.storage.isEmpty then ∅ else Evm.storageUpdateOf seed a account := by
  obtain ⟨c, hc, hcode, hstorage⟩ :=
    @createdContract_eq_some P result creator outcome.storageUpdates a account hcreated
  refine ⟨{ c with storage := outcome.storageUpdates[a]?.getD c.storage }, ?_, hcode, ?_⟩
  · rw [getElem?_mergeContracts, finishExecution_created h, Std.ExtTreeMap.getElem?_filterMap', hpost,
      Option.bind_some, hc]
    rfl
  · show outcome.storageUpdates[a]?.getD c.storage = _
    rw [hstorage, storageUpdates_eq h hpost]
    split
    · rfl
    · rfl

theorem merged_absent (h : Evm.finishExecution P result post seed creator = .ok outcome)
    (hpost : post[a]? = some account) (hcreated : ¬ Created result creator a account)
    (hcontract : contracts[a]? = none) : (mergeContracts contracts outcome)[a]? = none := by
  rw [getElem?_mergeContracts, finishExecution_created h, Std.ExtTreeMap.getElem?_filterMap', hpost,
    Option.bind_some, createdContract_eq_none hcreated, hcontract]
  cases outcome.storageUpdates[a]? with
  | none => rfl
  | some words => rfl

/-- A contract that is there keeps its code, and its words that are not reported. -/
theorem merged_existing {c : ContractState} (h : Evm.finishExecution P result post seed creator = .ok outcome)
    (hpost : post[a]? = some account) (hcreated : ¬ Created result creator a account)
    (hcontract : contracts[a]? = some c) (hseed : seed.contracts[a]? = contracts[a]?) :
    ∃ c', (mergeContracts contracts outcome)[a]? = some c' ∧ c'.code = c.code ∧
      ∀ key : Bytes, c'.storage[key]? = (reportedWords account)[key]?.or c.storage[key]? := by
  have hmerged : (mergeContracts contracts outcome)[a]? =
      if account.storage.isEmpty then some c else some (c.overwrite (Evm.storageUpdateOf seed a account)) := by
    rw [getElem?_mergeContracts, finishExecution_created h, Std.ExtTreeMap.getElem?_filterMap', hpost,
      Option.bind_some, createdContract_eq_none hcreated, storageUpdates_eq h hpost, hcontract]
    cases account.storage.isEmpty with
    | true => rfl
    | false => rfl
  by_cases hempty : account.storage.isEmpty = true
  · rw [if_pos hempty] at hmerged
    refine ⟨c, hmerged, rfl, ?_⟩
    intro key
    rw [reportedWords_of_isEmpty hempty]
    simp
  · rw [if_neg hempty] at hmerged
    refine ⟨c.overwrite (Evm.storageUpdateOf seed a account), hmerged, rfl, ?_⟩
    intro key
    rw [getElem?_overwrite, getElem?_storageUpdateOf, hseed, hcontract, Option.bind_some, Option.or_assoc,
      Option.or_self]

end Merged

/-! ## Completeness -/

theorem exists_slot {account : EvmAccount} (h : account.storage.isEmpty = false) :
    ∃ slot value : Nat, account.storage[slot]? = some value := by
  by_contra hnone
  have hempty : account.storage = ∅ := by
    apply Std.ExtTreeMap.ext_getElem?
    intro slot
    cases hslot : account.storage[slot]? with
    | none => simp
    | some value => exact absurd ⟨slot, value, hslot⟩ hnone
  rw [hempty] at h
  simp at h

/-! ### One address -/

section Reported

variable {a : Bytes} {account : EvmAccount}
  (h : Evm.finishExecution P result post seed creator = .ok outcome)
  (hpost : post[a]? = some account) (hseed : seed.contracts[a]? = contracts[a]?)

include h hpost hseed

/-- What the merge has to keep is kept only where the report has a place. -/
theorem hasPlace_of_complete
    (hmerge : MergeComplete contracts (mergeContracts contracts outcome) post) :
    HasPlace contracts result creator a account := by
  simp only [HasPlace]
  split
  · next hcreated =>
    intro c hc hempty
    obtain ⟨c', hc', -, hstorage⟩ := merged_created contracts h hpost hcreated
    rw [if_pos hempty] at hstorage
    -- none of the words the replaced entry had is reported
    apply Std.ExtTreeMap.ext_getElem?
    intro key
    have hunreported : ∀ (slot value : Nat), account.storage[slot]? = some value →
        Evm.wordBytes slot ≠ key := by
      intro slot value hslot
      rw [Std.ExtTreeMap.isEmpty_iff.mp hempty] at hslot
      simp at hslot
    obtain ⟨c'', hc'', hkept⟩ := hmerge.otherSlots a account key c hpost hc hunreported
    obtain rfl : c' = c'' := Option.some.inj (hc'.symm.trans hc'')
    rw [← hkept, hstorage]
  · next hcreated =>
    cases hc : contracts[a]? with
    | some c =>
      intro code hcode
      obtain ⟨c', hc', hkept, -⟩ := merged_existing h hpost hcreated hc hseed
      obtain ⟨c'', hc'', hreported⟩ := hmerge.code a account code hpost hcode
      obtain rfl : c' = c'' := Option.some.inj (hc'.symm.trans hc'')
      exact hkept.symm.trans hreported
    | none =>
      have habsent := merged_absent h hpost hcreated hc
      constructor
      · by_contra hcode
        obtain ⟨code, hcode⟩ := Option.ne_none_iff_exists'.mp hcode
        obtain ⟨c', hc', -⟩ := hmerge.code a account code hpost hcode
        rw [habsent] at hc'
        cases hc'
      · by_contra hstorage
        obtain ⟨slot, value, hslot⟩ := exists_slot (by simpa using hstorage)
        obtain ⟨c', hc', -⟩ := hmerge.slots a account slot value hpost hslot
        rw [habsent] at hc'
        cases hc'

theorem merged_code (hplace : HasPlace contracts result creator a account) {code : Bytes}
    (hcode : account.runtimeCode = some code) :
    ∃ c, (mergeContracts contracts outcome)[a]? = some c ∧ c.code = code := by
  simp only [HasPlace] at hplace
  split at hplace
  · next hcreated =>
    obtain ⟨c, hc, hsame, -⟩ := merged_created contracts h hpost hcreated
    exact ⟨c, hc, Option.some.inj (hsame.symm.trans hcode)⟩
  · next hcreated =>
    split at hplace
    · next c hc =>
      obtain ⟨c', hc', hkept, -⟩ := merged_existing h hpost hcreated hc hseed
      exact ⟨c', hc', hkept.trans (hplace code hcode)⟩
    · rw [hplace.1] at hcode
      cases hcode

theorem merged_slot (hplace : HasPlace contracts result creator a account) {slot value : Nat}
    (hvalue : account.storage[slot]? = some value)
    (hword : (reportedWords account)[Evm.wordBytes slot]? = some (Evm.wordBytes value)) :
    ∃ c, (mergeContracts contracts outcome)[a]? = some c ∧
      c.storage[Evm.wordBytes slot]? = some (Evm.wordBytes value) := by
  have hnonempty : account.storage.isEmpty ≠ true := by
    intro hempty
    rw [Std.ExtTreeMap.isEmpty_iff.mp hempty] at hvalue
    simp at hvalue
  simp only [HasPlace] at hplace
  split at hplace
  · next hcreated =>
    obtain ⟨c, hc, -, hstorage⟩ := merged_created contracts h hpost hcreated
    refine ⟨c, hc, ?_⟩
    rw [hstorage, if_neg hnonempty, getElem?_storageUpdateOf, hword]
    rfl
  · next hcreated =>
    split at hplace
    · next c hc =>
      obtain ⟨c', hc', -, hstorage⟩ := merged_existing h hpost hcreated hc hseed
      refine ⟨c', hc', ?_⟩
      rw [hstorage, hword]
      rfl
    · exact absurd hplace.2 hnonempty

theorem merged_otherSlot (hplace : HasPlace contracts result creator a account) {key : Bytes}
    {c : ContractState} (hc : contracts[a]? = some c)
    (hunreported : ∀ (slot value : Nat), account.storage[slot]? = some value →
      Evm.wordBytes slot ≠ key) :
    ∃ c', (mergeContracts contracts outcome)[a]? = some c' ∧ c'.storage[key]? = c.storage[key]? := by
  have hword := reportedWords_none hunreported
  simp only [HasPlace] at hplace
  split at hplace
  · next hcreated =>
    obtain ⟨c', hc', -, hstorage⟩ := merged_created contracts h hpost hcreated
    refine ⟨c', hc', ?_⟩
    rw [hstorage]
    split
    · next hempty => rw [hplace c hc hempty]
    · rw [getElem?_storageUpdateOf, hword, hseed, hc]
      rfl
  · next hcreated =>
    obtain ⟨c', hc', -, hstorage⟩ := merged_existing h hpost hcreated hc hseed
    refine ⟨c', hc', ?_⟩
    rw [hstorage, hword]
    rfl

end Reported

/-- **The merge is complete and framed exactly when every report has a place.** -/
theorem merge_complete_iff {accounts : ByteMap AccountState} (hwords : RevmWords post)
    (hseed : seed.contracts = (evmStateView accounts contracts).contracts)
    (h : Evm.finishExecution P result post seed creator = .ok outcome) :
    MergeComplete contracts (mergeContracts contracts outcome) post ↔
      ∀ (addr : Bytes) (account : EvmAccount), post[addr]? = some account →
        HasPlace contracts result creator addr account := by
  have hview : ∀ {addr : Bytes} {account : EvmAccount}, post[addr]? = some account →
      seed.contracts[addr]? = contracts[addr]? := by
    intro addr account hpost
    rw [hseed]
    simp only [evmStateView, Std.ExtTreeMap.getElem?_filter']
    cases contracts[addr]? with
    | none => rfl
    | some c => simp [show addr.length = 20 from (hwords addr account hpost).1]
  constructor
  · intro hmerge addr account hpost
    exact hasPlace_of_complete h hpost (hview hpost) hmerge
  · intro hplace
    refine ⟨?_, ?_, fun addr hpost => merged_other h hpost, ?_⟩
    · intro addr account code hpost hcode
      exact merged_code h hpost (hview hpost) (hplace addr account hpost) hcode
    · intro addr account slot value hpost hvalue
      have hword := reportedWords_slot (hwords addr account hpost).2 hvalue
      exact merged_slot h hpost (hview hpost) (hplace addr account hpost) hvalue hword
    · intro addr account key c hpost hc hunreported
      exact merged_otherSlot h hpost (hview hpost) (hplace addr account hpost) hc hunreported

namespace MergeSample

def factory : Bytes := List.replicate 20 1

def child : Bytes := List.replicate 20 2

def sender : Bytes := List.replicate 20 3

def account (code : Bytes) (storage : HeightMap Nat) : EvmAccount where
  balance := 0
  nonce := 1
  code := some code
  storage := storage

/-- The factory writes its slot 5 and creates a child that has slot 0. -/
def reported : ByteMap EvmAccount :=
  ((∅ : ByteMap EvmAccount).insert factory (account [96, 0] ((∅ : HeightMap Nat).insert 5 9))).insert child
    (account [96, 1] ((∅ : HeightMap Nat).insert 0 7))

def registered : ByteMap ContractState :=
  (∅ : ByteMap ContractState).insert factory { codeHash := [], code := [96, 0], storage := ∅, owner := sender }

def called : ExecutionResult := .success 60000 [] (.call [])

def deployed : ExecutionResult := .success 60000 [] (.create [] (some child))

theorem revmWords_of_toList {post : ByteMap EvmAccount}
    (h : ∀ e ∈ post.toList, e.1.length = ADDRESS_LEN ∧ ∀ w ∈ e.2.storage.toList, w.1 < 256 ^ 32) :
    RevmWords post := by
  intro addr account hpost
  obtain ⟨hlength, hslots⟩ := h (addr, account) (Std.ExtTreeMap.mem_toList_iff_getElem?_eq_some.mpr hpost)
  refine ⟨hlength, ?_⟩
  intro slot value hslot
  exact hslots (slot, value) (Std.ExtTreeMap.mem_toList_iff_getElem?_eq_some.mpr hslot)

theorem revmWords : RevmWords reported := revmWords_of_toList (by decide +kernel)

def finished (result : ExecutionResult) (creator : Option Bytes) : Except EvmError EvmOutcome :=
  Evm.finishExecution Reference.primitives result reported (evmStateView ∅ registered) creator

end MergeSample

open MergeSample in
theorem merge_complete_iff_deployed : ∃ outcome, finished deployed (some sender) = .ok outcome ∧
    (MergeComplete registered (mergeContracts registered outcome) reported ↔
      ∀ (addr : Bytes) (account : EvmAccount), reported[addr]? = some account →
        HasPlace registered deployed (some sender) addr account) := by
  obtain ⟨outcome, h, -⟩ := ok_of_any (x := finished deployed (some sender)) (p := fun _ => true)
    (by decide +kernel)
  exact ⟨outcome, h, merge_complete_iff revmWords rfl h⟩

open MergeSample in
/-- A call of the factory: the child it creates is nowhere in the contracts. -/
theorem merge_drops_child : ¬ ∀ (P : Primitives) (result : ExecutionResult) (post : ByteMap EvmAccount)
    (accounts : ByteMap AccountState) (contracts : ByteMap ContractState) (creator : Option Bytes)
    (outcome : EvmOutcome), RevmWords post →
      Evm.finishExecution P result post (evmStateView accounts contracts) creator = .ok outcome →
      MergeComplete contracts (mergeContracts contracts outcome) post := by
  intro h
  have hrun : (finished called none).toOption.any (fun outcome =>
      decide ((mergeContracts registered outcome)[child]? = none)) = true := by
    decide +kernel
  obtain ⟨outcome, hfinish, habsent⟩ := ok_of_any hrun
  have hmerge := h Reference.primitives called reported ∅ registered none outcome revmWords hfinish
  obtain ⟨c, hc, -⟩ := hmerge.code child (account [96, 1] ((∅ : HeightMap Nat).insert 0 7)) [96, 1]
    (by decide +kernel) (by decide +kernel)
  rw [of_decide_eq_true habsent] at hc
  cases hc

end Curs3d
