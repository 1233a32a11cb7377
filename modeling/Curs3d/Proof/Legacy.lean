import Curs3d.Core.Legacy
import Curs3d.Proof.Decoding

/-!
# Old records are not mistaken for new ones

Nothing marks a record as old: the current decoder has to fail on it. It does, because it comes to a length
where the old record has other bytes. In an account it reads the tag of the key and seven bytes of the key's
length as the number of pending unstakes, more than the rest can hold (`decode_legacyAccountState`); in a
transaction it reads the kind and half of the sender's length as the length of the chain id
(`decode_legacyTransaction`). So a table that holds records of both kinds is read as what was stored
(`legacy_records_never_misread`).
-/

set_option autoImplicit false

namespace Curs3d

open Std Decoder U64

/-! ## Values that were written -/

structure LegacyAccountStateV1.Fits (a : LegacyAccountStateV1) : Prop where
  balance : a.balance < modulus
  nonce : a.nonce < modulus
  stakedBalance : a.stakedBalance < modulus
  publicKey : ∀ k ∈ a.publicKey, k.length < 4294967296

structure LegacyTransactionV1.Fits (tx : LegacyTransactionV1) : Prop where
  amount : tx.amount < modulus
  fee : tx.fee < modulus
  nonce : tx.nonce < modulus
  timestamp : -9223372036854775808 ≤ tx.timestamp ∧ tx.timestamp < 9223372036854775808
  «from» : tx.from ≠ []
  length : (Bincode.legacyTransactionV1 tx).length < 4294967296

namespace Bincode

theorem length_bytes (b : Bytes) : (bytes b).length = 8 + b.length := by
  rw [bytes, List.length_append, u64, length_leBytes]

/-- The low bytes of a number come first. -/
theorem leBytes_add (w v n : Nat) : leBytes (w + v) n = leBytes w n ++ leBytes v (n / 256 ^ w) := by
  induction w generalizing n with
  | zero => simp [leBytes]
  | succ w ih =>
    rw [Nat.succ_add, leBytes, leBytes, ih, Nat.div_div_eq_div_mul, pow_succ, Nat.mul_comm (256 ^ w)]
    rfl

theorem leBytes_low {w a : Nat} (ha : a < 256 ^ w) (b : Nat) :
    leBytes w (a + 256 ^ w * b) = leBytes w a := by
  induction w generalizing a with
  | zero => rfl
  | succ w ih =>
    rw [pow_succ] at ha
    have hhead : UInt8.ofNat (a + 256 ^ (w + 1) * b) = UInt8.ofNat a := by
      apply UInt8.toNat_inj.mp
      rw [UInt8.toNat_ofNat', UInt8.toNat_ofNat', pow_succ, Nat.mul_comm (256 ^ w), Nat.mul_assoc,
        Nat.add_mul_mod_self_left]
    have htail : (a + 256 ^ (w + 1) * b) / 256 = a / 256 + 256 ^ w * b := by
      rw [pow_succ, Nat.mul_comm (256 ^ w), Nat.mul_assoc, Nat.add_mul_div_left _ _ (by decide)]
    rw [leBytes, leBytes, hhead, htail, ih (Nat.div_lt_of_lt_mul (by omega))]

/-- Two numbers in a row are one longer number. -/
theorem leBytes_append {w v a : Nat} (ha : a < 256 ^ w) (b : Nat) :
    leBytes w a ++ leBytes v b = leBytes (w + v) (a + 256 ^ w * b) := by
  have hpos : 0 < 256 ^ w := Nat.pow_pos (by decide)
  rw [leBytes_add, leBytes_low ha, Nat.add_mul_div_left _ _ hpos, Nat.div_eq_of_lt ha, Nat.zero_add]

/-- A `u8` and a `u64`, cut after eight bytes. -/
theorem u8_append_u64 {a : Nat} (ha : a < 256) (b : Nat) :
    u8 a ++ u64 b = u64 (a + 256 * b) ++ leBytes 1 ((a + 256 * b) / 256 ^ 8) := by
  rw [u8, u64, u64, leBytes_append (by simpa using ha), ← leBytes_add, pow_one]

/-- A `u32` and a `u64`, cut after eight bytes. -/
theorem u32_append_u64 {a : Nat} (ha : a < 4294967296) (b : Nat) :
    u32 a ++ u64 b = u64 (a + 4294967296 * b) ++ leBytes 4 ((a + 4294967296 * b) / 256 ^ 8) := by
  rw [u32, u64, u64, leBytes_append (by simpa using ha), ← leBytes_add]
  rfl

theorem transactionKind_eq_u32 (k : TransactionKind) :
    ∃ variant < 4294967296, transactionKind k = u32 variant := by
  cases k <;> exact ⟨_, by decide, rfl⟩

end Bincode

namespace Decode

/-! ## The old decoders -/

theorem decodes_legacyAccountStateV1 :
    Decodes legacyAccountStateV1 Bincode.legacyAccountStateV1 {a | a.Fits} := by
  intro a ha rest
  have hkey : ∀ k ∈ a.publicKey, k.length < modulus :=
    fun k hk => (ha.publicKey k hk).trans (by decide)
  simp only [Bincode.legacyAccountStateV1, List.append_assoc]
  rw [legacyAccountStateV1, decodes_u64.run ha.balance, decodes_u64.run ha.nonce,
    decodes_u64.run ha.stakedBalance, (decodes_option decodes_bytes).run hkey]
  rfl

theorem decodes_legacyTransactionV1 :
    Decodes legacyTransactionV1 Bincode.legacyTransactionV1 {tx | tx.Fits} := by
  intro tx htx rest
  have hlength := htx.length
  simp only [Bincode.legacyTransactionV1, List.length_append, Bincode.length_bytes] at hlength
  have hshort : ∀ n, n < 4294967296 → n < modulus := fun n hn => hn.trans (by decide)
  have hsignature : ∀ s ∈ tx.signature, s.length < modulus := by
    intro s hs
    rw [Option.mem_def.mp hs, Bincode.option, List.length_append, Bincode.length_bytes] at hlength
    exact hshort _ (by omega)
  simp only [Bincode.legacyTransactionV1, List.append_assoc]
  rw [legacyTransactionV1, decodes_transactionKind.run trivial,
    decodes_bytes.run (hshort _ (by omega)), decodes_bytes.run (hshort _ (by omega)),
    decodes_bytes.run (hshort _ (by omega)), decodes_u64.run htx.amount, decodes_u64.run htx.fee,
    decodes_u64.run htx.nonce, decodes_i64.run htx.timestamp,
    (decodes_option decodes_bytes).run hsignature]
  rfl

/-! ## The current decoders on old records -/

theorem takes_uint (w : Nat) : Takes (uint w) w := takes_take.bind fun _ => takes_pure

theorem takes_pendingUnstake : Takes pendingUnstake 16 :=
  (takes_uint 8).bind (v := 8) fun _ => (takes_uint 8).bind (v := 0) fun _ => takes_pure

/-- A length that announces more than there is. -/
theorem vec_pendingUnstake_eq_none {n : Nat} {rest : Bytes} (hn : n < modulus)
    (hshort : rest.length < n * 16) : vec pendingUnstake (Bincode.u64 n ++ rest) = none := by
  rw [vec, decodes_u64.run hn]
  exact takes_pendingUnstake.times.eq_none hshort

theorem text_eq_none {n : Nat} {rest : Bytes} (hn : n < modulus) (hshort : rest.length < n) :
    text (Bincode.u64 n ++ rest) = none := by
  apply bind_eq_none
  rw [bytes, decodes_u64.run hn]
  exact takes_take.eq_none hshort

/-- **An old account is not a current one.** -/
theorem decode_legacyAccountState {a : LegacyAccountStateV1} (ha : a.Fits) :
    accountState.decode (Bincode.legacyAccountStateV1 a) = none := by
  have hfields : accountState (Bincode.legacyAccountStateV1 a) = none := by
    simp only [Bincode.legacyAccountStateV1, List.append_assoc]
    rw [accountState, decodes_u64.run ha.balance, decodes_u64.run ha.nonce,
      decodes_u64.run ha.stakedBalance]
    apply bind_eq_none
    cases hkey : a.publicKey with
    | none =>
      -- one byte is left where a length of eight is read
      exact bind_eq_none ((takes_uint 8).eq_none (by decide))
    | some k =>
      have hlength := ha.publicKey k hkey
      have hcut := Bincode.u8_append_u64 (show 1 < 256 by decide) k.length
      rw [Bincode.option, Bincode.bytes, ← List.append_assoc, hcut, List.append_assoc]
      apply vec_pendingUnstake_eq_none
      · show _ < 18446744073709551616
        omega
      · rw [List.length_append, Bincode.length_leBytes]
        omega
  rw [Decoder.decode, hfields]
  rfl

/-- **An old transaction is not a current one.** -/
theorem decode_legacyTransaction {tx : LegacyTransactionV1} (htx : tx.Fits) :
    transaction.decode (Bincode.legacyTransactionV1 tx) = none := by
  have hfields : transaction (Bincode.legacyTransactionV1 tx) = none := by
    have hlength := htx.length
    have hfrom : 0 < tx.from.length := List.length_pos_iff.mpr htx.from
    obtain ⟨variant, hvariant, hkind⟩ := Bincode.transactionKind_eq_u32 tx.kind
    rw [Bincode.legacyTransactionV1, hkind, Bincode.bytes] at hlength ⊢
    simp only [← List.append_assoc] at hlength ⊢
    rw [Bincode.u32_append_u64 hvariant] at hlength ⊢
    simp only [List.append_assoc] at hlength ⊢
    apply bind_eq_none
    simp only [List.length_append] at hlength
    apply text_eq_none
    · show _ < 18446744073709551616
      omega
    · simp only [List.length_append]
      omega
  rw [Decoder.decode, hfields]
  rfl

end Decode

/-! ## Tables -/

section Tables

variable {α β : Type} {current : Decoder UInt8 α} {legacy : Decoder UInt8 β} {upgrade : β → α}

/-- A record as some version stored it. -/
inductive StoredRecord (α β : Type) where
  | current (a : α)
  | legacy (b : β)

namespace StoredRecord

def encode (enc : α → Bytes) (encLegacy : β → Bytes) : StoredRecord α β → Bytes
  | .current a => enc a
  | .legacy b => encLegacy b

/-- What the record means to the current version. -/
def upgraded (upgrade : β → α) : StoredRecord α β → α
  | .current a => a
  | .legacy b => upgrade b

/-- A value that version could have. -/
def Holds (p : α → Prop) (q : β → Prop) : StoredRecord α β → Prop
  | .current a => p a
  | .legacy b => q b

end StoredRecord

/-- A reader that tells the two versions apart reads what was stored. -/
theorem readCompat_encode {enc : α → Bytes} {encLegacy : β → Bytes} {p : α → Prop} {q : β → Prop}
    (hcurrent : Decodes current enc {a | p a}) (hlegacy : Decodes legacy encLegacy {b | q b})
    (hapart : ∀ b, q b → current.decode (encLegacy b) = none) {record : StoredRecord α β}
    (hrecord : record.Holds p q) :
    readCompat current legacy upgrade (record.encode enc encLegacy) = .ok (record.upgraded upgrade) := by
  cases record with
  | current a =>
    have hread : current.decode (enc a) = some a := hcurrent.decode hrecord
    simp only [readCompat, StoredRecord.encode, hread]
    rfl
  | legacy b =>
    have hread : legacy.decode (encLegacy b) = some b := hlegacy.decode hrecord
    simp only [readCompat, StoredRecord.encode, hapart b hrecord, hread]
    rfl

theorem mapM_eq_ok {ε : Type} {f : α → Except ε β} {g : α → β} {l : List α}
    (h : ∀ a ∈ l, f a = .ok (g a)) : l.mapM f = .ok (l.map g) := by
  induction l with
  | nil => rfl
  | cons a l ih =>
    rw [List.mapM_cons, h a List.mem_cons_self, ih fun b hb => h b (List.mem_cons_of_mem _ hb)]
    rfl

end Tables

abbrev StoredAccount := StoredRecord AccountState LegacyAccountStateV1

abbrev StoredTransaction := StoredRecord Transaction LegacyTransactionV1

namespace StoredAccount

def encode (record : StoredAccount) : Bytes :=
  StoredRecord.encode Bincode.accountState Bincode.legacyAccountStateV1 record

def upgraded (record : StoredAccount) : AccountState :=
  StoredRecord.upgraded LegacyAccountStateV1.into record

def Valid (record : StoredAccount) : Prop :=
  StoredRecord.Holds AccountState.Fits LegacyAccountStateV1.Fits record

theorem read {record : StoredAccount} (h : Valid record) :
    readAccount (encode record) = .ok (upgraded record) :=
  readCompat_encode Decode.decodes_accountState Decode.decodes_legacyAccountStateV1
    (fun _ => Decode.decode_legacyAccountState) h

end StoredAccount

namespace StoredTransaction

def encode (record : StoredTransaction) : Bytes :=
  StoredRecord.encode Bincode.transaction Bincode.legacyTransactionV1 record

def upgraded (chainId : Text) (record : StoredTransaction) : Transaction :=
  StoredRecord.upgraded (fun tx => tx.intoCurrent chainId) record

def Valid (record : StoredTransaction) : Prop :=
  StoredRecord.Holds Transaction.WellTyped LegacyTransactionV1.Fits record

theorem read {chainId : Text} {record : StoredTransaction} (h : Valid record) :
    readTransaction chainId (encode record) = .ok (upgraded chainId record) :=
  readCompat_encode Decode.decodes_transaction Decode.decodes_legacyTransactionV1
    (fun _ => Decode.decode_legacyTransaction) h

end StoredTransaction

/-- **Old records are never misread**, and current ones are read at the first attempt, alone or side by
side in a table. -/
theorem legacy_records_never_misread :
    (∀ a : LegacyAccountStateV1, a.Fits →
      Decode.accountState.decode (Bincode.legacyAccountStateV1 a) = none) ∧
    (∀ tx : LegacyTransactionV1, tx.Fits →
      Decode.transaction.decode (Bincode.legacyTransactionV1 tx) = none) ∧
    (∀ a : AccountState, a.Fits →
      Decode.accountState.decode (Bincode.accountState a) = some a) ∧
    (∀ tx : Transaction, tx.WellTyped →
      Decode.transaction.decode (Bincode.transaction tx) = some tx) ∧
    (∀ records : ByteMap StoredAccount, (∀ e ∈ records.toList, StoredAccount.Valid e.2) →
      getAllAccountsCompat (records.map fun _ record => StoredAccount.encode record) =
          .ok (records.toList.map fun e => (e.1, StoredAccount.upgraded e.2)) ∧
        ∀ address,
          getAccountCompat (records.map fun _ record => StoredAccount.encode record) address =
            .ok (records[address]?.map StoredAccount.upgraded)) ∧
    ∀ (records : ByteMap StoredTransaction) (chainId : Text),
      (∀ e ∈ records.toList, StoredTransaction.Valid e.2) →
      getAllPendingTransactionsCompat (records.map fun _ record => StoredTransaction.encode record)
          chainId =
        .ok (sortBySubmission (records.toList.map fun e => StoredTransaction.upgraded chainId e.2)) := by
  refine ⟨fun a => Decode.decode_legacyAccountState, fun tx => Decode.decode_legacyTransaction,
    fun a ha => Decode.decodes_accountState.decode ha,
    fun tx htx => Decode.decodes_transaction.decode htx, ?_, ?_⟩
  · intro records hvalid
    constructor
    · rw [getAllAccountsCompat, ExtTreeMap.toList_map, List.mapM_map]
      apply mapM_eq_ok
      intro e he
      show (readAccount (StoredAccount.encode e.2)).map _ = _
      rw [StoredAccount.read (hvalid e he)]
      rfl
    · intro address
      rw [getAccountCompat, ExtTreeMap.getElem?_map]
      cases hrecord : records[address]? with
      | none => rfl
      | some record =>
        have hmem : (address, record) ∈ records.toList :=
          ExtTreeMap.mem_toList_iff_getElem?_eq_some.mpr hrecord
        show (readAccount (StoredAccount.encode record)).map some = _
        rw [StoredAccount.read (hvalid _ hmem)]
        rfl
  · intro records chainId hvalid
    have hread : (records.map fun _ record => StoredTransaction.encode record).toList.mapM
        (fun e => readTransaction chainId e.2) =
          .ok (records.toList.map fun e => StoredTransaction.upgraded chainId e.2) := by
      rw [ExtTreeMap.toList_map, List.mapM_map]
      apply mapM_eq_ok
      intro e he
      exact StoredTransaction.read (hvalid e he)
    rw [getAllPendingTransactionsCompat, hread]
    rfl

namespace LegacySample

def legacyAccount : LegacyAccountStateV1 where
  balance := 5
  nonce := 1
  stakedBalance := 0
  publicKey := some [7, 7]

def account : AccountState := { balance := 9, pendingUnstakes := [⟨3, 12⟩] }

def legacyTransaction : LegacyTransactionV1 where
  kind := .transfer
  «from» := [1]
  senderPublicKey := []
  «to» := [2]
  amount := 3
  fee := 1
  nonce := 0
  timestamp := 0
  signature := none

/-- One record of each version. -/
def records : ByteMap StoredAccount :=
  (∅ : ByteMap StoredAccount).insert [1] (.legacy legacyAccount) |>.insert [2] (.current account)

theorem valid : ∀ e ∈ records.toList, StoredAccount.Valid e.2 := by
  have hlist : records.toList = [([1], .legacy legacyAccount), ([2], .current account)] := by rfl
  rw [hlist]
  simp only [List.mem_cons, List.not_mem_nil, or_false, forall_eq_or_imp, forall_eq]
  constructor
  · exact ⟨by decide, by decide, by decide, by decide⟩
  · refine ⟨by decide, by decide, by decide, ⟨by decide, ?_⟩, by decide, by decide, by decide⟩
    intro p hp
    rw [List.mem_singleton.mp hp]
    exact ⟨by decide, by decide⟩

end LegacySample

open LegacySample in
theorem legacy_records_never_misread_sample :
    Decode.transaction.decode (Bincode.legacyTransactionV1 legacyTransaction) = none ∧
      (getAllAccountsCompat (records.map fun _ record => StoredAccount.encode record)).toOption =
        some [([1], { balance := 5, nonce := 1, publicKey := some [7, 7] }), ([2], account)] := by
  obtain ⟨-, htransaction, -, -, haccounts, -⟩ := legacy_records_never_misread
  constructor
  · exact htransaction legacyTransaction
      ⟨by decide, by decide, by decide, by decide, by decide, by decide⟩
  · rw [(haccounts records valid).1]
    rfl

end Curs3d
