import Curs3d.Crypto.Decode
import Curs3d.Proof.Encoding

/-!
# What the decoders read

Every value that fits its type is read back from its encoding, whatever follows it: first numbers, byte strings
and the combinators, then the records, field by field.
-/

set_option autoImplicit false

namespace Curs3d

open U64

/-! ## Values that are written -/

structure PendingUnstake.Fits (p : PendingUnstake) : Prop where
  amount : p.amount < modulus
  unlockHeight : p.unlockHeight < modulus

structure AccountState.Fits (a : AccountState) : Prop where
  balance : a.balance < modulus
  nonce : a.nonce < modulus
  stakedBalance : a.stakedBalance < modulus
  pendingUnstakes : a.pendingUnstakes.length < modulus ∧ ∀ p ∈ a.pendingUnstakes, p.Fits
  validatorActiveFromHeight : a.validatorActiveFromHeight < modulus
  jailedUntilHeight : a.jailedUntilHeight < modulus
  publicKey : ∀ k ∈ a.publicKey, k.length < modulus

/-- What a `Transaction` of the source can be: its text is text. -/
structure Transaction.WellTyped (tx : Transaction) : Prop where
  fits : tx.Fits
  chainId : Decode.ValidUtf8 tx.chainId
  signature : ∀ s ∈ tx.signature, s.length < modulus
  evmRawTx : tx.evmRawTx.length < modulus

structure Block.WellTyped (b : Block) : Prop where
  header : b.header.Fits
  transactions : b.transactions.length < modulus ∧ ∀ tx ∈ b.transactions, tx.WellTyped
  hash : b.hash.length < modulus
  signature : ∀ s ∈ b.signature, s.length < modulus

namespace Decode

open Decoder

/-! ## Numbers and byte strings -/

theorem leValue_leBytes {w n : Nat} (h : n < 256 ^ w) :
    Bincode.leValue (Bincode.leBytes w n) = n := by
  induction w generalizing n with
  | zero =>
    rw [pow_zero, Nat.lt_one_iff] at h
    rw [h]
    rfl
  | succ w ih =>
    rw [pow_succ] at h
    have hhigh : n / 256 < 256 ^ w := Nat.div_lt_of_lt_mul (by omega)
    rw [Bincode.leBytes, Bincode.leValue, ih hhigh]
    have hlow : (UInt8.ofNat n).toNat = n % 256 := by simp
    omega

theorem decodes_uint (w : Nat) : Decodes (uint w) (Bincode.leBytes w) {n | n < 256 ^ w} := by
  intro n hn rest
  have htake : take w (Bincode.leBytes w n ++ rest) = some (Bincode.leBytes w n, rest) :=
    decodes_take (Bincode.length_leBytes w n) rest
  show (take w (Bincode.leBytes w n ++ rest)).bind _ = _
  rw [htake]
  exact congrArg (fun v => some (v, rest)) (leValue_leBytes hn)

theorem decodes_u8 : Decodes u8 Bincode.u8 {n | n < 256} := decodes_uint 1

theorem decodes_u32 : Decodes u32 Bincode.u32 {n | n < 4294967296} := decodes_uint 4

theorem decodes_u64 : Decodes u64 Bincode.u64 {n | n < modulus} := decodes_uint 8

theorem decodes_i64 :
    Decodes i64 Bincode.i64 {i | -9223372036854775808 ≤ i ∧ i < 9223372036854775808} := by
  rintro i ⟨hlow, hhigh⟩ rest
  have hfits : (i % 18446744073709551616).toNat < modulus := by
    show _ < 18446744073709551616
    omega
  rw [i64, Bincode.i64, show Bincode.leBytes 8 = Bincode.u64 from rfl, decodes_u64.run hfits]
  have hvalue : (if (i % 18446744073709551616).toNat < 9223372036854775808 then
      ((i % 18446744073709551616).toNat : Int)
      else ((i % 18446744073709551616).toNat : Int) - 18446744073709551616) = i := by
    split <;> omega
  rw [hvalue]
  rfl

theorem decodes_bytes : Decodes bytes Bincode.bytes {b | b.length < modulus} := by
  intro b hb rest
  rw [bytes, Bincode.bytes, List.append_assoc, decodes_u64.run hb]
  exact decodes_take rfl rest

theorem decodes_text : Decodes text Bincode.bytes {t | t.length < modulus ∧ ValidUtf8 t} := by
  rintro t ⟨ht, hvalid⟩ rest
  rw [text, decodes_bytes.run ht, if_pos hvalid]
  rfl

/-! ## Combinators -/

section Combinators

variable {α : Type} {d : Decoder UInt8 α} {enc : α → Bytes} {D : Set α}

theorem decodes_option (h : Decodes d enc D) :
    Decodes (option d) (Bincode.option enc) {o | ∀ a ∈ o, a ∈ D} := by
  intro o ho rest
  cases o with
  | none =>
    rw [option, Bincode.option, decodes_u8.run (show 0 < 256 by decide), if_pos rfl]
    rfl
  | some a =>
    rw [option, Bincode.option, List.append_assoc, decodes_u8.run (show 1 < 256 by decide),
      if_neg one_ne_zero, if_pos rfl, h.run (ho a rfl)]
    rfl

theorem decodes_vec (h : Decodes d enc D) :
    Decodes (vec d) (Bincode.vec enc) {l | l.length < modulus ∧ ∀ a ∈ l, a ∈ D} := by
  rintro l ⟨hl, hmem⟩ rest
  rw [vec, Bincode.vec, List.append_assoc, decodes_u64.run hl]
  exact h.times ⟨rfl, hmem⟩ rest

end Combinators

/-! ## Records -/

theorem decodes_transactionKind : Decodes transactionKind Bincode.transactionKind Set.univ := by
  intro k _ rest
  cases k <;> exact decodes_u32.run (by decide)

theorem decodes_pendingUnstake :
    Decodes pendingUnstake Bincode.pendingUnstake {p | p.Fits} := by
  intro p hp rest
  rw [pendingUnstake, Bincode.pendingUnstake, List.append_assoc, decodes_u64.run hp.amount,
    decodes_u64.run hp.unlockHeight]
  rfl

theorem decodes_accountState : Decodes accountState Bincode.accountState {a | a.Fits} := by
  intro a ha rest
  simp only [Bincode.accountState, List.append_assoc]
  rw [accountState, decodes_u64.run ha.balance, decodes_u64.run ha.nonce,
    decodes_u64.run ha.stakedBalance, (decodes_vec decodes_pendingUnstake).run ha.pendingUnstakes,
    decodes_u64.run ha.validatorActiveFromHeight, decodes_u64.run ha.jailedUntilHeight,
    (decodes_option decodes_bytes).run ha.publicKey]
  rfl

theorem decodes_transaction : Decodes transaction Bincode.transaction {tx | tx.WellTyped} := by
  intro tx htx rest
  have hfits := htx.fits
  simp only [Bincode.transaction, List.append_assoc]
  rw [transaction, decodes_text.run ⟨hfits.chainId, htx.chainId⟩, decodes_transactionKind.run trivial,
    decodes_bytes.run hfits.from, decodes_bytes.run hfits.senderPublicKey, decodes_bytes.run hfits.to,
    decodes_u64.run hfits.amount, decodes_u64.run hfits.fee, decodes_u64.run hfits.maxFeePerGas,
    decodes_u64.run hfits.maxPriorityFeePerGas, decodes_u64.run hfits.nonce,
    decodes_i64.run hfits.timestamp, (decodes_option decodes_bytes).run htx.signature,
    decodes_u64.run hfits.gasLimit, decodes_bytes.run hfits.data, decodes_bytes.run htx.evmRawTx]
  rfl

theorem decodes_blockHeader : Decodes blockHeader Bincode.blockHeader {h | h.Fits} := by
  intro h hfits rest
  simp only [Bincode.blockHeader, List.append_assoc]
  rw [blockHeader, decodes_u32.run hfits.version, decodes_u64.run hfits.height,
    decodes_i64.run hfits.timestamp, decodes_bytes.run hfits.prevHash,
    decodes_bytes.run hfits.merkleRoot, decodes_bytes.run hfits.stateRoot,
    decodes_u64.run hfits.gasUsed, decodes_u64.run hfits.baseFeePerGas,
    decodes_bytes.run hfits.validatorPublicKey, decodes_u64.run hfits.nonce]
  rfl

theorem decodes_block : Decodes block Bincode.block {b | b.WellTyped} := by
  intro b hb rest
  simp only [Bincode.block, List.append_assoc]
  rw [block, decodes_blockHeader.run hb.header, (decodes_vec decodes_transaction).run hb.transactions,
    decodes_bytes.run hb.hash, (decodes_option decodes_bytes).run hb.signature]
  rfl

end Decode

end Curs3d
