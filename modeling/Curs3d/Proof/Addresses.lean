import Curs3d.Crypto.Address
import Curs3d.Crypto.Reference

/-!
# Which texts are addresses

`verify_checksum_address` decodes an address only where its case is a checksum. Where no letter is
uppercase it looks no further than the length, so forty bytes that are no digits pass (`Overlooked`). On every
other text it accepts exactly the addresses, in lowercase or under their checksum, and each stands for one
list of twenty bytes (`checksum_addresses_iff`).
-/

set_option autoImplicit false

namespace Curs3d

variable {P : Primitives} {s t body : Text} {addr : Bytes}

/-! ## Digits -/

theorem hexDigit_hexChar {n : Nat} (h : n < 16) : hexDigit (hexChar n) = some n := by
  interval_cases n <;> rfl

theorem isAsciiUppercase_hexChar {n : Nat} (h : n < 16) : isAsciiUppercase (hexChar n) = false := by
  interval_cases n <;> rfl

theorem hexDecode_hexEncode (b : Bytes) : hexDecode (hexEncode b) = some b := by
  induction b with
  | nil => rfl
  | cons x b ih =>
    have hbyte : x.toNat < 256 := x.toNat_lt
    have hhalves : UInt8.ofNat (16 * (x.toNat / 16) + x.toNat % 16) = x := by
      rw [Nat.div_add_mod, UInt8.ofNat_toNat]
    show hexDecode (hexChar (x.toNat / 16) :: hexChar (x.toNat % 16) :: hexEncode b) = _
    rw [hexDecode, hexDigit_hexChar (by omega), hexDigit_hexChar (by omega), ih]
    simp only [hhalves]

theorem length_hexEncode (b : Bytes) : (hexEncode b).length = 2 * b.length := by
  induction b with
  | nil => rfl
  | cons x b ih =>
    show (hexEncode b).length + 1 + 1 = _
    rw [ih, List.length_cons]
    omega

theorem lower_hexEncode (b : Bytes) : ∀ c ∈ hexEncode b, isAsciiUppercase c = false := by
  intro c hc
  obtain ⟨x, -, hc⟩ := List.mem_flatMap.mp hc
  have hbyte : x.toNat < 256 := x.toNat_lt
  rcases List.mem_cons.mp hc with rfl | hc
  · exact isAsciiUppercase_hexChar (by omega)
  · rw [List.mem_singleton.mp hc]
    exact isAsciiUppercase_hexChar (by omega)

theorem toNat_asciiLower (c : UInt8) :
    (asciiLower c).toNat = if 65 ≤ c.toNat ∧ c.toNat ≤ 90 then c.toNat + 32 else c.toNat := by
  unfold asciiLower isAsciiUppercase
  by_cases h : 65 ≤ c.toNat ∧ c.toNat ≤ 90
  · have hsum : (c + 32).toNat = c.toNat + 32 := by
      rw [UInt8.toNat_add]
      show (c.toNat + 32) % 256 = _
      omega
    rw [if_pos h, if_pos (by simpa using h), hsum]
  · rw [if_neg h, if_neg (by simpa using h)]

/-- A digit means the same in either case. -/
theorem hexDigit_asciiLower (c : UInt8) : hexDigit (asciiLower c) = hexDigit c := by
  unfold hexDigit
  rw [toNat_asciiLower]
  split_ifs <;> first | rfl | omega

theorem hexDecode_toAsciiLowercase : hexDecode (toAsciiLowercase t) = hexDecode t := by
  induction t using hexDecode.induct with
  | case1 => rfl
  | case2 c => rfl
  | case3 a b rest x y bytes hrest hy hx ih =>
    show hexDecode (asciiLower a :: asciiLower b :: toAsciiLowercase rest) = _
    rw [hexDecode, hexDecode, ih, hexDigit_asciiLower, hexDigit_asciiLower]
  | case4 a b rest hnone ih =>
    show hexDecode (asciiLower a :: asciiLower b :: toAsciiLowercase rest) = _
    rw [hexDecode, hexDecode, ih, hexDigit_asciiLower, hexDigit_asciiLower]

/-- What decodes is made of digits, two a byte. -/
theorem digits_of_hexDecode (h : hexDecode t = some addr) :
    t.length = 2 * addr.length ∧ ∀ c ∈ t, (hexDigit c).isSome := by
  induction t using hexDecode.induct generalizing addr with
  | case1 =>
    cases h
    simp
  | case2 c => exact absurd h (by simp [hexDecode])
  | case3 a b rest x y bytes hrest hy hx ih =>
    rw [hexDecode, hx, hy, hrest] at h
    cases h
    obtain ⟨hlength, hdigits⟩ := ih hrest
    constructor
    · simp only [List.length_cons, hlength]
      omega
    · simp only [List.forall_mem_cons, hx, hy]
      exact ⟨rfl, rfl, hdigits⟩
  | case4 a b rest hnone ih =>
    rw [hexDecode] at h
    split at h
    · next x y bytes hx hy hrest => exact absurd hrest (hnone x y bytes hx hy)
    · exact absurd h (by simp)

theorem hexDecode_of_digits (hdigits : ∀ c ∈ t, (hexDigit c).isSome) {n : Nat} (hlength : t.length = 2 * n) :
    ∃ addr, hexDecode t = some addr ∧ addr.length = n := by
  induction n generalizing t with
  | zero =>
    rw [List.length_eq_zero_iff.mp hlength]
    exact ⟨[], rfl, rfl⟩
  | succ n ih =>
    match t, hlength with
    | a :: b :: rest, hlength =>
      simp only [List.forall_mem_cons] at hdigits
      obtain ⟨ha, hb, hrest⟩ := hdigits
      obtain ⟨x, hx⟩ := Option.isSome_iff_exists.mp ha
      obtain ⟨y, hy⟩ := Option.isSome_iff_exists.mp hb
      obtain ⟨addr, haddr, hn⟩ := ih hrest (by simp only [List.length_cons] at hlength; omega)
      refine ⟨UInt8.ofNat (16 * x + y) :: addr, ?_, by rw [List.length_cons, hn]⟩
      rw [hexDecode, hx, hy, haddr]

/-! ## Case -/

theorem asciiLower_of_lower {c : UInt8} (h : isAsciiUppercase c = false) : asciiLower c = c := by
  rw [asciiLower, if_neg (by simp [h])]

theorem asciiLower_ne {c : UInt8} (h : isAsciiUppercase c = true) : asciiLower c ≠ c := by
  intro heq
  have hvalue := toNat_asciiLower c
  have hrange : 65 ≤ c.toNat ∧ c.toNat ≤ 90 := by simpa [isAsciiUppercase] using h
  rw [heq, if_pos hrange] at hvalue
  omega

theorem eq_toAsciiLowercase_iff :
    t = toAsciiLowercase t ↔ ∀ c ∈ t, isAsciiUppercase c = false := by
  have hfixed : t = toAsciiLowercase t ↔ ∀ c ∈ t, asciiLower c = c := by
    have hpointwise := List.map_inj_left (l := t) (f := asciiLower) (g := id)
    rw [List.map_id] at hpointwise
    exact eq_comm.trans hpointwise
  rw [hfixed]
  constructor
  · intro hsame c hc
    cases hcase : isAsciiUppercase c with
    | false => rfl
    | true => exact absurd (hsame c hc) (asciiLower_ne hcase)
  · intro hlower c hc
    exact asciiLower_of_lower (hlower c hc)

/-- Changing a letter to uppercase is undone by changing it to lowercase. -/
theorem asciiLower_asciiUpper {c : UInt8} (h : isAsciiUppercase c = false) :
    asciiLower (asciiUpper c) = c := by
  unfold asciiUpper
  split
  · next hletter =>
    apply UInt8.toNat_inj.mp
    have hdiff : (c - 32).toNat = c.toNat - 32 := by
      rw [UInt8.toNat_sub_of_le]
      · rfl
      · show 32 ≤ c.toNat
        omega
    rw [toNat_asciiLower, hdiff, if_pos (by omega)]
    omega
  · exact asciiLower_of_lower h

theorem asciiLower_checksumDigit {hash : Bytes} {i : Nat} {c : UInt8}
    (h : isAsciiUppercase c = false) : asciiLower (checksumDigit hash i c) = c := by
  unfold checksumDigit
  dsimp only
  split_ifs
  · exact asciiLower_asciiUpper h
  · exact asciiLower_of_lower h
  · exact asciiLower_asciiUpper h
  · exact asciiLower_of_lower h

/-! ## The prefix -/

theorem stripCur_append : stripCur (ascii "CUR" ++ t) = t := by
  have hprefix : (ascii "CUR").isPrefixOf (ascii "CUR" ++ t) = true := by
    rw [List.isPrefixOf_iff_prefix]
    exact List.prefix_append _ _
  rw [stripCur, if_pos hprefix]
  rfl

theorem stripCur_cases (s : Text) : s = ascii "CUR" ++ stripCur s ∨ s = stripCur s := by
  unfold stripCur
  split
  · next hprefix =>
    obtain ⟨rest, rfl⟩ := List.isPrefixOf_iff_prefix.mp hprefix
    exact Or.inl rfl
  · exact Or.inr rfl

/-- Forty digits behind an optional prefix. -/
structure AddressText (s body : Text) : Prop where
  text : s = ascii "CUR" ++ body ∨ s = body
  length : body.length = ADDRESS_LEN * 2
  digits : ∀ c ∈ body, (hexDigit c).isSome

/-- A prefix is no digits. -/
theorem AddressText.stripCur_eq (h : AddressText s body) : stripCur s = body := by
  rcases h.text with rfl | rfl
  · exact stripCur_append
  · unfold stripCur
    split
    · next hprefix =>
      obtain ⟨rest, rfl⟩ := List.isPrefixOf_iff_prefix.mp hprefix
      have hdigit := h.digits 85 (List.mem_append_left _ (by decide))
      exact absurd hdigit (by decide)
    · rfl

theorem addressText_stripCur (hlength : (stripCur s).length = ADDRESS_LEN * 2)
    (hdigits : ∀ c ∈ stripCur s, (hexDigit c).isSome) : AddressText s (stripCur s) :=
  ⟨stripCur_cases s, hlength, hdigits⟩

/-! ## The language -/

/-- The twenty bytes of an address. -/
def Denotes (s : Text) (addr : Bytes) : Prop :=
  ∃ body, AddressText s body ∧ hexDecode body = some addr

/-- An address in lowercase, or in the case that `checksum_address` gives its bytes. -/
def ChecksumForm (P : Primitives) (s : Text) : Prop :=
  ∃ body, AddressText s body ∧ ((∀ c ∈ body, isAsciiUppercase c = false) ∨
    ∃ addr, hexDecode body = some addr ∧ checksumAddress P addr = ascii "CUR" ++ body)

/-- Forty bytes without an uppercase letter, and not all of them digits. -/
def Overlooked (s : Text) : Prop :=
  (stripCur s).length = ADDRESS_LEN * 2 ∧ (∀ c ∈ stripCur s, isAsciiUppercase c = false) ∧
    ∃ c ∈ stripCur s, hexDigit c = none

theorem verify_of_lower (hlength : (stripCur s).length = ADDRESS_LEN * 2)
    (hlower : ∀ c ∈ stripCur s, isAsciiUppercase c = false) : verifyChecksumAddress P s = true := by
  unfold verifyChecksumAddress
  rw [if_neg (not_not.mpr hlength), if_pos (eq_toAsciiLowercase_iff.mpr hlower)]

theorem verify_of_checksum (hlength : addr.length = ADDRESS_LEN)
    (hdecode : hexDecode (stripCur s) = some addr)
    (hchecksum : checksumAddress P addr = ascii "CUR" ++ stripCur s) :
    verifyChecksumAddress P s = true := by
  obtain ⟨hbody, -⟩ := digits_of_hexDecode hdecode
  have hbody : (stripCur s).length = ADDRESS_LEN * 2 := by omega
  unfold verifyChecksumAddress
  rw [if_neg (not_not.mpr hbody)]
  split
  · rfl
  · simp only [hexDecode_toAsciiLowercase, hdecode, hlength, hchecksum, stripCur_append]
    simp

/-- What an accepted text is. -/
theorem form_of_verify (h : verifyChecksumAddress P s = true) : ChecksumForm P s ∨ Overlooked s := by
  unfold verifyChecksumAddress at h
  dsimp only at h
  split at h
  · exact absurd h (by simp)
  next hlength =>
  have hlength : (stripCur s).length = ADDRESS_LEN * 2 := not_not.mp hlength
  split at h
  · next hlower =>
    have hlower := eq_toAsciiLowercase_iff.mp hlower
    by_cases hdigits : ∀ c ∈ stripCur s, (hexDigit c).isSome
    · exact Or.inl ⟨_, addressText_stripCur hlength hdigits, Or.inl hlower⟩
    · push Not at hdigits
      obtain ⟨c, hc, hnone⟩ := hdigits
      exact Or.inr ⟨hlength, hlower, c, hc, by simpa using hnone⟩
  · rw [hexDecode_toAsciiLowercase] at h
    split at h
    · exact absurd h (by simp)
    next addr hdecode =>
    split at h
    · exact absurd h (by simp)
    · have hcase := of_decide_eq_true h
      refine Or.inl ⟨_, addressText_stripCur hlength (digits_of_hexDecode hdecode).2, Or.inr
        ⟨addr, hdecode, ?_⟩⟩
      rw [hcase]
      exact congrArg _ stripCur_append.symm

theorem verify_of_form (h : ChecksumForm P s) : verifyChecksumAddress P s = true := by
  obtain ⟨body, htext, hcase⟩ := h
  obtain rfl := htext.stripCur_eq
  rcases hcase with hlower | ⟨addr, hdecode, hchecksum⟩
  · exact verify_of_lower htext.length hlower
  · obtain ⟨hlength, -⟩ := digits_of_hexDecode hdecode
    have hbody := htext.length
    exact verify_of_checksum (by omega) hdecode hchecksum

/-- Digits stand for one list of twenty bytes. -/
theorem AddressText.denotes (h : AddressText s body) :
    ∃! addr, addr.length = ADDRESS_LEN ∧ Denotes s addr := by
  have hlength := h.length
  obtain ⟨addr, hdecode, haddr⟩ := hexDecode_of_digits h.digits (n := ADDRESS_LEN) (by omega)
  refine ⟨addr, ⟨haddr, body, h, hdecode⟩, ?_⟩
  rintro other ⟨-, body', h', hdecode'⟩
  rw [← h'.stripCur_eq, h.stripCur_eq, hdecode] at hdecode'
  exact (Option.some.inj hdecode').symm

theorem not_addressText (h : Overlooked s) : ¬ AddressText s body := by
  intro htext
  obtain ⟨-, -, c, hc, hnone⟩ := h
  rw [htext.stripCur_eq] at hc
  exact absurd (htext.digits c hc) (by simp [hnone])

theorem verify_checksumAddress (haddr : addr.length = ADDRESS_LEN) :
    verifyChecksumAddress P (checksumAddress P addr) = true := by
  have hstrip : stripCur (checksumAddress P addr) =
      (hexEncode addr).mapIdx (checksumDigit (P.sha3 (hexEncode addr))) := stripCur_append
  have hlower : toAsciiLowercase (stripCur (checksumAddress P addr)) = hexEncode addr := by
    rw [hstrip, toAsciiLowercase]
    apply List.ext_getElem (by simp)
    intro i hi hi'
    rw [List.getElem_map, List.getElem_mapIdx]
    exact asciiLower_checksumDigit (lower_hexEncode addr _ (List.getElem_mem hi'))
  apply verify_of_checksum haddr
  · rw [← hexDecode_toAsciiLowercase, hlower, hexDecode_hexEncode]
  · rw [hstrip]
    rfl

/-- **The accepted texts are the addresses, except that letters and signs pass for lowercase digits.** -/
theorem checksum_addresses_iff (P : Primitives) :
    (∀ s : Text,
      ((verifyChecksumAddress P s = true ↔ ChecksumForm P s) ∧
        (verifyChecksumAddress P s = true →
          ∃! addr : Bytes, addr.length = ADDRESS_LEN ∧ Denotes s addr)) ↔
      ¬ Overlooked s) ∧
    ∀ addr : Bytes, addr.length = ADDRESS_LEN →
      verifyChecksumAddress P (checksumAddress P addr) = true := by
  constructor
  · intro s
    constructor
    · rintro ⟨hform, -⟩ hoverlooked
      obtain ⟨body, htext, -⟩ := hform.mp (verify_of_lower hoverlooked.1 hoverlooked.2.1)
      exact not_addressText hoverlooked htext
    · intro hnot
      have hform : verifyChecksumAddress P s = true → ChecksumForm P s :=
        fun h => (form_of_verify h).resolve_right hnot
      refine ⟨⟨hform, verify_of_form⟩, ?_⟩
      intro h
      obtain ⟨body, htext, -⟩ := hform h
      exact htext.denotes
  · intro addr haddr
    exact verify_checksumAddress haddr

/-- An address with letters in both cases. -/
theorem checksum_addresses_iff_sample :
    verifyChecksumAddress Reference.primitives
        (checksumAddress Reference.primitives (List.replicate 20 0xab)) = true ∧
      ∃! addr : Bytes, addr.length = ADDRESS_LEN ∧
        Denotes (checksumAddress Reference.primitives (List.replicate 20 0xab)) addr := by
  obtain ⟨hexact, haccepted⟩ := checksum_addresses_iff Reference.primitives
  have hverify := haccepted (List.replicate 20 0xab) (by decide)
  have hnot : ¬ Overlooked (checksumAddress Reference.primitives (List.replicate 20 0xab)) := by
    rintro ⟨-, hlower, -⟩
    exact absurd (hlower 65 (by decide +kernel)) (by decide)
  exact ⟨hverify, ((hexact _).mpr hnot).2 hverify⟩

/-- Forty times the letter after the last digit. -/
theorem checksum_address_overlooked :
    verifyChecksumAddress Reference.primitives (List.replicate 40 103) = true ∧
      ¬ ChecksumForm Reference.primitives (List.replicate 40 103) ∧
      ¬ ∃ addr, Denotes (List.replicate 40 103) addr := by
  have hoverlooked : Overlooked (List.replicate 40 103) := by
    refine ⟨by decide +kernel, by decide +kernel, 103, by decide +kernel, by decide⟩
  refine ⟨by decide +kernel, ?_, ?_⟩
  · rintro ⟨body, htext, -⟩
    exact not_addressText hoverlooked htext
  · rintro ⟨addr, body, htext, -⟩
    exact not_addressText hoverlooked htext

end Curs3d
