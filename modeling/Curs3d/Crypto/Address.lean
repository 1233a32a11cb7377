import Curs3d.Crypto.Hash
import Curs3d.Crypto.Hex

/-!
# Checksummed addresses (`src/crypto/hash.rs`)

An address is shown as `CUR` and forty hex digits, and the case of the letters among them is a checksum.
Text is its UTF-8 bytes, which is what the length, the prefix and the ASCII case functions go by.
-/

set_option autoImplicit false

namespace Curs3d

variable (P : Primitives)

/-- `u8::is_ascii_uppercase`. -/
def isAsciiUppercase (c : UInt8) : Bool := 65 ≤ c.toNat && c.toNat ≤ 90

/-- `u8::is_ascii_alphabetic`. -/
def isAsciiAlphabetic (c : UInt8) : Bool :=
  isAsciiUppercase c || (97 ≤ c.toNat && c.toNat ≤ 122)

def asciiLower (c : UInt8) : UInt8 := if isAsciiUppercase c then c + 32 else c

def asciiUpper (c : UInt8) : UInt8 := if 97 ≤ c.toNat ∧ c.toNat ≤ 122 then c - 32 else c

def toAsciiLowercase (t : Text) : Text := t.map asciiLower

/-- `strip_prefix("CUR").unwrap_or(…)`. -/
def stripCur (t : Text) : Text := if (ascii "CUR").isPrefixOf t then t.drop 3 else t

/-- Digit `i` of an address, in the case that the hash of all the digits says. -/
def checksumDigit (hash : Bytes) (i : Nat) (c : UInt8) : UInt8 :=
  let byte := (hash[i / 2]?).getD 0
  let hashNibble := if i % 2 = 0 then byte >>> 4 else byte &&& 0x0f
  if 8 ≤ hashNibble && isAsciiAlphabetic c then asciiUpper c else c

def checksumAddress (addrBytes : Bytes) : Text :=
  let hexLower := hexEncode addrBytes
  ascii "CUR" ++ hexLower.mapIdx (checksumDigit (P.sha3 hexLower))

def verifyChecksumAddress (address : Text) : Bool :=
  let hexPart := stripCur address
  if hexPart.length ≠ ADDRESS_LEN * 2 then false
  else if hexPart = toAsciiLowercase hexPart then true
  else match hexDecode (toAsciiLowercase hexPart) with
    | none => false
    | some addrBytes =>
      if addrBytes.length ≠ ADDRESS_LEN then false
      else decide (hexPart = stripCur (checksumAddress P addrBytes))

end Curs3d
