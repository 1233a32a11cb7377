import Curs3d.Crypto.Hash

/-!
# A concrete instance of the primitives

The theorems hold for every `Primitives` that meets their hypotheses. `reference` is one that
does and that runs: a polynomial hash modulo a 255-bit prime written out as 32 bytes, signatures
that are the hash of key and message, a decoder of nothing, and virtual machines that reject every
program. It is not secure; it has the shapes (32-byte hashes, signatures that verify under their
own key and message) that the code relies on.
-/

set_option autoImplicit false

namespace Curs3d.Reference

open Bincode

/-- One byte of the polynomial hash. -/
def absorb (acc : Nat) (b : UInt8) : Nat :=
  (acc * 1103515245 + b.toNat + 1) %
    57896044618658097711785492504343953926634992332820282019728792003956564819949

def sha3 (data : Bytes) : Bytes := leBytes 32 (data.foldl absorb 88172645463325252)

def publicKeyOf (seed : Bytes) : Bytes := seed

def dilithiumSign (seed message : Bytes) : Bytes := sha3 (seed ++ message)

def dilithiumVerify (message signature publicKey : Bytes) : Bool :=
  signature = sha3 (publicKey ++ message)

def primitives : Primitives where
  sha3 := sha3
  publicKeyOf := publicKeyOf
  dilithiumSign := dilithiumSign
  dilithiumVerify := dilithiumVerify
  decode2718 := fun _ => none
  wat2wasm := fun _ => none
  wasmOperators := fun _ => ([], false)
  wasmFunctionImports := fun _ => none
  wasmModuleOk := fun _ => false
  wasmRun := fun _ _ => .error .execution
  revmTransact := fun _ _ => none
  parseDeployToken := fun _ => none
  parseTokenTransfer := fun _ => none
  parseTokenApprove := fun _ => none
  parseTokenTransferFrom := fun _ => none
  parseSubmitProposal := fun _ => none
  parseGovernanceVote := fun _ => none

theorem length_sha3 (data : Bytes) : (sha3 data).length = 32 := length_leBytes 32 _

/-- A signature verifies under the key of the seed that made it. -/
theorem verify_sign (seed message : Bytes) :
    primitives.dilithiumVerify message (primitives.dilithiumSign seed message)
      (primitives.publicKeyOf seed) = true := by
  simp [primitives, dilithiumVerify, dilithiumSign, publicKeyOf]

end Curs3d.Reference
