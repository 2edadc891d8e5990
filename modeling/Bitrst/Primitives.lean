import Mathlib.Data.Vector.Basic
import Mathlib.Data.UInt

/-!
# Bytes, hashes and the code outside the repository

Byte strings are lists, fixed-width byte arrays are length-indexed vectors and
machine integers are Lean's fixed-width types.  Release builds are modelled:
`debug_assert` is a no-op and unchecked integer arithmetic wraps.

The digest and curve primitives come from third-party crates, so they enter as
the parameter `Crypto`; the workspace feature `test-short-period` enters as
`Features`.
-/

namespace Bitrst

abbrev Bytes := List UInt8

abbrev Hash256 := List.Vector UInt8 32

abbrev Hash160 := List.Vector UInt8 20

/-- The functions that `bitrst-crypto` takes from `sha2`, `ripemd` and `secp256k1`. -/
class Crypto where
  sha256 : Bytes → Hash256
  ripemd160 : Bytes → Hash160
  /-- `Signature::from_der` succeeds. -/
  signatureFromDer : Bytes → Bool
  /-- `PublicKey::from_slice` succeeds. -/
  publicKeyFromSlice : Bytes → Bool
  /-- `verify_ecdsa` of a digest, a DER signature and a public key. -/
  verifyEcdsa : Hash256 → Bytes → Bytes → Bool

/-- Cargo features that change consensus constants. -/
class Features where
  testShortPeriod : Bool

def zeroHash : Hash256 := List.Vector.replicate 32 0

/-! ## Little-endian encodings -/

def u16ToLeBytes (x : UInt16) : Bytes := [x.toUInt8, (x >>> 8).toUInt8]

def u32ToLeBytes (x : UInt32) : Bytes :=
  [x.toUInt8, (x >>> 8).toUInt8, (x >>> 16).toUInt8, (x >>> 24).toUInt8]

def u64ToLeBytes (x : UInt64) : Bytes :=
  [x.toUInt8, (x >>> 8).toUInt8, (x >>> 16).toUInt8, (x >>> 24).toUInt8,
    (x >>> 32).toUInt8, (x >>> 40).toUInt8, (x >>> 48).toUInt8, (x >>> 56).toUInt8]

def i32ToLeBytes (x : Int32) : Bytes := u32ToLeBytes x.toUInt32

/-! ## Checked and saturating arithmetic -/

def checkedAddU64 (x y : UInt64) : Option UInt64 :=
  if x.toNat + y.toNat < 2 ^ 64 then some (x + y) else none

def checkedMulU64 (x y : UInt64) : Option UInt64 :=
  if x.toNat * y.toNat < 2 ^ 64 then some (x * y) else none

def saturatingAddU32 (x y : UInt32) : UInt32 :=
  if x.toNat + y.toNat < 2 ^ 32 then x + y else 0xffffffff

theorem le_saturatingAddU32 {x y z : UInt32} (h : x ≤ y) : x ≤ saturatingAddU32 y z := by
  rw [UInt32.le_iff_toNat_le] at h ⊢
  unfold saturatingAddU32
  split
  · rename_i hfits
    rw [UInt32.toNat_add, Nat.mod_eq_of_lt hfits]
    omega
  · have hlt := x.toNat_lt
    change x.toNat ≤ 0xffffffff
    omega

def saturatingSubU32 (x y : UInt32) : UInt32 :=
  if y ≤ x then x - y else 0

def saturatingMulU32 (x y : UInt32) : UInt32 :=
  if x.toNat * y.toNat < 2 ^ 32 then x * y else 0xffffffff

/-! ## Hash functions of `bitrst-crypto` -/

section Hashing

variable [Crypto]

def sha256d (data : Bytes) : Hash256 :=
  Crypto.sha256 (Crypto.sha256 data).toList

def hash160 (data : Bytes) : Hash160 :=
  Crypto.ripemd160 (Crypto.sha256 data).toList

inductive EcdsaVerifyError
  | invalidPublicKey
  | invalidSignature
  | verificationFailed
  deriving DecidableEq, Repr

/-- The last byte of the signature, its hash type, is split off and not looked at. -/
def verifyDerSignature (signatureWithHashtype pubkeyBytes : Bytes) (sighash : Hash256) :
    Except EcdsaVerifyError Unit :=
  if signatureWithHashtype.length < 2 then .error .invalidSignature
  else
    let der := signatureWithHashtype.take (signatureWithHashtype.length - 1)
    if !Crypto.signatureFromDer der then .error .invalidSignature
    else if !Crypto.publicKeyFromSlice pubkeyBytes then .error .invalidPublicKey
    else if Crypto.verifyEcdsa sighash der pubkeyBytes then .ok ()
    else .error .verificationFailed

end Hashing

end Bitrst
