import Mathlib.GroupTheory.OrderOfElement
import ProCurrency.Base.BigNum
import ProCurrency.Base.PubKey
import ProCurrency.Hd.StoredKey

/-!
# Deriving extended keys

`CKey`, `CExtKey` and `CExtKeyPair` (key.h, key.cpp), `CPubKey` and `CExtPubKey` (pubkey.h, pubkey.cpp). The curve is
a group with a generator, and the hashes are functions. A derivation that returns false, or that fails an assertion,
is `none`.
-/

namespace ProCurrency

open CBigNum

/-- secp256k1, as libsecp256k1 and OpenSSL have it, and the hashes of hash.cpp. A point other than the neutral one is
read back from its bytes, which begin with the byte that tells their number. -/
structure CurveEnv (G : Type) [AddCommGroup G] where
  generator : G
  order : Nat
  serialize : G → Bool → Bytes
  parse : Bytes → Option G
  bip32Hash : Bytes → UInt32 → UInt8 → Bytes → Bytes
  hash160 : Bytes → CKeyID
  addOrderOf_generator : addOrderOf generator = order
  prime_order : order.Prime
  order_le : order ≤ 256 ^ 32
  length_serialize : ∀ P fCompressed, (serialize P fCompressed).length = if fCompressed then 33 else 65
  header_serialize : ∀ P fCompressed,
    CPubKey.getLen ((serialize P fCompressed).headD 0) = (serialize P fCompressed).length
  parse_serialize : ∀ P fCompressed, P ≠ 0 → parse (serialize P fCompressed) = some P

variable {G : Type} [AddCommGroup G] (curve : CurveEnv G)

/-- A valid private key. `vch` is its number, with the most significant byte first. -/
structure CKey (order : Nat) where
  fCompressed : Bool
  secret : Nat
  pos : 0 < secret
  lt : secret < order
deriving DecidableEq

namespace CKey

variable {order : Nat}

def vch (key : CKey order) : Bytes := beBytes 32 key.secret

/-- `Set`: the bytes of a number that is no private key give none. -/
def ofNat (order secret : Nat) (fCompressed : Bool) : Option (CKey order) :=
  if h : 0 < secret ∧ secret < order then some ⟨fCompressed, secret, h.1, h.2⟩ else none

end CKey

namespace CurveEnv

def getID (pubkey : CPubKey) : CKeyID := curve.hash160 pubkey

/-- `CKey::GetPubKey()`, by libsecp256k1. -/
def getPubKey (key : CKey curve.order) : CPubKey := curve.serialize (key.secret • curve.generator) key.fCompressed

/-- `CKey::GetPubKey(fForceCompressed)`, by OpenSSL: the bytes come through a vector. -/
def getPubKeyForced (key : CKey curve.order) (fForceCompressed : Bool) : CPubKey :=
  CPubKey.set (curve.serialize (ofBeBytes key.vch • curve.generator) fForceCompressed)

/-- `secp256k1_scalar_set_b32`, with `none` where it overflows. -/
def scalar (b32 : Bytes) : Option Nat := if curve.order ≤ ofBeBytes b32 then none else some (ofBeBytes b32)

/-- `secp256k1_ec_privkey_tweak_add`. -/
def privkeyTweakAdd (secret : Nat) (tweak : Bytes) : Option Nat :=
  match curve.scalar tweak with
  | none => none
  | some term => if (secret + term) % curve.order = 0 then none else some ((secret + term) % curve.order)

/-- `secp256k1_ec_pubkey_tweak_add`. -/
def pubkeyTweakAdd [DecidableEq G] (pubkey : G) (tweak : Bytes) : Option G :=
  match curve.scalar tweak with
  | none => none
  | some term => if pubkey + term • curve.generator = 0 then none else some (pubkey + term • curve.generator)

/-- `CKey::Derive`: the child and `ccChild`. -/
def keyDerive (key : CKey curve.order) (cc : Bytes) (nChild : UInt32) : Option (CKey curve.order × Bytes) :=
  if !key.fCompressed then none
  else
    let pubkey := curve.getPubKey key
    if nChild >>> 31 = 0 ∧ pubkey.length ≠ 33 then none
    else
      let out :=
        if nChild >>> 31 = 0 then curve.bip32Hash cc nChild (pubkey.headD 0) (pubkey.drop 1)
        else curve.bip32Hash cc nChild 0 key.vch
      match curve.privkeyTweakAdd key.secret (out.take 32) with
      | none => none
      | some secret => (CKey.ofNat curve.order secret true).map (·, (out.drop 32).take 32)

/-- `CPubKey::Derive`: the child and `ccChild`. -/
def pubKeyDerive [DecidableEq G] (pubkey : CPubKey) (cc : Bytes) (nChild : UInt32) : Option (CPubKey × Bytes) :=
  if !pubkey.isValid then none
  else if nChild >>> 31 ≠ 0 then none
  else if pubkey.length ≠ 33 then none
  else
    let out := curve.bip32Hash cc nChild (pubkey.headD 0) (pubkey.drop 1)
    match curve.parse pubkey with
    | none => none
    | some P =>
        match curve.pubkeyTweakAdd P (out.take 32) with
        | none => none
        | some P => some (CPubKey.set (curve.serialize P true), (out.drop 32).take 32)

/-- What the wallet's extended keys use of the two. -/
def keyOps [DecidableEq G] : KeyOps CPubKey (CKey curve.order) where
  pubKeyDerive pubkey cc nChild := (curve.pubKeyDerive pubkey cc nChild).map Prod.fst
  keyDerive key cc nChild := (curve.keyDerive key cc nChild).map Prod.fst
  getPubKey key := curve.getPubKeyForced key true
  getID := curve.getID

end CurveEnv

/-! ## Extended keys -/

structure CExtPubKey where
  nDepth : UInt8
  vchFingerprint : Bytes
  nChild : UInt32
  vchChainCode : Bytes
  pubkey : CPubKey
deriving DecidableEq

structure CExtKey (order : Nat) where
  nDepth : UInt8
  vchFingerprint : Bytes
  nChild : UInt32
  vchChainCode : Bytes
  key : CKey order
deriving DecidableEq

/-- The first four bytes of the id. -/
def fingerprintOf (id : CKeyID) : Bytes := ByteCodec.leBytes 4 id.toNat

namespace CExtPubKey

def derive [DecidableEq G] (epk : CExtPubKey) (nChild : UInt32) : Option CExtPubKey :=
  (curve.pubKeyDerive epk.pubkey epk.vchChainCode nChild).map fun (pubkey, vchChainCode) =>
    { nDepth := epk.nDepth + 1, vchFingerprint := fingerprintOf (curve.getID epk.pubkey), nChild, vchChainCode, pubkey }

end CExtPubKey

namespace CExtKey

def derive (evk : CExtKey curve.order) (nChild : UInt32) : Option (CExtKey curve.order) :=
  (curve.keyDerive evk.key evk.vchChainCode nChild).map fun (key, vchChainCode) =>
    { nDepth := evk.nDepth + 1
      vchFingerprint := fingerprintOf (curve.getID (curve.getPubKey evk.key))
      nChild
      vchChainCode
      key }

def neutered (evk : CExtKey curve.order) : CExtPubKey where
  nDepth := evk.nDepth
  vchFingerprint := evk.vchFingerprint
  nChild := evk.nChild
  vchChainCode := evk.vchChainCode
  pubkey := curve.getPubKey evk.key

end CExtKey

/-- `CExtKeyPair`, with the fields that its serialization has besides the keys. -/
structure ExtKeyPair (order : Nat) extends CExtKeyPair CPubKey (CKey order) where
  nDepth : UInt8
  vchFingerprint : Bytes
  nChild : UInt32

namespace ExtKeyPair

/-- `CExtKeyPair(CExtKey &vk)`. -/
def ofExtKey (vk : CExtKey curve.order) : ExtKeyPair curve.order where
  pubkey := curve.getPubKey vk.key
  key := some vk.key
  vchChainCode := vk.vchChainCode
  nDepth := vk.nDepth
  vchFingerprint := vk.vchFingerprint
  nChild := vk.nChild

/-- `GetExtKey`; an invalid key gives no valid one. -/
def getExtKey {order : Nat} (kp : ExtKeyPair order) : Option (CExtKey order) :=
  kp.key.map fun key =>
    { nDepth := kp.nDepth
      vchFingerprint := kp.vchFingerprint
      nChild := kp.nChild
      vchChainCode := kp.vchChainCode
      key }

/-- `DecodeP` of what `CExtPubKey::Encode` gives. -/
def ofExtPubKey (order : Nat) (epk : CExtPubKey) : ExtKeyPair order where
  pubkey := epk.pubkey
  key := none
  vchChainCode := epk.vchChainCode
  nDepth := epk.nDepth
  vchFingerprint := epk.vchFingerprint
  nChild := epk.nChild

variable {order : Nat}

def getExtPubKey (kp : ExtKeyPair order) : CExtPubKey where
  nDepth := kp.nDepth
  vchFingerprint := kp.vchFingerprint
  nChild := kp.nChild
  vchChainCode := kp.vchChainCode
  pubkey := kp.pubkey

def neutered (kp : ExtKeyPair order) : ExtKeyPair order := { kp with toCExtKeyPair := kp.toCExtKeyPair.neutered }

/-- `Derive(CExtKey)`. -/
def deriveExtKey (kp : ExtKeyPair curve.order) (nChild : UInt32) : Option (CExtKey curve.order) :=
  match kp.key with
  | none => none
  | some key =>
      (curve.keyDerive key kp.vchChainCode nChild).map fun (keyChild, vchChainCode) =>
        { nDepth := kp.nDepth + 1
          vchFingerprint := fingerprintOf (curve.getID (curve.getPubKey key))
          nChild
          vchChainCode
          key := keyChild }

/-- `Derive(CExtPubKey)`. -/
def deriveExtPubKey [DecidableEq G] (kp : ExtKeyPair curve.order) (nChild : UInt32) : Option CExtPubKey :=
  let out (pubkey : CPubKey) (vchChainCode : Bytes) : CExtPubKey :=
    { nDepth := kp.nDepth + 1, vchFingerprint := fingerprintOf (curve.getID kp.pubkey), nChild, vchChainCode, pubkey }
  if nChild >>> 31 = 0 then
    (curve.pubKeyDerive kp.pubkey kp.vchChainCode nChild).map fun (pubkey, cc) => out pubkey cc
  else
    match kp.key with
    | none => none
    | some key =>
        (curve.keyDerive key kp.vchChainCode nChild).map fun (tkey, cc) => out (curve.getPubKeyForced tkey true) cc

end ExtKeyPair

end ProCurrency

/-!
## Keys on the curve
-/

namespace ProCurrency.CurveEnv

open CBigNum

variable {G : Type} [AddCommGroup G] {curve : CurveEnv G}

theorem smul_add_mod (secret term : Nat) :
    ((secret + term) % curve.order) • curve.generator = secret • curve.generator + term • curve.generator := by
  rw [← curve.addOrderOf_generator, mod_addOrderOf_nsmul, add_nsmul]

theorem smul_eq_zero_iff (n : Nat) : n • curve.generator = 0 ↔ n % curve.order = 0 := by
  rw [← addOrderOf_dvd_iff_nsmul_eq_zero, curve.addOrderOf_generator, Nat.dvd_iff_mod_eq_zero]

theorem smul_secret_ne_zero (key : CKey curve.order) : key.secret • curve.generator ≠ 0 := by
  rw [ne_eq, smul_eq_zero_iff, Nat.mod_eq_of_lt key.lt]
  exact Nat.ne_of_gt key.pos

theorem set_serialize (P : G) (fCompressed : Bool) :
    CPubKey.set (curve.serialize P fCompressed) = curve.serialize P fCompressed := by
  have hlength := curve.length_serialize P fCompressed
  have hheader := curve.header_serialize P fCompressed
  cases hbytes : curve.serialize P fCompressed with
  | nil => rfl
  | cons chHeader vch =>
      rw [hbytes] at hlength hheader
      have hne : (chHeader :: vch).length ≠ 0 := Nat.succ_ne_zero _
      have hgood : CPubKey.getLen chHeader ≠ 0 ∧ CPubKey.getLen chHeader = (chHeader :: vch).length :=
        ⟨fun h => hne (hheader.symm.trans h), hheader⟩
      rw [CPubKey.set, if_pos hgood]

/-! ## Private and public keys -/

variable {key key' : CKey curve.order}

theorem ofBeBytes_vch (key : CKey curve.order) : ofBeBytes key.vch = key.secret := by
  rw [CKey.vch, ofBeBytes_beBytes, Nat.mod_eq_of_lt (Nat.lt_of_lt_of_le key.lt curve.order_le)]

theorem isCompressed_getPubKey (key : CKey curve.order) :
    CPubKey.isCompressed (curve.getPubKey key) = key.fCompressed := by
  have hlength := curve.length_serialize (key.secret • curve.generator) key.fCompressed
  rw [CPubKey.isCompressed, getPubKey, hlength]
  cases key.fCompressed <;> rfl

/-- A public key has one secret. -/
theorem secret_eq_of_getPubKey (h : curve.getPubKey key = curve.getPubKey key') : key.secret = key'.secret := by
  have hpoint := curve.parse_serialize _ key.fCompressed (smul_secret_ne_zero key)
  have hpoint' := curve.parse_serialize _ key'.fCompressed (smul_secret_ne_zero key')
  rw [getPubKey, getPubKey] at h
  rw [h, hpoint', Option.some.injEq] at hpoint
  have hlt : ∀ k : CKey curve.order, k.secret < addOrderOf curve.generator := fun k => by
    rw [curve.addOrderOf_generator]
    exact k.lt
  exact nsmul_injOn_Iio_addOrderOf (hlt key) (hlt key') hpoint.symm

end ProCurrency.CurveEnv
