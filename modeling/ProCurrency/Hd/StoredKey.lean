import Mathlib.Data.UInt
import Mathlib.Data.List.AList

/-!
# Extended keys

`CExtKeyPair` (key.h) and `CStoredExtKey` (extkey.h): the children of a key are told by 32-bit numbers, and bit 31
marks the hardened ones. The two counters of a stored key say which child is derived next.
-/

namespace ProCurrency

abbrev CKeyID := BitVec 160

instance : Std.TransOrd CKeyID := inferInstance

/-- What the extended keys use of `CPubKey` (`PK`) and `CKey` (`SK`). -/
structure KeyOps (PK SK : Type) where
  pubKeyDerive : PK → List UInt8 → UInt32 → Option PK
  keyDerive : SK → List UInt8 → UInt32 → Option SK
  getPubKey : SK → PK
  getID : PK → CKeyID

structure CExtKeyPair (PK SK : Type) where
  pubkey : PK
  key : Option SK
  vchChainCode : List UInt8

def MAX_DERIVE_TRIES : Nat := 16

def EAF_ACTIVE : UInt32 := 1
def EAF_IS_CRYPTED : UInt32 := 4
def EAF_RECEIVE_ON : UInt32 := 8

variable {PK SK T : Type}

namespace CExtKeyPair

def isValidV (kp : CExtKeyPair PK SK) : Bool := kp.key.isSome

def getID (ops : KeyOps PK SK) (kp : CExtKeyPair PK SK) : CKeyID := ops.getID kp.pubkey

def neutered (kp : CExtKeyPair PK SK) : CExtKeyPair PK SK := { kp with key := none }

/-- `Derive(CKey)`. -/
def deriveSecret (ops : KeyOps PK SK) (kp : CExtKeyPair PK SK) (nChild : UInt32) : Option SK :=
  kp.key.bind fun key => ops.keyDerive key kp.vchChainCode nChild

/-- `Derive(CPubKey)`. -/
def derivePubKey (ops : KeyOps PK SK) (kp : CExtKeyPair PK SK) (nChild : UInt32) : Option PK :=
  if nChild >>> 31 = 0 then ops.pubKeyDerive kp.pubkey kp.vchChainCode nChild
  else (kp.deriveSecret ops nChild).map ops.getPubKey

end CExtKeyPair

/-- Why `DeriveKey` fails. The last one has no text. -/
inductive DeriveError
  | noSecret
  | noMoreHardened
  | noMore
  | tries
deriving DecidableEq, Repr

/-- The number of the hardened child, `nChild | 1 << 31`. -/
def hardenedChild (nChild : UInt32) : UInt32 := nChild ||| 0x80000000

theorem top_bit_iff (n : UInt32) : n >>> 31 = 1 ↔ 2 ^ 31 ≤ n.toNat := by
  have hn := n.toNat_lt
  rw [← UInt32.toNat_inj, UInt32.toNat_shiftRight]
  simp [Nat.shiftRight_eq_div_pow]
  omega

theorem succ_toNat {n : UInt32} (hn : n.toNat ≤ 2 ^ 31) : (n + 1).toNat = n.toNat + 1 := by
  rw [UInt32.toNat_add]
  exact Nat.mod_eq_of_lt (show n.toNat + 1 < 2 ^ 32 by omega)

theorem top_bit_clear_iff (n : UInt32) : n >>> 31 = 0 ↔ n.toNat < 2 ^ 31 := by
  have hn := n.toNat_lt
  rw [← UInt32.toNat_inj, UInt32.toNat_shiftRight]
  simp [Nat.shiftRight_eq_div_pow]

theorem clear_top_toNat (n : UInt32) : (n &&& 0x7fffffff).toNat = n.toNat % 2 ^ 31 := by
  rw [UInt32.toNat_and]
  exact Nat.and_two_pow_sub_one_eq_mod n.toNat 31

theorem hardenedChild_toNat {n : UInt32} (hn : n.toNat < 2 ^ 31) :
    (hardenedChild n).toNat = 2 ^ 31 + n.toNat := by
  rw [hardenedChild, UInt32.toNat_or, Nat.or_comm]
  exact (Nat.shiftLeft_add_eq_or_of_lt hn 1).symm

structure CStoredExtKey (PK SK : Type) where
  kp : CExtKeyPair PK SK
  vchCryptedSecret : List UInt8 := []
  fLocked : Bool := false
  nFlags : UInt32 := 0
  nGenerated : UInt32 := 0
  nHGenerated : UInt32 := 0
  /-- `mapValue[EKVT_N_LOOKAHEAD]`, decoded. -/
  nLookAhead : Option UInt64 := none

namespace CStoredExtKey

/-- The loop of `DeriveKey`, over the tries that are left. -/
def deriveFrom (derive : CExtKeyPair PK SK → UInt32 → Option T) (sek : CStoredExtKey PK SK) (fHardened : Bool) :
    Nat → UInt32 → Except DeriveError (T × UInt32)
  | 0, _ => .error .tries
  | n + 1, nChildIn =>
      if nChildIn >>> 31 = 1 then .error (if fHardened then .noMoreHardened else .noMore)
      else
        let nNum := if fHardened then hardenedChild nChildIn else nChildIn
        match derive sek.kp nNum with
        | some keyOut => .ok (keyOut, nNum)
        | none => sek.deriveFrom derive fHardened n (nChildIn + 1)

/-- The key and its number, which has bit 31 set for a hardened key. -/
def deriveKey (derive : CExtKeyPair PK SK → UInt32 → Option T) (sek : CStoredExtKey PK SK) (nChildIn : UInt32)
    (fHardened : Bool) : Except DeriveError (T × UInt32) :=
  if fHardened ∧ ¬sek.kp.isValidV then .error .noSecret
  else sek.deriveFrom derive fHardened MAX_DERIVE_TRIES nChildIn

def setCounter (sek : CStoredExtKey PK SK) (nC : UInt32) (fHardened : Bool) : CStoredExtKey PK SK :=
  if fHardened then { sek with nHGenerated := nC } else { sek with nGenerated := nC }

def getCounter (sek : CStoredExtKey PK SK) (fHardened : Bool) : UInt32 :=
  if fHardened then sek.nHGenerated else sek.nGenerated

/-- The key, its number, and the stored key with its counter moved on. -/
def deriveNextKey (derive : CExtKeyPair PK SK → UInt32 → Option T) (sek : CStoredExtKey PK SK) (fHardened : Bool) :
    Except DeriveError (T × UInt32 × CStoredExtKey PK SK) :=
  match sek.deriveKey derive (sek.getCounter fHardened) fHardened with
  | .error e => .error e
  | .ok (keyOut, nChildOut) =>
      let nChild := nChildOut &&& 0x7fffffff
      .ok (keyOut, nChildOut, sek.setCounter (nChild + 1) fHardened)

/-- The record that is written for a stored key: the secret of an encrypted key stays out, and `fLocked` is not
part of it. -/
def serialized (sek : CStoredExtKey PK SK) : CStoredExtKey PK SK :=
  { sek with
    kp := if sek.vchCryptedSecret ≠ [] then sek.kp.neutered else sek.kp
    fLocked := false }

/-- Keys are looked ahead on the chains that are active and receive. -/
def receives (sek : CStoredExtKey PK SK) : Bool :=
  sek.nFlags &&& EAF_ACTIVE ≠ 0 ∧ sek.nFlags &&& EAF_RECEIVE_ON ≠ 0

/-! ## Derivation -/

variable {derive : CExtKeyPair PK SK → UInt32 → Option T} {sek : CStoredExtKey PK SK} {n : UInt32} {fHardened : Bool}

/-- The number that a child has: bit 31 is set for a hardened one. -/
def childNumber (n : UInt32) (fHardened : Bool) : UInt32 := if fHardened then hardenedChild n else n

/-- The child that is found is the first one that can be derived, from `n` on. -/
theorem of_deriveFrom {k : T} {tries : Nat} {m : UInt32}
    (h : sek.deriveFrom derive fHardened tries n = .ok (k, m)) :
    ∃ l, n.toNat ≤ l.toNat ∧ l.toNat < 2 ^ 31 ∧ m = childNumber l fHardened ∧ derive sek.kp m = some k := by
  induction tries generalizing n with
  | zero => cases h
  | succ tries ih =>
      rw [deriveFrom] at h
      split at h
      · cases h
      · rename_i htop
        have hlt : n.toNat < 2 ^ 31 := Nat.lt_of_not_le fun hle => htop ((top_bit_iff n).2 hle)
        simp only at h
        split at h
        · rename_i k' hk'
          cases h
          exact ⟨n, Nat.le_refl _, hlt, rfl, hk'⟩
        · obtain ⟨l, hle, hl⟩ := ih h
          rw [succ_toNat (Nat.le_of_lt hlt)] at hle
          exact ⟨l, Nat.le_of_succ_le hle, hl⟩

theorem deriveKey_of_top (derive : CExtKeyPair PK SK → UInt32 → Option T) (sek : CStoredExtKey PK SK)
    (fHardened : Bool) (hn : 2 ^ 31 ≤ n.toNat) : ∃ e, sek.deriveKey derive n fHardened = .error e := by
  unfold deriveKey
  split
  · exact ⟨_, rfl⟩
  · exact ⟨if fHardened then .noMoreHardened else .noMore, by
      rw [MAX_DERIVE_TRIES, deriveFrom, if_pos ((top_bit_iff n).2 hn)]⟩

theorem deriveKey_of_some {k : T} (hn : n.toNat < 2 ^ 31) (hv : fHardened → sek.kp.isValidV)
    (hk : derive sek.kp (childNumber n fHardened) = some k) :
    sek.deriveKey derive n fHardened = .ok (k, childNumber n fHardened) := by
  have htop : ¬n >>> 31 = 1 := by rw [top_bit_iff]; omega
  rw [deriveKey, if_neg (fun h => h.2 (hv h.1)), MAX_DERIVE_TRIES, deriveFrom, if_neg htop]
  simp only [childNumber] at hk
  simp only [hk, childNumber]

theorem childNumber_clear (hn : n.toNat < 2 ^ 31) : childNumber n fHardened &&& 0x7fffffff = n := by
  rw [← UInt32.toNat_inj, clear_top_toNat]
  cases fHardened with
  | false => exact Nat.mod_eq_of_lt hn
  | true =>
      rw [childNumber, if_pos rfl, hardenedChild_toNat hn]
      omega

theorem deriveNextKey_of_some {k : T} (hn : (sek.getCounter fHardened).toNat < 2 ^ 31)
    (hv : fHardened → sek.kp.isValidV)
    (hk : derive sek.kp (childNumber (sek.getCounter fHardened) fHardened) = some k) :
    sek.deriveNextKey derive fHardened =
      .ok (k, childNumber (sek.getCounter fHardened) fHardened,
        sek.setCounter (sek.getCounter fHardened + 1) fHardened) := by
  rw [deriveNextKey, deriveKey_of_some hn hv hk]
  simp only [childNumber_clear hn]

/-- `DeriveNextKey` changes the counter only, which errors put back. -/
theorem deriveNextKey_back {k : T} {m : UInt32} {sek' : CStoredExtKey PK SK}
    (h : sek.deriveNextKey derive fHardened = .ok (k, m, sek')) :
    sek'.setCounter (sek.getCounter fHardened) fHardened = sek := by
  unfold deriveNextKey at h
  split at h
  · cases h
  · cases h
    cases fHardened <;> rfl

/-- The key that is derived next is the first one from the counter on, and the counter moves past it. -/
theorem of_deriveNextKey {k : T} {m : UInt32} {sek' : CStoredExtKey PK SK}
    (h : sek.deriveNextKey derive fHardened = .ok (k, m, sek')) :
    ∃ l, (sek.getCounter fHardened).toNat ≤ l.toNat ∧ l.toNat < 2 ^ 31 ∧ m = childNumber l fHardened ∧
      derive sek.kp m = some k ∧ sek' = sek.setCounter (l + 1) fHardened := by
  unfold deriveNextKey at h
  split at h
  · cases h
  · rename_i hder
    rw [deriveKey] at hder
    split at hder
    · cases hder
    · obtain ⟨l, hle, hlt, rfl, hk⟩ := of_deriveFrom hder
      cases h
      exact ⟨l, hle, hlt, rfl, hk, by rw [childNumber_clear hlt]⟩

theorem of_deriveNextKey_hardened {k : T} {m : UInt32} {sek' : CStoredExtKey PK SK}
    (h : sek.deriveNextKey derive true = .ok (k, m, sek')) : sek.kp.isValidV ∧ sek.nHGenerated.toNat < 2 ^ 31 := by
  unfold deriveNextKey at h
  split at h
  · cases h
  · rename_i hder
    refine ⟨?_, Nat.lt_of_not_le fun htop => ?_⟩
    · rw [deriveKey] at hder
      split at hder
      · cases hder
      · rename_i hv
        exact Bool.of_not_eq_false fun hf => hv ⟨rfl, by rw [hf]; decide⟩
    · obtain ⟨e, he⟩ := deriveKey_of_top derive sek true htop
      rw [getCounter, if_pos rfl, he] at hder
      cases hder

theorem deriveNextKey_of_top (derive : CExtKeyPair PK SK → UInt32 → Option T) {sek : CStoredExtKey PK SK}
    (hn : 2 ^ 31 ≤ (sek.getCounter fHardened).toNat) : ∃ e, sek.deriveNextKey derive fHardened = .error e := by
  obtain ⟨e, he⟩ := deriveKey_of_top derive sek fHardened hn
  exact ⟨e, by rw [deriveNextKey, he]⟩

end CStoredExtKey

/-- Numbers as keys: child `n` of a key holds the key above the 32 bits of `n`. -/
def numberKeys : KeyOps Nat Nat where
  pubKeyDerive pk _ n := some (pk * 2 ^ 32 + n.toNat)
  keyDerive sk _ n := some (sk * 2 ^ 32 + n.toNat)
  getPubKey sk := sk
  getID pk := BitVec.ofNat 160 pk

end ProCurrency
