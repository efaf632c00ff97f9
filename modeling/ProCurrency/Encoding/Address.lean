import ProCurrency.Base.Params
import ProCurrency.Encoding.Base58
import ProCurrency.Hd.StoredKey

/-!
# Addresses

`CBitcoinAddress` (base58.h, base58.cpp): a version and the data, as a text with a checksum. `SetString` looks for the
four bytes of an extended key before it has decoded anything, so its version always has one byte.
-/

namespace ProCurrency

open ByteCodec

/-! ## Prefixes -/

namespace Network

/-- `base58Prefixes[PUBKEY_ADDRESS]`; `CRegTestParams` has those of `CTestNetParams`. -/
def pubkeyAddress : Network → Bytes
  | main => [55]
  | testnet | regtest => [127]

def scriptAddress : Network → Bytes
  | main => [119]
  | testnet | regtest => [196]

def extPublicKey : Network → Bytes
  | main => [0x04, 0x88, 0xB2, 0x1E]
  | testnet | regtest => [0x04, 0x35, 0x87, 0xCF]

def extSecretKey : Network → Bytes
  | main => [0x04, 0x88, 0xAD, 0xE4]
  | testnet | regtest => [0x04, 0x35, 0x83, 0x94]

end Network

def BIP32_KEY_N_BYTES : Nat := 74

/-- The 20 bytes of `uint160`. -/
def writeKeyID (id : CKeyID) : Bytes := leBytes 20 id.toNat

def readKeyID (bs : Bytes) : CKeyID := BitVec.ofNat 160 (ofLeBytes bs)

structure CBitcoinAddress where
  vchVersion : Bytes
  vchData : Bytes
deriving DecidableEq

namespace CBitcoinAddress

/-- `Set(const CKeyID&)`. -/
def setKeyID (net : Network) (id : CKeyID) : CBitcoinAddress := ⟨net.pubkeyAddress, writeKeyID id⟩

def setString (hash : Bytes → UInt256) (str : Bytes) : Option CBitcoinAddress :=
  match decodeBase58Check hash str with
  | none => none
  | some vchTemp => if vchTemp.length < 1 then none else some ⟨vchTemp.take 1, vchTemp.drop 1⟩

/-- `ToString`; `none` when an assertion of `EncodeBase58` fails. -/
def toString (hash : Bytes → UInt256) (addr : CBitcoinAddress) : Option Bytes :=
  encodeBase58Check hash (addr.vchVersion ++ addr.vchData)

def isValid (net : Network) (addr : CBitcoinAddress) : Bool :=
  if addr.vchVersion.length = 4 ∧ (addr.vchVersion = net.extPublicKey ∨ addr.vchVersion = net.extSecretKey) then
    addr.vchData.length = BIP32_KEY_N_BYTES
  else
    addr.vchData.length = 20 && (addr.vchVersion = net.pubkeyAddress || addr.vchVersion = net.scriptAddress)

def getKeyID (net : Network) (addr : CBitcoinAddress) : Option CKeyID :=
  if !addr.isValid net || addr.vchVersion ≠ net.pubkeyAddress then none else some (readKeyID (addr.vchData.take 20))

end CBitcoinAddress

/-! ## Key ids -/

variable {net : Network} {hash : Bytes → UInt256} {addr : CBitcoinAddress} {id : CKeyID} {str : Bytes}

@[simp] theorem length_writeKeyID (id : CKeyID) : (writeKeyID id).length = 20 := length_leBytes 20 _

@[simp] theorem readKeyID_writeKeyID (id : CKeyID) : readKeyID (writeKeyID id) = id := by
  have hlt : id.toNat < 256 ^ 20 := Nat.lt_of_lt_of_eq id.isLt (by decide)
  rw [readKeyID, writeKeyID, ofLeBytes_leBytes hlt, BitVec.ofNat_toNat, BitVec.setWidth_eq]

theorem writeKeyID_readKeyID {bs : Bytes} (h : bs.length = 20) : writeKeyID (readKeyID bs) = bs := by
  have hlt : ofLeBytes bs < 2 ^ 160 := by
    have hbs := ofLeBytes_lt bs
    rw [h] at hbs
    exact Nat.lt_of_lt_of_eq hbs (by decide)
  rw [writeKeyID, readKeyID, BitVec.toNat_ofNat, Nat.mod_eq_of_lt hlt, ← h, leBytes_ofLeBytes]

theorem writeKeyID_injective {id id' : CKeyID} (h : writeKeyID id = writeKeyID id') : id = id' := by
  rw [← readKeyID_writeKeyID id, h, readKeyID_writeKeyID]

/-! ## Addresses of keys -/

namespace CBitcoinAddress

@[simp] theorem isValid_setKeyID (net : Network) (id : CKeyID) : (setKeyID net id).isValid net = true := by
  rw [isValid, setKeyID, length_writeKeyID]
  cases net <;> rfl

@[simp] theorem getKeyID_setKeyID (net : Network) (id : CKeyID) : (setKeyID net id).getKeyID net = some id := by
  have htake : (setKeyID net id).vchData.take 20 = writeKeyID id := List.take_of_length_le (by simp [setKeyID])
  rw [getKeyID, isValid_setKeyID, htake, readKeyID_writeKeyID]
  simp [setKeyID]

/-- An address with a key id is the address that is set from it. -/
theorem eq_setKeyID (h : addr.getKeyID net = some id) : addr = setKeyID net id := by
  rw [getKeyID] at h
  split at h
  · nomatch h
  · rename_i hcond
    simp only [Bool.or_eq_true, Bool.not_eq_true', decide_eq_true_eq, not_or, Bool.not_eq_false, not_not] at hcond
    obtain ⟨hvalid, hversion⟩ := hcond
    have hlen : addr.vchData.length = 20 := by
      rw [isValid, hversion] at hvalid
      cases net <;> simp_all [Network.pubkeyAddress, Network.extPublicKey, Network.extSecretKey]
    rw [List.take_of_length_le (Nat.le_of_eq hlen)] at h
    obtain rfl := Option.some.inj h
    rw [setKeyID, writeKeyID_readKeyID hlen, ← hversion]

theorem setKeyID_injective {id id' : CKeyID} (h : setKeyID net id = setKeyID net id') : id = id' :=
  writeKeyID_injective (congrArg vchData h)

theorem exists_toString (hash : Bytes → UInt256) (addr : CBitcoinAddress) : ∃ str, addr.toString hash = some str :=
  ⟨_, encodeBase58_eq _⟩

/-- The text of a key's address is read back as that address. -/
theorem setString_toString (h : (setKeyID net id).toString hash = some str) :
    setString hash str = some (setKeyID net id) := by
  have hhead : (net.pubkeyAddress ++ writeKeyID id ++
      checksum58 hash (net.pubkeyAddress ++ writeKeyID id)).head? ≠ some 0 := by
    cases net <;> simp [Network.pubkeyAddress]
  have hdecode : decodeBase58Check hash str = some (net.pubkeyAddress ++ writeKeyID id) :=
    (decodeBase58Check_iff hash h).2 hhead
  rw [setString, hdecode]
  cases net <;> rfl

end CBitcoinAddress

end ProCurrency
