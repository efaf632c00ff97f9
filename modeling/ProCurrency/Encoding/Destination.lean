import ProCurrency.Encoding.Address
import ProCurrency.Encoding.StealthAddress
import ProCurrency.Hd.Watching

/-!
# Destinations

`CTxDestination` (script.h) and the addresses that are set from one (base58.h), with the 74 bytes of an extended key
(key.cpp). `SetString` is to choose between a version of one byte and one of four.
-/

namespace ProCurrency

open ByteCodec CBigNum

/-! ## The bytes of an extended key -/

namespace ExtKeyPair

variable {order : Nat}

/-- What `EncodeV` and `EncodeP` begin with. -/
def encodeHead (kp : ExtKeyPair order) : Bytes :=
  kp.nDepth :: kp.vchFingerprint ++ beBytes 4 kp.nChild.toNat ++ kp.vchChainCode

/-- `none` when `key.size()` is not 32. -/
def encodeV (kp : ExtKeyPair order) : Option Bytes := kp.key.map fun key => kp.encodeHead ++ 0 :: key.vch

/-- `none` when `pubkey.size()` is not 33. -/
def encodeP (kp : ExtKeyPair order) : Option Bytes :=
  if kp.pubkey.length = 33 then some (kp.encodeHead ++ kp.pubkey) else none

/-- `DecodeV`; an invalid key fails the assertion of `GetPubKey`. -/
def decodeV {G : Type} [AddCommGroup G] (curve : CurveEnv G) (code : Bytes) : Option (ExtKeyPair curve.order) :=
  (CKey.ofNat curve.order (ofBeBytes ((code.drop 42).take 32)) true).map fun key =>
    { nDepth := code.getD 0 0
      vchFingerprint := (code.drop 1).take 4
      nChild := UInt32.ofNat (ofBeBytes ((code.drop 5).take 4))
      vchChainCode := (code.drop 9).take 32
      key := some key
      pubkey := curve.getPubKeyForced key true }

def decodeP (order : Nat) (code : Bytes) : ExtKeyPair order where
  nDepth := code.getD 0 0
  vchFingerprint := (code.drop 1).take 4
  nChild := UInt32.ofNat (ofBeBytes ((code.drop 5).take 4))
  vchChainCode := (code.drop 9).take 32
  key := none
  pubkey := CPubKey.set ((code.drop 41).take 33)

/-- The fields have the sizes of the source's arrays, and the key is one that `CPubKey` can hold. -/
structure Sized (kp : ExtKeyPair order) : Prop where
  vchFingerprint : kp.vchFingerprint.length = 4
  vchChainCode : kp.vchChainCode.length = 32
  pubkey : CPubKey.set kp.pubkey = kp.pubkey

theorem ofBeBytes_beBytes_uInt32 (n : UInt32) : UInt32.ofNat (ofBeBytes (beBytes 4 n.toNat)) = n := by
  rw [ofBeBytes_beBytes, Nat.mod_eq_of_lt (Nat.lt_of_lt_of_eq n.toNat_lt (by decide))]
  exact UInt32.ofNat_toNat

/-- The fields in front are read from where they are written. -/
theorem fields_encodeHead {kp : ExtKeyPair order} (hfingerprint : kp.vchFingerprint.length = 4)
    (hchainCode : kp.vchChainCode.length = 32) (rest : Bytes) :
    (kp.encodeHead ++ rest).getD 0 0 = kp.nDepth ∧ ((kp.encodeHead ++ rest).drop 1).take 4 = kp.vchFingerprint ∧
      ((kp.encodeHead ++ rest).drop 5).take 4 = beBytes 4 kp.nChild.toNat ∧
      ((kp.encodeHead ++ rest).drop 9).take 32 = kp.vchChainCode ∧ (kp.encodeHead ++ rest).drop 41 = rest := by
  have hchild : (beBytes 4 kp.nChild.toNat).length = 4 := length_beBytes 4 _
  have hsplit : kp.encodeHead ++ rest =
      kp.nDepth :: (kp.vchFingerprint ++ (beBytes 4 kp.nChild.toNat ++ (kp.vchChainCode ++ rest))) := by
    simp [encodeHead]
  have hdrop5 : (kp.encodeHead ++ rest).drop 5 = beBytes 4 kp.nChild.toNat ++ (kp.vchChainCode ++ rest) := by
    rw [hsplit]
    exact List.drop_left' hfingerprint
  have hdrop9 : (kp.encodeHead ++ rest).drop (5 + 4) = kp.vchChainCode ++ rest := by
    rw [← List.drop_drop, hdrop5, List.drop_left' hchild]
  have hdrop41 : (kp.encodeHead ++ rest).drop (5 + 4 + 32) = rest := by
    rw [← List.drop_drop, hdrop9, List.drop_left' hchainCode]
  refine ⟨?_, ?_, ?_, ?_, hdrop41⟩
  · rw [hsplit]
    rfl
  · rw [hsplit]
    exact List.take_left' hfingerprint
  · rw [hdrop5, List.take_left' hchild]
  · rw [hdrop9, List.take_left' hchainCode]

/-- Only the secret is lost when the public form is written and read. -/
theorem decodeP_encodeP {kp : ExtKeyPair order} {code : Bytes} (hkp : kp.Sized) (h : kp.encodeP = some code) :
    code.length = BIP32_KEY_N_BYTES ∧ decodeP order code = kp.neutered := by
  rw [encodeP] at h
  split_ifs at h with hpubkey
  cases h
  obtain ⟨hfingerprint, hchainCode, hset⟩ := hkp
  constructor
  · simp [encodeHead, hfingerprint, hchainCode, hpubkey]
    rfl
  · obtain ⟨hDepth, hreadFingerprint, hchild, hreadCode, hrest⟩ := fields_encodeHead hfingerprint hchainCode kp.pubkey
    rw [decodeP, hDepth, hreadFingerprint, hchild, hreadCode, hrest, ofBeBytes_beBytes_uInt32,
      List.take_of_length_le (Nat.le_of_eq hpubkey), hset]
    rfl

end ExtKeyPair

/-- `CTxDestination`. -/
inductive Destination (order : Nat)
  | noDestination
  | keyID (id : CKeyID)
  | scriptID (id : CKeyID)
  | stealthAddress (sxAddr : CStealthAddress)
  | extKeyPair (ek : ExtKeyPair order)

namespace CBitcoinAddress

variable {G : Type} [AddCommGroup G] (curve : CurveEnv G) (net : Network) (hash : Bytes → UInt256)

/-- `Set(const CScriptID&)`. -/
def setScriptID (id : CKeyID) : CBitcoinAddress := ⟨net.scriptAddress, writeKeyID id⟩

/-- `Set(const CExtKeyPair&)`. -/
def setExtKeyPair {order : Nat} (ek : ExtKeyPair order) : Option CBitcoinAddress :=
  ek.encodeP.map fun data => ⟨net.extPublicKey, data⟩

/-- `CBitcoinAddressVisitor`; `none` when it returns false. -/
def set {order : Nat} : Destination order → Option CBitcoinAddress
  | .noDestination => none
  | .keyID id => some (setKeyID net id)
  | .scriptID id => some (setScriptID net id)
  | .stealthAddress _ => none
  | .extKeyPair ek => setExtKeyPair net ek

/-- `Get`; `none` when an assertion fails. -/
def get (addr : CBitcoinAddress) : Option (Destination curve.order) :=
  if !addr.isValid net then some .noDestination
  else if addr.vchVersion = net.pubkeyAddress then some (.keyID (readKeyID (addr.vchData.take 20)))
  else if addr.vchVersion = net.scriptAddress then some (.scriptID (readKeyID (addr.vchData.take 20)))
  else if addr.vchVersion = net.extSecretKey then (ExtKeyPair.decodeV curve addr.vchData).map .extKeyPair
  else if addr.vchVersion = net.extPublicKey then some (.extKeyPair (ExtKeyPair.decodeP _ addr.vchData))
  else some .noDestination

/-- `SetString(psz, nVersionBytes)`. The first test is about `vchTemp` as it is before the text is decoded. -/
def setStringVersion (str : Bytes) (nVersionBytes : Nat) : Option CBitcoinAddress :=
  let vchTemp : Bytes := []
  if vchTemp.length = BIP32_KEY_N_BYTES + 4 ∧ vchTemp.take 4 ≠ net.extPublicKey ∧ vchTemp.take 4 = net.extSecretKey then
    (ExtKeyPair.decodeV curve (vchTemp.drop 4)).bind (setExtKeyPair net)
  else
    let nVersionBytes :=
      if vchTemp.length = BIP32_KEY_N_BYTES + 4 ∧ vchTemp.take 4 = net.extPublicKey then 4 else nVersionBytes
    match decodeBase58Check hash str with
    | none => none
    | some vchTemp =>
        if vchTemp.length < nVersionBytes then none
        else some ⟨vchTemp.take nVersionBytes, vchTemp.drop nVersionBytes⟩

variable {curve net hash} {addr : CBitcoinAddress} {dest : Destination curve.order} {str bytes : Bytes}

theorem setStringVersion_one : setStringVersion curve net hash str 1 = setString hash str := by
  have hsecret : ¬(([] : Bytes).length = BIP32_KEY_N_BYTES + 4 ∧ ([] : Bytes).take 4 ≠ net.extPublicKey ∧
      ([] : Bytes).take 4 = net.extSecretKey) := fun h => absurd h.1 (by decide)
  have hpublic : ¬(([] : Bytes).length = BIP32_KEY_N_BYTES + 4 ∧ ([] : Bytes).take 4 = net.extPublicKey) :=
    fun h => absurd h.1 (by decide)
  unfold setStringVersion setString
  dsimp only
  rw [if_neg hsecret]
  cases decodeBase58Check hash str with
  | none => rfl
  | some vchTemp =>
      exact congrArg (fun n : Nat => if vchTemp.length < n then none
        else some (CBitcoinAddress.mk (vchTemp.take n) (vchTemp.drop n))) (if_neg hpublic)

/-! ## What is read back -/

/-- The bytes of an extended secret key. -/
def EncodesSecret (curve : CurveEnv G) (net : Network) (bytes : Bytes) : Prop :=
  ∃ (ek : ExtKeyPair curve.order) (code : Bytes), ek.encodeV = some code ∧ bytes = net.extSecretKey ++ code

/-- The version and the data are those of an extended secret key. -/
def HoldsSecret (curve : CurveEnv G) (net : Network) (addr : CBitcoinAddress) : Prop :=
  EncodesSecret curve net (addr.vchVersion ++ addr.vchData)

theorem setString_eq_some : setString hash str = some addr ↔
    decodeBase58Check hash str = some (addr.vchVersion ++ addr.vchData) ∧ addr.vchVersion.length = 1 := by
  rw [setString]
  cases decodeBase58Check hash str with
  | none => simp
  | some vchTemp =>
      dsimp only
      rw [Option.some.injEq]
      constructor
      · intro h
        split_ifs at h with hshort
        cases h
        refine ⟨(List.take_append_drop 1 vchTemp).symm, ?_⟩
        rw [List.length_take]
        omega
      · rintro ⟨rfl, hversion⟩
        rw [if_neg (by rw [List.length_append]; omega), List.take_left' hversion, List.drop_left' hversion]

/-- The text of an address with a version that has no zero in front is decoded to its bytes. -/
theorem decodeBase58Check_toString (hhead : addr.vchVersion.head? ≠ some 0) (hne : addr.vchVersion ≠ [])
    (h : addr.toString hash = some str) : decodeBase58Check hash str = some (addr.vchVersion ++ addr.vchData) := by
  refine (decodeBase58Check_iff hash h).mpr ?_
  rw [List.append_assoc, List.head?_append_of_ne_nil _ hne]
  exact hhead

theorem setString_toString_of_version {v : UInt8} (hv : v ≠ 0) (hversion : addr.vchVersion = [v])
    (h : addr.toString hash = some str) : setString hash str = some addr := by
  refine setString_eq_some.mpr ⟨decodeBase58Check_toString ?_ ?_ h, ?_⟩
  · rw [hversion]
    exact fun h0 => hv (Option.some.inj h0)
  · rw [hversion]
    exact List.cons_ne_nil _ _
  · rw [hversion]
    rfl

theorem setString_keyID (id : CKeyID) (h : (setKeyID net id).toString hash = some str) :
    setString hash str = some (setKeyID net id) := by
  cases net <;> exact setString_toString_of_version (by decide) rfl h

theorem setString_scriptID (id : CKeyID) (h : (setScriptID net id).toString hash = some str) :
    setString hash str = some (setScriptID net id) := by
  cases net <;> exact setString_toString_of_version (by decide) rfl h

theorem get_keyID (id : CKeyID) : (setKeyID net id).get curve net = some (.keyID id) := by
  have htake : (writeKeyID id).take 20 = writeKeyID id := List.take_of_length_le (Nat.le_of_eq (length_writeKeyID id))
  rw [get, isValid_setKeyID]
  change (if net.pubkeyAddress = net.pubkeyAddress then _ else _) = _
  rw [if_pos rfl]
  change some (Destination.keyID (readKeyID ((writeKeyID id).take 20))) = _
  rw [htake, readKeyID_writeKeyID]

theorem isValid_setScriptID (id : CKeyID) : (setScriptID net id).isValid net = true := by
  rw [isValid, setScriptID, length_writeKeyID]
  cases net <;> rfl

theorem get_scriptID (id : CKeyID) : (setScriptID net id).get curve net = some (.scriptID id) := by
  have htake : (writeKeyID id).take 20 = writeKeyID id := List.take_of_length_le (Nat.le_of_eq (length_writeKeyID id))
  have hne : net.scriptAddress ≠ net.pubkeyAddress := by cases net <;> decide
  rw [get, isValid_setScriptID]
  change (if net.scriptAddress = net.pubkeyAddress then _ else if net.scriptAddress = net.scriptAddress then _ else _) = _
  rw [if_neg hne, if_pos rfl]
  change some (Destination.scriptID (readKeyID ((writeKeyID id).take 20))) = _
  rw [htake, readKeyID_writeKeyID]

/-- The version of an extended key is not read back: it has four bytes. -/
theorem setString_ne_extKey (hversion : addr.vchVersion.length = 4) : setString hash str ≠ some addr := by
  intro h
  rw [(setString_eq_some.mp h).2] at hversion
  cases hversion

theorem vchVersion_extKeyPair {order : Nat} {ek : ExtKeyPair order} (h : set net (.extKeyPair ek) = some addr) :
    addr.vchVersion = net.extPublicKey := by
  obtain ⟨data, -, rfl⟩ := Option.map_eq_some_iff.mp h
  rfl

theorem get_extKeyPair {ek : ExtKeyPair curve.order} (hek : ek.Sized) (h : set net (.extKeyPair ek) = some addr) :
    addr.isValid net = true ∧ addr.get curve net = some (.extKeyPair ek.neutered) := by
  obtain ⟨data, hdata, rfl⟩ := Option.map_eq_some_iff.mp h
  obtain ⟨hlength, hdecode⟩ := ExtKeyPair.decodeP_encodeP hek hdata
  have hvalid : (CBitcoinAddress.mk net.extPublicKey data).isValid net = true := by
    have hversion : net.extPublicKey.length = 4 := by cases net <;> rfl
    rw [isValid, if_pos ⟨hversion, Or.inl rfl⟩]
    exact decide_eq_true hlength
  refine ⟨hvalid, ?_⟩
  rw [get, hvalid, ← hdecode]
  cases net <;> rfl

/-- A text is read back as the address and the destination it is of exactly where that is no extended key. -/
theorem restores_iff (hset : set net dest = some addr) (h : addr.toString hash = some str) :
    (setString hash str = some addr ∧ addr.get curve net = some dest) ↔ ∀ ek, dest ≠ .extKeyPair ek := by
  constructor
  · rintro ⟨hstring, -⟩ ek rfl
    refine setString_ne_extKey ?_ hstring
    rw [vchVersion_extKeyPair hset]
    cases net <;> rfl
  · intro hdest
    cases dest with
    | noDestination => cases hset
    | keyID id =>
        cases hset
        exact ⟨setString_keyID id h, get_keyID id⟩
    | scriptID id =>
        cases hset
        exact ⟨setString_scriptID id h, get_scriptID id⟩
    | stealthAddress _ => cases hset
    | extKeyPair ek => exact absurd rfl (hdest ek)

theorem holdsSecret_iff (h : setString hash str = some addr) :
    addr.HoldsSecret curve net ↔ ∃ bytes, decodeBase58Check hash str = some bytes ∧ EncodesSecret curve net bytes := by
  rw [HoldsSecret, (setString_eq_some.mp h).1]
  simp only [Option.some.injEq, exists_eq_left']

/-- The text of an extended secret key gives an address that ends in the secret, and that is not valid. -/
theorem setString_encodeV (net : Network) (hash : Bytes → UInt256) {ek : ExtKeyPair curve.order}
    {key : CKey curve.order} {code : Bytes} (hkey : ek.key = some key) (hcode : ek.encodeV = some code)
    (h : encodeBase58Check hash (net.extSecretKey ++ code) = some str) :
    ∃ addr, setString hash str = some addr ∧ addr.HoldsSecret curve net ∧ key.vch <:+ addr.vchData ∧
      addr.isValid net = false := by
  have hhead : net.extSecretKey = 4 :: net.extSecretKey.tail := by cases net <;> rfl
  have hdecode : decodeBase58Check hash str = some (net.extSecretKey ++ code) := by
    refine (decodeBase58Check_iff hash h).mpr ?_
    rw [hhead]
    exact fun h0 => absurd (Option.some.inj h0) (by decide)
  have hstring : setString hash str = some ⟨[4], net.extSecretKey.tail ++ code⟩ := by
    refine setString_eq_some.mpr ⟨?_, rfl⟩
    rw [hdecode, hhead]
    rfl
  refine ⟨_, hstring, (holdsSecret_iff hstring).mpr ⟨_, hdecode, ek, code, hcode, rfl⟩, ?_, ?_⟩
  · rw [ExtKeyPair.encodeV, hkey, Option.map_some, Option.some.injEq] at hcode
    refine ⟨net.extSecretKey.tail ++ (ek.encodeHead ++ [0]), ?_⟩
    simp [← hcode]
  · rw [isValid]
    cases net <;> simp [Network.extPublicKey, Network.extSecretKey, Network.pubkeyAddress, Network.scriptAddress]

/-- The text of an address is read back exactly where the address is of no extended key, though the address of one has
its public form alone; and an address that is read holds a secret exactly where the text has one. -/
theorem addressText (curve : CurveEnv G) (net : Network) (hash : Bytes → UInt256) :
    (∀ dest addr str, set net dest = some addr → addr.toString hash = some str →
      ((setStringVersion curve net hash str 1 = some addr ∧ addr.get curve net = some dest) ↔
        ∀ ek, dest ≠ .extKeyPair ek)) ∧
      (∀ (ek : ExtKeyPair curve.order) addr, ek.Sized → set net (.extKeyPair ek) = some addr →
        addr.isValid net = true ∧ addr.get curve net = some (.extKeyPair ek.neutered)) ∧
      ∀ str addr, setStringVersion curve net hash str 1 = some addr → (addr.HoldsSecret curve net ↔
        ∃ bytes, decodeBase58Check hash str = some bytes ∧ EncodesSecret curve net bytes) := by
  simp only [setStringVersion_one]
  exact ⟨fun _ _ _ => restores_iff, fun _ _ => get_extKeyPair, fun _ _ => holdsSecret_iff⟩

/-! ## Extended keys -/

def smallKeyPair : ExtKeyPair smallCurve.order := ExtKeyPair.ofExtKey smallCurve (smallKey 0)

theorem addressText_keyID : ∃ str, (setKeyID .main 5).toString (fun _ => 0) = some str ∧
    setStringVersion smallCurve .main (fun _ => 0) str 1 = some (setKeyID .main 5) ∧
      (setKeyID .main 5).get smallCurve .main = some (.keyID 5) := by
  obtain ⟨str, h⟩ := exists_toString (fun _ => 0) (setKeyID .main 5)
  exact ⟨str, h, ((addressText smallCurve .main fun _ => 0).1 (.keyID 5) _ str rfl h).mpr nofun⟩

/-- The address of an extended key is not read back, and the text of an extended secret key gives an address with the
secret. -/
theorem extKeyText :
    (∃ addr str, set .main (.extKeyPair smallKeyPair) = some addr ∧ addr.toString (fun _ => 0) = some str ∧
      setStringVersion smallCurve .main (fun _ => 0) str 1 ≠ some addr) ∧
      ∃ str addr, setStringVersion smallCurve .main (fun _ => 0) str 1 = some addr ∧
        addr.HoldsSecret smallCurve .main ∧ (smallKey 0).key.vch <:+ addr.vchData ∧ addr.isValid .main = false := by
  simp only [setStringVersion_one]
  constructor
  · obtain ⟨addr, hset⟩ : ∃ addr, set .main (.extKeyPair smallKeyPair) = some addr := ⟨_, rfl⟩
    obtain ⟨str, h⟩ := exists_toString (fun _ => 0) addr
    refine ⟨addr, str, hset, h, setString_ne_extKey ?_⟩
    rw [vchVersion_extKeyPair hset]
    rfl
  · obtain ⟨code, hcode⟩ : ∃ code, smallKeyPair.encodeV = some code := ⟨_, rfl⟩
    obtain ⟨addr, h⟩ := setString_encodeV .main (fun _ => 0) (rfl : smallKeyPair.key = some (smallKey 0).key)
      hcode (encodeBase58_eq _)
    exact ⟨_, addr, h⟩

end CBitcoinAddress

end ProCurrency
