import ProCurrency.Encoding.Destination

/-!
# The text of an extended key

`CExtKey58` (base58.h). `Set58` looks at the prefix and the length alone; `GetKey` computes the public key of whatever
secret it finds, and the byte before the secret is not looked at.
-/

namespace ProCurrency

open CBigNum ExtKeyPair

namespace Network

/-- `base58Prefixes[EXT_PUBLIC_KEY_2]`. -/
def extPublicKey2 : Network → Bytes
  | main | testnet | regtest => [0xE6, 0x76, 0x34, 0x5A]

def extSecretKey2 : Network → Bytes
  | main | testnet | regtest => [0xE6, 0x76, 0x28, 0x1D]

end Network

def BIP32_KEY_LEN : Nat := 82

structure CExtKey58 where
  vchVersion : Bytes
  vchData : Bytes
deriving DecidableEq

namespace CExtKey58

/-- `Set58`: the key, or the error. -/
def set58 (net : Network) (hash : Bytes → UInt256) (base58 : Bytes) : Except Nat CExtKey58 :=
  match decodeBase58 base58 with
  | none => .error 1
  | some vchBytes =>
      if vchBytes.length ≠ BIP32_KEY_LEN then .error 2
      else if verifyChecksum hash vchBytes = false then .error 3
      else
        let vchData := (vchBytes.drop 4).take 74
        if vchBytes.take 4 = net.extSecretKey then .ok ⟨net.extSecretKey, vchData⟩
        else if vchBytes.take 4 = net.extPublicKey then .ok ⟨net.extPublicKey, vchData⟩
        else if vchBytes.take 4 = net.extSecretKey2 then .ok ⟨net.extSecretKey2, vchData⟩
        else if vchBytes.take 4 = net.extPublicKey2 then .ok ⟨net.extPublicKey2, vchData⟩
        else .error 4

def isSecret (net : Network) (key58 : CExtKey58) : Bool :=
  key58.vchVersion = net.extSecretKey || key58.vchVersion = net.extSecretKey2

/-- `GetKey`; `none` when an assertion fails. -/
def getKey {G : Type} [AddCommGroup G] (curve : CurveEnv G) (net : Network) (key58 : CExtKey58) :
    Option (ExtKeyPair curve.order) :=
  if key58.isSecret net then decodeV curve key58.vchData else some (decodeP curve.order key58.vchData)

/-! ## What is wanted of a text -/

/-- `GetKey` answers, with an invalid key or with one whose bytes are those of the text. -/
def Exact {G : Type} [AddCommGroup G] (curve : CurveEnv G) (net : Network) (key58 : CExtKey58) : Prop :=
  ∃ kp, key58.getKey curve net = some kp ∧
    if key58.isSecret net then kp.isValidV = false ∨ kp.encodeV = some key58.vchData
    else CPubKey.isValid kp.pubkey = false ∨ kp.encodeP = some key58.vchData

/-- The secret is a private key, and stands after a zero byte. -/
structure SecretOk (order : Nat) (key58 : CExtKey58) : Prop where
  pos : 0 < ofBeBytes ((key58.vchData.drop 42).take 32)
  lt : ofBeBytes ((key58.vchData.drop 42).take 32) < order
  zero : key58.vchData.getD 41 0 = 0

end CExtKey58

/-! ## The fields of 74 bytes -/

namespace ExtKeyPair

variable {order : Nat}

/-- What is written in front of a key with the fields of `code`. -/
theorem encodeHead_of_fields {kp : ExtKeyPair order} {code : Bytes} (hlength : code.length = BIP32_KEY_N_BYTES)
    (hDepth : kp.nDepth = code.getD 0 0) (hfingerprint : kp.vchFingerprint = (code.drop 1).take 4)
    (hchild : kp.nChild = UInt32.ofNat (ofBeBytes ((code.drop 5).take 4)))
    (hchainCode : kp.vchChainCode = (code.drop 9).take 32) : kp.encodeHead = code.take 41 := by
  have hfirst : code.take 1 = [code.getD 0 0] := by
    cases code with
    | nil => cases hlength
    | cons c code => rfl
  have hbytes : beBytes 4 kp.nChild.toNat = (code.drop 5).take 4 := by
    have hfour : ((code.drop 5).take 4).length = 4 := by
      rw [List.length_take, List.length_drop, hlength]
      rfl
    have hlt := ByteCodec.ofLeBytes_lt ((code.drop 5).take 4).reverse
    rw [← ofBeBytes_eq, List.length_reverse, hfour] at hlt
    rw [hchild, UInt32.toNat_ofNat', Nat.mod_eq_of_lt (Nat.lt_of_lt_of_eq hlt (by decide))]
    have hback := beBytes_ofBeBytes ((code.drop 5).take 4)
    rwa [hfour] at hback
  have hsplit : code.take (1 + 4 + 4 + 32) =
      code.take 1 ++ (code.drop 1).take 4 ++ (code.drop 5).take 4 ++ (code.drop 9).take 32 := by
    rw [List.take_add, List.take_add, List.take_add]
  rw [hsplit, hfirst, encodeHead, hDepth, hfingerprint, hbytes, hchainCode]
  rfl

/-! ## Decoding and encoding -/

variable {G : Type} [AddCommGroup G] {curve : CurveEnv G}

theorem decodeV_encodeV {kp : ExtKeyPair curve.order} {key : CKey curve.order} {code : Bytes} (hsized : kp.Sized)
    (hkey : kp.key = some key) (hcomp : key.fCompressed = true) (hpubkey : kp.pubkey = curve.getPubKey key)
    (h : kp.encodeV = some code) : decodeV curve code = some kp := by
  rw [encodeV, hkey, Option.map_some, Option.some.injEq] at h
  subst h
  obtain ⟨hDepth, hfingerprint, hchild, hchainCode, hrest⟩ :=
    fields_encodeHead hsized.vchFingerprint hsized.vchChainCode (0 :: key.vch)
  have hsecret : ((kp.encodeHead ++ 0 :: key.vch).drop 42).take 32 = key.vch := by
    have hdrop : (kp.encodeHead ++ 0 :: key.vch).drop (41 + 1) = key.vch := by
      rw [← List.drop_drop, hrest]
      rfl
    rw [hdrop]
    exact List.take_of_length_le (Nat.le_of_eq (length_beBytes 32 _))
  have hofNat : CKey.ofNat curve.order (ofBeBytes key.vch) true = some key := by
    rw [CurveEnv.ofBeBytes_vch, CKey.ofNat, dif_pos ⟨key.pos, key.lt⟩, ← hcomp]
  rw [decodeV, hsecret, hofNat, Option.map_some, hDepth, hfingerprint, hchild, hchainCode, ofBeBytes_beBytes_uInt32,
    CurveEnv.getPubKeyForced_eq hcomp, ← hpubkey, ← hkey]

/-- The byte before the secret. -/
theorem drop_secret {code : Bytes} (hlength : code.length = BIP32_KEY_N_BYTES) :
    code.drop 41 = code.getD 41 0 :: (code.drop 42).take 32 := by
  have hlt : 41 < code.length := by
    rw [hlength]
    decide
  have htail : (code.drop 42).take 32 = code.drop 42 := by
    refine List.take_of_length_le ?_
    rw [List.length_drop, hlength]
    decide
  rw [htail, List.drop_eq_getElem_cons hlt, List.getD_eq_getElem _ _ hlt]

/-- The secret form is read where the secret is a private key, and is written as it was where a zero byte stands before
the secret. -/
theorem decodeV_exact_iff {code : Bytes} (hlength : code.length = BIP32_KEY_N_BYTES) :
    (∃ kp, decodeV curve code = some kp ∧ (kp.isValidV = false ∨ kp.encodeV = some code)) ↔
      (0 < ofBeBytes ((code.drop 42).take 32) ∧ ofBeBytes ((code.drop 42).take 32) < curve.order) ∧
        code.getD 41 0 = 0 := by
  have hvch : beBytes 32 (ofBeBytes ((code.drop 42).take 32)) = (code.drop 42).take 32 := by
    have hback := beBytes_ofBeBytes ((code.drop 42).take 32)
    have hcount : ((code.drop 42).take 32).length = 32 := by
      rw [List.length_take, List.length_drop, hlength]
      rfl
    rwa [hcount] at hback
  have hsplit : code = code.take 41 ++ code.getD 41 0 :: (code.drop 42).take 32 := by
    rw [← drop_secret hlength, List.take_append_drop]
  rw [decodeV, CKey.ofNat]
  by_cases hsecret : 0 < ofBeBytes ((code.drop 42).take 32) ∧ ofBeBytes ((code.drop 42).take 32) < curve.order
  · rw [dif_pos hsecret, Option.map_some]
    simp only [Option.some.injEq, exists_eq_left', hsecret, and_true, true_and, CExtKeyPair.isValidV, Option.isSome_some,
      Bool.true_eq_false, false_or]
    rw [encodeV, Option.map_some, Option.some.injEq, encodeHead_of_fields hlength rfl rfl rfl rfl, CKey.vch, hvch]
    constructor
    · intro hcode
      have htail := List.append_cancel_left (hcode.trans hsplit)
      exact (List.cons.inj htail).1.symm
    · intro hzero
      rw [hzero] at hsplit
      exact hsplit.symm
  · rw [dif_neg hsecret]
    simp [hsecret]

/-- The public form is read, and is written as it was where its key is valid. -/
theorem decodeP_exact (order : Nat) {code : Bytes} (hlength : code.length = BIP32_KEY_N_BYTES) :
    CPubKey.isValid (decodeP order code).pubkey = false ∨ (decodeP order code).encodeP = some code := by
  have hpubkey : (decodeP order code).pubkey = CPubKey.set (code.drop 41) := by
    rw [decodeP, List.take_of_length_le]
    rw [List.length_drop, hlength]
    decide
  rcases hset : CPubKey.set (code.drop 41) with _ | ⟨chHeader, vch⟩
  · left
    rw [hpubkey, hset]
    rfl
  · right
    have hwhole : CPubKey.set (code.drop 41) = code.drop 41 := by
      cases hdrop : code.drop 41 with
      | nil => rfl
      | cons c bytes =>
          rw [hdrop, CPubKey.set] at hset
          split_ifs at hset with hlen
          rw [CPubKey.set, if_pos hlen]
    have hcount : (code.drop 41).length = 33 := by
      rw [List.length_drop, hlength]
      rfl
    rw [encodeP, hpubkey, hwhole, if_pos hcount, encodeHead_of_fields hlength rfl rfl rfl rfl, List.take_append_drop]

end ExtKeyPair

/-! ## Texts -/

namespace CExtKey58

variable {G : Type} [AddCommGroup G] {curve : CurveEnv G} {net : Network} {hash : Bytes → UInt256} {base58 : Bytes}
  {key58 : CExtKey58}

theorem length_of_set58 (h : set58 net hash base58 = .ok key58) : key58.vchData.length = BIP32_KEY_N_BYTES := by
  rw [set58] at h
  cases hdecode : decodeBase58 base58 with
  | none =>
      rw [hdecode] at h
      cases h
  | some vchBytes =>
      rw [hdecode] at h
      dsimp only at h
      split_ifs at h with hlength hsum
      all_goals
        cases h
        rw [List.length_take, List.length_drop, not_not.mp hlength]
        rfl

/-- The text of a secret key is read, whatever its 74 bytes are. -/
theorem set58_secret {code : Bytes} (hlength : code.length = BIP32_KEY_N_BYTES)
    (h : encodeBase58 (appendChecksum hash (net.extSecretKey ++ code)) = some base58) :
    set58 net hash base58 = .ok ⟨net.extSecretKey, code⟩ := by
  have hversion : net.extSecretKey.length = 4 := by cases net <;> rfl
  have hbytes : appendChecksum hash (net.extSecretKey ++ code) =
      net.extSecretKey ++ (code ++ bitcoinChecksum hash (net.extSecretKey ++ code)) := List.append_assoc _ _ _
  have hhead : (appendChecksum hash (net.extSecretKey ++ code)).dropWhile (· = 0) =
      appendChecksum hash (net.extSecretKey ++ code) := by
    rw [hbytes]
    cases net <;> rfl
  have hcount : (appendChecksum hash (net.extSecretKey ++ code)).length = BIP32_KEY_LEN := by
    rw [length_appendChecksum, List.length_append, hversion, hlength]
    rfl
  rw [set58, decodeBase58_encodeBase58 h, hhead]
  dsimp only
  rw [if_neg (not_not.mpr hcount), (verifyChecksum_iff hash _).mpr ⟨_, rfl⟩, if_neg Bool.noConfusion]
  have hdata : (code ++ bitcoinChecksum hash (net.extSecretKey ++ code)).take 74 = code := List.take_left' hlength
  rw [hbytes, List.take_left' hversion, if_pos rfl, List.drop_left' hversion, hdata]

theorem exact_iff (hlength : key58.vchData.length = BIP32_KEY_N_BYTES) :
    key58.Exact curve net ↔ (key58.isSecret net = true → key58.SecretOk curve.order) := by
  rw [Exact, getKey]
  cases hsecret : key58.isSecret net with
  | true =>
      simp only [if_true, true_imp_iff]
      rw [decodeV_exact_iff hlength]
      exact ⟨fun h => ⟨h.1.1, h.1.2, h.2⟩, fun h => ⟨⟨h.pos, h.lt⟩, h.zero⟩⟩
  | false =>
      simp only [Bool.false_eq_true, if_false, false_imp_iff, iff_true]
      exact ⟨_, rfl, decodeP_exact curve.order hlength⟩

end CExtKey58

/-- An address that is read from a text names no extended key. -/
theorem CBitcoinAddress.get_of_setString {G : Type} [AddCommGroup G] (curve : CurveEnv G) {net : Network}
    {hash : Bytes → UInt256} {str : Bytes} {addr : CBitcoinAddress} (h : setString hash str = some addr) :
    ∃ dest, addr.get curve net = some dest ∧ ∀ ek, dest ≠ .extKeyPair ek := by
  have hversion := (setString_eq_some.mp h).2
  have hsecret : addr.vchVersion ≠ net.extSecretKey := by
    intro heq
    rw [heq] at hversion
    cases net <;> cases hversion
  have hpublic : addr.vchVersion ≠ net.extPublicKey := by
    intro heq
    rw [heq] at hversion
    cases net <;> cases hversion
  rw [get, if_neg hsecret, if_neg hpublic]
  split_ifs
  all_goals exact ⟨_, rfl, fun ek h => by cases h⟩

/-- A text that is accepted is decoded to its own bytes exactly where it holds no secret, or a private key after a zero
byte. Addresses name no extended key, and every key is restored from its bytes. -/
theorem extKeyText_exact_iff {G : Type} [AddCommGroup G] (curve : CurveEnv G) (net : Network) (hash : Bytes → UInt256) :
    (∀ str addr, CBitcoinAddress.setStringVersion curve net hash str 1 = some addr → addr.isValid net = true →
      ∃ dest, addr.get curve net = some dest ∧ ∀ ek, dest ≠ .extKeyPair ek) ∧
    (∀ base58 key58, CExtKey58.set58 net hash base58 = .ok key58 →
      (key58.Exact curve net ↔ (key58.isSecret net = true → key58.SecretOk curve.order))) ∧
    (∀ (kp : ExtKeyPair curve.order) key code, kp.Sized → kp.key = some key → key.fCompressed = true →
      kp.pubkey = curve.getPubKey key → kp.encodeV = some code → decodeV curve code = some kp) ∧
    ∀ (kp : ExtKeyPair curve.order) code, kp.Sized → kp.encodeP = some code →
      decodeP curve.order code = kp.neutered := by
  simp only [CBitcoinAddress.setStringVersion_one]
  refine ⟨fun str addr h _ => CBitcoinAddress.get_of_setString curve h, fun base58 key58 h => ?_,
    fun kp key code hsized hkey hcomp hpubkey h => decodeV_encodeV hsized hkey hcomp hpubkey h,
    fun kp code hsized h => (decodeP_encodeP hsized h).2⟩
  exact CExtKey58.exact_iff (CExtKey58.length_of_set58 h)

/-! ## Two texts -/

theorem extKeyText_exact_iff_smallKeyPair :
    ∃ base58 key58, CExtKey58.set58 .main (fun _ => 0) base58 = .ok key58 ∧ key58.Exact smallCurve .main ∧
      decodeV smallCurve key58.vchData = some CBitcoinAddress.smallKeyPair := by
  obtain ⟨code, hcode⟩ : ∃ code, CBitcoinAddress.smallKeyPair.encodeV = some code := ⟨_, rfl⟩
  obtain ⟨-, htext, hsecret, -⟩ := extKeyText_exact_iff smallCurve .main fun _ => 0
  have hlength : code.length = BIP32_KEY_N_BYTES := by
    cases hcode
    rfl
  have hset : CExtKey58.set58 .main (fun _ => 0) _ = .ok ⟨Network.main.extSecretKey, code⟩ :=
    CExtKey58.set58_secret hlength (encodeBase58_eq _)
  refine ⟨_, _, hset, (htext _ _ hset).mpr fun _ => ?_, ?_⟩
  · cases hcode
    exact ⟨by decide, by decide, rfl⟩
  · exact hsecret _ (smallKey 0).key code ⟨rfl, rfl, @CurveEnv.set_serialize _ _ smallCurve _ _⟩ rfl rfl rfl hcode

/-- The text of a secret key of zeros is accepted, and its key is not decoded. With a byte other than zero before it a
secret is decoded, and is not written as it was. -/
theorem extKeyText_not_exact :
    (∃ base58 key58, CExtKey58.set58 .main (fun _ => 0) base58 = .ok key58 ∧ key58.getKey smallCurve .main = none) ∧
      ∃ base58 key58, CExtKey58.set58 .main (fun _ => 0) base58 = .ok key58 ∧
        (key58.getKey smallCurve .main).isSome = true ∧ ¬key58.Exact smallCurve .main := by
  have hzero : (List.replicate 74 (0 : UInt8)).length = BIP32_KEY_N_BYTES := rfl
  have hone : (List.replicate 41 (0 : UInt8) ++ 1 :: (List.replicate 31 0 ++ [3])).length = BIP32_KEY_N_BYTES := rfl
  refine ⟨⟨_, _, CExtKey58.set58_secret hzero (encodeBase58_eq _), Option.isNone_iff_eq_none.mp (by decide +kernel)⟩,
    _, _, CExtKey58.set58_secret hone (encodeBase58_eq _), by decide +kernel, ?_⟩
  rw [CExtKey58.exact_iff hone]
  intro h
  exact absurd (h rfl).zero (by decide)

end ProCurrency
