import ProCurrency.Smsg.Crypt
import ProCurrency.Smsg.Lemmas.Bunch

/-!
# Round trip of a message

What `SecureMsgDecrypt` makes of the message that `SecureMsgEncrypt` builds, and what `SecureMsgValidate` says once
`SecureMsgSetHash` has found a nonce.
-/

namespace ProCurrency

open ByteCodec Buffer CBitcoinAddress

variable {SK PT : Type} {c : SmsgCrypto SK PT} {net : Network}

/-- What the libraries promise. The bounds are those of LZ4's and OpenSSL's `int` arguments. -/
structure SmsgCrypto.Laws (c : SmsgCrypto SK PT) : Prop where
  set_getPubKey : ∀ k, CPubKey.set (c.getPubKey k) = c.getPubKey k
  isValid_getPubKey : ∀ k, CPubKey.isValid (c.getPubKey k)
  setPubKey : ∀ k, ∃ pt, c.setPubKey (c.getPubKey k) = some pt
  ecdhComm : ∀ r k ptR ptK, c.setPubKey (c.getPubKey r) = some ptR → c.setPubKey (c.getPubKey k) = some ptK →
    c.ecdhComputeKey ptK r = c.ecdhComputeKey ptR k
  length_ecdhComputeKey : ∀ pt k, (c.ecdhComputeKey pt k).length = 32
  length_sha512 : ∀ bs, (c.sha512 bs).length = 64
  hmacSha256 : ∀ key data, ∃ mac, c.hmacSha256 key data = some mac ∧ mac.length = 32
  aes : ∀ key iv plain : Bytes, key.length = 32 → iv.length = 16 → plain.length < 2 ^ 30 →
    ∃ cipher, c.aesEncrypt key iv plain = some cipher ∧ cipher.length ≤ plain.length + 16 ∧
      c.aesDecrypt key iv cipher = some plain
  lz4 : ∀ text : Bytes, 0 < text.length → text.length < 2 ^ 30 → 0 < (c.lz4Compress text).length ∧
    (c.lz4Compress text).length ≤ lz4CompressBound text.length ∧
      c.lz4DecompressSafe (c.lz4Compress text) text.length = some text
  compact : ∀ k h, (c.signCompact k h).length = 65 ∧ c.recoverCompact h (c.signCompact k h) = c.getPubKey k

/-! ## Fields -/

namespace SecureMessageHeader

variable {h : SecureMessageHeader} {pos size p s : Nat} {bs : Bytes} {fits : pos + size ≤ SMSG_HDR_LEN}

theorem length_field (h : SecureMessageHeader) (fits : pos + size ≤ SMSG_HDR_LEN) :
    (h.field pos size).length = size := length_slice (by rwa [h.size])

theorem field_setField_take (hbs : size ≤ bs.length) : (h.setField pos size bs fits).field pos size = bs.take size := by
  have htake : bs.takeD size 0 = bs.take size := List.takeD_eq_take _ hbs
  have hlen : (bs.take size).length = size := List.length_take_of_le hbs
  have hfits : pos ≤ h.bytes.length := by
    rw [h.size]
    omega
  change slice (patch h.bytes pos (bs.takeD size 0)) pos size = bs.take size
  rw [htake]
  calc slice (patch h.bytes pos (bs.take size)) pos size
      = slice (patch h.bytes pos (bs.take size)) pos (bs.take size).length := by rw [hlen]
    _ = bs.take size := slice_patch hfits

theorem field_setField (hbs : bs.length = size) : (h.setField pos size bs fits).field pos size = bs := by
  rw [field_setField_take (Nat.le_of_eq hbs.symm), ← hbs, List.take_length]

theorem field_setField_of_disjoint (hp : p + s ≤ pos ∨ pos + size ≤ p) :
    (h.setField pos size bs fits).field p s = h.field p s := by
  apply slice_patch_of_disjoint
  · rwa [List.takeD_length, h.size]
  · rwa [List.takeD_length]

theorem drop_setField (hp : pos + size ≤ p) : (h.setField pos size bs fits).bytes.drop p = h.bytes.drop p := by
  apply drop_patch
  · rwa [List.takeD_length, h.size]
  · rwa [List.takeD_length]

end SecureMessageHeader

/-- The headers differ in the checksum, in the nonce and in the length of the payload at most. -/
def SameSealed (h h' : SecureMessageHeader) : Prop :=
  ∀ pos size, 4 ≤ pos → pos + size ≤ 96 → h'.field pos size = h.field pos size

/-! ## The text -/

/-- A message that is compressed when it is long comes back from its data. -/
theorem decompressMessage_compressMessage (hc : c.Laws) {text : Bytes} (h : text.length ≤ SMSG_MAX_MSG_BYTES) :
    ∃ pMsgData, compressMessage c text = .ok pMsgData ∧ pMsgData.length ≤ lz4CompressBound text.length ∧
      decompressMessage c pMsgData text.length = some (.ok text) := by
  have hmax : text.length ≤ 4096 := h
  have hint : ¬ 2 ^ 31 ≤ text.length := by omega
  by_cases hlong : 128 < text.length
  · obtain ⟨hsome, hbound, hback⟩ := hc.lz4 text (by omega) (by omega)
    refine ⟨c.lz4Compress text, ?_, hbound, ?_⟩
    · rw [compressMessage, if_pos hlong, if_neg (by omega)]
    · rw [decompressMessage, if_neg hint, if_pos hlong, hback]
      simp
  · refine ⟨text, if_neg hlong, ?_, ?_⟩
    · rw [lz4CompressBound]
      omega
    · have hread : readAt text 0 text.length = some text := by simp [readAt]
      rw [decompressMessage, if_neg hint, if_neg hlong, hread]

/-! ## The payload -/

section Payload

variable {text pMsgData : Bytes} {msg : MessageData}

theorem readU32At_layout {l r : Bytes} {pos n : Nat} (hl : l.length = pos) (hn : n < 2 ^ 32) :
    readU32At (l ++ (leBytes 4 n ++ r)) pos = some (UInt32.ofNat n) := by
  have hfits : pos + 4 ≤ (l ++ (leBytes 4 n ++ r)).length := by simp [← hl]
  rw [readU32At, readAt, if_pos hfits, Option.map_some, ← hl, List.drop_left, List.take_left' (length_leBytes 4 n),
    ofLeBytes_leBytes hn]

theorem toNat_ofNat_of_lt {n : Nat} (h : n < 2 ^ 32) : (UInt32.ofNat n).toNat = n := by
  rw [UInt32.toNat_ofNat', Nat.mod_eq_of_lt h]

theorem readPayload_anonymousPayload (h : decompressMessage c pMsgData text.length = some (.ok text))
    (hlen : text.length < 2 ^ 32) :
    readPayload c net (anonymousPayload text.length pMsgData) msg =
      some (.ok ⟨{ msg with vchMessage := text ++ [0], sFromAddress := anon }, none⟩) := by
  have hsize : ([250] ++ List.replicate 4 (0 : UInt8)).length = 5 := rfl
  have hread : readU32At (anonymousPayload text.length pMsgData) 5 = some (UInt32.ofNat text.length) := by
    rw [anonymousPayload, ← List.append_assoc]
    exact readU32At_layout hsize hlen
  have hdrop : (anonymousPayload text.length pMsgData).drop 9 = pMsgData := by
    rw [anonymousPayload, ← List.append_assoc, ← List.append_assoc]
    apply List.drop_left'
    rw [List.length_append, hsize, length_leBytes]
  have hhead : (anonymousPayload text.length pMsgData).head? = some 250 := rfl
  rw [readPayload, hhead]
  dsimp only
  rw [if_pos rfl, hread]
  dsimp only
  rw [toNat_ofNat_of_lt hlen, hdrop, h]
  rfl

variable {ckidFrom : CKeyID} {keyFrom : SK}

theorem length_pubkeyAddress (net : Network) : net.pubkeyAddress.length = 1 := by
  cases net <;> rfl

theorem length_signedPayload (c : SmsgCrypto SK PT) (net : Network) (ckidFrom : CKeyID) (keyFrom : SK)
    (message pMsgData : Bytes) :
    (signedPayload c net ckidFrom keyFrom message pMsgData).length = SMSG_PL_HDR_LEN + pMsgData.length := by
  simp only [signedPayload, List.length_append, length_pubkeyAddress, length_writeKeyID, List.takeD_length,
    length_leBytes, SMSG_PL_HDR_LEN]
  omega

/-- The signature of a signed payload proves the address in front of it. -/
theorem readPayload_signedPayload (hc : c.Laws) (h : decompressMessage c pMsgData text.length = some (.ok text))
    (hlen : text.length < 2 ^ 32) (hid : c.hash160 (c.getPubKey keyFrom) = ckidFrom) {sFromAddress : Bytes}
    (hstr : (setKeyID net ckidFrom).toString c.hash = some sFromAddress) :
    readPayload c net (signedPayload c net ckidFrom keyFrom text pMsgData) msg =
      some (.ok ⟨{ msg with vchMessage := text ++ [0], sFromAddress := sFromAddress },
        some (ckidFrom, c.getPubKey keyFrom)⟩) := by
  obtain ⟨hsiglen, hrecover⟩ := hc.compact keyFrom (c.hash text)
  have hversion := length_pubkeyAddress net
  have hsig : (c.signCompact keyFrom (c.hash text)).takeD 65 0 = c.signCompact keyFrom (c.hash text) := by
    rw [List.takeD_eq_take _ (Nat.le_of_eq hsiglen.symm), ← hsiglen, List.take_length]
  have hfront : (net.pubkeyAddress ++ writeKeyID ckidFrom).length = 21 := by
    rw [List.length_append, hversion, length_writeKeyID]
  have hsigned : (net.pubkeyAddress ++ writeKeyID ckidFrom ++ c.signCompact keyFrom (c.hash text)).length = 86 := by
    rw [List.length_append, hfront, hsiglen]
  obtain ⟨first, hfirst, hnot⟩ : ∃ first, net.pubkeyAddress.head? = some first ∧ first ≠ 250 := by
    cases net <;> exact ⟨_, rfl, by decide⟩
  rw [signedPayload, hsig]
  -- The offsets at which the four parts are read.
  have hkeyid := slice_append_left hversion (length_writeKeyID ckidFrom)
    (c.signCompact keyFrom (c.hash text) ++ (leBytes 4 text.length ++ pMsgData))
  have hsignature := slice_append_left hfront hsiglen (leBytes 4 text.length ++ pMsgData)
  have hread := readU32At_layout (r := pMsgData) hsigned hlen
  have hdrop : (net.pubkeyAddress ++ (writeKeyID ckidFrom ++ (c.signCompact keyFrom (c.hash text) ++
      (leBytes 4 text.length ++ pMsgData)))).drop SMSG_PL_HDR_LEN = pMsgData := by
    simp only [← List.append_assoc]
    apply List.drop_left'
    rw [List.length_append, hsigned, length_leBytes]
    rfl
  simp only [List.append_assoc] at hsignature hread
  have hhead : (net.pubkeyAddress ++ (writeKeyID ckidFrom ++ (c.signCompact keyFrom (c.hash text) ++
      (leBytes 4 text.length ++ pMsgData)))).head? = some first := by
    rw [List.head?_append, hfirst]
    rfl
  have hvalid := hc.isValid_getPubKey keyFrom
  rw [readPayload, hhead]
  dsimp only
  rw [if_neg hnot]
  simp only [SMSG_PL_HDR_LEN, Nat.reduceAdd, Nat.reduceSub] at hdrop ⊢
  rw [hread]
  dsimp only
  rw [toNat_ofNat_of_lt hlen, hdrop, h]
  dsimp only
  rw [if_neg hnot, checkSender, hkeyid]
  simp only [Nat.reduceAdd]
  rw [hsignature, readKeyID_writeKeyID, isValid_setKeyID, hrecover, hvalid, hid, hstr]
  simp

end Payload

/-! ## The sealed message -/

/-- The message opens with the secret `vchP`, and its payload then is `vchPayload`. -/
structure Opens (c : SmsgCrypto SK PT) (vchP vchPayload : Bytes) (header : SecureMessageHeader) (pPayload : Bytes) :
    Prop where
  mac : messageMac c (messageKeys c vchP).2 header pPayload = some header.mac
  decrypt : c.aesDecrypt (messageKeys c vchP).1 header.iv pPayload = some vchPayload

theorem Opens.of_sameSealed {vchP vchPayload pPayload : Bytes} {header header' : SecureMessageHeader}
    (h : Opens c vchP vchPayload header pPayload) (hsame : SameSealed header header') :
    Opens c vchP vchPayload header' pPayload where
  mac := by
    rw [messageMac, SecureMessageHeader.mac, hsame 7 8 (by decide) (by decide), hsame 64 32 (by decide) (by decide)]
    exact h.mac
  decrypt := by
    rw [SecureMessageHeader.iv, hsame 15 16 (by decide) (by decide)]
    exact h.decrypt

theorem messageMac_eq_some (hc : c.Laws) (key_m : Bytes) (header : SecureMessageHeader) (pPayload : Bytes) :
    ∃ mac, messageMac c key_m header pPayload = some mac ∧ mac.length = 32 := by
  obtain ⟨mac, hmac, hlen⟩ := hc.hmacSha256 key_m (header.field 7 8 ++ pPayload)
  refine ⟨mac, ?_, hlen⟩
  rw [messageMac, hmac]
  exact if_pos hlen

theorem sealMessage_opens (hc : c.Laws) (vchP : Bytes) {vchPayload : Bytes} (smsg : SecureMessageHeader)
    (hlen : vchPayload.length < 2 ^ 30) :
    ∃ header pPayload, sealMessage c vchP vchPayload smsg = .ok (header, pPayload) ∧
      header.nPayload = pPayload.length ∧ Opens c vchP vchPayload header pPayload ∧
      ∀ pos size, pos + size ≤ 64 → header.field pos size = smsg.field pos size := by
  have hkey : (messageKeys c vchP).1.length = 32 := length_slice (by rw [hc.length_sha512]; decide)
  have hiv : smsg.iv.length = 16 := smsg.length_field (by decide)
  obtain ⟨cipher, henc, hcipher, hdec⟩ := hc.aes _ _ vchPayload hkey hiv hlen
  obtain ⟨mac, hmac, hmaclen⟩ := messageMac_eq_some hc (messageKeys c vchP).2
    (smsg.setField 100 4 (leBytes 4 cipher.length) (by decide)) cipher
  refine ⟨(smsg.setField 100 4 (leBytes 4 cipher.length) (by decide)).setField 64 32 mac (by decide), cipher,
    ?_, ?_, ⟨?_, ?_⟩, ?_⟩
  · rw [sealMessage, henc]
    dsimp only
    rw [hmac]
  · rw [SecureMessageHeader.nPayload, SecureMessageHeader.field_setField_of_disjoint (.inr (by decide)),
      SecureMessageHeader.field_setField (length_leBytes 4 _), ofLeBytes_leBytes (by omega)]
  · rw [SecureMessageHeader.mac, SecureMessageHeader.field_setField hmaclen, ← hmac, messageMac, messageMac,
      SecureMessageHeader.field_setField_of_disjoint (.inl (by decide))]
  · rw [SecureMessageHeader.iv, SecureMessageHeader.field_setField_of_disjoint (.inl (by decide)),
      SecureMessageHeader.field_setField_of_disjoint (.inl (by decide))]
    exact hdec
  · intro pos size hpos
    rw [SecureMessageHeader.field_setField_of_disjoint (.inl hpos),
      SecureMessageHeader.field_setField_of_disjoint (.inl (by omega))]

/-! ## Decrypting -/

/-- A message that opens with the secret of the two keys is decrypted up to its payload. -/
theorem secureMsgDecrypt_of_opens (hc : c.Laws) {keysTo : SmsgKeys SK} {keyR keyDest : SK} {ckidDest : CKeyID}
    {address vchP vchPayload pPayload : Bytes} {header : SecureMessageHeader} {ptK : PT} (msg : MessageData)
    (haddress : smsgKeyID c.hash net 3 3 address = .ok ckidDest) (hdest : keysTo.getKey ckidDest = some keyDest)
    (hK : c.setPubKey (c.getPubKey keyDest) = some ptK) (hP : c.ecdhComputeKey ptK keyR = vchP)
    (hversion : header.version = [1, 1]) (hcpkR : header.cpkR = c.getPubKey keyR)
    (hopens : Opens c vchP vchPayload header pPayload) :
    secureMsgDecrypt c net keysTo false address header (some pPayload) msg =
      readPayload c net vchPayload { msg with timestamp := header.timestamp } := by
  obtain ⟨ptR, hR⟩ := hc.setPubKey keyR
  have hsecret : c.ecdhComputeKey ptR keyDest = vchP := (hc.ecdhComm keyR keyDest ptR ptK hR hK).symm.trans hP
  have hlen : vchP.length = 32 := by rw [← hP, hc.length_ecdhComputeKey]
  have hset : CPubKey.set header.cpkR = c.getPubKey keyR := by rw [hcpkR, hc.set_getPubKey]
  have hvalid := hc.isValid_getPubKey keyR
  rw [secureMsgDecrypt]
  dsimp only
  rw [hversion, if_neg (by simp), haddress]
  dsimp only
  rw [hdest]
  dsimp only
  rw [hset, hvalid]
  simp only [Bool.not_true, Bool.false_eq_true, if_false]
  rw [hR]
  dsimp only
  rw [hsecret, if_neg (not_not.2 hlen), hopens.mac]
  simp only [ne_eq, not_true_eq_false, if_false]
  rw [hopens.decrypt]

/-! ## The search for a nonce -/

theorem setHashLoop_spec {hmac : HmacSha256} {fSecMsgEnabled : UInt32 → Bool} {pPayload : Bytes} {left : Nat}
    {nonce : UInt32} {psmsg psmsg' : SecureMessageHeader} {found : Option Bytes}
    (h : setHashLoop hmac fSecMsgEnabled pPayload left nonce psmsg = (psmsg', found)) :
    (∀ pos size, pos + size ≤ 96 → psmsg'.field pos size = psmsg.field pos size) ∧
      ∀ sha256Hash, found = some sha256Hash → powHash hmac psmsg' pPayload = some sha256Hash ∧
        meetsTarget sha256Hash = true := by
  induction left generalizing nonce psmsg with
  | zero =>
      cases h
      exact ⟨fun _ _ _ => rfl, fun _ hfound => nomatch hfound⟩
  | succ left ih =>
      rw [setHashLoop] at h
      have hkeep (pos size : Nat) (hpos : pos + size ≤ 96) :
          (psmsg.setField 96 4 (leBytes 4 nonce.toNat) (by decide)).field pos size = psmsg.field pos size :=
        SecureMessageHeader.field_setField_of_disjoint (.inl hpos)
      split at h
      · cases h
        exact ⟨fun _ _ _ => rfl, fun _ hfound => nomatch hfound⟩
      · dsimp only at h
        split at h
        · cases h
          exact ⟨hkeep, fun _ hfound => nomatch hfound⟩
        · rename_i sha256Hash hpow
          split at h
          · rename_i hmeets
            cases h
            refine ⟨hkeep, fun sha256Hash' hfound => ?_⟩
            obtain rfl := Option.some.inj hfound
            exact ⟨hpow, hmeets⟩
          · obtain ⟨hfield, hfound⟩ := ih h
            exact ⟨fun pos size hpos => (hfield pos size hpos).trans (hkeep pos size hpos), hfound⟩

/-- The nonce that is found passes the check, which hashes what the search has hashed. -/
theorem secureMsgSetHash_spec {hmac : HmacSha256} {fSecMsgEnabled : UInt32 → Bool} {fEnabledAfter : Bool}
    {pPayload : Bytes} {psmsg psmsg' : SecureMessageHeader} (hversion : psmsg.version = [1, 1])
    (h : secureMsgSetHash hmac fSecMsgEnabled fEnabledAfter psmsg pPayload = (0, psmsg')) :
    SameSealed psmsg psmsg' ∧ (pPayload.length ≤ SMSG_MAX_MSG_WORST →
      secureMsgValidate hmac psmsg' pPayload.length (some pPayload) = some 0) := by
  obtain ⟨psmsg₁, found, hloop⟩ : ∃ psmsg₁ found,
      setHashLoop hmac fSecMsgEnabled pPayload (2 ^ 32) 0 psmsg = (psmsg₁, found) := ⟨_, _, rfl⟩
  obtain ⟨hfield, hfound⟩ := setHashLoop_spec hloop
  rw [secureMsgSetHash, hloop] at h
  dsimp only at h
  split at h
  · cases h
  · split at h
    · cases h
    · rename_i sha256Hash
      obtain ⟨hpow, hmeets⟩ := hfound sha256Hash rfl
      obtain rfl := congrArg Prod.snd h
      have hlen : sha256Hash.length = 32 := by
        rw [powHash] at hpow
        split at hpow
        · cases hpow
        · split at hpow
          · rename_i hlen
            obtain rfl := Option.some.inj hpow
            exact hlen
          · cases hpow
      have hsame : SameSealed psmsg (psmsg₁.setField 0 4 sha256Hash (by decide)) := by
        intro pos size hpos hend
        rw [SecureMessageHeader.field_setField_of_disjoint (.inr hpos), hfield pos size hend]
      refine ⟨hsame, fun hworst => ?_⟩
      have hversion' : (psmsg₁.setField 0 4 sha256Hash (by decide)).version = [1, 1] := by
        rw [SecureMessageHeader.version, hsame 4 2 (by decide) (by decide)]
        exact hversion
      have hpow' : powHash hmac (psmsg₁.setField 0 4 sha256Hash (by decide)) pPayload = some sha256Hash := by
        rw [powHash, SecureMessageHeader.nonce, SecureMessageHeader.field_setField_of_disjoint (.inr (by decide)),
          SecureMessageHeader.drop_setField (by decide)]
        exact hpow
      have hchecksum : (psmsg₁.setField 0 4 sha256Hash (by decide)).hash = sha256Hash.take 4 := by
        rw [SecureMessageHeader.hash, SecureMessageHeader.field_setField_take (by omega)]
      rw [secureMsgValidate, hversion', if_neg (by simp), if_neg (Nat.not_lt.2 hworst)]
      dsimp only
      rw [hpow']
      dsimp only
      rw [if_neg (not_not.2 hchecksum), if_pos hmeets]

/-! ## From end to end -/

/-- The sender is anonymous, or an address of which the wallet has the key. -/
def OwnSender (c : SmsgCrypto SK PT) (net : Network) (keys : SmsgKeys SK) (addressFrom : Bytes) : Prop :=
  addressFrom = anon ∨ ∃ ckidFrom keyFrom, smsgKeyID c.hash net 3 4 addressFrom = .ok ckidFrom ∧
    keys.getKey ckidFrom = some keyFrom ∧ c.hash160 (c.getPubKey keyFrom) = ckidFrom

/-- The two texts stand for one sender, and they are equal unless `addressFrom` is another writing of its address. -/
def SameSender (hash : Bytes → UInt256) (net : Network) (addressFrom sFromAddress : Bytes) : Prop :=
  (addressFrom = anon → sFromAddress = anon) ∧
    (addressFrom ≠ anon → setString hash sFromAddress = setString hash addressFrom ∧
      ∀ ckid, (setKeyID net ckid).toString hash = some addressFrom → sFromAddress = addressFrom)

/-- The message is decrypted to its text, its time and its sender. -/
def DecryptsTo (c : SmsgCrypto SK PT) (net : Network) (keysTo : SmsgKeys SK)
    (now : Int) (addressFrom address message : Bytes) (header : SecureMessageHeader) (pPayload : Bytes) : Prop :=
  ∀ msg, ∃ decrypted,
    secureMsgDecrypt c net keysTo false address header (some pPayload) msg = some (.ok decrypted) ∧
      decrypted.msg.vchMessage = message ++ [0] ∧ decrypted.msg.timestamp = now ∧
      SameSender c.hash net addressFrom decrypted.msg.sFromAddress

theorem smsgKeyID_eq_ok {hash : Bytes → UInt256} {errString errKeyID : Nat} {address : Bytes} {ckid : CKeyID} :
    smsgKeyID hash net errString errKeyID address = .ok ckid ↔ setString hash address = some (setKeyID net ckid) := by
  rw [smsgKeyID]
  constructor
  · intro h
    split at h
    · nomatch h
    · rename_i coinAddr hstring
      split at h
      · nomatch h
      · rename_i ckid' hid
        cases h
        rw [hstring, eq_setKeyID hid]
  · intro h
    rw [h]
    dsimp only
    rw [getKeyID_setKeyID]

theorem sameSender_toString {hash : Bytes → UInt256} {addressFrom sFromAddress : Bytes} {ckidFrom : CKeyID}
    (hne : addressFrom ≠ anon) (hfrom : setString hash addressFrom = some (setKeyID net ckidFrom))
    (hstr : (setKeyID net ckidFrom).toString hash = some sFromAddress) :
    SameSender hash net addressFrom sFromAddress := by
  refine ⟨fun h => absurd h hne, fun _ => ⟨(setString_toString hstr).trans hfrom.symm, fun ckid hown => ?_⟩⟩
  have heq := (setString_toString hown).symm.trans hfrom
  obtain rfl := setKeyID_injective (Option.some.inj heq)
  exact Option.some.inj (hstr.symm.trans hown)

/-- What is encrypted is read back as the message and its sender. -/
theorem readPayload_encryptedPayload (hc : c.Laws) {keys : SmsgKeys SK} {addressFrom message : Bytes}
    (hfrom : OwnSender c net keys addressFrom) (hlen : message.length ≤ SMSG_MAX_MSG_BYTES) :
    ∃ ckidFrom vchPayload, senderKeyID c.hash net addressFrom = .ok ckidFrom ∧
      encryptedPayload c net keys ckidFrom message = .ok vchPayload ∧ vchPayload.length < 2 ^ 30 ∧
      ∀ msg, ∃ decrypted, readPayload c net vchPayload msg = some (.ok decrypted) ∧
        decrypted.msg.vchMessage = message ++ [0] ∧ decrypted.msg.timestamp = msg.timestamp ∧
        SameSender c.hash net addressFrom decrypted.msg.sFromAddress := by
  have hmax : message.length ≤ 4096 := hlen
  obtain ⟨pMsgData, hcompress, hbound, hback⟩ := decompressMessage_compressMessage hc hlen
  rw [lz4CompressBound] at hbound
  by_cases hanon : addressFrom = anon
  · refine ⟨none, anonymousPayload message.length pMsgData, if_pos hanon, ?_, ?_, fun msg => ⟨_,
      readPayload_anonymousPayload hback (by omega), rfl, rfl, fun _ => rfl, fun h => absurd hanon h⟩⟩
    · rw [encryptedPayload, hcompress]
      rfl
    · simp only [anonymousPayload, List.length_append, List.length_replicate, length_leBytes, List.length_singleton]
      omega
  · obtain ⟨ckidFrom, keyFrom, hkeyid, hkey, hid⟩ := hfrom.resolve_left hanon
    obtain ⟨sFromAddress, hstr⟩ := exists_toString c.hash (setKeyID net ckidFrom)
    refine ⟨some ckidFrom, signedPayload c net ckidFrom keyFrom message pMsgData, ?_, ?_, ?_, fun msg => ⟨_,
      readPayload_signedPayload hc hback (by omega) hid hstr, rfl, rfl,
      sameSender_toString hanon (smsgKeyID_eq_ok.1 hkeyid) hstr⟩⟩
    · rw [senderKeyID, if_neg hanon, hkeyid]
      rfl
    · rw [encryptedPayload, hcompress]
      dsimp only [bind, Except.bind]
      rw [hkey]
    · rw [length_signedPayload, SMSG_PL_HDR_LEN]
      omega

section Filled

open SecureMessageHeader

variable {now : Int} {iv : Bytes} {keyR : SK} {smsg : SecureMessageHeader}

theorem version_filledHeader : (filledHeader c now iv keyR smsg).version = [1, 1] := by
  rw [filledHeader, version, field_setField_of_disjoint (.inl (by decide)),
    field_setField_of_disjoint (.inl (by decide)), field_setField_of_disjoint (.inl (by decide))]
  exact field_setField rfl

theorem timestamp_filledHeader (hnow : -2 ^ 63 ≤ now ∧ now < 2 ^ 63) :
    (filledHeader c now iv keyR smsg).timestamp = now := by
  rw [filledHeader, timestamp, field_setField_of_disjoint (.inl (by decide)),
    field_setField_of_disjoint (.inl (by decide)), field_setField (length_i64Bytes now), ofI64_i64Bytes hnow]

theorem cpkR_filledHeader (hkeyR : CPubKey.isCompressed (c.getPubKey keyR)) :
    (filledHeader c now iv keyR smsg).cpkR = c.getPubKey keyR := by
  have hlen : (c.getPubKey keyR).length = 33 := of_decide_eq_true hkeyR
  rw [filledHeader, cpkR, field_setField hlen]

end Filled

/-- A message of an allowed length that a node sends is decrypted to its text, its time and its sender, and the nonce
that is found for it passes the check of the network. -/
theorem secureMessage_roundTrips (hc : c.Laws) {keysFrom keysTo : SmsgKeys SK} {now : Int} {iv : Bytes}
    {keyR keyDest : SK} {smsg : SecureMessageHeader} {addressFrom addressTo address message : Bytes} {ckidDest : CKeyID}
    (hnow : -2 ^ 63 ≤ now ∧ now < 2 ^ 63) (hkeyR : CPubKey.isCompressed (c.getPubKey keyR))
    (hlen : message.length ≤ if addressFrom = anon then SMSG_MAX_AMSG_BYTES else SMSG_MAX_MSG_BYTES)
    (hfrom : OwnSender c net keysFrom addressFrom) (hto : smsgKeyID c.hash net 4 4 addressTo = .ok ckidDest)
    (hknown : keysFrom.getDestKey ckidDest = some (c.getPubKey keyDest))
    (hdest : keysTo.getKey ckidDest = some keyDest) (haddress : smsgKeyID c.hash net 3 3 address = .ok ckidDest) :
    ∃ header pPayload,
      secureMsgEncrypt c net keysFrom now iv keyR smsg addressFrom addressTo message = .ok (header, pPayload) ∧
        header.nPayload = pPayload.length ∧
        DecryptsTo c net keysTo now addressFrom address message header pPayload ∧
        ∀ hmac fSecMsgEnabled fEnabledAfter header',
          secureMsgSetHash hmac fSecMsgEnabled fEnabledAfter header pPayload = (0, header') →
            DecryptsTo c net keysTo now addressFrom address message header' pPayload ∧
              (pPayload.length ≤ SMSG_MAX_MSG_WORST →
                secureMsgValidate hmac header' pPayload.length (some pPayload) = some 0) := by
  have hmax : message.length ≤ SMSG_MAX_MSG_BYTES := by
    refine Nat.le_trans hlen ?_
    split
    · decide
    · exact Nat.le_refl _
  obtain ⟨ckidFrom, vchPayload, hsender, hpayload, hsmall, hread⟩ := readPayload_encryptedPayload hc hfrom hmax
  obtain ⟨ptK, hK⟩ := hc.setPubKey keyDest
  obtain ⟨header, pPayload, hseal, hnPayload, hopens, hfields⟩ :=
    sealMessage_opens hc (c.ecdhComputeKey ptK keyR) (filledHeader c now iv keyR smsg) hsmall
  have hversion : header.version = [1, 1] := (hfields 4 2 (by decide)).trans version_filledHeader
  have htimestamp : header.timestamp = now := by
    rw [SecureMessageHeader.timestamp, hfields 7 8 (by decide)]
    exact timestamp_filledHeader hnow
  have hcpkR : header.cpkR = c.getPubKey keyR := (hfields 31 33 (by decide)).trans (cpkR_filledHeader hkeyR)
  have hdecrypts {header' : SecureMessageHeader} (hsame : SameSealed header header') :
      DecryptsTo c net keysTo now addressFrom address message header' pPayload := by
    intro msg
    obtain ⟨decrypted, hdecrypted, htext, htime, hsame'⟩ := hread { msg with timestamp := header'.timestamp }
    have htimestamp' : header'.timestamp = now := by
      rw [SecureMessageHeader.timestamp, hsame 7 8 (by decide) (by decide)]
      exact htimestamp
    refine ⟨decrypted, ?_, htext, htime.trans htimestamp', hsame'⟩
    rw [secureMsgDecrypt_of_opens hc msg haddress hdest hK rfl ?_ ?_ (hopens.of_sameSealed hsame), hdecrypted]
    · exact (hsame 4 2 (by decide) (by decide)).trans hversion
    · exact (hsame 31 33 (by decide) (by decide)).trans hcpkR
  refine ⟨header, pPayload, ?_, hnPayload, hdecrypts fun _ _ _ _ => rfl,
    fun hmac fSecMsgEnabled fEnabledAfter header' hset => ?_⟩
  · rw [secureMsgEncrypt, if_neg (Nat.not_lt.2 hlen), hsender, hto]
    simp only [bind, Except.bind, hknown, hK, hpayload, hc.length_ecdhComputeKey, hc.isValid_getPubKey, hkeyR]
    exact hseal
  · obtain ⟨hsame, hvalidate⟩ := secureMsgSetHash_spec hversion hset
    exact ⟨hdecrypts hsame, hvalidate⟩

/-! ## A small instance -/

/-- A key is a byte, and points are multiplied as bytes. -/
def byteCrypto : SmsgCrypto UInt8 UInt8 where
  hash _ := 0
  hash160 pubkey := BitVec.ofNat 160 (pubkey.getLastD 0).toNat
  getPubKey k := 2 :: (List.replicate 31 0 ++ [k])
  setPubKey pubkey := pubkey.getLast?
  ecdhComputeKey pt k := List.replicate 31 0 ++ [pt * k]
  sha512 vchP := List.replicate 63 0 ++ [vchP.getLastD 0]
  hmacSha256 key _ := some (List.replicate 31 0 ++ [key.getLastD 0])
  aesEncrypt key _ plain := some (plain.map (· ^^^ key.getLastD 0))
  aesDecrypt key _ cipher := some (cipher.map (· ^^^ key.getLastD 0))
  lz4Compress text := text
  lz4DecompressSafe text _ := some text
  signCompact k _ := List.replicate 64 0 ++ [k]
  recoverCompact _ vchSig := 2 :: (List.replicate 31 0 ++ [vchSig.getLastD 0])

theorem byteCrypto_laws : byteCrypto.Laws where
  set_getPubKey k := by simp [byteCrypto, CPubKey.set, CPubKey.getLen]
  isValid_getPubKey k := by simp [byteCrypto, CPubKey.isValid]
  setPubKey k := ⟨k, by simp [byteCrypto, List.getLast?_cons]⟩
  ecdhComm r k ptR ptK hR hK := by
    have hptR : r = ptR := by simpa [byteCrypto, List.getLast?_cons] using hR
    have hptK : k = ptK := by simpa [byteCrypto, List.getLast?_cons] using hK
    simp only [byteCrypto, ← hptR, ← hptK, UInt8.mul_comm]
  length_ecdhComputeKey pt k := by simp [byteCrypto]
  length_sha512 bs := by simp [byteCrypto]
  hmacSha256 key data := ⟨_, rfl, by simp⟩
  aes key iv plain _ _ _ := by
    refine ⟨_, rfl, by simp, ?_⟩
    simp [byteCrypto, UInt8.xor_assoc, Function.comp_def]
  lz4 text hpos _ := by
    refine ⟨hpos, ?_, rfl⟩
    have hlen : (byteCrypto.lz4Compress text).length = text.length := rfl
    rw [hlen, lz4CompressBound]
    omega
  compact k h := by simp [byteCrypto]

/-- The keys 3 and 5, each with the id of its own number. -/
def byteKeys : SmsgKeys UInt8 where
  getKey ckid := if ckid = 3 then some 3 else if ckid = 5 then some 5 else none
  getPubKey _ := none
  getStoredKey ckid := some (byteCrypto.getPubKey (UInt8.ofNat ckid.toNat))

def addressOfThree : Bytes :=
  "P8s3BYmoJTCHZUSVYeTTaniGvcozBSeADm".toList.map fun ch => UInt8.ofNat ch.toNat

def addressOfFive : Bytes :=
  "P93cXw2S8ofgcZcygMt5XPCwoCa4EV1imd".toList.map fun ch => UInt8.ofNat ch.toNat

theorem smsgKeyID_addressOfThree (errString errKeyID : Nat) :
    smsgKeyID byteCrypto.hash .main errString errKeyID addressOfThree = .ok 3 := by
  rw [smsgKeyID_eq_ok]
  decide +kernel

theorem smsgKeyID_addressOfFive (errString errKeyID : Nat) :
    smsgKeyID byteCrypto.hash .main errString errKeyID addressOfFive = .ok 5 := by
  rw [smsgKeyID_eq_ok]
  decide +kernel

/-- Key 3 says "hi" to key 5. -/
theorem secureMessage_roundTrips_hi :
    ∃ header pPayload,
      secureMsgEncrypt byteCrypto .main byteKeys 1500000000 (List.replicate 16 0) 7 zeroHeader addressOfThree
          addressOfFive [104, 105] = .ok (header, pPayload) ∧
        DecryptsTo byteCrypto .main byteKeys 1500000000 addressOfThree addressOfFive [104, 105] header pPayload := by
  obtain ⟨header, pPayload, hencrypt, -, hdecrypts, -⟩ :=
    @secureMessage_roundTrips _ _ byteCrypto .main byteCrypto_laws byteKeys byteKeys 1500000000 (List.replicate 16 0)
      7 5 zeroHeader addressOfThree addressOfFive addressOfFive [104, 105] 5 (by omega) rfl (by decide)
      (.inr ⟨3, 3, smsgKeyID_addressOfThree 3 4, rfl, rfl⟩) (smsgKeyID_addressOfFive 4 4) rfl rfl
      (smsgKeyID_addressOfFive 3 3)
  exact ⟨header, pPayload, hencrypt, hdecrypts⟩

end ProCurrency
