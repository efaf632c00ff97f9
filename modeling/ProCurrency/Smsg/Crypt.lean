import ProCurrency.Base.PubKey
import ProCurrency.Encoding.Address
import ProCurrency.Lib.Buffer
import ProCurrency.Smsg.Store

/-!
# Encryption of messages

`SecureMsgEncrypt`, `SecureMsgSetHash` and `SecureMsgDecrypt` (smessage.cpp). The functions of OpenSSL, of libsecp256k1
and of LZ4 are arguments, and so is what is drawn at random.
-/

namespace ProCurrency

open ByteCodec Buffer CBitcoinAddress

/-! ## Keys -/

/-- What `SK` (a valid `CKey`) and `PT` (a point of the curve) are used with. -/
structure SmsgCrypto (SK PT : Type) where
  /-- `Hash`. -/
  hash : Bytes → UInt256
  hash160 : Bytes → CKeyID
  getPubKey : SK → CPubKey
  /-- `CECKey::SetPubKey`. -/
  setPubKey : CPubKey → Option PT
  /-- `ECDH_compute_key`, which returns the length of the secret. -/
  ecdhComputeKey : PT → SK → Bytes
  sha512 : Bytes → Bytes
  hmacSha256 : HmacSha256
  /-- `EVP_aes_256_cbc`, with a key and an initialisation vector. -/
  aesEncrypt : Bytes → Bytes → Bytes → Option Bytes
  aesDecrypt : Bytes → Bytes → Bytes → Option Bytes
  /-- `LZ4_compress`, no bytes when it fails. -/
  lz4Compress : Bytes → Bytes
  /-- `LZ4_decompress_safe` into a buffer of the given size. -/
  lz4DecompressSafe : Bytes → Nat → Option Bytes
  signCompact : SK → UInt256 → Bytes
  recoverCompact : UInt256 → Bytes → CPubKey

/-- The keys of a node: those of its wallet, and the public keys that it has stored for other addresses. -/
structure SmsgKeys (SK : Type) where
  getKey : CKeyID → Option SK
  getPubKey : CKeyID → Option CPubKey
  /-- `SecureMsgGetStoredKey`, when it returns 0. -/
  getStoredKey : CKeyID → Option CPubKey

variable {SK PT : Type}

/-- `SecureMsgGetLocalKey`, when it returns 0. -/
def SmsgKeys.getLocalKey (keys : SmsgKeys SK) (ckid : CKeyID) : Option CPubKey :=
  match keys.getPubKey ckid with
  | none => none
  | some cpkOut => if !CPubKey.isValid cpkOut || !CPubKey.isCompressed cpkOut then none else some cpkOut

def SmsgKeys.getDestKey (keys : SmsgKeys SK) (ckidDest : CKeyID) : Option CPubKey :=
  match keys.getStoredKey ckidDest with
  | some cpkDestK => some cpkDestK
  | none => keys.getLocalKey ckidDest

/-- `SetString` and `GetKeyID`, with the two errors that these have. -/
def smsgKeyID (hash : Bytes → UInt256) (net : Network) (errString errKeyID : Nat) (address : Bytes) :
    Except Nat CKeyID :=
  match setString hash address with
  | none => .error errString
  | some coinAddr =>
      match coinAddr.getKeyID net with
      | none => .error errKeyID
      | some ckid => .ok ckid

/-- The text that stands for no sender. -/
def anon : Bytes := ['a', 'n', 'o', 'n'].map fun c => UInt8.ofNat c.toNat

/-! ## Fields of the header -/

namespace SecureMessageHeader

def iv (h : SecureMessageHeader) : Bytes := h.field 15 16
def cpkR (h : SecureMessageHeader) : Bytes := h.field 31 33
def mac (h : SecureMessageHeader) : Bytes := h.field 64 32

/-- `memcpy` of `size` bytes into the header. -/
def setField (h : SecureMessageHeader) (pos size : Nat) (bs : Bytes) (fits : pos + size ≤ SMSG_HDR_LEN) :
    SecureMessageHeader where
  bytes := patch h.bytes pos (bs.takeD size 0)
  size := by rw [length_patch (by rwa [List.takeD_length, h.size]), h.size]

end SecureMessageHeader

/-! ## Encrypting -/

/-- The keys `key_e` and `key_m`. -/
def messageKeys (c : SmsgCrypto SK PT) (vchP : Bytes) : Bytes × Bytes :=
  (slice (c.sha512 vchP) 0 32, slice (c.sha512 vchP) 32 32)

/-- The hash of the timestamp and of the payload. -/
def messageMac (c : SmsgCrypto SK PT) (key_m : Bytes) (smsg : SecureMessageHeader) (pPayload : Bytes) :
    Option Bytes :=
  match c.hmacSha256 key_m (smsg.field 7 8 ++ pPayload) with
  | none => none
  | some mac => if mac.length = 32 then some mac else none

/-- "only compress if over 128 bytes". -/
def compressMessage (c : SmsgCrypto SK PT) (message : Bytes) : Except Nat Bytes :=
  if 128 < message.length then
    if (c.lz4Compress message).length < 1 then .error 9 else .ok (c.lz4Compress message)
  else .ok message

def anonymousPayload (lenMsg : Nat) (pMsgData : Bytes) : Bytes :=
  [250] ++ (List.replicate 4 0 ++ (leBytes 4 lenMsg ++ pMsgData))

/-- The version of the sender's address, its key id, the signature of the plain text, and the message. -/
def signedPayload (c : SmsgCrypto SK PT) (net : Network) (ckidFrom : CKeyID) (keyFrom : SK) (message pMsgData : Bytes) :
    Bytes :=
  net.pubkeyAddress ++ (writeKeyID ckidFrom ++
    ((c.signCompact keyFrom (c.hash message)).takeD 65 0 ++ (leBytes 4 message.length ++ pMsgData)))

/-- What is encrypted, for a sender that is `none` when anonymous. -/
def encryptedPayload (c : SmsgCrypto SK PT) (net : Network) (keys : SmsgKeys SK) (ckidFrom : Option CKeyID)
    (message : Bytes) : Except Nat Bytes := do
  let pMsgData ← compressMessage c message
  match ckidFrom with
  | none => .ok (anonymousPayload message.length pMsgData)
  | some ckidFrom =>
      match keys.getKey ckidFrom with
      | none => .error 7
      | some keyFrom => .ok (signedPayload c net ckidFrom keyFrom message pMsgData)

/-- The fields that `SecureMsgEncrypt` fills in. Those that it leaves out keep what `smsg` has there. -/
def sealMessage (c : SmsgCrypto SK PT) (vchP vchPayload : Bytes) (smsg : SecureMessageHeader) :
    Except Nat (SecureMessageHeader × Bytes) :=
  match c.aesEncrypt (messageKeys c vchP).1 smsg.iv vchPayload with
  | none => .error 11
  | some vchCiphertext =>
      let smsg := smsg.setField 100 4 (leBytes 4 vchCiphertext.length) (by decide)
      match messageMac c (messageKeys c vchP).2 smsg vchCiphertext with
      | none => .error 10
      | some mac => .ok (smsg.setField 64 32 mac (by decide), vchCiphertext)

/-- The sender's key id, `none` when anonymous. -/
def senderKeyID (hash : Bytes → UInt256) (net : Network) (addressFrom : Bytes) : Except Nat (Option CKeyID) :=
  if addressFrom = anon then .ok none else (smsgKeyID hash net 3 4 addressFrom).map some

/-- `SecureMsgEncrypt`: the header and the payload of the message, or the error. -/
def secureMsgEncrypt (c : SmsgCrypto SK PT) (net : Network) (keys : SmsgKeys SK) (now : Int) (iv : Bytes) (keyR : SK)
    (smsg : SecureMessageHeader) (addressFrom addressTo message : Bytes) :
    Except Nat (SecureMessageHeader × Bytes) := do
  if (if addressFrom = anon then SMSG_MAX_AMSG_BYTES else SMSG_MAX_MSG_BYTES) < message.length then .error 2
  else
    let smsg := smsg.setField 4 2 [1, 1] (by decide)
    let smsg := smsg.setField 7 8 (i64Bytes now) (by decide)
    let ckidFrom ← senderKeyID c.hash net addressFrom
    let ckidDest ← smsgKeyID c.hash net 4 4 addressTo
    match keys.getDestKey ckidDest with
    | none => .error 5
    | some cpkDestK =>
        let smsg := smsg.setField 15 16 iv (by decide)
        match c.setPubKey cpkDestK with
        | none => .error 4
        | some ecKeyK =>
            let vchP := c.ecdhComputeKey ecKeyK keyR
            let cpkR := c.getPubKey keyR
            if vchP.length ≠ 32 then .error 6
            else if !CPubKey.isValid cpkR || !CPubKey.isCompressed cpkR then .error 1
            else
              let smsg := smsg.setField 31 33 cpkR (by decide)
              let vchPayload ← encryptedPayload c net keys ckidFrom message
              sealMessage c vchP vchPayload smsg

/-- The header as `SecureMsgEncrypt` hands it over to be sealed. -/
def filledHeader (c : SmsgCrypto SK PT) (now : Int) (iv : Bytes) (keyR : SK) (smsg : SecureMessageHeader) :
    SecureMessageHeader :=
  (((smsg.setField 4 2 [1, 1] (by decide)).setField 7 8 (i64Bytes now) (by decide)).setField 15 16 iv
    (by decide)).setField 31 33 (c.getPubKey keyR) (by decide)

/-! ## Proof of work -/

/-- The loop of `SecureMsgSetHash` from a nonce on; `fSecMsgEnabled` has the flag as each round finds it. -/
def setHashLoop (hmac : HmacSha256) (fSecMsgEnabled : UInt32 → Bool) (pPayload : Bytes) :
    Nat → UInt32 → SecureMessageHeader → SecureMessageHeader × Option Bytes
  | 0, _, psmsg => (psmsg, none)
  | left + 1, nonce, psmsg =>
      if !fSecMsgEnabled nonce then (psmsg, none)
      else
        let psmsg := psmsg.setField 96 4 (leBytes 4 nonce.toNat) (by decide)
        match powHash hmac psmsg pPayload with
        | none => (psmsg, none)
        | some sha256Hash =>
            if meetsTarget sha256Hash then (psmsg, some sha256Hash)
            else setHashLoop hmac fSecMsgEnabled pPayload left (nonce + 1) psmsg

/-- `SecureMsgSetHash`: 0 with the nonce and the checksum in the header, 1 when no nonce was found, 2 when the node
shuts down. -/
def secureMsgSetHash (hmac : HmacSha256) (fSecMsgEnabled : UInt32 → Bool) (fEnabledAfter : Bool)
    (psmsg : SecureMessageHeader) (pPayload : Bytes) : Nat × SecureMessageHeader :=
  match setHashLoop hmac fSecMsgEnabled pPayload (2 ^ 32) 0 psmsg with
  | (psmsg, found) =>
      if !fEnabledAfter then (2, psmsg)
      else
        match found with
        | none => (1, psmsg)
        | some sha256Hash => (0, psmsg.setField 0 4 sha256Hash (by decide))

/-! ## Decrypting -/

structure MessageData where
  timestamp : Int
  sToAddress : Bytes
  sFromAddress : Bytes
  vchMessage : Bytes
deriving DecidableEq

/-- What `SecureMsgDecrypt` leaves when it returns 0; `inserted` is what it hands to `SecureMsgInsertAddress`. -/
structure MessageDecrypted where
  msg : MessageData
  inserted : Option (CKeyID × CPubKey) := none
deriving DecidableEq

/-- "only compress if over 128 bytes", the other way. A length that is not an `int` has no result here. -/
def decompressMessage (c : SmsgCrypto SK PT) (pMsgData : Bytes) (lenPlain : Nat) : Option (Except Nat Bytes) :=
  if 2 ^ 31 ≤ lenPlain then none
  else if 128 < lenPlain then
    match c.lz4DecompressSafe pMsgData lenPlain with
    | none => some (.error 1)
    | some text => if text.length ≠ lenPlain then some (.error 1) else some (.ok text)
  else
    match readAt pMsgData 0 lenPlain with
    | none => none
    | some text => some (.ok text)

/-- The sender of a payload that is not anonymous. -/
def checkSender (c : SmsgCrypto SK PT) (net : Network) (vchPayload text : Bytes) (msg : MessageData) :
    Option (Except Nat MessageDecrypted) :=
  let ckidFrom := readKeyID (slice vchPayload 1 20)
  let coinAddrFrom := setKeyID net ckidFrom
  if !coinAddrFrom.isValid net then some (.error 1)
  else
    let cpkFromSig := c.recoverCompact (c.hash text) (slice vchPayload (1 + 20) 65)
    if !CPubKey.isValid cpkFromSig then some (.error 1)
    else if coinAddrFrom ≠ setKeyID net (c.hash160 cpkFromSig) then some (.error 1)
    else
      match coinAddrFrom.toString c.hash with
      | none => none
      | some sFromAddress => some (.ok ⟨{ msg with sFromAddress := sFromAddress }, some (ckidFrom, cpkFromSig)⟩)

/-- The decrypted payload; `none` when the code reads outside of it. -/
def readPayload (c : SmsgCrypto SK PT) (net : Network) (vchPayload : Bytes) (msg : MessageData) :
    Option (Except Nat MessageDecrypted) :=
  match vchPayload.head? with
  | none => none
  | some first =>
      let nHeader := if first = 250 then 9 else SMSG_PL_HDR_LEN
      match readU32At vchPayload (nHeader - 4) with
      | none => none
      | some lenPlain =>
          match decompressMessage c (vchPayload.drop nHeader) lenPlain.toNat with
          | none => none
          | some (.error rv) => some (.error rv)
          | some (.ok text) =>
              let msg := { msg with vchMessage := text ++ [0] }
              if first = 250 then some (.ok ⟨{ msg with sFromAddress := anon }, none⟩)
              else checkSender c net vchPayload text msg

/-- `SecureMsgDecrypt`: what it fills in when it returns 0, or the error; a null payload is `none`. -/
def secureMsgDecrypt (c : SmsgCrypto SK PT) (net : Network) (keys : SmsgKeys SK) (fTestOnly : Bool) (address : Bytes)
    (psmsg : SecureMessageHeader) (pPayload : Option Bytes) (msg : MessageData) :
    Option (Except Nat MessageDecrypted) :=
  match pPayload with
  | none => some (.error 1)
  | some pPayload =>
      if psmsg.version.head? ≠ some 1 then some (.error 2)
      else
        match smsgKeyID c.hash net 3 3 address with
        | .error rv => some (.error rv)
        | .ok ckidDest =>
            match keys.getKey ckidDest with
            | none => some (.error 3)
            | some keyDest =>
                let cpkR := CPubKey.set psmsg.cpkR
                if !CPubKey.isValid cpkR then some (.error 1)
                else
                  match c.setPubKey cpkR with
                  | none => some (.error 1)
                  | some ecKeyR =>
                      let vchP := c.ecdhComputeKey ecKeyR keyDest
                      if vchP.length ≠ 32 then some (.error 1)
                      else
                        match messageMac c (messageKeys c vchP).2 psmsg pPayload with
                        | none => some (.error 1)
                        | some mac =>
                            if mac ≠ psmsg.mac then some (.error 1)
                            else if fTestOnly then some (.ok ⟨msg, none⟩)
                            else
                              match c.aesDecrypt (messageKeys c vchP).1 psmsg.iv pPayload with
                              | none => some (.error 1)
                              | some vchPayload =>
                                  readPayload c net vchPayload { msg with timestamp := psmsg.timestamp }

end ProCurrency
