import ProCurrency.Lib.ByteCodec
import ProCurrency.Store.TxDb
import Std.Data.ExtTreeMap

/-!
# The hash of a bucket

`XXH32` (xxhash/xxhash.c), fed piece by piece.
-/

namespace ProCurrency.XXH32

open ByteCodec

def PRIME32_1 : UInt32 := 2654435761
def PRIME32_2 : UInt32 := 2246822519
def PRIME32_3 : UInt32 := 3266489917
def PRIME32_4 : UInt32 := 668265263
def PRIME32_5 : UInt32 := 374761393

def rotl32 (x r : UInt32) : UInt32 := (x <<< r) ||| (x >>> (32 - r))

structure State where
  total_len : UInt64
  seed : UInt32
  v1 : UInt32
  v2 : UInt32
  v3 : UInt32
  v4 : UInt32
  memory : List UInt8
deriving DecidableEq

/-- `XXH32_init`. -/
def init (seed : UInt32) : State where
  total_len := 0
  seed := seed
  v1 := seed + PRIME32_1 + PRIME32_2
  v2 := seed + PRIME32_2
  v3 := seed
  v4 := seed - PRIME32_1
  memory := []

def readLE32 (p : List UInt8) : UInt32 := UInt32.ofNat (ofLeBytes (p.take 4))

def round (v : UInt32) (p : List UInt8) : UInt32 := rotl32 (v + readLE32 p * PRIME32_2) 13 * PRIME32_1

/-- The whole stripes of 16 bytes; what is left stays in the temporary buffer. -/
def stripes (state : State) : List UInt8 → State
  | b0 :: b1 :: b2 :: b3 :: b4 :: b5 :: b6 :: b7 :: b8 :: b9 :: b10 :: b11 :: b12 :: b13 :: b14 :: b15 :: p =>
      stripes
        { state with
          v1 := round state.v1 [b0, b1, b2, b3]
          v2 := round state.v2 [b4, b5, b6, b7]
          v3 := round state.v3 [b8, b9, b10, b11]
          v4 := round state.v4 [b12, b13, b14, b15] } p
  | p => { state with memory := p }

/-- `XXH32_update`. -/
def update (state : State) (input : List UInt8) : State :=
  stripes { state with total_len := state.total_len + UInt64.ofNat input.length } (state.memory ++ input)

def digestTail (h32 : UInt32) : List UInt8 → UInt32
  | b0 :: b1 :: b2 :: b3 :: p => digestTail (rotl32 (h32 + readLE32 [b0, b1, b2, b3] * PRIME32_3) 17 * PRIME32_4) p
  | b :: p => digestTail (rotl32 (h32 + b.toUInt32 * PRIME32_5) 11 * PRIME32_1) p
  | [] => h32

def avalanche (h32 : UInt32) : UInt32 :=
  let h32 := (h32 ^^^ (h32 >>> 15)) * PRIME32_2
  let h32 := (h32 ^^^ (h32 >>> 13)) * PRIME32_3
  h32 ^^^ (h32 >>> 16)

/-- `XXH32_digest`. -/
def digest (state : State) : UInt32 :=
  let h32 :=
    if 16 ≤ state.total_len then
      rotl32 state.v1 1 + rotl32 state.v2 7 + rotl32 state.v3 12 + rotl32 state.v4 18
    else state.seed + PRIME32_5
  avalanche (digestTail (h32 + state.total_len.toUInt32) state.memory)

/-- The known value for an empty input. -/
example : digest (init 0) = 0x02CC5D05 := by decide +kernel

end ProCurrency.XXH32

/-!
## Secure messages

The packed header of a message, the tokens of a bucket, and the check of a message's proof of work (smessage.h,
smessage.cpp).
-/

namespace ProCurrency

open ByteCodec

def SMSG_HDR_LEN : Nat := 104
def SMSG_PL_HDR_LEN : Nat := 1 + 20 + 65 + 4
def SMSG_BUCKET_LEN : Int := 60 * 10
def SMSG_RETENTION : Int := 60 * 60 * 48
def SMSG_SEND_DELAY : Int := 2
def SMSG_TIME_LEEWAY : Int := 60
def SMSG_TIME_IGNORE : Int := 90
def SMSG_MAX_MSG_BYTES : Nat := 4096
def SMSG_MAX_AMSG_BYTES : Nat := 512

/-- `LZ4_COMPRESSBOUND`, for sizes below `LZ4_MAX_INPUT_SIZE`. -/
def lz4CompressBound (isize : Nat) : Nat := isize + isize / 255 + 16

def SMSG_MAX_MSG_WORST : Nat := lz4CompressBound (SMSG_MAX_MSG_BYTES + SMSG_PL_HDR_LEN)

abbrev NodeId := Int

/-! ## Buffers -/

/-- The `size` bytes of a buffer at `pos`, `none` when they do not all lie inside it. -/
def readAt (vchData : Bytes) (pos size : Nat) : Option Bytes :=
  if pos + size ≤ vchData.length then some ((vchData.drop pos).take size) else none

/-- A signed integer in two's complement. -/
@[irreducible] def ofI64 (bs : Bytes) : Int := Int.bmod (ofLeBytes bs) (2 ^ 64)

def i64Bytes (n : Int) : Bytes := leBytes 8 (n % 2 ^ 64).toNat

@[simp] theorem length_i64Bytes (n : Int) : (i64Bytes n).length = 8 := length_leBytes 8 _

theorem ofI64_i64Bytes {n : Int} (h : -2 ^ 63 ≤ n ∧ n < 2 ^ 63) : ofI64 (i64Bytes n) = n := by
  have hlt : (n % 2 ^ 64).toNat < 256 ^ 8 := by omega
  have hcast : ((n % 2 ^ 64).toNat : Int) = n % 2 ^ 64 := by omega
  have hpow : (2 : Int) ^ 64 = ((2 ^ 64 : Nat) : Int) := by simp
  have hread : (ofLeBytes (i64Bytes n) : Int) = n % 2 ^ 64 := by rw [i64Bytes, ofLeBytes_leBytes hlt, hcast]
  unfold ofI64
  rw [hread, hpow, Int.emod_bmod]
  apply Int.bmod_eq_of_le
  · have hhalf : ((2 ^ 64 : Nat) : Int) / 2 = 2 ^ 63 := by simp
    omega
  · have hhalf : (((2 ^ 64 : Nat) : Int) + 1) / 2 = 2 ^ 63 := by simp
    omega

def readU32At (vchData : Bytes) (pos : Nat) : Option UInt32 :=
  (readAt vchData pos 4).map fun bs => UInt32.ofNat (ofLeBytes bs)

def readI64At (vchData : Bytes) (pos : Nat) : Option Int := (readAt vchData pos 8).map ofI64

/-! ## The header -/

/-- The fields of `SecureMessage` in its packed header: hash, version, flags, timestamp, iv, cpkR, mac, nonce and
nPayload. -/
structure SecureMessageHeader where
  bytes : Bytes
  size : bytes.length = SMSG_HDR_LEN

def zeroHeader : SecureMessageHeader := ⟨List.replicate SMSG_HDR_LEN 0, List.length_replicate⟩

namespace SecureMessageHeader

def field (h : SecureMessageHeader) (pos size : Nat) : Bytes := (h.bytes.drop pos).take size

def hash (h : SecureMessageHeader) : Bytes := h.field 0 4
def version (h : SecureMessageHeader) : Bytes := h.field 4 2
def timestamp (h : SecureMessageHeader) : Int := ofI64 (h.field 7 8)
def nonce (h : SecureMessageHeader) : Bytes := h.field 96 4
def nPayload (h : SecureMessageHeader) : Nat := ofLeBytes (h.field 100 4)

end SecureMessageHeader

/-- A header with the payload that it announces. -/
structure SecureMessage where
  header : SecureMessageHeader
  pPayload : Bytes
  size : pPayload.length = header.nPayload

/-! ## Tokens and buckets -/

/-- `SecMsgToken` without its offset: what tokens are ordered by. -/
@[ext] structure SecMsgToken where
  timestamp : Int
  sample : Bytes
deriving DecidableEq

namespace SecMsgToken

instance : Ord SecMsgToken := ⟨compareLex (compareOn timestamp) (compareOn sample)⟩

instance : Std.TransOrd SecMsgToken :=
  inferInstanceAs (Std.TransCmp (compareLex (compareOn timestamp) (compareOn sample)))

instance : Std.LawfulEqOrd SecMsgToken where
  eq_of_compare {a b} h := by
    have h : compareLex (compareOn timestamp) (compareOn sample) a b = .eq := h
    rw [compareLex_eq_eq] at h
    exact SecMsgToken.ext (Std.LawfulEqOrd.eq_of_compare h.1) (Std.LawfulEqOrd.eq_of_compare h.2)

/-- The constructor; a short payload gives a sample of zeros. -/
def ofPayload (ts : Int) (p : Bytes) : SecMsgToken :=
  ⟨ts, if p.length < 8 then List.replicate 8 0 else p.take 8⟩

end SecMsgToken

def SecureMessage.token (smsg : SecureMessage) : SecMsgToken := .ofPayload smsg.header.timestamp smsg.pPayload

/-- `setTokens` has the offset of each token. -/
structure SecMsgBucket where
  timeChanged : Int := 0
  hash : UInt32 := 0
  nLockCount : Nat := 0
  nLockPeerId : NodeId := 0
  setTokens : Std.ExtTreeMap SecMsgToken Nat := ∅

namespace SecMsgBucket

def hashTokens (setTokens : Std.ExtTreeMap SecMsgToken Nat) : UInt32 :=
  XXH32.digest (setTokens.toList.foldl (fun state token => XXH32.update state token.1.sample) (XXH32.init 1))

/-- `SecMsgBucket::hashBucket`. -/
def hashBucket (bkt : SecMsgBucket) (now : Int) : SecMsgBucket :=
  let hash_new := hashTokens bkt.setTokens
  if bkt.hash ≠ hash_new then { bkt with hash := hash_new, timeChanged := now } else bkt

@[simp] theorem hashBucket_setTokens (bkt : SecMsgBucket) (now : Int) :
    (bkt.hashBucket now).setTokens = bkt.setTokens := by
  rw [hashBucket]; split <;> rfl

@[simp] theorem hashBucket_nLockCount (bkt : SecMsgBucket) (now : Int) :
    (bkt.hashBucket now).nLockCount = bkt.nLockCount := by
  rw [hashBucket]; split <;> rfl

@[simp] theorem hashBucket_nLockPeerId (bkt : SecMsgBucket) (now : Int) :
    (bkt.hashBucket now).nLockPeerId = bkt.nLockPeerId := by
  rw [hashBucket]; split <;> rfl

@[simp] theorem hashBucket_hash (bkt : SecMsgBucket) (now : Int) :
    (bkt.hashBucket now).hash = hashTokens bkt.setTokens := by
  rw [hashBucket]
  split
  · rfl
  · rename_i h
    exact not_not.1 h

end SecMsgBucket

/-- The time of the bucket that a message is in, with the remainder of C++. -/
def bucketTime (timestamp : Int) : Int := timestamp - timestamp.tmod SMSG_BUCKET_LEN

/-! ## Proof of work -/

/-- `HMAC_Init_ex`, `HMAC_Update` and `HMAC_Final` with `EVP_sha256`, over a key and the data; `none` when one of
the calls fails. -/
abbrev HmacSha256 := Bytes → Bytes → Option Bytes

/-- What both the check and the search hash: the nonce, repeated, is the key, and the payload is hashed twice. -/
def powHash (hmac : HmacSha256) (pHeader : SecureMessageHeader) (pPayload : Bytes) : Option Bytes :=
  match hmac (List.replicate 8 pHeader.nonce).flatten (pHeader.bytes.drop 4 ++ pPayload ++ pPayload) with
  | none => none
  | some sha256Hash => if sha256Hash.length = 32 then some sha256Hash else none

def meetsTarget (sha256Hash : Bytes) : Bool :=
  sha256Hash.getD 31 0 == 0 && sha256Hash.getD 30 0 == 0 && ~~~(sha256Hash.getD 29 0) &&& 7 != 0

/-- `SecureMsgValidate`, of a payload of `nPayload` bytes; `pPayload` is `none` when they are not all inside the
buffer that the message was received in. -/
def secureMsgValidate (hmac : HmacSha256) (pHeader : SecureMessageHeader) (nPayload : Nat) (pPayload : Option Bytes) :
    Option Nat :=
  if pHeader.version.head? ≠ some 1 then some 4
  else if SMSG_MAX_MSG_WORST < nPayload then some 5
  else
    match pPayload with
    | none => none
    | some pPayload =>
        match powHash hmac pHeader pPayload with
        | none => some 1
        | some sha256Hash =>
            if pHeader.hash ≠ sha256Hash.take 4 then some 3
            else if meetsTarget sha256Hash then some 0
            else some 2

end ProCurrency

/-!
## The message store

The buckets in memory and the files of the directory `smsgStore`: one file of messages for each bucket, and one for
the messages that wait for the wallet to be unlocked. How the file operations end is an argument of each function.
-/

namespace ProCurrency

open ByteCodec

/-- `dat` has the files `<bucket>_01.dat`, `wl` the files `<bucket>_01_wl.dat`. -/
structure SmsgState where
  smsgBuckets : Std.ExtTreeMap Int SecMsgBucket := ∅
  dat : Std.ExtTreeMap Int Bytes := ∅
  wl : Std.ExtTreeMap Int Bytes := ∅

/-- How a message is appended to a file; `short` is an `fwrite` that fails after some bytes. -/
inductive WriteOutcome
  | ok
  | noDirectory
  | noOpen
  | noSeek
  | short (nWritten : Nat)
deriving DecidableEq

namespace SmsgState

/-- `smsgBuckets[time]`, a new bucket when there is none. -/
def bucketAt (st : SmsgState) (time : Int) : SecMsgBucket := (st.smsgBuckets[time]?).getD {}

def setBucket (st : SmsgState) (time : Int) (bkt : SecMsgBucket) : SmsgState :=
  { st with smsgBuckets := st.smsgBuckets.insert time bkt }

/-- What `operator[]` does to the map. -/
def touch (st : SmsgState) (time : Int) : SmsgState := st.setBucket time (st.bucketAt time)

def setDat (st : SmsgState) (bucket : Int) (file : Bytes) : SmsgState := { st with dat := st.dat.insert bucket file }

def setWl (st : SmsgState) (bucket : Int) (file : Bytes) : SmsgState := { st with wl := st.wl.insert bucket file }

end SmsgState

/-! ## Storing -/

/-- The messages "Message > now" and "Message < SMSG_RETENTION". -/
def outsideWindow (now timestamp : Int) : Bool :=
  timestamp > now + SMSG_TIME_LEEWAY || timestamp < now - SMSG_RETENTION

/-- `SecureMsgStore`. -/
def secureMsgStore (now : Int) (io : WriteOutcome) (pHeader : SecureMessageHeader) (pPayload : Bytes)
    (fUpdateBucket : Bool) (st : SmsgState) : Nat × SmsgState :=
  if io = .noDirectory || outsideWindow now pHeader.timestamp then (1, st)
  else
    let bucket := bucketTime pHeader.timestamp
    let token := SecMsgToken.ofPayload pHeader.timestamp pPayload
    let bkt := st.bucketAt bucket
    let st := st.setBucket bucket bkt
    if token ∈ bkt.setTokens then (1, st)
    else
      let file := (st.dat[bucket]?).getD []
      match io with
      | .noDirectory | .noOpen => (1, st)
      | .noSeek => (1, st.setDat bucket file)
      | .short nWritten => (1, st.setDat bucket (file ++ (pHeader.bytes ++ pPayload).take nWritten))
      | .ok =>
          let bkt := { bkt with setTokens := bkt.setTokens.insert token file.length }
          let bkt := if fUpdateBucket then bkt.hashBucket now else bkt
          (0, (st.setDat bucket (file ++ (pHeader.bytes ++ pPayload))).setBucket bucket bkt)

/-- `SecureMsgStoreUnscanned`. -/
def secureMsgStoreUnscanned (now : Int) (io : WriteOutcome) (pHeader : SecureMessageHeader) (pPayload : Bytes)
    (st : SmsgState) : Nat × SmsgState :=
  if io = .noDirectory || outsideWindow now pHeader.timestamp then (1, st)
  else
    let bucket := bucketTime pHeader.timestamp
    let file := (st.wl[bucket]?).getD []
    match io with
    | .noDirectory | .noOpen => (1, st)
    | .short nWritten => (1, st.setWl bucket (file ++ (pHeader.bytes ++ pPayload).take nWritten))
    | .noSeek | .ok => (0, st.setWl bucket (file ++ (pHeader.bytes ++ pPayload)))

/-- What `SecureMsgScanMessage` does to the store: nothing, unless the wallet is locked. -/
def secureMsgScanMessage (now : Int) (fLocked : Bool) (io : WriteOutcome) (pHeader : SecureMessageHeader)
    (pPayload : Bytes) (st : SmsgState) : SmsgState :=
  if fLocked then (secureMsgStoreUnscanned now io pHeader pPayload st).2 else st

/-! ## Retrieving -/

/-- Reads a packed header. -/
def readHeader : Reader SecureMessageHeader := fun s =>
  if h : s.length < SMSG_HDR_LEN then none
  else some (⟨s.take SMSG_HDR_LEN, by rw [List.length_take]; omega⟩, s.drop SMSG_HDR_LEN)

/-- `SecureMsgRetrieve`: the message of a token with its offset, `none` for the result 1. -/
def secureMsgRetrieve (token : SecMsgToken) (offset : Nat) (st : SmsgState) : Option Bytes :=
  match st.dat[bucketTime token.timestamp]? with
  | none => none
  | some file =>
      match readHeader (file.drop offset) with
      | none => none
      | some (smsg, s) =>
          match readBytes smsg.nPayload s with
          | none => none
          | some (pPayload, _) => some (smsg.bytes ++ pPayload)

/-! ## Expiry -/

/-- One entry of the loop of `ThreadSecureMsg`; `none` for a bucket that is removed. -/
def tickBucket (now time : Int) (bkt : SecMsgBucket) : Option SecMsgBucket :=
  if time < now - SMSG_RETENTION then none
  else if bkt.nLockCount > 0 then
    let bkt := { bkt with nLockCount := bkt.nLockCount - 1 }
    some (if bkt.nLockCount = 0 then { bkt with nLockPeerId := 0 } else bkt)
  else some bkt

/-- The file goes with its bucket, unless the removal fails. -/
def keepsFile (now : Int) (fRemoves : Int → Bool) (st : SmsgState) (time : Int) : Bool :=
  !(time ∈ st.smsgBuckets && time < now - SMSG_RETENTION && fRemoves time)

/-- The locked part of one pass of `ThreadSecureMsg`. -/
def expireBuckets (now : Int) (fRemovesDat fRemovesWl : Int → Bool) (st : SmsgState) : SmsgState where
  smsgBuckets := st.smsgBuckets.filterMap (tickBucket now)
  dat := st.dat.filter fun time _ => keepsFile now fRemovesDat st time
  wl := st.wl.filter fun time _ => keepsFile now fRemovesWl st time

/-- `vTimedOutLocks`: the buckets whose lock runs out in a pass, with their owners. -/
def timedOutLocks (now : Int) (st : SmsgState) : List (Int × NodeId) :=
  st.smsgBuckets.toList.filterMap fun (time, bkt) =>
    if ¬ time < now - SMSG_RETENTION ∧ bkt.nLockCount = 1 then some (time, bkt.nLockPeerId) else none

/-! ## Scanning -/

inductive SmsgFile
  | dat (bucket : Int)
  | wl (bucket : Int)

def SmsgFile.time : SmsgFile → Int
  | .dat bucket => bucket
  | .wl bucket => bucket

/-- How the operations on one file of a scan end. -/
structure ScanOutcome where
  fOpens : Bool
  fResizes : Bool
  fRemoves : Bool

def removeFile (fRemoves : Bool) (st : SmsgState) : SmsgFile → SmsgState
  | .dat bucket => if fRemoves then { st with dat := st.dat.erase bucket } else st
  | .wl bucket => if fRemoves then { st with wl := st.wl.erase bucket } else st

/-- A file of the directory that is read to its end and removed then; the result is whether the scan goes on. The
messages of the file go to the inbox. -/
def scanFile (file : SmsgFile) (out : ScanOutcome) (st : SmsgState) : Bool × SmsgState :=
  if !out.fOpens then (true, st)
  else if !out.fResizes then (false, st)
  else (out.fRemoves, removeFile out.fRemoves st file)

/-- `SecureMsgScanBuckets` over the files in the order of the directory. -/
def scanBucketFiles (now : Int) : List (SmsgFile × ScanOutcome) → SmsgState → SmsgState
  | [], st => st
  | (file, out) :: itd, st =>
      if file.time < now - SMSG_RETENTION then scanBucketFiles now itd (removeFile out.fRemoves st file)
      else
        match file with
        | .wl _ => scanBucketFiles now itd st
        | .dat _ =>
            match scanFile file out st with
            | (true, st) => scanBucketFiles now itd st
            | (false, st) => st

def secureMsgScanBuckets (fSecMsgEnabled fLocked : Bool) (now : Int) (itd : List (SmsgFile × ScanOutcome))
    (st : SmsgState) : SmsgState :=
  if !fSecMsgEnabled || fLocked then st else scanBucketFiles now itd st

/-- `SecureMsgWalletUnlocked` over the files in the order of the directory. -/
def scanUnlockedFiles (now : Int) : List (SmsgFile × ScanOutcome) → SmsgState → SmsgState
  | [], st => st
  | (.dat _, _) :: itd, st => scanUnlockedFiles now itd st
  | (.wl bucket, out) :: itd, st =>
      if bucket < now - SMSG_RETENTION then
        let st := removeFile out.fRemoves st (.wl bucket)
        if out.fRemoves then scanUnlockedFiles now itd st else st
      else
        match scanFile (.wl bucket) out st with
        | (true, st) => scanUnlockedFiles now itd st
        | (false, st) => st

def secureMsgWalletUnlocked (fSecMsgEnabled fLocked : Bool) (now : Int) (itd : List (SmsgFile × ScanOutcome))
    (st : SmsgState) : SmsgState :=
  if !fSecMsgEnabled || fLocked then st else scanUnlockedFiles now itd st

/-! ## Rebuilding the buckets -/

/-- The tokens of a file from the offset `ofs` on, of which `s` is left. A payload below eight bytes is not skipped.
Every round takes a header, so the rounds are bounded by what is left. -/
def readTokens : Nat → Nat → Bytes → Std.ExtTreeMap SecMsgToken Nat → Std.ExtTreeMap SecMsgToken Nat
  | 0, _, _, tokenSet => tokenSet
  | rounds + 1, ofs, s, tokenSet =>
      match readHeader s with
      | none => tokenSet
      | some (smsg, s) =>
          if smsg.nPayload < 8 then readTokens rounds (ofs + SMSG_HDR_LEN) s tokenSet
          else
            match readBytes 8 s with
            | none => tokenSet
            | some (sample, _) =>
                readTokens rounds (ofs + SMSG_HDR_LEN + smsg.nPayload) (s.drop smsg.nPayload)
                  (tokenSet.insertIfNew ⟨smsg.timestamp, sample⟩ ofs)

def readBucket (now : Int) (file : Bytes) : SecMsgBucket :=
  SecMsgBucket.hashBucket { setTokens := readTokens file.length 0 file ∅ } now

/-- `SecureMsgBuildBucketSet`, into an empty map. Files that have expired are dropped. -/
def secureMsgBuildBucketSet (now : Int) (fRemoves : Int → Bool) (st : SmsgState) : SmsgState where
  smsgBuckets :=
    st.dat.filterMap fun fileTime file => if fileTime < now - SMSG_RETENTION then none else some (readBucket now file)
  dat := st.dat.filter fun fileTime _ => !(fileTime < now - SMSG_RETENTION && fRemoves fileTime)
  wl := st.wl.filter fun fileTime _ => !(fileTime < now - SMSG_RETENTION && fRemoves fileTime)

end ProCurrency
