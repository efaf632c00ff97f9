import ProCurrency.Smsg.Lemmas.Changes

/-!
# Records of messages

What a successful store leaves in the file and in the bucket, and what reading at the offset of a token gives back.
-/

namespace ProCurrency

open ByteCodec SmsgState

def SecureMessage.bytes (smsg : SecureMessage) : Bytes := smsg.header.bytes ++ smsg.pPayload

theorem SecureMessage.length_bytes (smsg : SecureMessage) :
    smsg.bytes.length = SMSG_HDR_LEN + smsg.header.nPayload := by
  rw [bytes, List.length_append, smsg.header.size, smsg.size]

theorem SecureMessage.token_timestamp (smsg : SecureMessage) : smsg.token.timestamp = smsg.header.timestamp := by
  rw [token, SecMsgToken.ofPayload]

theorem SecureMessage.token_sample {smsg : SecureMessage} (h : 8 ≤ smsg.pPayload.length) :
    smsg.token.sample = smsg.pPayload.take 8 := by
  rw [token, SecMsgToken.ofPayload, if_neg (Nat.not_lt.2 h)]

/-! ## Reading -/

theorem readHeader_append (h : SecureMessageHeader) (s : Bytes) : readHeader (h.bytes ++ s) = some (h, s) := by
  have hsize := h.size
  have hlen : ¬ (h.bytes ++ s).length < SMSG_HDR_LEN := by
    rw [List.length_append]
    omega
  rw [readHeader, dif_neg hlen]
  simp only [Option.some.injEq, Prod.mk.injEq]
  constructor
  · obtain ⟨bytes, hbytes⟩ := h
    simp [← hbytes]
  · simp [← hsize]

/-- The message of a token lies at its offset. -/
structure Advertised (st : SmsgState) (b : Int) (token : SecMsgToken) (offset : Nat) (smsg : SecureMessage) : Prop where
  bucket : bucketTime token.timestamp = b
  record : ∃ file, st.dat[b]? = some file ∧ smsg.bytes <+: file.drop offset
  timestamp : smsg.header.timestamp = token.timestamp
  sample : token.sample <+: smsg.pPayload

variable {now : Int} {io : WriteOutcome} {smsg : SecureMessage} {fUpdateBucket : Bool} {st st' : SmsgState} {b : Int}
  {token : SecMsgToken} {offset : Nat}

theorem secureMsgRetrieve_of_advertised (h : Advertised st b token offset smsg) :
    secureMsgRetrieve token offset st = some smsg.bytes := by
  obtain ⟨file, hfile, s, hs⟩ := h.record
  have hpayload : readBytes smsg.header.nPayload (smsg.pPayload ++ s) = some (smsg.pPayload, s) :=
    readBytes_append smsg.size s
  rw [secureMsgRetrieve, h.bucket, hfile]
  dsimp only
  rw [← hs, SecureMessage.bytes, List.append_assoc, readHeader_append]
  dsimp only
  rw [hpayload]

/-- Tokens stay where they are while files only grow. -/
theorem Advertised.extend (h : Advertised st b token offset smsg)
    (hdat : ∀ file, st.dat[b]? = some file → ∃ tail, st'.dat[b]? = some (file ++ tail)) :
    Advertised st' b token offset smsg := by
  obtain ⟨file, hfile, hprefix⟩ := h.record
  obtain ⟨tail, htail⟩ := hdat file hfile
  have hlen := hprefix.length_le
  rw [smsg.length_bytes, List.length_drop] at hlen
  have hoffset : offset ≤ file.length := by
    have : 0 < SMSG_HDR_LEN := by decide
    omega
  refine ⟨h.bucket, ⟨file ++ tail, htail, ?_⟩, h.timestamp, h.sample⟩
  rw [List.drop_append_of_le_length hoffset]
  exact hprefix.trans (List.prefix_append _ _)

/-! ## Storing -/

/-- A store succeeds: the time of the message is in the window, its token is new, and the file takes it. -/
structure StoreSucceeds (now : Int) (io : WriteOutcome) (smsg : SecureMessage) (st : SmsgState) : Prop where
  io : io = .ok
  inWindow : InWindow now smsg.header.timestamp
  new : smsg.token ∉ (st.bucketAt (bucketTime smsg.header.timestamp)).setTokens

namespace SmsgState

def fileAt (st : SmsgState) (b : Int) : Bytes := (st.dat[b]?).getD []

/-- The bucket of a message after a successful store. -/
def storedBucket (now : Int) (smsg : SecureMessage) (fUpdateBucket : Bool) (st : SmsgState) : SecMsgBucket :=
  let b := bucketTime smsg.header.timestamp
  let bkt := st.bucketAt b
  let bkt := { bkt with setTokens := bkt.setTokens.insert smsg.token (st.fileAt b).length }
  if fUpdateBucket then bkt.hashBucket now else bkt

theorem storedBucket_setTokens (now : Int) (smsg : SecureMessage) (fUpdateBucket : Bool) (st : SmsgState) :
    (st.storedBucket now smsg fUpdateBucket).setTokens =
      (st.bucketAt (bucketTime smsg.header.timestamp)).setTokens.insert smsg.token
        (st.fileAt (bucketTime smsg.header.timestamp)).length := by
  cases fUpdateBucket <;> simp [storedBucket]

/-- The state after a successful store. -/
structure StoredIn (now : Int) (smsg : SecureMessage) (fUpdateBucket : Bool) (st st' : SmsgState) : Prop where
  bucketAt : ∀ b, st'.bucketAt b =
    if bucketTime smsg.header.timestamp = b then st.storedBucket now smsg fUpdateBucket else st.bucketAt b
  mem : ∀ b, b ∈ st'.smsgBuckets ↔ bucketTime smsg.header.timestamp = b ∨ b ∈ st.smsgBuckets
  dat : ∀ b : Int, st'.dat[b]? =
    if bucketTime smsg.header.timestamp = b then some (st.fileAt b ++ smsg.bytes) else st.dat[b]?

/-- The tokens stay, and the files only grow. -/
structure Appends (st st' : SmsgState) : Prop where
  setTokens : ∀ b, (st'.bucketAt b).setTokens = (st.bucketAt b).setTokens
  dat : ∀ (b : Int) (file : Bytes), st.dat[b]? = some file → ∃ tail, st'.dat[b]? = some (file ++ tail)

theorem Appends.of_dat_eq (htokens : ∀ b, (st'.bucketAt b).setTokens = (st.bucketAt b).setTokens)
    (hdat : st'.dat = st.dat) : Appends st st' where
  setTokens := htokens
  dat b file hfile := ⟨[], by rw [hdat, hfile, List.append_nil]⟩

theorem Appends.trans {st'' : SmsgState} (h : Appends st st') (h' : Appends st' st'') : Appends st st'' where
  setTokens b := (h'.setTokens b).trans (h.setTokens b)
  dat b file hfile := by
    obtain ⟨tail, htail⟩ := h.dat b file hfile
    obtain ⟨tail', htail'⟩ := h'.dat b _ htail
    exact ⟨tail ++ tail', by rw [htail', List.append_assoc]⟩

theorem appends_touch (st : SmsgState) (time : Int) : Appends st (st.touch time) :=
  .of_dat_eq (fun b => by rw [bucketAt_touch]) rfl

theorem appends_setDat (st : SmsgState) (b : Int) (tail : Bytes) : Appends st (st.setDat b (st.fileAt b ++ tail)) where
  setTokens _ := rfl
  dat b' file hfile := by
    simp only [setDat, Std.ExtTreeMap.getElem?_insert, Std.compare_eq_iff_eq]
    split
    · next h =>
        subst h
        exact ⟨tail, by rw [fileAt, hfile, Option.getD_some]⟩
    · exact ⟨[], by rw [hfile, List.append_nil]⟩

end SmsgState

theorem secureMsgStore_of_stores (h : StoreSucceeds now io smsg st) :
    (secureMsgStore now io smsg.header smsg.pPayload fUpdateBucket st).1 = 0 ∧
      StoredIn now smsg fUpdateBucket st (secureMsgStore now io smsg.header smsg.pPayload fUpdateBucket st).2 := by
  obtain ⟨rfl, hin, hnew⟩ := h
  have hopen : (WriteOutcome.ok = .noDirectory || outsideWindow now smsg.header.timestamp) = false := by
    simp [outsideWindow_eq_false_iff.2 hin]
  rw [secureMsgStore, hopen]
  simp only [Bool.false_eq_true, if_false]
  rw [SecureMessage.token] at hnew
  rw [if_neg hnew]
  refine ⟨rfl, fun b => ?_, fun b => ?_, fun b => ?_⟩
  · simp only [bucketAt_setBucket, bucketAt_setDat]
    split <;> rfl
  · simp only [mem_setBucket, setDat, ← or_assoc, or_self]
  · simp only [setBucket, setDat, Std.ExtTreeMap.getElem?_insert, Std.compare_eq_iff_eq]
    split
    · next heq =>
        subst heq
        rfl
    · rfl

theorem secureMsgStore_of_not_stores (h : ¬ StoreSucceeds now io smsg st) :
    (secureMsgStore now io smsg.header smsg.pPayload fUpdateBucket st).1 = 1 ∧
      Appends st (secureMsgStore now io smsg.header smsg.pPayload fUpdateBucket st).2 := by
  rw [secureMsgStore]
  split
  · exact ⟨rfl, .of_dat_eq (fun _ => rfl) rfl⟩
  · next hopen =>
      simp only [Bool.or_eq_true, decide_eq_true_eq, not_or, Bool.not_eq_true, outsideWindow_eq_false_iff] at hopen
      have htouch := appends_touch st (bucketTime smsg.header.timestamp)
      dsimp only
      split
      · exact ⟨rfl, htouch⟩
      · next hnew =>
          cases io with
          | ok => exact absurd ⟨rfl, hopen.2, hnew⟩ h
          | noDirectory => exact absurd rfl hopen.1
          | noOpen => exact ⟨rfl, htouch⟩
          | noSeek =>
              refine ⟨rfl, htouch.trans ?_⟩
              have hdat := appends_setDat (st.touch (bucketTime smsg.header.timestamp))
                (bucketTime smsg.header.timestamp) []
              rw [List.append_nil] at hdat
              exact hdat
          | short nWritten => exact ⟨rfl, htouch.trans (appends_setDat _ _ _)⟩

theorem secureMsgStore_eq_zero_iff (fUpdateBucket : Bool) :
    (secureMsgStore now io smsg.header smsg.pPayload fUpdateBucket st).1 = 0 ↔ StoreSucceeds now io smsg st := by
  constructor
  · intro hrv
    by_contra h
    rw [(secureMsgStore_of_not_stores h).1] at hrv
    cases hrv
  · exact fun h => (secureMsgStore_of_stores h).1

theorem secureMsgScanMessage_dat {fLocked : Bool} {pHeader : SecureMessageHeader} {pPayload : Bytes} :
    (secureMsgScanMessage now fLocked io pHeader pPayload st).dat = st.dat := by
  cases fLocked with
  | false => rfl
  | true =>
      rw [secureMsgScanMessage, if_pos rfl, secureMsgStoreUnscanned]
      split
      · rfl
      · cases io <;> rfl

/-- A message that a node stores and finds again. -/
def eightBytes : SecureMessage where
  header :=
    { bytes := List.replicate 4 0 ++ [1, 0, 0] ++ i64Bytes 600010 ++ List.replicate 85 0 ++ leBytes 4 8
      size := by decide }
  pPayload := List.replicate 8 5
  size := by decide +kernel

end ProCurrency

/-!
## The messages of a bunch

`SecureMsgReceive` walks over its buffer from one message to the next, as long as each is valid and stored.
-/

namespace ProCurrency

open ByteCodec SmsgState

/-! ## Reading at an offset -/

theorem readAt_eq_some {vchData : Bytes} {pos size : Nat} (h : pos + size ≤ vchData.length) :
    readAt vchData pos size = some ((vchData.drop pos).take size) := if_pos h

theorem readAt_eq_none {vchData : Bytes} {pos size : Nat} (h : vchData.length < pos + size) :
    readAt vchData pos size = none := if_neg (Nat.not_le.2 h)

theorem readAt_eq_some_iff {vchData bs : Bytes} {pos size : Nat} :
    readAt vchData pos size = some bs ↔ pos + size ≤ vchData.length ∧ (vchData.drop pos).take size = bs := by
  rw [readAt]
  split
  · next h => simp [h]
  · next h => simp [h]

theorem length_of_readAt {vchData bs : Bytes} {pos size : Nat} (h : readAt vchData pos size = some bs) :
    bs.length = size := by
  obtain ⟨hlen, rfl⟩ := readAt_eq_some_iff.1 h
  rw [List.length_take, List.length_drop]
  omega

/-- The message that starts at `n` lies inside the buffer. -/
structure MessageAt (vchData : Bytes) (n : Nat) (smsg : SecureMessage) : Prop where
  header : readAt vchData n SMSG_HDR_LEN = some smsg.header.bytes
  payload : readAt vchData (n + SMSG_HDR_LEN) smsg.header.nPayload = some smsg.pPayload

theorem SecureMessageHeader.ext {h h' : SecureMessageHeader} (hbytes : h.bytes = h'.bytes) : h = h' := by
  cases h
  cases h'
  cases hbytes
  rfl

variable {vchData : Bytes} {n : Nat} {smsg smsg' : SecureMessage}

theorem MessageAt.length_le (h : MessageAt vchData n smsg) : n + smsg.bytes.length ≤ vchData.length := by
  have hlen := (readAt_eq_some_iff.1 h.payload).1
  rw [smsg.length_bytes]
  omega

theorem readHeaderAt_eq_some_iff {h : SecureMessageHeader} :
    readHeaderAt vchData n = some h ↔ readAt vchData n SMSG_HDR_LEN = some h.bytes := by
  rw [readHeaderAt]
  cases hread : readAt vchData n SMSG_HDR_LEN with
  | none => simp
  | some bs =>
      have hlen := length_of_readAt hread
      have hheader := readHeader_append ⟨bs, hlen⟩ []
      rw [List.append_nil] at hheader
      rw [Option.bind_some, hheader, Option.map_some, Option.some.injEq, Option.some.injEq]
      constructor
      · rintro rfl
        rfl
      · intro hbytes
        exact SecureMessageHeader.ext hbytes

theorem exists_headerAt (h : n + SMSG_HDR_LEN ≤ vchData.length) :
    ∃ pHeader : SecureMessageHeader, readAt vchData n SMSG_HDR_LEN = some pHeader.bytes :=
  ⟨⟨_, length_of_readAt (readAt_eq_some h)⟩, readAt_eq_some h⟩

/-! ## One message -/

/-- The check of the message whose header is at `n`. -/
def validateAt (call : SmsgCall) (vchData : Bytes) (n : Nat) (pHeader : SecureMessageHeader) : Option Nat :=
  secureMsgValidate call.hmac pHeader pHeader.nPayload (readAt vchData (n + SMSG_HDR_LEN) pHeader.nPayload)

theorem validateAt_eq_none_iff {call : SmsgCall} {pHeader : SecureMessageHeader} :
    validateAt call vchData n pHeader = none ↔
      pHeader.version.head? = some 1 ∧ pHeader.nPayload ≤ SMSG_MAX_MSG_WORST ∧
        vchData.length < n + SMSG_HDR_LEN + pHeader.nPayload := by
  unfold validateAt secureMsgValidate
  split
  · next hversion => simp [hversion]
  · next hversion =>
      split
      · next hsize => simp [Nat.not_le.2 hsize]
      · next hsize =>
          have hversion := not_not.1 hversion
          have hsize := Nat.not_lt.1 hsize
          split
          · next hread =>
              have hlen : vchData.length < n + SMSG_HDR_LEN + pHeader.nPayload := by
                by_contra hlen
                rw [readAt_eq_some (Nat.not_lt.1 hlen)] at hread
                cases hread
              simp [hversion, hsize, hlen]
          · next hread =>
              have hlen := Nat.not_lt.2 (readAt_eq_some_iff.1 hread).1
              split
              · simp [hlen]
              · split
                · simp [hlen]
                · split <;> simp [hlen]

theorem validateAt_eq_zero {call : SmsgCall} {pHeader : SecureMessageHeader}
    (hheader : readAt vchData n SMSG_HDR_LEN = some pHeader.bytes) (h : validateAt call vchData n pHeader = some 0) :
    ∃ smsg, smsg.header = pHeader ∧ MessageAt vchData n smsg ∧ pHeader.nPayload ≤ SMSG_MAX_MSG_WORST := by
  unfold validateAt secureMsgValidate at h
  split at h
  · cases h
  · split at h
    · cases h
    · next hsize =>
        split at h
        · cases h
        · next pPayload hread =>
            have hsize := Nat.not_lt.1 hsize
            exact ⟨⟨pHeader, pPayload, length_of_readAt hread⟩, rfl, ⟨hheader, hread⟩, hsize⟩

/-- From one message of the bunch to another, over messages that are valid and stored. -/
inductive BunchReaches (call : SmsgCall) (vchData : Bytes) : Nat → Nat → SmsgState → Nat → Nat → SmsgState → Prop
  | refl (i n : Nat) (st : SmsgState) : BunchReaches call vchData i n st i n st
  | next {i n j m : Nat} {st st' : SmsgState} {smsg : SecureMessage} (hmsg : MessageAt vchData n smsg)
      (hvalid : validateAt call vchData n smsg.header = some 0)
      (hstores : StoreSucceeds call.now (call.store i) smsg st)
      (h : BunchReaches call vchData (i + 1) (n + smsg.bytes.length)
        (storeMessage call i smsg.header smsg.pPayload st).2 j m st') :
      BunchReaches call vchData i n st j m st'

theorem BunchReaches.le {call : SmsgCall} {i n j m : Nat} {st st' : SmsgState}
    (h : BunchReaches call vchData i n st j m st') : i ≤ j := by
  induction h with
  | refl i n st => exact Nat.le_refl i
  | next _ _ _ _ ih => exact Nat.le_of_succ_le ih

variable {call : SmsgCall} {left : Nat} {n : UInt32} {l l' : MsgLoop} {st : SmsgState}

theorem storeMessage_fst_eq_zero_iff {i : Nat} :
    (storeMessage call i smsg.header smsg.pPayload st).1 = 0 ↔ StoreSucceeds call.now (call.store i) smsg st := by
  rw [storeMessage, ← secureMsgStore_eq_zero_iff false]
  cases hstore : secureMsgStore call.now (call.store i) smsg.header smsg.pPayload false st with
  | mk rv st' => cases rv <;> simp

/-! ## The loop -/

theorem msgLoop_short (h : vchData.length < n.toNat + SMSG_HDR_LEN) (hn : n.toNat ≤ vchData.length) :
    msgLoop call vchData left n l = some l := by
  cases left with
  | zero => rfl
  | succ left =>
      have hsub : sizeSub vchData.length n < SMSG_HDR_LEN := by
        rw [sizeSub, if_pos hn]
        omega
      rw [msgLoop, if_pos hsub]

/-- One round at a header inside the buffer. -/
theorem msgLoop_succ {pHeader : SecureMessageHeader}
    (hheader : readAt vchData n.toNat SMSG_HDR_LEN = some pHeader.bytes) :
    msgLoop call vchData (left + 1) n l =
      match validateAt call vchData n.toNat pHeader with
      | none => none
      | some 0 =>
          (readAt vchData (n.toNat + SMSG_HDR_LEN) pHeader.nPayload).bind fun pPayload =>
            match storeMessage call l.rounds pHeader pPayload l.st with
            | (0, st) =>
                msgLoop call vchData left (n + UInt32.ofNat SMSG_HDR_LEN + UInt32.ofNat pHeader.nPayload)
                  { l with st, rounds := l.rounds + 1 }
            | (_, st) => some { l with st, rounds := l.rounds + 1 }
      | some rv =>
          msgLoop call vchData left n
            { l with nMisbehavior := l.nMisbehavior + if rv = 2 then 10 else 1, rounds := l.rounds + 1 } := by
  have hlen := (readAt_eq_some_iff.1 hheader).1
  have hsub : ¬ sizeSub vchData.length n < SMSG_HDR_LEN := by
    rw [sizeSub, if_pos (by omega)]
    omega
  rw [msgLoop, if_neg hsub, readHeaderAt_eq_some_iff.2 hheader]
  simp only [Option.bind_eq_bind, Option.bind_some]
  rw [show secureMsgValidate call.hmac pHeader pHeader.nPayload
    (readAt vchData (n.toNat + SMSG_HDR_LEN) pHeader.nPayload) = validateAt call vchData n.toNat pHeader from rfl]
  cases validateAt call vchData n.toNat pHeader with
  | none => rfl
  | some rv => cases rv <;> rfl

/-- The loop stays at a message that is not valid. -/
theorem msgLoop_invalid (left : Nat) (l : MsgLoop) {pHeader : SecureMessageHeader} {rv : Nat}
    (hheader : readAt vchData n.toNat SMSG_HDR_LEN = some pHeader.bytes)
    (hrv : validateAt call vchData n.toNat pHeader = some (rv + 1)) :
    ∃ l', msgLoop call vchData left n l = some l' ∧ l'.rounds = l.rounds + left ∧ l'.st = l.st := by
  induction left generalizing l with
  | zero => exact ⟨l, rfl, rfl, rfl⟩
  | succ left ih =>
      rw [msgLoop_succ hheader, hrv]
      obtain ⟨l', hl', hrounds, hst⟩ := ih _
      exact ⟨l', hl', hrounds.trans (by dsimp only; omega), hst⟩

/-- A round at a message that is valid. -/
theorem msgLoop_valid (hmsg : MessageAt vchData n.toNat smsg)
    (hvalid : validateAt call vchData n.toNat smsg.header = some 0) :
    msgLoop call vchData (left + 1) n l =
      match storeMessage call l.rounds smsg.header smsg.pPayload l.st with
      | (0, st) =>
          msgLoop call vchData left (n + UInt32.ofNat SMSG_HDR_LEN + UInt32.ofNat smsg.header.nPayload)
            { l with st, rounds := l.rounds + 1 }
      | (_, st) => some { l with st, rounds := l.rounds + 1 } := by
  rw [msgLoop_succ hmsg.header, hvalid, hmsg.payload]
  rfl

theorem msgLoop_stores (hmsg : MessageAt vchData n.toNat smsg)
    (hvalid : validateAt call vchData n.toNat smsg.header = some 0)
    (hstores : StoreSucceeds call.now (call.store l.rounds) smsg l.st) :
    msgLoop call vchData (left + 1) n l =
      msgLoop call vchData left (n + UInt32.ofNat SMSG_HDR_LEN + UInt32.ofNat smsg.header.nPayload)
        { l with st := (storeMessage call l.rounds smsg.header smsg.pPayload l.st).2, rounds := l.rounds + 1 } := by
  rw [msgLoop_valid hmsg hvalid]
  have hrv := storeMessage_fst_eq_zero_iff.2 hstores
  cases hstore : storeMessage call l.rounds smsg.header smsg.pPayload l.st with
  | mk rv st' =>
      rw [hstore] at hrv
      obtain rfl : rv = 0 := hrv
      rfl

theorem msgLoop_not_stores (hmsg : MessageAt vchData n.toNat smsg)
    (hvalid : validateAt call vchData n.toNat smsg.header = some 0)
    (hstores : ¬ StoreSucceeds call.now (call.store l.rounds) smsg l.st) :
    msgLoop call vchData (left + 1) n l =
      some { l with st := (storeMessage call l.rounds smsg.header smsg.pPayload l.st).2, rounds := l.rounds + 1 } := by
  rw [msgLoop_valid hmsg hvalid]
  have hrv := mt storeMessage_fst_eq_zero_iff.1 hstores
  cases hstore : storeMessage call l.rounds smsg.header smsg.pPayload l.st with
  | mk rv st' =>
      rw [hstore] at hrv
      cases rv with
      | zero => exact absurd rfl hrv
      | succ rv => rfl

/-- The offset of the next message does not wrap around. -/
theorem toNat_next {i : Nat} (hi : i < 500) (hn : n.toNat ≤ 12 + (SMSG_HDR_LEN + SMSG_MAX_MSG_WORST) * i)
    (hsize : smsg.header.nPayload ≤ SMSG_MAX_MSG_WORST) :
    (n + UInt32.ofNat SMSG_HDR_LEN + UInt32.ofNat smsg.header.nPayload).toNat = n.toNat + smsg.bytes.length ∧
      n.toNat + smsg.bytes.length ≤ 12 + (SMSG_HDR_LEN + SMSG_MAX_MSG_WORST) * (i + 1) := by
  have hbunch : SMSG_HDR_LEN + SMSG_MAX_MSG_WORST = 4322 := by decide
  have hhdr : SMSG_HDR_LEN = 104 := rfl
  rw [hbunch] at hn ⊢
  rw [smsg.length_bytes]
  constructor
  · simp only [UInt32.toNat_add, UInt32.toNat_ofNat']
    omega
  · omega

end ProCurrency
