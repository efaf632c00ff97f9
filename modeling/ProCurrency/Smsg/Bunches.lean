import Mathlib.Data.List.Induction
import Mathlib.Data.List.Nodup
import ProCurrency.Smsg.StoreInvariant

/-!
# What a bunch leaves in the store

A bunch should be taken message by message. `SecureMsgReceive` stays at the first message that is not valid and leaves
at the first that is not stored, and it hashes only the bucket of the header. So a bunch is taken as it should be when
no good message comes after the first that is not stored, and when the messages are in the bucket of the header.
-/

namespace ProCurrency

open ByteCodec SmsgState

namespace SecureMessage

/-- The bucket of a message. -/
def bucket (smsg : SecureMessage) : Int := bucketTime smsg.header.timestamp

/-- A message that validates. -/
def Validates (call : SmsgCall) (smsg : SecureMessage) : Prop :=
  secureMsgValidate call.hmac smsg.header smsg.header.nPayload (some smsg.pPayload) = some 0

instance (call : SmsgCall) (smsg : SecureMessage) : Decidable (smsg.Validates call) :=
  inferInstanceAs (Decidable (_ = _))

/-- A message that validates, is in the window and is not stored yet. -/
structure Good (call : SmsgCall) (st : SmsgState) (smsg : SecureMessage) : Prop where
  validates : smsg.Validates call
  inWindow : InWindow call.now smsg.header.timestamp
  new : smsg.token ∉ (st.bucketAt smsg.bucket).setTokens

instance (call : SmsgCall) (st : SmsgState) (smsg : SecureMessage) : Decidable (smsg.Good call st) :=
  decidable_of_iff (smsg.Validates call ∧ InWindow call.now smsg.header.timestamp ∧
    smsg.token ∉ (st.bucketAt smsg.bucket).setTokens) ⟨fun ⟨h, h', h''⟩ => ⟨h, h', h''⟩, fun ⟨h, h', h''⟩ => ⟨h, h', h''⟩⟩

end SecureMessage

/-- The data of `smsgMsg`: the number of records, the time of the bucket, and the records. -/
def bunchBytes (bktTime : Int64) (records : List SecureMessage) : Bytes :=
  u32Bytes (UInt32.ofNat records.length) ++ (i64Bytes bktTime.toInt ++ records.flatMap SecureMessage.bytes)

/-- What is appended to the file of a bucket. -/
def recordsOf (b : Int) (records : List SecureMessage) : Bytes :=
  (records.filter fun smsg => smsg.bucket = b).flatMap SecureMessage.bytes

/-- The tokens of a bucket after these messages. -/
def tokensWith (st : SmsgState) (b : Int) (records : List SecureMessage) : Std.ExtTreeMap SecMsgToken Nat :=
  ((records.filter fun smsg => smsg.bucket = b).foldl
    (fun (setTokens, ofs) smsg => (setTokens.insert smsg.token ofs, ofs + smsg.bytes.length))
    ((st.bucketAt b).setTokens, (st.fileAt b).length)).1

/-- The records from the start of a bunch on that are good, new to the bunch, and written. -/
def storedFrom (call : SmsgCall) (st : SmsgState) (i : Nat) (stored : List SecureMessage) :
    List SecureMessage → List SecureMessage
  | [] => stored
  | smsg :: records =>
      if smsg.Good call st ∧ smsg.token ∉ stored.map SecureMessage.token ∧ call.store i = .ok then
        storedFrom call st (i + 1) (stored ++ [smsg]) records
      else stored

/-- The records of a bunch that are stored. -/
def storedRecords (call : SmsgCall) (st : SmsgState) (bktTime : Int) (records : List SecureMessage) :
    List SecureMessage :=
  if outsideWindow call.now bktTime then [] else storedFrom call st 0 [] records

/-- What a bunch promises, from `st` to `st'`. -/
structure TakesGood (call : SmsgCall) (records : List SecureMessage) (st st' : SmsgState) : Prop where
  /-- Each good record is stored once. -/
  stored : ∃ stored : List SecureMessage, (∀ b, st'.fileAt b = st.fileAt b ++ recordsOf b stored) ∧
    ∀ smsg ∈ records, smsg.Good call st → (stored.map SecureMessage.token).count smsg.token = 1 ∧
      smsg.token ∈ (st'.bucketAt smsg.bucket).setTokens
  /-- A bucket that has received a message has the hash of its tokens. -/
  hashed : ∀ b, (∃ token ∈ (st'.bucketAt b).setTokens, token ∉ (st.bucketAt b).setTokens) →
    (st'.bucketAt b).hash = SecMsgBucket.hashTokens (st'.bucketAt b).setTokens

/-! ## The loop over the records -/

variable {call : SmsgCall} {st st' : SmsgState} {smsg : SecureMessage} {records stored : List SecureMessage} {b : Int}

/-- What the loop does, record by record. -/
def takeRecords (call : SmsgCall) : Nat → SmsgState → List SecureMessage → SmsgState
  | _, st, [] => st
  | i, st, smsg :: records =>
      if smsg.Validates call then
        match storeMessage call i smsg.header smsg.pPayload st with
        | (0, st) => takeRecords call (i + 1) st records
        | (_, st) => st
      else st

/-- A message that is all in the buffer is validated. -/
theorem secureMsgValidate_isSome (hmac : HmacSha256) (pHeader : SecureMessageHeader) (nPayload : Nat) (pPayload : Bytes) :
    ∃ rv, secureMsgValidate hmac pHeader nPayload (some pPayload) = some rv := by
  rw [secureMsgValidate]
  split
  · exact ⟨_, rfl⟩
  split
  · exact ⟨_, rfl⟩
  split
  · exact ⟨_, rfl⟩
  split
  · exact ⟨_, rfl⟩
  split
  · exact ⟨_, rfl⟩
  · exact ⟨_, rfl⟩

theorem messageAt_append {pre tail : Bytes} (smsg : SecureMessage) :
    MessageAt (pre ++ (smsg.bytes ++ tail)) pre.length smsg := by
  have hlen := smsg.length_bytes
  constructor
  · rw [readAt_eq_some (by rw [List.length_append, List.length_append]; omega), List.drop_left,
      SecureMessage.bytes, List.append_assoc, List.take_left' smsg.header.size]
  · rw [readAt_eq_some (by rw [List.length_append, List.length_append]; omega), ← List.drop_drop, List.drop_left,
      SecureMessage.bytes, List.append_assoc, List.drop_left' smsg.header.size, List.take_left' smsg.size]

/-- The loop, at the records that are left of a bunch. -/
theorem msgLoop_records {pre : Bytes} {n : UInt32} {l : MsgLoop} (hn : n.toNat = pre.length)
    (hsize : n.toNat ≤ 12 + (SMSG_HDR_LEN + SMSG_MAX_MSG_WORST) * l.rounds) (hcount : l.rounds + records.length ≤ 500) :
    ∃ l', msgLoop call (pre ++ records.flatMap SecureMessage.bytes) records.length n l = some l' ∧
      l'.st = takeRecords call l.rounds l.st records := by
  induction records generalizing pre n l with
  | nil => exact ⟨l, rfl, rfl⟩
  | cons smsg records ih =>
      rw [List.flatMap_cons, List.length_cons, takeRecords]
      rw [List.length_cons] at hcount
      have hmsg : MessageAt (pre ++ (smsg.bytes ++ records.flatMap SecureMessage.bytes)) n.toNat smsg := by
        rw [hn]
        exact messageAt_append smsg
      have hvalidate : validateAt call (pre ++ (smsg.bytes ++ records.flatMap SecureMessage.bytes)) n.toNat smsg.header =
          secureMsgValidate call.hmac smsg.header smsg.header.nPayload (some smsg.pPayload) := by
        rw [validateAt, hmsg.payload]
      obtain ⟨rv, hrv⟩ := secureMsgValidate_isSome call.hmac smsg.header smsg.header.nPayload smsg.pPayload
      cases rv with
      | succ rv =>
          obtain ⟨l', hl', -, hst⟩ := msgLoop_invalid (records.length + 1) l hmsg.header (hvalidate.trans hrv)
          have hnot : ¬smsg.Validates call := by
            intro h
            cases h.symm.trans hrv
          rw [if_neg hnot]
          exact ⟨l', hl', hst⟩
      | zero =>
          have hvalid := hvalidate.trans hrv
          obtain ⟨smsg', hheader, -, hworst⟩ := validateAt_eq_zero hmsg.header hvalid
          have hvalidates : smsg.Validates call := hrv
          rw [if_pos hvalidates, msgLoop_valid hmsg hvalid]
          cases storeMessage call l.rounds smsg.header smsg.pPayload l.st with
          | mk rv st' =>
              cases rv with
              | succ rv => exact ⟨_, rfl, rfl⟩
              | zero =>
                  obtain ⟨hnext, hbound⟩ := toNat_next (by omega : l.rounds < 500) hsize hworst
                  have hrest := @ih (pre ++ smsg.bytes)
                    (n + UInt32.ofNat SMSG_HDR_LEN + UInt32.ofNat smsg.header.nPayload)
                    { l with st := st', rounds := l.rounds + 1 } (by rw [hnext, hn, List.length_append])
                    (by rw [hnext]; exact hbound) (by dsimp only; omega)
                  rw [List.append_assoc] at hrest
                  exact hrest

/-! ## What is stored -/

theorem token_bucket {smsg smsg' : SecureMessage} (h : smsg.token = smsg'.token) : smsg.bucket = smsg'.bucket := by
  rw [SecureMessage.bucket, SecureMessage.bucket, ← smsg.token_timestamp, h, smsg'.token_timestamp]

theorem recordsOf_append (b : Int) (stored : List SecureMessage) (smsg : SecureMessage) :
    recordsOf b (stored ++ [smsg]) = recordsOf b stored ++ if smsg.bucket = b then smsg.bytes else [] := by
  rw [recordsOf, recordsOf, List.filter_append, List.flatMap_append]
  rcases Decidable.em (smsg.bucket = b) with hb | hb
  · simp [hb]
  · simp [hb]

theorem tokensWith_append (st : SmsgState) (b : Int) (stored : List SecureMessage) (smsg : SecureMessage) :
    tokensWith st b (stored ++ [smsg]) =
      if smsg.bucket = b then
        (tokensWith st b stored).insert smsg.token (st.fileAt b ++ recordsOf b stored).length
      else tokensWith st b stored := by
  have hofs : ∀ (records : List SecureMessage) (m : Std.ExtTreeMap SecMsgToken Nat) (ofs : Nat),
      (records.foldl (fun (setTokens, ofs) smsg => (setTokens.insert smsg.token ofs, ofs + smsg.bytes.length))
        (m, ofs)).2 = ofs + (records.flatMap SecureMessage.bytes).length := by
    intro records
    induction records with
    | nil => exact fun _ _ => rfl
    | cons smsg records ih =>
        intro m ofs
        rw [List.foldl_cons, ih, List.flatMap_cons, List.length_append, Nat.add_assoc]
  rw [tokensWith, tokensWith, List.filter_append, List.foldl_append]
  rcases Decidable.em (smsg.bucket = b) with hb | hb
  · simp only [hb, decide_true, List.filter_cons_of_pos, List.filter_nil, List.foldl_cons, List.foldl_nil, if_true]
    rw [hofs, List.length_append, recordsOf]
  · simp [hb]

theorem mem_tokensWith {token : SecMsgToken} : token ∈ tokensWith st b stored ↔
    token ∈ (st.bucketAt b).setTokens ∨ ∃ smsg ∈ stored, smsg.bucket = b ∧ smsg.token = token := by
  induction stored using List.reverseRecOn with
  | nil => simp [tokensWith]
  | append_singleton stored smsg ih =>
      rw [tokensWith_append]
      rcases Decidable.em (smsg.bucket = b) with hb | hb
      · rw [if_pos hb, Std.ExtTreeMap.mem_insert, ih]
        simp only [Std.compare_eq_iff_eq, List.mem_append, List.mem_singleton]
        constructor
        · rintro (rfl | hold | ⟨smsg', hmem, h⟩)
          · exact Or.inr ⟨smsg, Or.inr rfl, hb, rfl⟩
          · exact Or.inl hold
          · exact Or.inr ⟨smsg', Or.inl hmem, h⟩
        · rintro (hold | ⟨smsg', hmem | rfl, h⟩)
          · exact Or.inr (Or.inl hold)
          · exact Or.inr (Or.inr ⟨smsg', hmem, h⟩)
          · exact Or.inl h.2
      · rw [if_neg hb, ih]
        refine or_congr_right ⟨?_, ?_⟩
        · rintro ⟨smsg', hmem, h⟩
          exact ⟨smsg', List.mem_append_left _ hmem, h⟩
        · rintro ⟨smsg', hmem, h⟩
          rcases List.mem_append.1 hmem with hmem | hmem
          · exact ⟨smsg', hmem, h⟩
          · rw [List.mem_singleton.1 hmem] at h
            exact absurd h.1 hb

/-- From `st` on, the messages `stored` have been stored, and the buckets are not hashed. -/
structure Stored (st : SmsgState) (stored : List SecureMessage) (st' : SmsgState) : Prop where
  setTokens : ∀ b, (st'.bucketAt b).setTokens = tokensWith st b stored
  hash : ∀ b, (st'.bucketAt b).hash = (st.bucketAt b).hash

theorem Stored.nil (st : SmsgState) : Stored st [] st where
  setTokens _ := rfl
  hash _ := rfl

theorem bucketAt_secureMsgScanMessage {now : Int} {fLocked : Bool} {io : WriteOutcome} {pHeader : SecureMessageHeader}
    {pPayload : Bytes} : (secureMsgScanMessage now fLocked io pHeader pPayload st).bucketAt b = st.bucketAt b := by
  rw [SmsgState.bucketAt, SmsgState.bucketAt, secureMsgScanMessage_smsgBuckets]

theorem fileAt_secureMsgScanMessage {now : Int} {fLocked : Bool} {io : WriteOutcome} {pHeader : SecureMessageHeader}
    {pPayload : Bytes} : (secureMsgScanMessage now fLocked io pHeader pPayload st).fileAt b = st.fileAt b := by
  rw [SmsgState.fileAt, SmsgState.fileAt, secureMsgScanMessage_dat]

/-- A message that is stored. -/
theorem storeMessage_of_stores {i : Nat} (h : StoreSucceeds call.now (call.store i) smsg st) :
    ∃ st', storeMessage call i smsg.header smsg.pPayload st = (0, st') ∧
      (∀ b, st'.bucketAt b = if smsg.bucket = b then st.storedBucket call.now smsg false else st.bucketAt b) ∧
      ∀ b, st'.fileAt b = st.fileAt b ++ if smsg.bucket = b then smsg.bytes else [] := by
  obtain ⟨hrv, hin⟩ := @secureMsgStore_of_stores _ _ _ false _ h
  rw [storeMessage]
  cases hstore : secureMsgStore call.now (call.store i) smsg.header smsg.pPayload false st with
  | mk rv st' =>
      rw [hstore] at hrv hin
      obtain rfl : rv = 0 := hrv
      refine ⟨_, rfl, fun b => ?_, fun b => ?_⟩
      · rw [bucketAt_secureMsgScanMessage]
        exact hin.bucketAt b
      · have hdat : st'.dat[b]? = if smsg.bucket = b then some (st.fileAt b ++ smsg.bytes) else st.dat[b]? := by
          rcases Decidable.em (smsg.bucket = b) with rfl | hb
          · rw [if_pos rfl]
            exact (hin.dat _).trans (if_pos rfl)
          · rw [if_neg hb]
            exact (hin.dat b).trans (if_neg hb)
        rw [fileAt_secureMsgScanMessage, SmsgState.fileAt, hdat]
        rcases Decidable.em (smsg.bucket = b) with hb | hb
        · rw [if_pos hb, if_pos hb, Option.getD_some]
        · rw [if_neg hb, if_neg hb, List.append_nil]
          rfl

/-- A message that is not stored changes no bucket, and no file if it is not good. -/
theorem storeMessage_of_not_stores {i : Nat} (h : ¬StoreSucceeds call.now (call.store i) smsg st) :
    ∃ st', storeMessage call i smsg.header smsg.pPayload st = (1, st') ∧ (∀ b, st'.bucketAt b = st.bucketAt b) ∧
      (¬(InWindow call.now smsg.header.timestamp ∧ smsg.token ∉ (st.bucketAt smsg.bucket).setTokens) →
        ∀ b, st'.fileAt b = st.fileAt b) := by
  have hmessage : ∀ st', secureMsgStore call.now (call.store i) smsg.header smsg.pPayload false st = (1, st') →
      storeMessage call i smsg.header smsg.pPayload st = (1, st') := by
    intro st' heq
    rw [storeMessage, heq]
    rfl
  suffices hstore : ∃ st', secureMsgStore call.now (call.store i) smsg.header smsg.pPayload false st = (1, st') ∧
      (∀ b, st'.bucketAt b = st.bucketAt b) ∧
      (¬(InWindow call.now smsg.header.timestamp ∧ smsg.token ∉ (st.bucketAt smsg.bucket).setTokens) →
        ∀ b, st'.fileAt b = st.fileAt b) by
    obtain ⟨st', heq, hst'⟩ := hstore
    exact ⟨st', hmessage st' heq, hst'⟩
  rw [secureMsgStore]
  split
  · exact ⟨st, rfl, fun _ => rfl, fun _ _ => rfl⟩
  · next hopen =>
      simp only [Bool.or_eq_true, decide_eq_true_eq, not_or, Bool.not_eq_true, outsideWindow_eq_false_iff] at hopen
      have htouch : ∀ b, (st.touch (bucketTime smsg.header.timestamp)).bucketAt b = st.bucketAt b :=
        fun b => by rw [bucketAt_touch]
      dsimp only
      split
      · exact ⟨_, rfl, htouch, fun _ _ => rfl⟩
      · next hnew =>
          have hgood : InWindow call.now smsg.header.timestamp ∧ smsg.token ∉ (st.bucketAt smsg.bucket).setTokens :=
            ⟨hopen.2, hnew⟩
          cases hio : call.store i with
          | ok => exact absurd ⟨hio, hgood.1, hgood.2⟩ h
          | noDirectory => exact absurd hio hopen.1
          | noOpen => exact ⟨_, rfl, htouch, fun hnot => absurd hgood hnot⟩
          | noSeek => exact ⟨_, rfl, htouch, fun hnot => absurd hgood hnot⟩
          | short nWritten => exact ⟨_, rfl, htouch, fun hnot => absurd hgood hnot⟩

/-- A store succeeds where a good message is not yet in the bunch and the file takes it. -/
theorem Stored.storeSucceeds_iff {i : Nat} (h : Stored st stored st') (hvalid : smsg.Validates call) :
    StoreSucceeds call.now (call.store i) smsg st' ↔
      smsg.Good call st ∧ smsg.token ∉ stored.map SecureMessage.token ∧ call.store i = .ok := by
  have hmem : smsg.token ∈ (st'.bucketAt smsg.bucket).setTokens ↔
      smsg.token ∈ (st.bucketAt smsg.bucket).setTokens ∨ smsg.token ∈ stored.map SecureMessage.token := by
    rw [h.setTokens, mem_tokensWith, List.mem_map]
    refine or_congr_right ⟨?_, ?_⟩
    · rintro ⟨smsg', hmem, -, htoken⟩
      exact ⟨smsg', hmem, htoken⟩
    · rintro ⟨smsg', hmem, htoken⟩
      exact ⟨smsg', hmem, token_bucket htoken, htoken⟩
  constructor
  · rintro ⟨hio, hin, hnew⟩
    obtain ⟨hold, hseen⟩ := not_or.1 (mt hmem.2 hnew)
    exact ⟨⟨hvalid, hin, hold⟩, hseen, hio⟩
  · rintro ⟨⟨-, hin, hold⟩, hseen, hio⟩
    exact ⟨hio, hin, fun hnew => (hmem.1 hnew).elim hold hseen⟩

/-- What the loop stores. The files have nothing else when no good message is left out. -/
theorem Stored.takeRecords {i : Nat} (h : Stored st stored st')
    (hfile : ∀ b, st'.fileAt b = st.fileAt b ++ recordsOf b stored) :
    Stored st (storedFrom call st i stored records) (takeRecords call i st' records) ∧
      ((∀ smsg ∈ records, smsg.Good call st →
        smsg.token ∈ (storedFrom call st i stored records).map SecureMessage.token) →
        ∀ b, (ProCurrency.takeRecords call i st' records).fileAt b =
          st.fileAt b ++ recordsOf b (storedFrom call st i stored records)) := by
  induction records generalizing i stored st' with
  | nil => exact ⟨h, fun _ => hfile⟩
  | cons smsg records ih =>
      rw [storedFrom, ProCurrency.takeRecords]
      by_cases hvalid : smsg.Validates call
      · rw [if_pos hvalid]
        by_cases hstores : StoreSucceeds call.now (call.store i) smsg st'
        · rw [if_pos ((h.storeSucceeds_iff hvalid).1 hstores)]
          obtain ⟨st₁, heq, hbucket, hfile₁⟩ := storeMessage_of_stores hstores
          have hstored : Stored st (stored ++ [smsg]) st₁ := by
            refine ⟨fun b => ?_, fun b => ?_⟩
            · rw [hbucket, tokensWith_append, ← hfile b]
              rcases Decidable.em (smsg.bucket = b) with rfl | hb
              · rw [if_pos rfl, if_pos rfl, storedBucket_setTokens, ← h.setTokens]
                rfl
              · rw [if_neg hb, if_neg hb, h.setTokens]
            · rw [hbucket]
              rcases Decidable.em (smsg.bucket = b) with rfl | hb
              · rw [if_pos rfl, ← h.hash]
                rfl
              · rw [if_neg hb, h.hash]
          obtain ⟨hrest, hrestFile⟩ := @ih st₁ (stored ++ [smsg]) (i + 1) hstored fun b => by
            rw [hfile₁, hfile, recordsOf_append, List.append_assoc]
          rw [heq]
          exact ⟨hrest, fun hall => hrestFile fun smsg' hmem => hall smsg' (List.mem_cons_of_mem _ hmem)⟩
        · rw [if_neg (mt (h.storeSucceeds_iff hvalid).2 hstores)]
          obtain ⟨st₁, heq, hbucket, hfile₁⟩ := storeMessage_of_not_stores hstores
          rw [heq]
          refine ⟨⟨fun b => ?_, fun b => ?_⟩, fun hall b => ?_⟩
          · exact (congrArg SecMsgBucket.setTokens (hbucket b)).trans (h.setTokens b)
          · exact (congrArg SecMsgBucket.hash (hbucket b)).trans (h.hash b)
          · refine (hfile₁ (fun ⟨hin, hnew⟩ => ?_) b).trans (hfile b)
            rw [h.setTokens, mem_tokensWith, not_or] at hnew
            obtain ⟨smsg', hmem, htoken⟩ := List.mem_map.1 (hall smsg List.mem_cons_self ⟨hvalid, hin, hnew.1⟩)
            exact hnew.2 ⟨smsg', hmem, token_bucket htoken, htoken⟩
      · rw [if_neg hvalid, if_neg fun hgood => hvalid hgood.1.validates]
        exact ⟨h, fun _ => hfile⟩

theorem storedFrom_spec {i : Nat} (hstored : (stored.map SecureMessage.token).Nodup)
    (hgood : ∀ smsg ∈ stored, smsg.Good call st) :
    ((storedFrom call st i stored records).map SecureMessage.token).Nodup ∧
      ∀ smsg ∈ storedFrom call st i stored records, smsg.Good call st := by
  induction records generalizing i stored with
  | nil => exact ⟨hstored, hgood⟩
  | cons smsg records ih =>
      rw [storedFrom]
      split
      · next hnext =>
          refine ih ?_ ?_
          · rw [List.map_append, List.map_singleton]
            refine List.nodup_append.2 ⟨hstored, List.nodup_singleton _, fun token hmem token' hmem' => ?_⟩
            rintro rfl
            rw [List.mem_singleton.1 hmem'] at hmem
            exact hnext.2.1 hmem
          · intro smsg' hmem
            rcases List.mem_append.1 hmem with hmem | hmem
            · exact hgood smsg' hmem
            · rw [List.mem_singleton.1 hmem]
              exact hnext.1
      · exact ⟨hstored, hgood⟩

/-! ## The bucket of the header -/

theorem bucketAt_finishBunch (now bktTime : Int) (st : SmsgState) (b : Int) :
    ((finishBunch now bktTime st).bucketAt b).setTokens = (st.bucketAt b).setTokens ∧
      ((finishBunch now bktTime st).bucketAt b).hash =
        if b = bktTime ∧ bktTime ∈ st.smsgBuckets then SecMsgBucket.hashTokens (st.bucketAt b).setTokens
        else (st.bucketAt b).hash := by
  rw [finishBunch]
  cases hbkt : st.smsgBuckets[bktTime]? with
  | none =>
      have hout : bktTime ∉ st.smsgBuckets := by
        rw [Std.ExtTreeMap.mem_iff_isSome_getElem?, hbkt]
        exact Bool.false_ne_true
      rw [if_neg fun h => hout h.2]
      exact ⟨rfl, rfl⟩
  | some bkt =>
      have hin : bktTime ∈ st.smsgBuckets := by
        rw [Std.ExtTreeMap.mem_iff_isSome_getElem?, hbkt]
        rfl
      simp only [bucketAt_setBucket]
      rcases Decidable.em (bktTime = b) with rfl | hne
      · rw [if_pos rfl, if_pos ⟨rfl, hin⟩, bucketAt_of_getElem? hbkt]
        exact ⟨SecMsgBucket.hashBucket_setTokens _ _, SecMsgBucket.hashBucket_hash _ _⟩
      · rw [if_neg hne, if_neg fun h => hne h.1.symm]
        exact ⟨rfl, rfl⟩

theorem fileAt_finishBunch (now bktTime : Int) (st : SmsgState) (b : Int) :
    (finishBunch now bktTime st).fileAt b = st.fileAt b := by
  rw [finishBunch]
  split
  · rfl
  · rfl

theorem mem_smsgBuckets_of_token {token : SecMsgToken} (h : token ∈ (st.bucketAt b).setTokens) : b ∈ st.smsgBuckets := by
  rw [Std.ExtTreeMap.mem_iff_isSome_getElem?]
  rw [SmsgState.bucketAt] at h
  cases hbkt : st.smsgBuckets[b]? with
  | some bkt => rfl
  | none =>
      rw [hbkt] at h
      exact absurd h Std.ExtTreeMap.not_mem_empty

/-! ## The bunch -/

theorem readU32At_u32Bytes (n : UInt32) (s : Bytes) : readU32At (u32Bytes n ++ s) 0 = some n := by
  have hlen : (u32Bytes n).length = 4 := length_leBytes 4 _
  have hof : ofLeBytes (u32Bytes n) = n.toNat := ofLeBytes_leBytes n.toNat_lt
  rw [readU32At, readAt_eq_some (by rw [List.length_append]; omega), List.drop_zero, List.take_left' hlen,
    Option.map_some, hof, UInt32.ofNat_toNat]

theorem readI64At_i64Bytes (t : Int64) (n : UInt32) (s : Bytes) :
    readI64At (u32Bytes n ++ (i64Bytes t.toInt ++ s)) 4 = some t.toInt := by
  have hlen : (u32Bytes n).length = 4 := length_leBytes 4 _
  have hlen' : (i64Bytes t.toInt).length = 8 := length_i64Bytes _
  rw [readI64At, readAt_eq_some (by rw [List.length_append, List.length_append]; omega), List.drop_left' hlen,
    List.take_left' hlen', Option.map_some, ofI64_i64Bytes ⟨t.le_toInt, t.toInt_lt⟩]

/-- What `SecureMsgReceive` does with a bunch that is well formed. -/
theorem secureMsgReceive_bunch {bktTime : Int64} (hlen : records.length ≤ 500) :
    ∃ l, secureMsgReceive call (bunchBytes bktTime records) st = some l ∧
      l.st = if outsideWindow call.now bktTime.toInt then st
        else if records = [] then refuseBunch bktTime.toInt st
        else finishBunch call.now bktTime.toInt (takeRecords call 0 st records) := by
  have hhead : (u32Bytes (UInt32.ofNat records.length)).length = 4 := length_leBytes 4 _
  have htime : (i64Bytes bktTime.toInt).length = 8 := length_i64Bytes _
  have hcount : (UInt32.ofNat records.length).toNat = records.length := by
    rw [UInt32.toNat_ofNat']
    exact Nat.mod_eq_of_lt (by omega)
  have hshort : ¬(bunchBytes bktTime records).length < 12 := by
    rw [bunchBytes, List.length_append, List.length_append]
    omega
  have hbunch : readU32At (bunchBytes bktTime records) 0 = some (UInt32.ofNat records.length) :=
    readU32At_u32Bytes _ _
  have hbkt : readI64At (bunchBytes bktTime records) 4 = some bktTime.toInt := readI64At_i64Bytes _ _ _
  rw [secureMsgReceive, if_neg hshort, hbunch, hbkt]
  simp only [Option.bind_eq_bind, Option.bind_some]
  cases hout : outsideWindow call.now bktTime.toInt with
  | true => exact ⟨{ st }, rfl, rfl⟩
  | false =>
      rw [if_neg Bool.false_ne_true, if_neg Bool.false_ne_true]
      rcases Decidable.em (records = []) with hnil | hne
      · have hzero : UInt32.ofNat records.length = 0 := by rw [hnil]; rfl
        rw [if_pos (Or.inl hzero), if_pos hnil]
        exact ⟨_, rfl, rfl⟩
      · have hpos : 0 < records.length := List.length_pos_iff.2 hne
        have htaken : ¬(UInt32.ofNat records.length = 0 ∨ UInt32.ofNat records.length > 500) := by
          rw [not_or]
          refine ⟨fun hzero => ?_, fun hmany => ?_⟩
          · rw [hzero] at hcount
            exact absurd hcount.symm (Nat.ne_of_gt hpos)
          · have hlt := UInt32.lt_iff_toNat_lt.1 hmany
            rw [hcount] at hlt
            exact absurd hlt (Nat.not_lt.2 hlen)
        rw [if_neg htaken, if_neg hne, hcount]
        obtain ⟨l, hl, hst⟩ := @msgLoop_records call records
          (u32Bytes (UInt32.ofNat records.length) ++ i64Bytes bktTime.toInt) 12 { st }
          (by rw [List.length_append, hhead, htime]; rfl) (Nat.le_refl 12) (by dsimp only; omega)
        rw [List.append_assoc] at hl
        rw [bunchBytes, hl]
        exact ⟨_, rfl, congrArg (finishBunch call.now bktTime.toInt) hst⟩

theorem storedRecords_spec (call : SmsgCall) (st : SmsgState) (bktTime : Int) (records : List SecureMessage) :
    ((storedRecords call st bktTime records).map SecureMessage.token).Nodup ∧
      ∀ smsg ∈ storedRecords call st bktTime records, smsg.Good call st := by
  rw [storedRecords]
  split
  · exact ⟨List.nodup_nil, fun _ hmem => (nomatch hmem)⟩
  · exact storedFrom_spec List.nodup_nil fun _ hmem => (nomatch hmem)

/-- The store after a bunch. -/
structure Received (call : SmsgCall) (bktTime : Int) (records : List SecureMessage) (st st' : SmsgState) : Prop where
  setTokens : ∀ b, (st'.bucketAt b).setTokens = tokensWith st b (storedRecords call st bktTime records)
  file : (∀ smsg ∈ records, smsg.Good call st →
    smsg.token ∈ (storedRecords call st bktTime records).map SecureMessage.token) →
      ∀ b, st'.fileAt b = st.fileAt b ++ recordsOf b (storedRecords call st bktTime records)
  hash : ∀ smsg ∈ storedRecords call st bktTime records, (st'.bucketAt smsg.bucket).hash =
    if smsg.bucket = bktTime then
      SecMsgBucket.hashTokens (tokensWith st smsg.bucket (storedRecords call st bktTime records))
    else (st.bucketAt smsg.bucket).hash

theorem secureMsgReceive_stores {bktTime : Int64} (hlen : records.length ≤ 500) :
    ∃ l, secureMsgReceive call (bunchBytes bktTime records) st = some l ∧
      Received call bktTime.toInt records st l.st := by
  obtain ⟨l, hl, hst⟩ := @secureMsgReceive_bunch call st records bktTime hlen
  refine ⟨l, hl, ?_⟩
  rw [hst]
  cases hout : outsideWindow call.now bktTime.toInt with
  | true =>
      have hkept : storedRecords call st bktTime.toInt records = [] := if_pos hout
      rw [if_pos rfl]
      refine ⟨fun b => by rw [hkept]; rfl, fun _ b => ?_, fun smsg hmem => ?_⟩
      · rw [hkept, recordsOf]
        exact (List.append_nil _).symm
      · rw [hkept] at hmem
        cases hmem
  | false =>
      have hkept : storedRecords call st bktTime.toInt records = storedFrom call st 0 [] records := by
        rw [storedRecords, hout]
        exact if_neg Bool.false_ne_true
      rw [if_neg Bool.false_ne_true]
      rcases Decidable.em (records = []) with rfl | hne
      · have happends := appends_refuseBunch bktTime.toInt st
        rw [if_pos rfl]
        refine ⟨fun b => by rw [hkept, happends.setTokens]; rfl, fun _ b => ?_, fun smsg hmem => ?_⟩
        · rw [hkept, storedFrom, recordsOf, refuseBunch]
          cases st.smsgBuckets[bktTime.toInt]? with
          | none => exact (List.append_nil _).symm
          | some bkt => exact (List.append_nil _).symm
        · rw [hkept] at hmem
          cases hmem
      · obtain ⟨hstored, hfile⟩ := @Stored.takeRecords call st st records [] 0 (.nil st)
          fun b => (List.append_nil _).symm
        rw [if_neg hne]
        refine ⟨fun b => ?_, fun hall b => ?_, fun smsg hmem => ?_⟩
        · rw [(bucketAt_finishBunch _ _ _ b).1, hstored.setTokens, hkept]
        · rw [fileAt_finishBunch, hkept]
          rw [hkept] at hall
          exact hfile hall b
        · have htoken : smsg.token ∈ ((takeRecords call 0 st records).bucketAt smsg.bucket).setTokens := by
            rw [hstored.setTokens, mem_tokensWith, ← hkept]
            exact Or.inr ⟨smsg, hmem, rfl, rfl⟩
          rw [(bucketAt_finishBunch _ _ _ _).2, hstored.setTokens, hstored.hash, hkept]
          rcases Decidable.em (smsg.bucket = bktTime.toInt) with hb | hb
          · rw [if_pos hb, if_pos ⟨hb, hb ▸ mem_smsgBuckets_of_token htoken⟩]
          · rw [if_neg hb, if_neg fun h => hb h.1]

/-- A bunch is taken message by message when each good message has the token of one that comes before the first message
that is not stored, and when the buckets of these are hashed. -/
theorem takesGood_iff {bktTime : Int64} (hlen : records.length ≤ 500) :
    (∃ l, secureMsgReceive call (bunchBytes bktTime records) st = some l ∧ TakesGood call records st l.st) ↔
      (∀ smsg ∈ records, smsg.Good call st →
        smsg.token ∈ (storedRecords call st bktTime.toInt records).map SecureMessage.token) ∧
      ∀ smsg ∈ storedRecords call st bktTime.toInt records, smsg.bucket = bktTime.toInt ∨
        (st.bucketAt smsg.bucket).hash =
          SecMsgBucket.hashTokens (tokensWith st smsg.bucket (storedRecords call st bktTime.toInt records)) := by
  obtain ⟨l, hl, hreceived⟩ := @secureMsgReceive_stores call st records bktTime hlen
  obtain ⟨hnodup, hgood⟩ := storedRecords_spec call st bktTime.toInt records
  constructor
  · rintro ⟨l', hl', htakes⟩
    obtain rfl := Option.some.inj (hl.symm.trans hl')
    refine ⟨fun smsg hmem hsmsg => ?_, fun smsg hmem => ?_⟩
    · obtain ⟨stored, -, hstored⟩ := htakes.stored
      have htoken := (hstored smsg hmem hsmsg).2
      rw [hreceived.setTokens, mem_tokensWith] at htoken
      obtain ⟨smsg', hmem', -, heq⟩ := htoken.resolve_left hsmsg.new
      exact List.mem_map.2 ⟨smsg', hmem', heq⟩
    · rcases Decidable.em (smsg.bucket = bktTime.toInt) with hb | hb
      · exact Or.inl hb
      · have hnew : smsg.token ∈ (l.st.bucketAt smsg.bucket).setTokens := by
          rw [hreceived.setTokens, mem_tokensWith]
          exact Or.inr ⟨smsg, hmem, rfl, rfl⟩
        have hhash := htakes.hashed smsg.bucket ⟨smsg.token, hnew, (hgood smsg hmem).new⟩
        rw [hreceived.hash smsg hmem, if_neg hb, hreceived.setTokens] at hhash
        exact Or.inr hhash
  · rintro ⟨hall, hbuckets⟩
    refine ⟨l, hl, ⟨storedRecords call st bktTime.toInt records, hreceived.file hall, fun smsg hmem hsmsg => ?_⟩,
      fun b hnew => ?_⟩
    · refine ⟨List.count_eq_one_of_mem hnodup (hall smsg hmem hsmsg), ?_⟩
      obtain ⟨smsg', hmem', heq⟩ := List.mem_map.1 (hall smsg hmem hsmsg)
      rw [hreceived.setTokens, mem_tokensWith]
      exact Or.inr ⟨smsg', hmem', token_bucket heq, heq⟩
    · obtain ⟨token, hin, hold⟩ := hnew
      rw [hreceived.setTokens, mem_tokensWith] at hin
      obtain ⟨smsg, hmem, rfl, -⟩ := hin.resolve_left hold
      rw [hreceived.hash smsg hmem, hreceived.setTokens]
      split
      · rfl
      · next hb => exact (hbuckets smsg hmem).resolve_left hb

/-! ## A message behind one that is not valid -/

/-- A header of zeros, whose version is not known. -/
def zeroMessage : SecureMessage where
  header := zeroHeader
  pPayload := []
  size := by decide +kernel

/-- A message with its proof of work. -/
def minedMessage : SecureMessage where
  header :=
    { bytes := [28, 238, 200, 41, 1, 0, 0] ++ i64Bytes 600010 ++ List.replicate 81 0 ++ [61, 157, 0, 0] ++ leBytes 4 8
      size := by decide }
  pPayload := List.replicate 8 5
  size := by decide +kernel

/-- The HMAC of that message. -/
def minedHash : Bytes :=
  [28, 238, 200, 41, 52, 12, 121, 165, 25, 108, 169, 183, 169, 218, 69, 218, 70, 21, 191, 205, 176, 169, 52, 47, 214,
    221, 113, 111, 186, 161, 0, 0]

def minedCall : SmsgCall where
  hmac _ _ := some minedHash
  now := 600010
  fLocked := false
  store _ := .ok
  unscanned _ := .ok

theorem minedMessage_taken :
    ∃ l, secureMsgReceive minedCall (bunchBytes 600000 [minedMessage]) {} = some l ∧
      TakesGood minedCall [minedMessage] {} l.st :=
  (takesGood_iff (by decide)).2 (by decide +kernel)

/-- The message that is not valid is dropped as often as there are messages, and the one behind it is never looked
at. -/
theorem minedMessage_not_taken :
    ¬∃ l, secureMsgReceive minedCall (bunchBytes 600000 [zeroMessage, minedMessage]) {} = some l ∧
      TakesGood minedCall [zeroMessage, minedMessage] {} l.st := by
  rintro ⟨l, hl, h⟩
  have hgood : minedMessage.Good minedCall {} := by decide +kernel
  have hleft : (secureMsgReceive minedCall (bunchBytes 600000 [zeroMessage, minedMessage]) {}).map
      (fun l => decide (minedMessage.token ∈ (l.st.bucketAt minedMessage.bucket).setTokens)) = some false := by
    decide +kernel
  rw [hl] at hleft
  obtain ⟨stored, -, hstored⟩ := h.stored
  have hin := (hstored minedMessage (List.mem_cons_of_mem _ List.mem_cons_self) hgood).2
  exact of_decide_eq_false (Option.some.inj hleft) hin

end ProCurrency
