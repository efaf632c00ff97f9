import ProCurrency.Smsg.Network

/-!
# What a handler changes in the buckets

A handler adds buckets and tokens. It takes a lock in `smsgHave`, and gives one up in `smsgMsg`.
-/

namespace ProCurrency

namespace SmsgState

/-- The lock count of a bucket and its owner. -/
def lock (st : SmsgState) (time : Int) : Nat × NodeId :=
  ((st.bucketAt time).nLockCount, (st.bucketAt time).nLockPeerId)

variable {st st' st'' : SmsgState} {time : Int} {bkt : SecMsgBucket}

theorem bucketAt_of_getElem? (h : st.smsgBuckets[time]? = some bkt) : st.bucketAt time = bkt := by
  simp [bucketAt, h]

@[simp] theorem bucketAt_setBucket (st : SmsgState) (time b : Int) (bkt : SecMsgBucket) :
    (st.setBucket time bkt).bucketAt b = if time = b then bkt else st.bucketAt b := by
  simp only [bucketAt, setBucket, Std.ExtTreeMap.getElem?_insert, Std.compare_eq_iff_eq]
  split <;> rfl

@[simp] theorem bucketAt_setDat (st : SmsgState) (bucket b : Int) (file : Bytes) :
    (st.setDat bucket file).bucketAt b = st.bucketAt b := rfl

@[simp] theorem bucketAt_touch (st : SmsgState) (time b : Int) : (st.touch time).bucketAt b = st.bucketAt b := by
  rw [touch, bucketAt_setBucket]
  split
  · next h => rw [h]
  · rfl

@[simp] theorem mem_setBucket (st : SmsgState) (time b : Int) (bkt : SecMsgBucket) :
    b ∈ (st.setBucket time bkt).smsgBuckets ↔ time = b ∨ b ∈ st.smsgBuckets := by
  simp [setBucket, Std.ExtTreeMap.mem_insert]

/-- The locks are as they were, and every new bucket is one of `fresh`. -/
structure Grows (fresh : Int → Prop) (st st' : SmsgState) : Prop where
  lock : ∀ b, st'.lock b = st.lock b
  mem : ∀ b ∈ st'.smsgBuckets, b ∈ st.smsgBuckets ∨ fresh b

variable {fresh fresh' : Int → Prop}

theorem Grows.refl (fresh : Int → Prop) (st : SmsgState) : Grows fresh st st where
  lock _ := rfl
  mem _ hb := .inl hb

theorem Grows.trans (h : Grows fresh st st') (h' : Grows fresh st' st'') : Grows fresh st st'' where
  lock b := (h'.lock b).trans (h.lock b)
  mem b hb := (h'.mem b hb).elim (h.mem b) .inr

theorem Grows.of_eq (h : st'.smsgBuckets = st.smsgBuckets) : Grows fresh st st' where
  lock b := by simp only [SmsgState.lock, bucketAt, h]
  mem b hb := .inl (h ▸ hb)

/-- A bucket that is set with its lock. -/
theorem Grows.setBucket (hfresh : fresh time) (hcount : bkt.nLockCount = (st.bucketAt time).nLockCount)
    (hpeer : bkt.nLockPeerId = (st.bucketAt time).nLockPeerId) : Grows fresh st (st.setBucket time bkt) where
  lock b := by
    simp only [SmsgState.lock, bucketAt_setBucket]
    split
    · next h => rw [hcount, hpeer, h]
    · rfl
  mem b hb := by
    rw [mem_setBucket] at hb
    rcases hb with rfl | hb
    · exact .inr hfresh
    · exact .inl hb

theorem Grows.touch (hfresh : fresh time) : Grows fresh st (st.touch time) := Grows.setBucket hfresh rfl rfl

/-- Nothing but `operator[]` for some times. -/
inductive BucketsTouched (fresh : Int → Prop) : SmsgState → SmsgState → Prop
  | refl (st : SmsgState) : BucketsTouched fresh st st
  | touch {st st' : SmsgState} {time : Int} (hfresh : fresh time) (h : BucketsTouched fresh (st.touch time) st') :
      BucketsTouched fresh st st'

theorem BucketsTouched.one (hfresh : fresh time) : BucketsTouched fresh st (st.touch time) := .touch hfresh (.refl _)

theorem BucketsTouched.trans (h : BucketsTouched fresh st st') (h' : BucketsTouched fresh st' st'') :
    BucketsTouched fresh st st'' := by
  induction h with
  | refl st => exact h'
  | touch hfresh _ ih => exact .touch hfresh (ih h')

theorem BucketsTouched.grows (h : BucketsTouched fresh st st') : Grows fresh st st' := by
  induction h with
  | refl st => exact .refl _ st
  | touch hfresh _ ih => exact Grows.trans (.touch hfresh) ih

theorem BucketsTouched.bucketAt (h : BucketsTouched fresh st st') (b : Int) : st'.bucketAt b = st.bucketAt b := by
  induction h with
  | refl st => rfl
  | touch hfresh _ ih => rw [ih, bucketAt_touch]

theorem BucketsTouched.dat (h : BucketsTouched fresh st st') : st'.dat = st.dat := by
  induction h with
  | refl st => rfl
  | touch hfresh _ ih => exact ih

end SmsgState

open SmsgState

/-- The bucket is in the window of times that a node takes. -/
def InWindow (now time : Int) : Prop := now - SMSG_RETENTION ≤ time ∧ time ≤ now + SMSG_TIME_LEEWAY

instance (now time : Int) : Decidable (InWindow now time) := inferInstanceAs (Decidable (_ ∧ _))

@[simp] theorem outsideWindow_eq_false_iff {now time : Int} : outsideWindow now time = false ↔ InWindow now time := by
  simp [outsideWindow, InWindow, and_comm]

/-- The bucket of a message that a node stores. -/
def MessageBucket (now b : Int) : Prop := ∃ timestamp, InWindow now timestamp ∧ b = bucketTime timestamp

variable {now : Int} {io : WriteOutcome} {pHeader : SecureMessageHeader} {pPayload : Bytes} {fUpdateBucket : Bool}
  {st st' : SmsgState}

/-! ## The store -/

theorem secureMsgStore_grows (now : Int) (io : WriteOutcome) (pHeader : SecureMessageHeader) (pPayload : Bytes)
    (fUpdateBucket : Bool) (st : SmsgState) :
    Grows (MessageBucket now) st (secureMsgStore now io pHeader pPayload fUpdateBucket st).2 := by
  rw [secureMsgStore]
  split
  · exact .refl _ _
  · next hin =>
      simp only [Bool.or_eq_true, decide_eq_true_eq, not_or, Bool.not_eq_true, outsideWindow_eq_false_iff] at hin
      have hfresh : MessageBucket now (bucketTime pHeader.timestamp) := ⟨_, hin.2, rfl⟩
      have htouch : Grows (MessageBucket now) st (st.touch (bucketTime pHeader.timestamp)) := .touch hfresh
      dsimp only
      split
      · exact htouch
      · cases io with
        | ok =>
            dsimp only
            refine Grows.trans (htouch.trans ?_) (.setBucket hfresh ?_ ?_)
            · exact .of_eq rfl
            · cases fUpdateBucket <;> simp
            · cases fUpdateBucket <;> simp
        | noDirectory => exact htouch
        | noOpen => exact htouch
        | noSeek => exact htouch.trans (.of_eq rfl)
        | short nWritten => exact htouch.trans (.of_eq rfl)

theorem secureMsgStoreUnscanned_smsgBuckets :
    (secureMsgStoreUnscanned now io pHeader pPayload st).2.smsgBuckets = st.smsgBuckets := by
  rw [secureMsgStoreUnscanned]
  split
  · rfl
  · cases io <;> rfl

theorem secureMsgScanMessage_smsgBuckets {fLocked : Bool} :
    (secureMsgScanMessage now fLocked io pHeader pPayload st).smsgBuckets = st.smsgBuckets := by
  cases fLocked
  · rfl
  · exact secureMsgStoreUnscanned_smsgBuckets

theorem storeMessage_grows (call : SmsgCall) (i : Nat) (pHeader : SecureMessageHeader) (pPayload : Bytes)
    (st : SmsgState) : Grows (MessageBucket call.now) st (storeMessage call i pHeader pPayload st).2 := by
  have hgrows := secureMsgStore_grows call.now (call.store i) pHeader pPayload false st
  rw [storeMessage]
  cases hstore : secureMsgStore call.now (call.store i) pHeader pPayload false st with
  | mk rv st' =>
      rw [hstore] at hgrows
      cases rv with
      | zero => exact hgrows.trans (.of_eq secureMsgScanMessage_smsgBuckets)
      | succ rv => exact hgrows

/-! ## Scans -/

theorem removeFile_smsgBuckets {fRemoves : Bool} {file : SmsgFile} :
    (removeFile fRemoves st file).smsgBuckets = st.smsgBuckets := by
  cases file <;> cases fRemoves <;> rfl

theorem scanFile_smsgBuckets (file : SmsgFile) (out : ScanOutcome) (st : SmsgState) :
    (scanFile file out st).2.smsgBuckets = st.smsgBuckets := by
  rw [scanFile]
  split
  · rfl
  · split
    · rfl
    · exact removeFile_smsgBuckets

theorem scanBucketFiles_smsgBuckets {itd : List (SmsgFile × ScanOutcome)} :
    (scanBucketFiles now itd st).smsgBuckets = st.smsgBuckets := by
  induction itd generalizing st with
  | nil => rfl
  | cons entry itd ih =>
      obtain ⟨file, out⟩ := entry
      simp only [scanBucketFiles]
      split
      · rw [ih, removeFile_smsgBuckets]
      · cases file with
        | wl bucket => exact ih
        | dat bucket =>
            have hfile := scanFile_smsgBuckets (.dat bucket) out st
            dsimp only
            split
            · next heq => rw [ih, ← hfile, heq]
            · next heq => rw [← hfile, heq]

theorem scanUnlockedFiles_smsgBuckets {itd : List (SmsgFile × ScanOutcome)} :
    (scanUnlockedFiles now itd st).smsgBuckets = st.smsgBuckets := by
  induction itd generalizing st with
  | nil => rfl
  | cons entry itd ih =>
      obtain ⟨file, out⟩ := entry
      cases file with
      | dat bucket => exact ih
      | wl bucket =>
          have hfile := scanFile_smsgBuckets (.wl bucket) out st
          rw [scanUnlockedFiles]
          split
          · dsimp only
            split
            · rw [ih, removeFile_smsgBuckets]
            · exact removeFile_smsgBuckets
          · split
            · next heq => rw [ih, ← hfile, heq]
            · next heq => rw [← hfile, heq]

theorem secureMsgScanBuckets_smsgBuckets {fSecMsgEnabled fLocked : Bool} {itd : List (SmsgFile × ScanOutcome)} :
    (secureMsgScanBuckets fSecMsgEnabled fLocked now itd st).smsgBuckets = st.smsgBuckets := by
  rw [secureMsgScanBuckets]
  split
  · rfl
  · exact scanBucketFiles_smsgBuckets

theorem secureMsgWalletUnlocked_smsgBuckets {fSecMsgEnabled fLocked : Bool} {itd : List (SmsgFile × ScanOutcome)} :
    (secureMsgWalletUnlocked fSecMsgEnabled fLocked now itd st).smsgBuckets = st.smsgBuckets := by
  rw [secureMsgWalletUnlocked]
  split
  · rfl
  · exact scanUnlockedFiles_smsgBuckets

/-! ## smsgInv and smsgHave -/

/-- The times at which `operator[]` is used for an inventory. -/
def InvNames (now : Int) (vchData : Bytes) (b : Int) : Prop :=
  ∃ nInvBuckets i ncontent, readU32At vchData 0 = some nInvBuckets ∧
    (nInvBuckets.toNat : Int) ≤ SMSG_RETENTION / SMSG_BUCKET_LEN + 1 ∧
    (4 + nInvBuckets * 16).toNat ≤ vchData.length ∧ i < nInvBuckets.toNat ∧
    readI64At vchData (4 + 16 * i) = some b ∧ readU32At vchData (4 + 16 * i + 8) = some ncontent ∧ 1 ≤ ncontent ∧
    InWindow now b

theorem invBucket_touched {fresh : Int → Prop} {time : Int} {ncontent hash : UInt32} {l : InvLoop}
    (hfresh : InWindow now time → 1 ≤ ncontent → fresh time) :
    BucketsTouched fresh l.st (invBucket now time ncontent hash l).st := by
  rw [invBucket]
  split
  · split
    · exact .refl _
    · exact .refl _
  · next hold =>
      split
      · exact .refl _
      · next hnew =>
          split
          · exact .refl _
          · next hempty =>
              have hin : InWindow now time := ⟨Int.not_lt.1 hold, Int.not_lt.1 hnew⟩
              have htouch : BucketsTouched fresh l.st (l.st.touch time) := .one (hfresh hin (UInt32.not_lt.1 hempty))
              dsimp only
              split
              · exact htouch
              · split
                · exact htouch
                · exact htouch

theorem invLoop_touched {fresh : Int → Prop} {vchData : Bytes} {n p : Nat} {l l' : InvLoop}
    (h : invLoop now vchData n p l = some l')
    (hfresh : ∀ i < n, ∀ time ncontent, readI64At vchData (p + 16 * i) = some time →
      readU32At vchData (p + 16 * i + 8) = some ncontent → InWindow now time → 1 ≤ ncontent → fresh time) :
    BucketsTouched fresh l.st l'.st := by
  induction n generalizing p l with
  | zero => exact Option.some.inj h ▸ .refl _
  | succ n ih =>
      simp only [invLoop, Option.bind_eq_bind, Option.bind_eq_some_iff] at h
      obtain ⟨time, htime, ncontent, hncontent, hash, -, hrest⟩ := h
      refine .trans ?_ (ih hrest fun i hi => ?_)
      · exact invBucket_touched (hfresh 0 (Nat.succ_pos n) time ncontent htime hncontent)
      · have hnext := hfresh (i + 1) (Nat.succ_lt_succ hi)
        rw [Nat.mul_succ, Nat.add_comm (16 * i) 16, ← Nat.add_assoc] at hnext
        exact hnext

theorem receiveInv_touched {call : SmsgCall} {vchData : Bytes} {smsgData : SecMsgNode} {r : SmsgHandled}
    (h : receiveInv call vchData smsgData st = some r) :
    BucketsTouched (fun b => smsgData.ignoreUntil ≤ call.now ∧ InvNames call.now vchData b) st r.st := by
  simp only [receiveInv, Option.bind_eq_bind] at h
  split at h
  · exact Option.some.inj h ▸ .refl _
  · split at h
    · exact Option.some.inj h ▸ .refl _
    · next hignore =>
        obtain ⟨nInvBuckets, hcount, h⟩ := Option.bind_eq_some_iff.1 h
        split at h
        · exact Option.some.inj h ▸ .refl _
        · next hmany =>
            split at h
            · exact Option.some.inj h ▸ .refl _
            · next hshort =>
                obtain ⟨l, hl, h⟩ := Option.bind_eq_some_iff.1 h
                obtain rfl := Option.some.inj h
                refine invLoop_touched hl fun i hi time ncontent htime hncontent hin hpos => ?_
                exact ⟨Int.not_lt.1 hignore, nInvBuckets, i, ncontent, hcount, Int.not_lt.1 hmany,
                  Nat.not_lt.1 hshort, hi, htime, hncontent, hpos, hin⟩

/-- The bucket that a peer offers the messages of. -/
def haveTime (vchData : Bytes) : Option Int := readI64At vchData 0

/-- What `smsgHave` does: nothing, or it creates the bucket, or it locks it for the peer and asks for messages. -/
theorem receiveHave_cases {call : SmsgCall} {id : NodeId} {vchData : Bytes} {smsgData : SecMsgNode} {r : SmsgHandled}
    (h : receiveHave call id vchData smsgData st = some r) :
    (r.st = st ∧ r.pushed = []) ∨
      ∃ time, haveTime vchData = some time ∧ InWindow call.now time ∧
        ((r.st = st.touch time ∧ r.pushed = []) ∨
          ((st.bucketAt time).nLockCount = 0 ∧
            r.st = (st.touch time).setBucket time { st.bucketAt time with nLockCount := 3, nLockPeerId := id } ∧
            ∃ vchWant, r.pushed = [.smsgWant (vchData.take 8 ++ vchWant)])) := by
  simp only [receiveHave, Option.bind_eq_bind] at h
  split at h
  · exact .inl (Option.some.inj h ▸ ⟨rfl, rfl⟩)
  · obtain ⟨time, htime, h⟩ := Option.bind_eq_some_iff.1 h
    split at h
    · exact .inl (Option.some.inj h ▸ ⟨rfl, rfl⟩)
    · next hold =>
        split at h
        · exact .inl (Option.some.inj h ▸ ⟨rfl, rfl⟩)
        · next hnew =>
            refine .inr ⟨time, htime, ⟨Int.not_lt.1 hold, Int.not_lt.1 hnew⟩, ?_⟩
            split at h
            · exact .inl (Option.some.inj h ▸ ⟨rfl, rfl⟩)
            · next hlock =>
                obtain ⟨vchDataOut, -, h⟩ := Option.bind_eq_some_iff.1 h
                split at h
                · exact .inr ⟨Nat.eq_zero_of_not_pos hlock, Option.some.inj h ▸ ⟨rfl, vchDataOut, rfl⟩⟩
                · exact .inl (Option.some.inj h ▸ ⟨rfl, rfl⟩)

/-! ## Messages that offer nothing and ask for nothing -/

def SmsgMessage.isReply : SmsgMessage → Bool
  | .smsgInv _ | .smsgWant _ => false
  | _ => true

theorem receiveInv_pushed {call : SmsgCall} {vchData : Bytes} {smsgData : SecMsgNode} {r : SmsgHandled}
    (h : receiveInv call vchData smsgData st = some r) : ∀ m ∈ r.pushed, m.isReply := by
  simp only [receiveInv, Option.bind_eq_bind] at h
  split at h
  · obtain rfl := Option.some.inj h
    simp
  · split at h
    · obtain rfl := Option.some.inj h
      simp
    · obtain ⟨nInvBuckets, -, h⟩ := Option.bind_eq_some_iff.1 h
      split at h
      · obtain rfl := Option.some.inj h
        simp
      · split at h
        · obtain rfl := Option.some.inj h
          simp
        · obtain ⟨l, -, h⟩ := Option.bind_eq_some_iff.1 h
          obtain rfl := Option.some.inj h
          dsimp only
          split
          · simp [SmsgMessage.isReply]
          · split <;> simp [SmsgMessage.isReply]

theorem showLoop_pushed {vchData : Bytes} {n pIn : Nat} {pushed pushed' : List SmsgMessage}
    (h : showLoop vchData st n pIn pushed = some pushed') (hpushed : ∀ m ∈ pushed, m.isReply) :
    ∀ m ∈ pushed', m.isReply := by
  induction n generalizing pIn pushed with
  | zero => exact Option.some.inj h ▸ hpushed
  | succ n ih =>
      simp only [showLoop, Option.bind_eq_bind] at h
      obtain ⟨time, -, h⟩ := Option.bind_eq_some_iff.1 h
      split at h
      · exact ih h hpushed
      · refine ih h fun m hm => ?_
        rcases List.mem_append.1 hm with hm | hm
        · exact hpushed m hm
        · rw [List.mem_singleton.1 hm]
          rfl

theorem receiveShow_cases {vchData : Bytes} {smsgData : SecMsgNode} {r : SmsgHandled}
    (h : receiveShow vchData smsgData st = some r) : r.st = st ∧ ∀ m ∈ r.pushed, m.isReply := by
  simp only [receiveShow, Option.bind_eq_bind] at h
  split at h
  · obtain rfl := Option.some.inj h
    exact ⟨rfl, by simp⟩
  · obtain ⟨nBuckets, -, h⟩ := Option.bind_eq_some_iff.1 h
    split at h
    · obtain rfl := Option.some.inj h
      exact ⟨rfl, by simp⟩
    · obtain ⟨pushed, hpushed, h⟩ := Option.bind_eq_some_iff.1 h
      obtain rfl := Option.some.inj h
      exact ⟨rfl, showLoop_pushed hpushed (by simp)⟩

theorem receiveWant_cases {vchData : Bytes} {smsgData : SecMsgNode} {r : SmsgHandled}
    (h : receiveWant vchData smsgData st = some r) : r.st = st ∧ ∀ m ∈ r.pushed, m.isReply := by
  simp only [receiveWant, Option.bind_eq_bind] at h
  split at h
  · obtain rfl := Option.some.inj h
    exact ⟨rfl, by simp⟩
  · obtain ⟨time, -, h⟩ := Option.bind_eq_some_iff.1 h
    split at h
    · obtain rfl := Option.some.inj h
      exact ⟨rfl, by simp⟩
    · obtain ⟨l, -, h⟩ := Option.bind_eq_some_iff.1 h
      obtain rfl := Option.some.inj h
      refine ⟨rfl, ?_⟩
      dsimp only
      split <;> simp [SmsgMessage.isReply]

/-! ## smsgMsg -/

theorem msgLoop_grows {call : SmsgCall} {vchData : Bytes} {left : Nat} {n : UInt32} {l l' : MsgLoop}
    (h : msgLoop call vchData left n l = some l') : Grows (MessageBucket call.now) l.st l'.st := by
  induction left generalizing n l with
  | zero => exact Option.some.inj h ▸ .refl _ _
  | succ left ih =>
      simp only [msgLoop, Option.bind_eq_bind] at h
      split at h
      · exact Option.some.inj h ▸ .refl _ _
      · obtain ⟨smsg, -, h⟩ := Option.bind_eq_some_iff.1 h
        obtain ⟨rv, -, h⟩ := Option.bind_eq_some_iff.1 h
        split at h
        · obtain ⟨pPayload, -, h⟩ := Option.bind_eq_some_iff.1 h
          have hstore := storeMessage_grows call l.rounds smsg pPayload l.st
          split at h
          · next heq =>
              rw [heq] at hstore
              exact hstore.trans (ih h)
          · next heq =>
              rw [heq] at hstore
              exact Option.some.inj h ▸ hstore
        · have hrest := ih h
          exact hrest

theorem secureMsgReceive_mem {call : SmsgCall} {vchData : Bytes} {l : MsgLoop}
    (h : secureMsgReceive call vchData st = some l) {b : Int} (hb : b ∈ l.st.smsgBuckets) :
    b ∈ st.smsgBuckets ∨ MessageBucket call.now b := by
  simp only [secureMsgReceive, Option.bind_eq_bind] at h
  split at h
  · obtain rfl := Option.some.inj h
    exact .inl hb
  · obtain ⟨nBunch, -, h⟩ := Option.bind_eq_some_iff.1 h
    obtain ⟨bktTime, -, h⟩ := Option.bind_eq_some_iff.1 h
    split at h
    · obtain rfl := Option.some.inj h
      exact .inl hb
    · split at h
      · obtain rfl := Option.some.inj h
        dsimp only [refuseBunch] at hb
        split at hb
        · exact .inl hb
        · next hsome =>
            rcases (mem_setBucket st bktTime b _).1 hb with rfl | hb
            · exact .inl (Std.ExtTreeMap.mem_iff_isSome_getElem?.2 (by rw [hsome]; rfl))
            · exact .inl hb
      · obtain ⟨l', hl', h⟩ := Option.bind_eq_some_iff.1 h
        have hgrows := msgLoop_grows hl'
        obtain rfl := Option.some.inj h
        dsimp only [finishBunch] at hb
        split at hb
        · exact hgrows.mem b hb
        · next hsome =>
            rcases (mem_setBucket l'.st bktTime b _).1 hb with rfl | hb
            · exact hgrows.mem _ (Std.ExtTreeMap.mem_iff_isSome_getElem?.2 (by rw [hsome]; rfl))
            · exact hgrows.mem b hb

/-- The bucket that a bunch is for. -/
def bunchTime (vchData : Bytes) : Option Int := readI64At vchData 4

/-- `SecureMsgReceive` gives up the lock of the bucket that the bunch is for, when its time is in the window, and no
other. -/
theorem secureMsgReceive_lock {call : SmsgCall} {vchData : Bytes} {l : MsgLoop}
    (h : secureMsgReceive call vchData st = some l) (b : Int) :
    (bunchTime vchData = some b ∧ InWindow call.now b ∧ (l.st.bucketAt b).nLockCount = 0) ∨
      ((bunchTime vchData = some b → ¬ InWindow call.now b) ∧ l.st.lock b = st.lock b) := by
  simp only [secureMsgReceive, Option.bind_eq_bind] at h
  split at h
  · next hshort =>
      obtain rfl := Option.some.inj h
      refine .inr ⟨fun hb => ?_, rfl⟩
      have hlen : 4 + 8 ≤ vchData.length := by
        simp only [bunchTime, readI64At, readAt, Option.map_eq_some_iff] at hb
        obtain ⟨bs, hbs, -⟩ := hb
        split at hbs
        · assumption
        · cases hbs
      omega
  · obtain ⟨nBunch, -, h⟩ := Option.bind_eq_some_iff.1 h
    obtain ⟨bktTime, htime, h⟩ := Option.bind_eq_some_iff.1 h
    have hread : bunchTime vchData = some bktTime := htime
    split at h
    · next hout =>
        obtain rfl := Option.some.inj h
        refine .inr ⟨fun hb hin => ?_, rfl⟩
        obtain rfl := Option.some.inj (hread.symm.trans hb)
        rw [outsideWindow_eq_false_iff.2 hin] at hout
        cases hout
    · next hin =>
        have hin := outsideWindow_eq_false_iff.1 (Bool.not_eq_true _ ▸ hin)
        have hother (b' : Int) (hb : bktTime ≠ b') : bunchTime vchData = some b' → ¬ InWindow call.now b' :=
          fun hb' => absurd (Option.some.inj (hread.symm.trans hb')) hb
        split at h
        · obtain rfl := Option.some.inj h
          dsimp only [refuseBunch]
          by_cases hb : bktTime = b
          · subst hb
            refine .inl ⟨hread, hin, ?_⟩
            split
            · next hnone => simp [bucketAt, hnone]
            · simp
          · refine .inr ⟨hother b hb, ?_⟩
            split
            · rfl
            · simp [lock, hb]
        · obtain ⟨l', hl', h⟩ := Option.bind_eq_some_iff.1 h
          have hgrows := msgLoop_grows hl'
          obtain rfl := Option.some.inj h
          dsimp only [finishBunch]
          by_cases hb : bktTime = b
          · subst hb
            refine .inl ⟨hread, hin, ?_⟩
            split
            · next hnone => simp [bucketAt, hnone]
            · simp
          · refine .inr ⟨hother b hb, ?_⟩
            rw [← hgrows.lock b]
            split
            · rfl
            · simp [lock, hb]

/-! ## All commands -/

/-- The times that a message has `operator[]` applied to. -/
def Names (now : Int) (smsgData : SecMsgNode) : SmsgMessage → Int → Prop
  | .smsgInv vchData, b => smsgData.ignoreUntil ≤ now ∧ InvNames now vchData b
  | .smsgHave vchData, b => haveTime vchData = some b ∧ InWindow now b
  | _, _ => False

/-- A bunch is received, or a bucket is locked and its messages asked for, or buckets are added. -/
theorem secureMsgReceiveData_cases {call : SmsgCall} {id : NodeId} {smsgData : SecMsgNode} {msg : SmsgMessage}
    {r : SmsgHandled} (h : secureMsgReceiveData call id smsgData st msg = some r) :
    (∃ vchData l, msg = .smsgMsg vchData ∧ secureMsgReceive call vchData st = some l ∧ r.st = l.st ∧ r.pushed = []) ∨
      (∃ vchData time vchWant, msg = .smsgHave vchData ∧ haveTime vchData = some time ∧ InWindow call.now time ∧
        (st.bucketAt time).nLockCount = 0 ∧
        r.st = (st.touch time).setBucket time { st.bucketAt time with nLockCount := 3, nLockPeerId := id } ∧
        r.pushed = [.smsgWant (vchData.take 8 ++ vchWant)]) ∨
      (∀ vchData, msg ≠ .smsgMsg vchData) ∧ BucketsTouched (Names call.now smsgData msg) st r.st ∧
        ∀ m ∈ r.pushed, m.isReply := by
  cases msg with
  | smsgInv vchData => exact .inr (.inr ⟨by simp, receiveInv_touched h, receiveInv_pushed h⟩)
  | smsgShow vchData =>
      obtain ⟨hst, hpushed⟩ := receiveShow_cases h
      exact .inr (.inr ⟨by simp, hst ▸ .refl _, hpushed⟩)
  | smsgHave vchData =>
      rcases receiveHave_cases h with
        ⟨hst, hpushed⟩ | ⟨time, htime, hin, ⟨hst, hpushed⟩ | ⟨hlock, hst, vchWant, hpushed⟩⟩
      · refine .inr (.inr ⟨by simp, hst ▸ .refl _, ?_⟩)
        simp [hpushed]
      · refine .inr (.inr ⟨by simp, hst ▸ .one ⟨htime, hin⟩, ?_⟩)
        simp [hpushed]
      · exact .inr (.inl ⟨vchData, time, vchWant, rfl, htime, hin, hlock, hst, hpushed⟩)
  | smsgWant vchData =>
      obtain ⟨hst, hpushed⟩ := receiveWant_cases h
      exact .inr (.inr ⟨by simp, hst ▸ .refl _, hpushed⟩)
  | smsgMsg vchData =>
      simp only [secureMsgReceiveData, Option.map_eq_some_iff] at h
      obtain ⟨l, hl, rfl⟩ := h
      exact .inl ⟨vchData, l, rfl, hl, rfl, rfl⟩
  | smsgMatch vchData =>
      simp only [secureMsgReceiveData] at h
      split at h
      · obtain rfl := Option.some.inj h
        exact .inr (.inr ⟨by simp, .refl _, by simp⟩)
      · obtain rfl := Option.some.inj h
        exact .inr (.inr ⟨by simp, .refl _, by simp⟩)
  | smsgPing =>
      obtain rfl := Option.some.inj h
      exact .inr (.inr ⟨by simp, .refl _, by simp [SmsgMessage.isReply]⟩)
  | smsgPong =>
      obtain rfl := Option.some.inj h
      exact .inr (.inr ⟨by simp, .refl _, by simp⟩)
  | smsgDisabled =>
      obtain rfl := Option.some.inj h
      exact .inr (.inr ⟨by simp, .refl _, by simp⟩)
  | smsgIgnore vchData =>
      simp only [secureMsgReceiveData] at h
      split at h
      · obtain rfl := Option.some.inj h
        exact .inr (.inr ⟨by simp, .refl _, by simp⟩)
      · obtain ⟨time, -, h⟩ := Option.bind_eq_some_iff.1 h
        obtain rfl := Option.some.inj h
        exact .inr (.inr ⟨by simp, .refl _, by simp⟩)
  | unknown =>
      obtain rfl := Option.some.inj h
      exact .inr (.inr ⟨by simp, .refl _, by simp⟩)

theorem step_receive_eq_some {node node' : SmsgNode} {pushed : List (NodeId × SmsgMessage)} {call : SmsgCall}
    {pfrom : NodeId} {msg : SmsgMessage}
    (h : SmsgNode.step (.receive call pfrom msg) node = some (node', pushed)) :
    ∃ smsgData r, node.vNodes[pfrom]? = some smsgData ∧
      secureMsgReceiveData call pfrom smsgData node.st msg = some r ∧
      node' = { st := r.st, vNodes := node.vNodes.insert pfrom r.smsgData } ∧
      pushed = r.pushed.map fun m => (pfrom, m) := by
  simp only [SmsgNode.step, Option.bind_eq_bind, Option.bind_eq_some_iff, Option.some.injEq, Prod.mk.injEq] at h
  obtain ⟨smsgData, hpeer, r, hr, rfl, rfl⟩ := h
  exact ⟨smsgData, r, hpeer, hr, rfl, rfl⟩

/-- A call in which every message fails the check of its hash. -/
def SmsgCall.refusing (now : Int) : SmsgCall where
  hmac := fun _ _ => none
  now := now
  fLocked := true
  store := fun _ => .ok
  unscanned := fun _ => .ok

end ProCurrency
