import ProCurrency.Lib.EventRun
import ProCurrency.Smsg.Bounds

/-!
# The store of messages

For every token of a bucket its file should have the message at the offset of the token. `SecureMsgScanBuckets` removes
the files of buckets that are still advertised, and the token of a short payload has a sample that is not the payload's.
-/

namespace ProCurrency

open ByteCodec SmsgState EventRun

/-- Every token of a bucket has its message in the file of the bucket. -/
def Consistent (st : SmsgState) : Prop :=
  ∀ b token offset, (st.bucketAt b).setTokens[token]? = some offset → ∃ smsg, Advertised st b token offset smsg

variable {now : Int} {io : WriteOutcome} {smsg : SecureMessage} {fUpdateBucket : Bool} {st st' : SmsgState}

/-! ## Storing -/

theorem Consistent.appends (h : Consistent st) (happ : Appends st st') : Consistent st' := by
  intro b token offset hget
  rw [happ.setTokens b] at hget
  obtain ⟨smsg, hsmsg⟩ := h b token offset hget
  exact ⟨smsg, hsmsg.extend (happ.dat b)⟩

theorem Consistent.stored (h : Consistent st) (hstored : StoredIn now smsg fUpdateBucket st st')
    (hlen : 8 ≤ smsg.pPayload.length) : Consistent st' := by
  intro b token offset hget
  by_cases hb : bucketTime smsg.header.timestamp = b
  · subst hb
    have hfile := hstored.dat (bucketTime smsg.header.timestamp)
    rw [if_pos rfl] at hfile
    rw [hstored.bucketAt, if_pos rfl, storedBucket_setTokens, Std.ExtTreeMap.getElem?_insert] at hget
    split at hget
    · next heq =>
        obtain rfl := Std.LawfulEqOrd.eq_of_compare heq
        obtain rfl := Option.some.inj hget
        refine ⟨smsg, ⟨by rw [smsg.token_timestamp], ⟨_, hfile, ?_⟩, smsg.token_timestamp.symm, ?_⟩⟩
        · exact ⟨[], by rw [List.append_nil, List.drop_left]⟩
        · rw [smsg.token_sample hlen]
          exact List.take_prefix _ _
    · obtain ⟨smsg', hsmsg'⟩ := h _ token offset hget
      refine ⟨smsg', hsmsg'.extend fun file hold => ⟨smsg.bytes, ?_⟩⟩
      rw [hfile, fileAt, hold, Option.getD_some]
  · rw [hstored.bucketAt, if_neg hb] at hget
    obtain ⟨smsg', hsmsg'⟩ := h b token offset hget
    refine ⟨smsg', hsmsg'.extend fun file hold => ⟨[], ?_⟩⟩
    rw [hstored.dat, if_neg hb, hold, List.append_nil]

theorem Consistent.store (h : Consistent st) (fUpdateBucket : Bool)
    (hlen : StoreSucceeds now io smsg st → 8 ≤ smsg.pPayload.length) :
    Consistent (secureMsgStore now io smsg.header smsg.pPayload fUpdateBucket st).2 := by
  by_cases hstores : StoreSucceeds now io smsg st
  · exact h.stored (secureMsgStore_of_stores hstores).2 (hlen hstores)
  · exact h.appends (secureMsgStore_of_not_stores hstores).2

theorem appends_secureMsgScanMessage (fLocked : Bool) (pHeader : SecureMessageHeader) (pPayload : Bytes) :
    Appends st (secureMsgScanMessage now fLocked io pHeader pPayload st) := by
  refine .of_dat_eq (fun b => ?_) secureMsgScanMessage_dat
  rw [bucketAt, secureMsgScanMessage_smsgBuckets]
  rfl

theorem Consistent.storeMessage {call : SmsgCall} {i : Nat} (h : Consistent st)
    (hlen : StoreSucceeds call.now (call.store i) smsg st → 8 ≤ smsg.pPayload.length) :
    Consistent (storeMessage call i smsg.header smsg.pPayload st).2 := by
  have hstore := h.store false hlen
  rw [ProCurrency.storeMessage]
  cases hresult : secureMsgStore call.now (call.store i) smsg.header smsg.pPayload false st with
  | mk rv st' =>
      rw [hresult] at hstore
      cases rv with
      | zero => exact hstore.appends (appends_secureMsgScanMessage _ _ _)
      | succ rv => exact hstore

/-! ## A bunch -/

/-- The messages of the bunch that are stored from here on have payloads that are not short. -/
def BunchSampled (call : SmsgCall) (vchData : Bytes) (nBunch i n : Nat) (st : SmsgState) : Prop :=
  ∀ j m st' smsg, BunchReaches call vchData i n st j m st' → j < nBunch → MessageAt vchData m smsg →
    validateAt call vchData m smsg.header = some 0 → StoreSucceeds call.now (call.store j) smsg st' →
    8 ≤ smsg.pPayload.length

variable {call : SmsgCall} {vchData : Bytes}

theorem Consistent.msgLoop {nBunch left : Nat} {n : UInt32} {l l' : MsgLoop} (h : Consistent l.st)
    (hat : LoopAt vchData nBunch left n l) (hsampled : BunchSampled call vchData nBunch l.rounds n.toNat l.st)
    (hloop : msgLoop call vchData left n l = some l') : Consistent l'.st := by
  induction left generalizing n l with
  | zero => exact Option.some.inj hloop ▸ h
  | succ left ih =>
      have hcount := hat.count
      by_cases hlen : n.toNat + SMSG_HDR_LEN ≤ vchData.length
      · obtain ⟨pHeader, hheader⟩ := exists_headerAt hlen
        cases hvalid : validateAt call vchData n.toNat pHeader with
        | none =>
            rw [msgLoop_succ hheader, hvalid] at hloop
            cases hloop
        | some rv =>
            cases rv with
            | zero =>
                obtain ⟨smsg, rfl, hmsg, hsize⟩ := validateAt_eq_zero hheader hvalid
                have hstored := h.storeMessage
                  (hsampled l.rounds n.toNat l.st smsg (.refl _ _ _) (by omega) hmsg hvalid)
                by_cases hstores : StoreSucceeds call.now (call.store l.rounds) smsg l.st
                · have hnextReach (j m st') := @BunchReaches.next call vchData _ _ j m _ st' smsg hmsg hvalid hstores
                  rw [msgLoop_stores hmsg hvalid hstores] at hloop
                  generalize (ProCurrency.storeMessage call l.rounds smsg.header smsg.pPayload l.st).2 = stored at *
                  obtain ⟨hnext, hat'⟩ := hat.next hmsg hsize stored
                  refine ih hstored hat' (fun j m st' smsg' hreach => ?_) hloop
                  rw [hnext] at hreach
                  exact hsampled j m st' smsg' (hnextReach j m st' hreach)
                · rw [msgLoop_not_stores hmsg hvalid hstores] at hloop
                  obtain rfl := Option.some.inj hloop
                  exact hstored
            | succ rv =>
                obtain ⟨l'', hl'', -, hst⟩ := msgLoop_invalid (left + 1) l hheader hvalid
                obtain rfl := Option.some.inj (hloop.symm.trans hl'')
                rw [hst]
                exact h
      · rw [msgLoop_short (Nat.not_le.1 hlen) hat.inBuffer] at hloop
        exact Option.some.inj hloop ▸ h

theorem appends_refuseBunch (bktTime : Int) (st : SmsgState) : Appends st (refuseBunch bktTime st) := by
  rw [refuseBunch]
  split
  · exact .of_dat_eq (fun _ => rfl) rfl
  · next bkt hbkt =>
      refine .of_dat_eq (fun b => ?_) rfl
      rw [bucketAt_setBucket]
      split
      · next hb => rw [← hb, bucketAt_of_getElem? hbkt]
      · rfl

theorem appends_finishBunch (now bktTime : Int) (st : SmsgState) : Appends st (finishBunch now bktTime st) := by
  rw [finishBunch]
  split
  · exact .of_dat_eq (fun _ => rfl) rfl
  · next bkt hbkt =>
      refine .of_dat_eq (fun b => ?_) rfl
      rw [bucketAt_setBucket]
      split
      · next hb => rw [SecMsgBucket.hashBucket_setTokens, ← hb, bucketAt_of_getElem? hbkt]
      · rfl

theorem Consistent.secureMsgReceive {l : MsgLoop} (h : Consistent st)
    (hsampled : ∀ nBunch bktTime, BunchTaken call vchData nBunch bktTime →
      BunchSampled call vchData nBunch.toNat 0 12 st)
    (hreceive : secureMsgReceive call vchData st = some l) : Consistent l.st := by
  simp only [ProCurrency.secureMsgReceive, Option.bind_eq_bind] at hreceive
  split at hreceive
  · exact Option.some.inj hreceive ▸ h
  · next hsize =>
      obtain ⟨nBunch, hcount, hreceive⟩ := Option.bind_eq_some_iff.1 hreceive
      obtain ⟨bktTime, htime, hreceive⟩ := Option.bind_eq_some_iff.1 hreceive
      split at hreceive
      · exact Option.some.inj hreceive ▸ h
      · next hin =>
          split at hreceive
          · obtain rfl := Option.some.inj hreceive
            exact h.appends (appends_refuseBunch bktTime st)
          · next htakes =>
              obtain ⟨hnotEmpty, hnotMany⟩ := not_or.1 htakes
              have htaken : BunchTaken call vchData nBunch bktTime :=
                ⟨Nat.not_lt.1 hsize, hcount, htime, outsideWindow_eq_false_iff.1 (Bool.not_eq_true _ ▸ hin),
                  hnotEmpty, hnotMany⟩
              obtain ⟨l', hl', hreceive⟩ := Option.bind_eq_some_iff.1 hreceive
              obtain rfl := Option.some.inj hreceive
              have hloop := h.msgLoop (l := { st }) (.start htaken) (hsampled nBunch bktTime htaken) hl'
              exact hloop.appends (appends_finishBunch call.now bktTime l'.st)

/-! ## Expiry -/

theorem Consistent.expireBuckets {fRemovesDat fRemovesWl : Int → Bool} (h : Consistent st) :
    Consistent (expireBuckets now fRemovesDat fRemovesWl st) := by
  intro b token offset hget
  have hbucket : (ProCurrency.expireBuckets now fRemovesDat fRemovesWl st).smsgBuckets[b]? =
      st.smsgBuckets[b]?.bind (tickBucket now b) := Std.ExtTreeMap.getElem?_filterMap'
  rw [bucketAt, hbucket] at hget
  cases hbkt : st.smsgBuckets[b]? with
  | none =>
      rw [hbkt] at hget
      cases Std.ExtTreeMap.getElem?_empty.symm.trans hget
  | some bkt =>
      rw [hbkt, Option.bind_some, tickBucket] at hget
      by_cases hold : b < now - SMSG_RETENTION
      · rw [if_pos hold] at hget
        cases Std.ExtTreeMap.getElem?_empty.symm.trans hget
      · rw [if_neg hold] at hget
        have hsame : (st.bucketAt b).setTokens[token]? = some offset := by
          rw [bucketAt_of_getElem? hbkt]
          split at hget
          · dsimp only at hget
            split at hget
            · exact hget
            · exact hget
          · exact hget
        obtain ⟨smsg, hsmsg⟩ := h b token offset hsame
        refine ⟨smsg, hsmsg.extend fun file hfile => ⟨[], ?_⟩⟩
        rw [ProCurrency.expireBuckets, Std.ExtTreeMap.getElem?_filter', hfile]
        simp [keepsFile, hold]

/-! ## Scans -/

/-- The buckets whose files a scan of the directory removes. -/
def removedByScan (now : Int) : List (SmsgFile × ScanOutcome) → List Int
  | [] => []
  | (.wl _, _) :: itd => removedByScan now itd
  | (.dat bucket, out) :: itd =>
      if bucket < now - SMSG_RETENTION then
        if out.fRemoves then bucket :: removedByScan now itd else removedByScan now itd
      else if !out.fOpens then removedByScan now itd
      else if out.fResizes && out.fRemoves then bucket :: removedByScan now itd
      else []

theorem removeFile_dat {fRemoves : Bool} {bucket b : Int} (h : fRemoves → b ≠ bucket) (st : SmsgState) :
    (removeFile fRemoves st (.dat bucket)).dat[b]? = st.dat[b]? := by
  cases fRemoves with
  | false => rfl
  | true => simp [removeFile, Std.ExtTreeMap.getElem?_erase, Ne.symm (h rfl)]

theorem removeFile_wl_dat (fRemoves : Bool) (bucket : Int) (st : SmsgState) :
    (removeFile fRemoves st (.wl bucket)).dat = st.dat := by
  cases fRemoves <;> rfl

theorem scanBucketFiles_dat {itd : List (SmsgFile × ScanOutcome)} {b : Int} (hb : b ∉ removedByScan now itd)
    (st : SmsgState) : (scanBucketFiles now itd st).dat[b]? = st.dat[b]? := by
  induction itd generalizing st with
  | nil => rfl
  | cons entry itd ih =>
      obtain ⟨file, out⟩ := entry
      simp only [scanBucketFiles]
      cases file with
      | wl bucket =>
          split
          · rw [ih hb, removeFile_wl_dat]
          · exact ih hb st
      | dat bucket =>
          simp only [removedByScan] at hb
          by_cases hold : bucket < now - SMSG_RETENTION
          · have hold' : (SmsgFile.dat bucket).time < now - SMSG_RETENTION := hold
            rw [if_pos hold] at hb
            rw [if_pos hold']
            by_cases hremoves : out.fRemoves
            · rw [if_pos hremoves, List.mem_cons, not_or] at hb
              rw [ih hb.2, removeFile_dat fun _ => hb.1]
            · rw [if_neg hremoves] at hb
              rw [ih hb, removeFile_dat fun h => absurd h hremoves]
          · have hold' : ¬ (SmsgFile.dat bucket).time < now - SMSG_RETENTION := hold
            rw [if_neg hold] at hb
            rw [if_neg hold', scanFile]
            by_cases hopens : out.fOpens
            · by_cases hresizes : out.fResizes
              · by_cases hremoves : out.fRemoves
                · simp only [hopens, hresizes, hremoves, Bool.not_true, Bool.false_eq_true, if_false, Bool.and_true,
                    if_true, List.mem_cons, not_or] at hb ⊢
                  rw [ih hb.2, removeFile_dat fun _ => hb.1]
                · simp [hopens, hresizes, hremoves, removeFile]
              · simp [hopens, hresizes]
            · simp only [hopens, Bool.not_false, if_true] at hb ⊢
              exact ih hb st

theorem scanUnlockedFiles_dat (now : Int) (itd : List (SmsgFile × ScanOutcome)) (st : SmsgState) :
    (scanUnlockedFiles now itd st).dat = st.dat := by
  induction itd generalizing st with
  | nil => rfl
  | cons entry itd ih =>
      obtain ⟨file, out⟩ := entry
      cases file with
      | dat bucket => exact ih st
      | wl bucket =>
          rw [scanUnlockedFiles]
          split
          · dsimp only
            split
            · rw [ih, removeFile_wl_dat]
            · exact removeFile_wl_dat _ _ _
          · rw [scanFile]
            by_cases hopens : out.fOpens
            · by_cases hresizes : out.fResizes
              · by_cases hremoves : out.fRemoves <;> simp [hopens, hresizes, hremoves, ih, removeFile_wl_dat]
              · simp [hopens, hresizes]
            · simp [hopens, ih]

/-- A scan that leaves the files of the buckets with tokens. -/
theorem Consistent.scanBucketFiles {itd : List (SmsgFile × ScanOutcome)} (h : Consistent st)
    (hleft : ∀ b ∈ removedByScan now itd, (st.bucketAt b).setTokens = ∅) :
    Consistent (scanBucketFiles now itd st) := by
  intro b token offset hget
  rw [bucketAt, scanBucketFiles_smsgBuckets] at hget
  have hget : (st.bucketAt b).setTokens[token]? = some offset := hget
  have hkept : b ∉ removedByScan now itd := by
    intro hb
    rw [hleft b hb] at hget
    cases Std.ExtTreeMap.getElem?_empty.symm.trans hget
  obtain ⟨smsg, hsmsg⟩ := h b token offset hget
  refine ⟨smsg, hsmsg.extend fun file hfile => ⟨[], ?_⟩⟩
  rw [scanBucketFiles_dat hkept, hfile, List.append_nil]

/-! ## Runs -/

/-- Whatever is stored has a payload of eight bytes or more, and a scan removes no file of a bucket with tokens. -/
def KeepsRecords (node : SmsgNode) : SmsgEvent → Prop
  | .store now io smsg _ => StoreSucceeds now io smsg node.st → 8 ≤ smsg.pPayload.length
  | .receive call _ (.smsgMsg vchData) =>
      ∀ nBunch bktTime, BunchTaken call vchData nBunch bktTime → BunchSampled call vchData nBunch.toNat 0 12 node.st
  | .scanBuckets fSecMsgEnabled fLocked now itd =>
      fSecMsgEnabled → !fLocked → ∀ b ∈ removedByScan now itd, (node.st.bucketAt b).setTokens = ∅
  | _ => True

variable {node node' : SmsgNode} {ev : SmsgEvent} {pushed : List (NodeId × SmsgMessage)}

theorem Consistent.receive {pfrom : NodeId} {msg : SmsgMessage} (h : Consistent node.st)
    (hstep : SmsgNode.step (.receive call pfrom msg) node = some (node', pushed))
    (hkeeps : KeepsRecords node (.receive call pfrom msg)) : Consistent node'.st := by
  obtain ⟨smsgData, r, -, hr, rfl, rfl⟩ := step_receive_eq_some hstep
  dsimp only
  rcases secureMsgReceiveData_cases hr with
    ⟨vchData, l, rfl, hl, hst, -⟩ | ⟨vchData, time, vchWant, rfl, -, -, -, hst, -⟩ | ⟨-, htouched, -⟩
  · rw [hst]
    exact h.secureMsgReceive hkeeps hl
  · rw [hst]
    refine h.appends (.of_dat_eq (fun b => ?_) rfl)
    rw [bucketAt_setBucket]
    split
    · next hb => rw [hb]
    · rw [bucketAt_touch]
  · exact h.appends (.of_dat_eq (fun b => by rw [htouched.bucketAt]) htouched.dat)

theorem Consistent.step (h : Consistent node.st) (hstep : SmsgNode.step ev node = some (node', pushed))
    (hkeeps : KeepsRecords node ev) : Consistent node'.st := by
  cases ev with
  | receive call pfrom msg => exact h.receive hstep hkeeps
  | send now pto =>
      simp only [SmsgNode.step, Option.bind_eq_bind, Option.bind_eq_some_iff, Option.some.injEq] at hstep
      obtain ⟨smsgData, -, hstep⟩ := hstep
      obtain ⟨rfl, -⟩ := Prod.mk.inj hstep
      exact h
  | tick now fRemovesDat fRemovesWl =>
      obtain ⟨rfl, -⟩ := Prod.mk.inj (Option.some.inj hstep)
      exact h.expireBuckets
  | store now io smsg fUpdateBucket =>
      obtain ⟨rfl, -⟩ := Prod.mk.inj (Option.some.inj hstep)
      exact h.store fUpdateBucket hkeeps
  | scanBuckets fSecMsgEnabled fLocked now itd =>
      obtain ⟨rfl, -⟩ := Prod.mk.inj (Option.some.inj hstep)
      dsimp only
      rw [secureMsgScanBuckets]
      split
      · exact h
      · next henabled =>
          simp only [Bool.or_eq_true, not_or, Bool.not_eq_true, Bool.not_eq_false'] at henabled
          exact h.scanBucketFiles (hkeeps henabled.1 (by rw [henabled.2]; rfl))
  | walletUnlocked fSecMsgEnabled fLocked now itd =>
      obtain ⟨rfl, -⟩ := Prod.mk.inj (Option.some.inj hstep)
      refine h.appends (.of_dat_eq (fun b => ?_) ?_)
      · rw [bucketAt, secureMsgWalletUnlocked_smsgBuckets]
        rfl
      · dsimp only
        rw [secureMsgWalletUnlocked]
        split
        · rfl
        · exact scanUnlockedFiles_dat now itd node.st
  | connect id =>
      obtain ⟨rfl, -⟩ := Prod.mk.inj (Option.some.inj hstep)
      exact h
  | disconnect id =>
      obtain ⟨rfl, -⟩ := Prod.mk.inj (Option.some.inj hstep)
      exact h

/-- After every run that keeps the records, each token has its message in the file of its bucket, and it is what
`SecureMsgRetrieve` gives back. -/
theorem advertised_after_run (evs : List SmsgEvent) (h : Consistent node.st)
    (hkeeps : Along SmsgNode.step (fun node ev _ _ => KeepsRecords node ev) evs node)
    (hrun : run SmsgNode.step evs node = some node') :
    ∀ b token offset, (node'.st.bucketAt b).setTokens[token]? = some offset →
      ∃ smsg, Advertised node'.st b token offset smsg ∧ secureMsgRetrieve token offset node'.st = some smsg.bytes := by
  intro b token offset hget
  have hconsistent : Consistent node'.st :=
    hkeeps.run_invariant (fun node => Consistent node.st) (fun _ _ _ _ h hstep hkeeps => h.step hstep hkeeps) h hrun
  obtain ⟨smsg, hsmsg⟩ := hconsistent b token offset hget
  exact ⟨smsg, hsmsg, secureMsgRetrieve_of_advertised hsmsg⟩

/-! ## A message that is stored, and a scan -/

def storeEight : SmsgEvent := .store 600100 .ok eightBytes true

theorem advertised_after_storeEight : ∃ node', run SmsgNode.step [storeEight] {} = some node' ∧
    ∀ b token offset, (node'.st.bucketAt b).setTokens[token]? = some offset →
      ∃ smsg, Advertised node'.st b token offset smsg ∧
        secureMsgRetrieve token offset node'.st = some smsg.bytes := by
  refine ⟨_, rfl, advertised_after_run [storeEight] (fun b token offset hget => ?_) ?_ rfl⟩
  · cases Std.ExtTreeMap.getElem?_empty.symm.trans hget
  · intro node' pushed hstep
    exact ⟨fun _ => Nat.le_refl 8, trivial⟩

/-- The wallet is unlocked, and the file of the bucket is read and removed. -/
def scanEight : SmsgEvent := .scanBuckets true false 600200 [(.dat 600000, ⟨true, true, true⟩)]

theorem not_advertised_after_scan : ∃ node', run SmsgNode.step [storeEight, scanEight] {} = some node' ∧
    (node'.st.bucketAt 600000).setTokens[eightBytes.token]? = some 0 ∧
    secureMsgRetrieve eightBytes.token 0 node'.st = none ∧
    ¬ ∃ smsg, Advertised node'.st 600000 eightBytes.token 0 smsg := by
  have hresult : (run SmsgNode.step [storeEight, scanEight] {}).map (fun node' =>
      ((node'.st.bucketAt 600000).setTokens[eightBytes.token]?, secureMsgRetrieve eightBytes.token 0 node'.st)) =
      some (some 0, none) := by decide +kernel
  obtain ⟨node', hrun, hnode⟩ := Option.map_eq_some_iff.1 hresult
  obtain ⟨htoken, hretrieve⟩ := Prod.mk.inj hnode
  refine ⟨node', hrun, htoken, hretrieve, ?_⟩
  rintro ⟨smsg, hsmsg⟩
  rw [secureMsgRetrieve_of_advertised hsmsg] at hretrieve
  cases hretrieve

end ProCurrency
