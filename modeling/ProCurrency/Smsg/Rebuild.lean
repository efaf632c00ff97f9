import ProCurrency.Smsg.Lemmas.Bunch

/-!
# Rebuilding the buckets

`SecureMsgBuildBucketSet` reads the files back that `SecureMsgStore` has written. It does not step over a payload of
less than eight bytes, and it gives no token to such a message.
-/

namespace ProCurrency

open ByteCodec SmsgState

abbrev TokenSet := Std.ExtTreeMap SecMsgToken Nat

/-- The tokens of the messages of a file, the first of which is at `ofs`. -/
def recordTokens : List SecureMessage → Nat → TokenSet → TokenSet
  | [], _, tokenSet => tokenSet
  | smsg :: msgs, ofs, tokenSet => recordTokens msgs (ofs + smsg.bytes.length) (tokenSet.insert smsg.token ofs)

def recordBytes (msgs : List SecureMessage) : Bytes := msgs.flatMap SecureMessage.bytes

variable {msgs : List SecureMessage} {smsg : SecureMessage} {ofs : Nat} {tokenSet : TokenSet}

theorem recordTokens_append_singleton (msgs : List SecureMessage) (smsg : SecureMessage) (ofs : Nat)
    (tokenSet : TokenSet) :
    recordTokens (msgs ++ [smsg]) ofs tokenSet =
      (recordTokens msgs ofs tokenSet).insert smsg.token (ofs + (recordBytes msgs).length) := by
  induction msgs generalizing ofs tokenSet with
  | nil => rfl
  | cons first msgs ih =>
      simp only [List.cons_append, recordTokens, recordBytes, List.flatMap_cons, List.length_append] at ih ⊢
      rw [ih, Nat.add_assoc]

theorem mem_recordTokens (msgs : List SecureMessage) (ofs : Nat) (tokenSet : TokenSet) (token : SecMsgToken) :
    token ∈ recordTokens msgs ofs tokenSet ↔ token ∈ msgs.map SecureMessage.token ∨ token ∈ tokenSet := by
  induction msgs generalizing ofs tokenSet with
  | nil => simp [recordTokens]
  | cons first msgs ih =>
      rw [recordTokens, ih, Std.ExtTreeMap.mem_insert, Std.compare_eq_iff_eq, List.map_cons, List.mem_cons]
      constructor
      · rintro (h | rfl | h)
        · exact .inl (.inr h)
        · exact .inl (.inl rfl)
        · exact .inr h
      · rintro ((rfl | h) | h)
        · exact .inr (.inl rfl)
        · exact .inl h
        · exact .inr (.inr h)

theorem getElem?_recordTokens_of_not_mem {token : SecMsgToken} (h : token ∉ msgs.map SecureMessage.token) :
    (recordTokens msgs ofs tokenSet)[token]? = tokenSet[token]? := by
  induction msgs generalizing ofs tokenSet with
  | nil => rfl
  | cons first msgs ih =>
      rw [List.map_cons, List.mem_cons, not_or] at h
      rw [recordTokens, ih h.2, Std.ExtTreeMap.getElem?_insert, if_neg]
      rw [Std.compare_eq_iff_eq]
      exact Ne.symm h.1

/-- Each message is found at the offset of its token. -/
theorem exists_offset (hnodup : (msgs.map SecureMessage.token).Nodup) (hmem : smsg ∈ msgs) (ofs : Nat)
    (tokenSet : TokenSet) :
    ∃ offset, (recordTokens msgs ofs tokenSet)[smsg.token]? = some (ofs + offset) ∧
      smsg.bytes <+: (recordBytes msgs).drop offset := by
  induction msgs generalizing ofs tokenSet with
  | nil => cases hmem
  | cons first msgs ih =>
      rw [List.map_cons, List.nodup_cons] at hnodup
      rcases List.mem_cons.1 hmem with rfl | hmem
      · refine ⟨0, ?_, List.prefix_append _ _⟩
        rw [recordTokens, getElem?_recordTokens_of_not_mem hnodup.1, Std.ExtTreeMap.getElem?_insert_self, Nat.add_zero]
      · obtain ⟨offset, hget, hprefix⟩ := ih hnodup.2 hmem (ofs + first.bytes.length) (tokenSet.insert first.token ofs)
        refine ⟨first.bytes.length + offset, ?_, ?_⟩
        · rw [recordTokens, hget, Nat.add_assoc]
        · rw [recordBytes, List.flatMap_cons, List.drop_append, List.drop_eq_nil_of_le (by omega), List.nil_append]
          rw [Nat.add_sub_cancel_left]
          exact hprefix

/-! ## Reading -/

theorem insertIfNew_eq_insert {token : SecMsgToken} (h : token ∉ tokenSet) :
    tokenSet.insertIfNew token ofs = tokenSet.insert token ofs := by
  refine Std.ExtTreeMap.ext_getElem? fun k => ?_
  rw [Std.ExtTreeMap.getElem?_insertIfNew, Std.ExtTreeMap.getElem?_insert]
  simp only [h, not_false_eq_true, and_true]

/-- Messages with payloads of eight bytes or more are read back with the tokens that they were stored with. -/
theorem readTokens_recordBytes {rounds : Nat} (hrounds : msgs.length ≤ rounds)
    (hlong : ∀ smsg ∈ msgs, 8 ≤ smsg.pPayload.length) (hnodup : (msgs.map SecureMessage.token).Nodup)
    (hnew : ∀ smsg ∈ msgs, smsg.token ∉ tokenSet) :
    readTokens rounds ofs (recordBytes msgs) tokenSet = recordTokens msgs ofs tokenSet := by
  induction msgs generalizing rounds ofs tokenSet with
  | nil => cases rounds <;> rfl
  | cons smsg msgs ih =>
      rw [List.length_cons] at hrounds
      obtain ⟨rounds, rfl⟩ : ∃ rounds', rounds = rounds' + 1 := ⟨rounds - 1, by omega⟩
      rw [List.map_cons, List.nodup_cons] at hnodup
      have hpayload := hlong smsg List.mem_cons_self
      have hsample : readBytes 8 (smsg.pPayload ++ recordBytes msgs) =
          some (smsg.token.sample, smsg.pPayload.drop 8 ++ recordBytes msgs) := by
        have hlen : ¬ (smsg.pPayload ++ recordBytes msgs).length < 8 := by rw [List.length_append]; omega
        rw [readBytes, if_neg hlen, List.take_append_of_le_length hpayload, List.drop_append_of_le_length hpayload,
          smsg.token_sample hpayload]
      have hrest : (smsg.pPayload ++ recordBytes msgs).drop smsg.header.nPayload = recordBytes msgs := by
        rw [← smsg.size, List.drop_left]
      rw [recordBytes, List.flatMap_cons, SecureMessage.bytes, List.append_assoc, ← recordBytes, readTokens,
        readHeader_append]
      dsimp only
      rw [← smsg.size, if_neg (Nat.not_lt.2 hpayload), smsg.size, hsample]
      dsimp only
      have htoken : (⟨smsg.header.timestamp, smsg.token.sample⟩ : SecMsgToken) = smsg.token :=
        SecMsgToken.ext smsg.token_timestamp.symm rfl
      rw [hrest, htoken, recordTokens, smsg.length_bytes, ← Nat.add_assoc,
        insertIfNew_eq_insert (hnew smsg List.mem_cons_self)]
      refine ih (Nat.le_of_succ_le_succ hrounds) (fun smsg' hmem => hlong smsg' (List.mem_cons_of_mem _ hmem)) hnodup.2
        fun smsg' hmem hin => ?_
      rcases Std.ExtTreeMap.mem_insert.1 hin with heq | hin
      · rw [Std.compare_eq_iff_eq] at heq
        exact hnodup.1 (heq ▸ List.mem_map_of_mem hmem)
      · exact hnew smsg' (List.mem_cons_of_mem _ hmem) hin

/-- At the offset of a token that is read there is a header with eight bytes of payload or more. -/
theorem header_of_readTokens {file : Bytes} {rounds offset : Nat} {token : SecMsgToken}
    (h : (readTokens rounds ofs (file.drop ofs) tokenSet)[token]? = some offset) :
    tokenSet[token]? = some offset ∨
      ∃ pHeader s, readHeader (file.drop offset) = some (pHeader, s) ∧ 8 ≤ pHeader.nPayload := by
  induction rounds generalizing ofs tokenSet with
  | zero => exact .inl h
  | succ rounds ih =>
      rw [readTokens] at h
      cases hheader : readHeader (file.drop ofs) with
      | none =>
          rw [hheader] at h
          exact .inl h
      | some next =>
          obtain ⟨pHeader, s⟩ := next
          have hs : s = file.drop (ofs + SMSG_HDR_LEN) := by
            rw [readHeader] at hheader
            split at hheader
            · cases hheader
            · cases hheader
              rw [List.drop_drop]
          rw [hheader] at h
          dsimp only at h
          split at h
          · rw [hs] at h
            exact ih h
          · next hlong =>
              have hlong := Nat.not_lt.1 hlong
              split at h
              · exact .inl h
              · rw [hs, List.drop_drop] at h
                rcases ih h with hinsert | hfound
                · rw [Std.ExtTreeMap.getElem?_insertIfNew] at hinsert
                  split at hinsert
                  · obtain rfl := Option.some.inj hinsert
                    exact .inr ⟨pHeader, s, hheader, hlong⟩
                  · exact .inl hinsert
                · exact .inr hfound

/-! ## Storing -/

structure StoreCall where
  now : Int
  smsg : SecureMessage
  fUpdateBucket : Bool

/-- StoreSucceeds that all succeed. -/
def storeAll : List StoreCall → SmsgState → Option SmsgState
  | [], st => some st
  | c :: calls, st =>
      let stored := secureMsgStore c.now .ok c.smsg.header c.smsg.pPayload c.fUpdateBucket st
      if stored.1 = 0 then storeAll calls stored.2 else none

/-- The messages of a bucket, in the order in which they were stored. -/
def inBucket (b : Int) (msgs : List SecureMessage) : List SecureMessage :=
  msgs.filter fun smsg => bucketTime smsg.header.timestamp = b

/-- The store has these messages and no others. -/
structure Written (msgs : List SecureMessage) (st : SmsgState) : Prop where
  dat : ∀ b : Int, st.dat[b]? = if inBucket b msgs = [] then none else some (recordBytes (inBucket b msgs))
  mem : ∀ b, b ∈ st.smsgBuckets ↔ inBucket b msgs ≠ []
  setTokens : ∀ b, (st.bucketAt b).setTokens = recordTokens (inBucket b msgs) 0 ∅
  nodup : ∀ b, ((inBucket b msgs).map SecureMessage.token).Nodup

theorem Written.empty : Written [] {} where
  dat b := Std.ExtTreeMap.getElem?_empty
  mem b := by simp [inBucket]
  setTokens b := rfl
  nodup b := List.nodup_nil

variable {st st' : SmsgState} {now : Int} {fUpdateBucket : Bool}

theorem inBucket_append_self (msgs : List SecureMessage) (smsg : SecureMessage) :
    inBucket (bucketTime smsg.header.timestamp) (msgs ++ [smsg]) =
      inBucket (bucketTime smsg.header.timestamp) msgs ++ [smsg] := by
  simp [inBucket]

theorem inBucket_append_of_ne {b : Int} (h : bucketTime smsg.header.timestamp ≠ b) (msgs : List SecureMessage) :
    inBucket b (msgs ++ [smsg]) = inBucket b msgs := by
  simp [inBucket, h]

theorem Written.fileAt (h : Written msgs st) (b : Int) : st.fileAt b = recordBytes (inBucket b msgs) := by
  rw [SmsgState.fileAt, h.dat]
  split
  · next hnil =>
      rw [hnil]
      rfl
  · rfl

theorem Written.store (h : Written msgs st)
    (hnew : smsg.token ∉ (st.bucketAt (bucketTime smsg.header.timestamp)).setTokens)
    (hstored : StoredIn now smsg fUpdateBucket st st') : Written (msgs ++ [smsg]) st' where
  dat b := by
    rw [hstored.dat]
    split
    · next hb =>
        subst hb
        rw [inBucket_append_self, if_neg (by simp), h.fileAt, recordBytes, recordBytes, List.flatMap_append,
          List.flatMap_singleton]
    · next hb => rw [inBucket_append_of_ne hb, h.dat]
  mem b := by
    rw [hstored.mem, h.mem]
    by_cases hb : bucketTime smsg.header.timestamp = b
    · subst hb
      simp [inBucket_append_self]
    · simp [hb, inBucket_append_of_ne hb]
  setTokens b := by
    rw [hstored.bucketAt]
    split
    · next hb =>
        subst hb
        rw [storedBucket_setTokens, h.setTokens, h.fileAt, inBucket_append_self, recordTokens_append_singleton,
          Nat.zero_add]
    · next hb => rw [inBucket_append_of_ne hb, h.setTokens]
  nodup b := by
    by_cases hb : bucketTime smsg.header.timestamp = b
    · subst hb
      rw [h.setTokens, mem_recordTokens, not_or] at hnew
      rw [inBucket_append_self, List.map_append, List.map_singleton, List.nodup_append]
      refine ⟨h.nodup _, by simp, ?_⟩
      rintro token hmem _ hlast rfl
      rw [List.mem_singleton.1 hlast] at hmem
      exact hnew.1 hmem
    · rw [inBucket_append_of_ne hb]
      exact h.nodup b

theorem written_of_storeAll {calls : List StoreCall} (h : Written msgs st) (hall : storeAll calls st = some st') :
    Written (msgs ++ calls.map StoreCall.smsg) st' := by
  induction calls generalizing msgs st with
  | nil =>
      simp only [storeAll, Option.some.injEq] at hall
      rw [List.map_nil, List.append_nil, ← hall]
      exact h
  | cons c calls ih =>
      rw [storeAll] at hall
      split at hall
      · next hok =>
          have hstores := (secureMsgStore_eq_zero_iff c.fUpdateBucket).1 hok
          have hrest := ih (h.store hstores.new (secureMsgStore_of_stores hstores).2) hall
          rw [List.append_assoc, List.singleton_append] at hrest
          exact hrest
      · cases hall

/-! ## What a rebuild gives -/

/-- What a bucket should have again after a rebuild: its tokens with their offsets, and its hash. -/
def SecMsgBucket.content (bkt : SecMsgBucket) : TokenSet × UInt32 := (bkt.setTokens, bkt.hash)

/-- Every bucket that has not expired comes back. -/
def Rebuilds (now : Int) (fRemoves : Int → Bool) (st : SmsgState) : Prop :=
  ∀ b : Int, now - SMSG_RETENTION ≤ b →
    (secureMsgBuildBucketSet now fRemoves st).smsgBuckets[b]?.map SecMsgBucket.content =
      st.smsgBuckets[b]?.map SecMsgBucket.content

variable {fRemoves : Int → Bool}

theorem getElem?_secureMsgBuildBucketSet {b : Int} (hb : now - SMSG_RETENTION ≤ b) :
    (secureMsgBuildBucketSet now fRemoves st).smsgBuckets[b]? = st.dat[b]?.map (readBucket now) := by
  have hget : (secureMsgBuildBucketSet now fRemoves st).smsgBuckets[b]? = st.dat[b]?.bind fun file =>
      if b < now - SMSG_RETENTION then none else some (readBucket now file) := Std.ExtTreeMap.getElem?_filterMap'
  rw [hget]
  simp only [if_neg (Int.not_lt.2 hb)]
  cases st.dat[b]? with
  | none => rfl
  | some file => rfl

theorem length_le_recordBytes (msgs : List SecureMessage) : msgs.length ≤ (recordBytes msgs).length := by
  induction msgs with
  | nil => exact Nat.le_refl 0
  | cons smsg msgs ih =>
      have hhdr : SMSG_HDR_LEN = 104 := rfl
      rw [recordBytes, List.flatMap_cons, List.length_append, List.length_cons, smsg.length_bytes]
      rw [recordBytes] at ih
      omega

theorem Written.getElem?_smsgBuckets (h : Written msgs st) (b : Int) :
    st.smsgBuckets[b]? = if inBucket b msgs = [] then none else some (st.bucketAt b) := by
  split
  · next hnil => exact Std.ExtTreeMap.getElem?_eq_none fun hmem => (h.mem b).1 hmem hnil
  · next hsome =>
      obtain ⟨bkt, hbkt⟩ := Option.isSome_iff_exists.1 (Std.ExtTreeMap.mem_iff_isSome_getElem?.1 ((h.mem b).2 hsome))
      rw [bucketAt_of_getElem? hbkt, hbkt]

/-- The messages of the bucket have eight bytes of payload or more, exactly if its tokens are read back. -/
theorem Written.readTokens_iff (h : Written msgs st) (b : Int) :
    readTokens (recordBytes (inBucket b msgs)).length 0 (recordBytes (inBucket b msgs)) ∅ = (st.bucketAt b).setTokens ↔
      ∀ smsg ∈ inBucket b msgs, 8 ≤ smsg.pPayload.length := by
  rw [h.setTokens]
  constructor
  · intro hsame smsg hmem
    obtain ⟨offset, hget, s, hs⟩ := exists_offset (h.nodup b) hmem 0 ∅
    rw [← hsame, Nat.zero_add] at hget
    have hread : (readTokens (recordBytes (inBucket b msgs)).length 0 ((recordBytes (inBucket b msgs)).drop 0)
        ∅)[smsg.token]? = some offset := hget
    rcases header_of_readTokens hread with hnone | ⟨pHeader, s', hheader, hlong⟩
    · cases Std.ExtTreeMap.getElem?_empty.symm.trans hnone
    · rw [← hs, SecureMessage.bytes, List.append_assoc, readHeader_append] at hheader
      obtain ⟨rfl, -⟩ := Prod.mk.inj (Option.some.inj hheader)
      rw [smsg.size]
      exact hlong
  · intro hlong
    exact readTokens_recordBytes (length_le_recordBytes _) hlong (h.nodup b) fun _ _ => Std.ExtTreeMap.not_mem_empty

/-- The buckets come back exactly if no payload of theirs is short, and their hashes are those of their tokens. -/
theorem Written.rebuilds_iff (h : Written msgs st) :
    Rebuilds now fRemoves st ↔
      ∀ b, now - SMSG_RETENTION ≤ b → (∀ smsg ∈ inBucket b msgs, 8 ≤ smsg.pPayload.length) ∧
        ∀ bkt, st.smsgBuckets[b]? = some bkt → bkt.hash = SecMsgBucket.hashTokens bkt.setTokens := by
  refine forall_congr' fun b => forall_congr' fun hb => ?_
  rw [getElem?_secureMsgBuildBucketSet hb, h.dat, h.getElem?_smsgBuckets]
  by_cases hnil : inBucket b msgs = []
  · simp [hnil]
  · simp only [if_neg hnil, Option.map_some, Option.some.injEq, SecMsgBucket.content, readBucket,
      SecMsgBucket.hashBucket_setTokens, SecMsgBucket.hashBucket_hash, Prod.mk.injEq, forall_eq', h.readTokens_iff b]
    refine and_congr_right fun hlong => ?_
    rw [(h.readTokens_iff b).2 hlong]
    exact eq_comm

/-- The files of successful stores give every bucket back that has not expired, exactly if its messages have payloads
of eight bytes or more, and it has been hashed with all of them. -/
theorem rebuilds_storeAll_iff (calls : List StoreCall) (now : Int) (fRemoves : Int → Bool) (st : SmsgState)
    (hall : storeAll calls {} = some st) :
    Rebuilds now fRemoves st ↔
      ∀ b, now - SMSG_RETENTION ≤ b →
        (∀ c ∈ calls, bucketTime c.smsg.header.timestamp = b → 8 ≤ c.smsg.pPayload.length) ∧
        ∀ bkt, st.smsgBuckets[b]? = some bkt → bkt.hash = SecMsgBucket.hashTokens bkt.setTokens := by
  have hwritten := written_of_storeAll Written.empty hall
  rw [List.nil_append] at hwritten
  rw [hwritten.rebuilds_iff]
  simp [inBucket]

theorem rebuilds_storeAll_iff_eightBytes : ∃ st, storeAll [⟨600100, eightBytes, true⟩] {} = some st ∧
    (Rebuilds 600200 (fun _ => true) st ↔
      ∀ b, 600200 - SMSG_RETENTION ≤ b →
        (∀ c ∈ [(⟨600100, eightBytes, true⟩ : StoreCall)], bucketTime c.smsg.header.timestamp = b →
          8 ≤ c.smsg.pPayload.length) ∧
        ∀ bkt, st.smsgBuckets[b]? = some bkt → bkt.hash = SecMsgBucket.hashTokens bkt.setTokens) := by
  have hsome : (storeAll [⟨600100, eightBytes, true⟩] {}).isSome := by decide +kernel
  obtain ⟨st, hst⟩ := Option.isSome_iff_exists.1 hsome
  exact ⟨st, hst, rebuilds_storeAll_iff _ 600200 (fun _ => true) st hst⟩

/-! ## A message without a payload -/

/-- Its nonce is 89800, which meets the target. -/
def emptyMessage : SecureMessage where
  header :=
    { bytes :=
        [101, 15, 65, 145, 1, 0, 0] ++ i64Bytes 600010 ++ List.replicate 81 0 ++ leBytes 4 89800 ++ leBytes 4 0
      size := by decide }
  pPayload := []
  size := by decide +kernel

/-- HMAC-SHA256, at this message. -/
def emptyMessageHmac : HmacSha256 := fun _ _ =>
  some [101, 15, 65, 145, 67, 225, 150, 74, 130, 198, 209, 224, 237, 201, 129, 97, 242, 3, 129, 107, 136, 2, 18, 84, 50,
    150, 44, 251, 44, 6, 0, 0]

theorem not_rebuilds_empty :
    secureMsgValidate emptyMessageHmac emptyMessage.header emptyMessage.header.nPayload (some emptyMessage.pPayload) =
        some 0 ∧
      ∃ st, storeAll [⟨600100, emptyMessage, true⟩] {} = some st ∧ ¬ Rebuilds 600200 (fun _ => true) st := by
  have hsome : (storeAll [⟨600100, emptyMessage, true⟩] {}).isSome := by decide +kernel
  obtain ⟨st, hst⟩ := Option.isSome_iff_exists.1 hsome
  refine ⟨by decide +kernel, st, hst, fun hrebuilds => ?_⟩
  have hbucket : bucketTime emptyMessage.header.timestamp = 600000 := by decide +kernel
  have hlong := ((written_of_storeAll Written.empty hst).rebuilds_iff.1 hrebuilds 600000 (by decide)).1 emptyMessage
  exact absurd (hlong (by simp [inBucket, hbucket])) (by decide)

end ProCurrency
