import Mathlib.Data.Int.Interval
import Mathlib.Tactic.Ring
import ProCurrency.Lib.EventRun
import ProCurrency.Smsg.Lemmas.Changes

/-!
# The map of buckets

The keys of `smsgBuckets` should be multiples of `SMSG_BUCKET_LEN`, and few enough for an inventory. The store rounds
the time of a message down to its bucket, but `smsgInv` and `smsgHave` take the times as the peer has sent them.
-/

namespace ProCurrency

open ByteCodec SmsgState EventRun

/-! ## Counting -/

/-- An interval of `n` times `d` has at most `n` multiples of `d`. -/
theorem length_le_of_multiples {d : Int} (lo : Int) {n : Nat} {l : List Int} (hd : 0 < d) (hnodup : l.Nodup)
    (hl : ∀ b ∈ l, d ∣ b ∧ lo < b ∧ b ≤ lo + n * d) : l.length ≤ n := by
  have hinj : (l.map (· / d)).Nodup := by
    refine List.Nodup.map_on (fun a ha b hb hab => ?_) hnodup
    exact (Int.ediv_left_inj (hl a ha).1 (hl b hb).1).1 hab
  have hsub : (l.map (· / d)).toFinset ⊆ Finset.Ioc (lo / d) (lo / d + n) := by
    intro k hk
    simp only [List.mem_toFinset, List.mem_map] at hk
    obtain ⟨b, hb, rfl⟩ := hk
    obtain ⟨⟨k, rfl⟩, hlo, hhi⟩ := hl b hb
    rw [Finset.mem_Ioc, Int.mul_ediv_cancel_left k (Int.ne_of_gt hd)]
    constructor
    · rw [Int.ediv_lt_iff_lt_mul hd, Int.mul_comm]
      exact hlo
    · rw [← Int.add_mul_ediv_right lo n (Int.ne_of_gt hd), Int.le_ediv_iff_mul_le hd, Int.mul_comm]
      exact hhi
  have hcard := Finset.card_le_card hsub
  rw [List.toFinset_card_of_nodup hinj, List.length_map, Int.card_Ioc] at hcard
  omega

/-! ## Aligned keys -/

def Aligned (st : SmsgState) : Prop := ∀ b ∈ st.smsgBuckets, SMSG_BUCKET_LEN ∣ b

variable {now : Int} {st st' : SmsgState}

theorem dvd_bucketTime (timestamp : Int) : SMSG_BUCKET_LEN ∣ bucketTime timestamp := Int.dvd_self_sub_tmod

theorem aligned_of_grows {fresh : Int → Prop} (h : Aligned st) (hgrows : Grows fresh st st')
    (hfresh : ∀ b, fresh b → SMSG_BUCKET_LEN ∣ b) : Aligned st' :=
  fun b hb => (hgrows.mem b hb).elim (h b) (hfresh b)

theorem dvd_of_messageBucket {b : Int} (h : MessageBucket now b) : SMSG_BUCKET_LEN ∣ b := by
  obtain ⟨timestamp, -, rfl⟩ := h
  exact dvd_bucketTime timestamp

theorem size_smsgBuckets_le (lo : Int) {n : Nat} (h : Aligned st)
    (hrange : ∀ b ∈ st.smsgBuckets, lo < b ∧ b ≤ lo + n * SMSG_BUCKET_LEN) : st.smsgBuckets.size ≤ n := by
  have hnodup : st.smsgBuckets.keys.Nodup := Std.ExtTreeMap.distinct_keys.imp fun hne => by simpa using hne
  rw [← Std.ExtTreeMap.length_keys]
  refine length_le_of_multiples lo (by decide : 0 < SMSG_BUCKET_LEN) hnodup fun b hb => ?_
  have hb := Std.ExtTreeMap.mem_keys.1 hb
  exact ⟨h b hb, hrange b hb⟩

theorem mem_expireBuckets {fRemovesDat fRemovesWl : Int → Bool} {b : Int}
    (h : b ∈ (expireBuckets now fRemovesDat fRemovesWl st).smsgBuckets) :
    b ∈ st.smsgBuckets ∧ now - SMSG_RETENTION ≤ b := by
  have hget : (expireBuckets now fRemovesDat fRemovesWl st).smsgBuckets[b]? =
      st.smsgBuckets[b]?.bind (tickBucket now b) := Std.ExtTreeMap.getElem?_filterMap'
  rw [Std.ExtTreeMap.mem_iff_isSome_getElem?, hget] at h
  rw [Std.ExtTreeMap.mem_iff_isSome_getElem?]
  cases hbkt : st.smsgBuckets[b]? with
  | none => rw [hbkt] at h; cases h
  | some bkt =>
      refine ⟨rfl, Int.not_lt.1 fun hold => ?_⟩
      rw [hbkt, Option.bind_some, tickBucket, if_pos hold] at h
      cases h

/-! ## The rules for the map -/

/-- An honest peer takes the number of headers that an inventory has. -/
def InvAccepted (msg : SmsgMessage) : Prop :=
  ∀ vchData, msg = .smsgInv vchData →
    ∃ nInvBuckets, readU32At vchData 0 = some nInvBuckets ∧
      ¬ (nInvBuckets.toNat : Int) > SMSG_RETENTION / SMSG_BUCKET_LEN + 1

structure BucketMapRules (ev : SmsgEvent) (node' : SmsgNode) (pushed : List (NodeId × SmsgMessage)) : Prop where
  aligned : Aligned node'.st
  bounded : ∀ now fRemovesDat fRemovesWl, ev = .tick now fRemovesDat fRemovesWl →
    (node'.st.smsgBuckets.size : Int) ≤ SMSG_RETENTION / SMSG_BUCKET_LEN + 2
  accepted : ∀ m ∈ pushed, InvAccepted m.2

/-- A peer names only times of buckets. At a pass of the thread no bucket lies in the future, and when an inventory is
sent there is none either that should have been removed nine minutes ago. -/
def TimesInOrder (node : SmsgNode) : SmsgEvent → Prop
  | .receive call pfrom msg =>
      ∀ smsgData, node.vNodes[pfrom]? = some smsgData → ∀ b, Names call.now smsgData msg b → SMSG_BUCKET_LEN ∣ b
  | .tick now _ _ => ∀ b ∈ node.st.smsgBuckets, b ≤ now + SMSG_TIME_LEEWAY
  | .send now _ =>
      ∀ b ∈ node.st.smsgBuckets, now - SMSG_RETENTION - 9 * 60 < b ∧ b ≤ now + SMSG_TIME_LEEWAY
  | _ => True

variable {node node' : SmsgNode} {ev : SmsgEvent} {pushed : List (NodeId × SmsgMessage)}

theorem invAccepted_invMessage {shown : List (Int × SecMsgBucket)} (h : shown.length ≤ 289) :
    InvAccepted (invMessage shown) := by
  rintro vchData ⟨⟩
  refine ⟨UInt32.ofNat shown.length, ?_, ?_⟩
  · have hbytes : (u32Bytes (UInt32.ofNat shown.length)).length = 4 := length_leBytes _ _
    have hof : ofLeBytes (u32Bytes (UInt32.ofNat shown.length)) = (UInt32.ofNat shown.length).toNat :=
      ofLeBytes_leBytes (UInt32.toNat_lt _)
    simp only [readU32At, readAt, List.length_append, hbytes, List.drop_zero]
    rw [if_pos (by omega), List.take_append_of_le_length (by omega), List.take_of_length_le (by omega), Option.map_some,
      hof, UInt32.ofNat_toNat]
  · have hle : (UInt32.ofNat shown.length).toNat ≤ 289 := by
      rw [UInt32.toNat_ofNat']
      exact (Nat.mod_le _ _).trans h
    exact Int.not_lt.2 (Int.ofNat_le.2 hle)

theorem send_accepted {pto : NodeId} {smsgData : SecMsgNode} (h : Aligned node.st)
    (htimes : TimesInOrder node (.send now pto)) {msg : SmsgMessage}
    (hmsg : msg ∈ (secureMsgSendData now smsgData node.st).2) : InvAccepted msg := by
  have hsize : node.st.smsgBuckets.size ≤ 289 := by
    refine size_smsgBuckets_le (now - SMSG_RETENTION - 9 * 60) h fun b hb => ?_
    refine ⟨(htimes b hb).1, (htimes b hb).2.trans (Int.le_of_eq ?_)⟩
    simp only [SMSG_RETENTION, SMSG_TIME_LEEWAY, SMSG_BUCKET_LEN]
    omega
  have hshown : (shownBuckets smsgData.lastMatched node.st).length ≤ 289 :=
    (List.length_filter_le _ _).trans (Std.ExtTreeMap.length_toList.trans_le hsize)
  rw [secureMsgSendData] at hmsg
  split at hmsg
  · rw [List.mem_singleton.1 hmsg]
    rintro _ ⟨⟩
  · split at hmsg
    · cases hmsg
    · dsimp only at hmsg
      split at hmsg
      · rw [List.mem_singleton.1 hmsg]
        exact invAccepted_invMessage hshown
      · cases hmsg

theorem receive_rules {call : SmsgCall} {pfrom : NodeId} {msg : SmsgMessage} (h : Aligned node.st)
    (hstep : SmsgNode.step (.receive call pfrom msg) node = some (node', pushed))
    (htimes : TimesInOrder node (.receive call pfrom msg)) :
    BucketMapRules (.receive call pfrom msg) node' pushed := by
  obtain ⟨smsgData, r, hpeer, hr, rfl, rfl⟩ := step_receive_eq_some hstep
  refine ⟨?_, fun now f f' hev => (by cases hev), fun m hm => ?_⟩
  · rcases secureMsgReceiveData_cases hr with
      ⟨vchData, l, -, hl, hst, -⟩ | ⟨vchData, time, vchWant, rfl, htime, hin, -, hst, -⟩ | ⟨-, htouched, -⟩
    · dsimp only
      rw [hst]
      exact fun b hb => (secureMsgReceive_mem hl hb).elim (h b) dvd_of_messageBucket
    · dsimp only
      rw [hst]
      intro b hb
      have hdvd := htimes smsgData hpeer time ⟨htime, hin⟩
      simp only [touch, mem_setBucket] at hb
      rcases hb with rfl | rfl | hb
      · exact hdvd
      · exact hdvd
      · exact h b hb
    · exact aligned_of_grows h htouched.grows (htimes smsgData hpeer)
  · obtain ⟨reply, hmem, rfl⟩ := List.mem_map.1 hm
    rintro vchInv rfl
    rcases secureMsgReceiveData_cases hr with
      ⟨_, _, -, -, -, hpushed⟩ | ⟨_, _, _, -, -, -, -, -, hpushed⟩ | ⟨-, -, hreply⟩
    · rw [hpushed] at hmem
      cases hmem
    · rw [hpushed] at hmem
      cases List.mem_singleton.1 hmem
    · exact absurd (hreply _ hmem) (by simp [SmsgMessage.isReply])

theorem tick_rules {now : Int} {fRemovesDat fRemovesWl : Int → Bool} (h : Aligned node.st)
    (htimes : TimesInOrder node (.tick now fRemovesDat fRemovesWl)) :
    BucketMapRules (.tick now fRemovesDat fRemovesWl) (threadSecureMsg now fRemovesDat fRemovesWl node).1
      (threadSecureMsg now fRemovesDat fRemovesWl node).2 := by
  have haligned : Aligned (expireBuckets now fRemovesDat fRemovesWl node.st) :=
    fun b hb => h b (mem_expireBuckets hb).1
  refine ⟨haligned, fun _ _ _ _ => ?_, fun m hm => ?_⟩
  · have hsize : (expireBuckets now fRemovesDat fRemovesWl node.st).smsgBuckets.size ≤ 290 := by
      refine size_smsgBuckets_le (now - SMSG_RETENTION - 1) haligned fun b hb => ?_
      obtain ⟨hmem, hnew⟩ := mem_expireBuckets hb
      have hold := htimes b hmem
      simp only [SMSG_RETENTION, SMSG_TIME_LEEWAY, SMSG_BUCKET_LEN] at hnew hold ⊢
      omega
    exact Int.ofNat_le.2 hsize
  · obtain ⟨lock, -, hlock⟩ := List.mem_filterMap.1 hm
    rw [ignoreMessage] at hlock
    split at hlock
    · cases hlock
      rintro _ ⟨⟩
    · cases hlock

theorem step_rules (h : Aligned node.st) (hstep : SmsgNode.step ev node = some (node', pushed))
    (htimes : TimesInOrder node ev) : BucketMapRules ev node' pushed := by
  cases ev with
  | receive call pfrom msg => exact receive_rules h hstep htimes
  | tick now fRemovesDat fRemovesWl =>
      obtain ⟨rfl, rfl⟩ := Prod.mk.inj (Option.some.inj hstep)
      exact tick_rules h htimes
  | send now pto =>
      simp only [SmsgNode.step, Option.bind_eq_bind, Option.bind_eq_some_iff, Option.some.injEq] at hstep
      obtain ⟨smsgData, -, hstep⟩ := hstep
      obtain ⟨rfl, rfl⟩ := Prod.mk.inj hstep
      refine ⟨h, fun _ _ _ hev => (by cases hev), fun m hm => ?_⟩
      obtain ⟨msg, hmsg, rfl⟩ := List.mem_map.1 hm
      exact send_accepted h htimes hmsg
  | store now io smsg fUpdateBucket =>
      obtain ⟨rfl, rfl⟩ := Prod.mk.inj (Option.some.inj hstep)
      have hgrows := secureMsgStore_grows now io smsg.header smsg.pPayload fUpdateBucket node.st
      exact ⟨aligned_of_grows h hgrows fun _ => dvd_of_messageBucket, by simp, by simp⟩
  | scanBuckets fSecMsgEnabled fLocked now itd =>
      obtain ⟨rfl, rfl⟩ := Prod.mk.inj (Option.some.inj hstep)
      refine ⟨?_, by simp, by simp⟩
      rw [Aligned, secureMsgScanBuckets_smsgBuckets]
      exact h
  | walletUnlocked fSecMsgEnabled fLocked now itd =>
      obtain ⟨rfl, rfl⟩ := Prod.mk.inj (Option.some.inj hstep)
      refine ⟨?_, by simp, by simp⟩
      rw [Aligned, secureMsgWalletUnlocked_smsgBuckets]
      exact h
  | connect id =>
      obtain ⟨rfl, rfl⟩ := Prod.mk.inj (Option.some.inj hstep)
      exact ⟨h, by simp, by simp⟩
  | disconnect id =>
      obtain ⟨rfl, rfl⟩ := Prod.mk.inj (Option.some.inj hstep)
      exact ⟨h, by simp, by simp⟩

/-- In every run in which the times are in order, the map keeps to its rules. -/
theorem bucketMapRules_along (evs : List SmsgEvent) (node : SmsgNode) (h : Aligned node.st)
    (htimes : Along SmsgNode.step (fun node ev _ _ => TimesInOrder node ev) evs node) :
    Along SmsgNode.step (fun _ ev node' pushed => BucketMapRules ev node' pushed) evs node := by
  refine htimes.of_invariant (fun node => Aligned node.st) (fun node ev node' pushed h hstep htimes => ?_) h
  have hrules := step_rules h hstep htimes
  exact ⟨hrules.aligned, hrules⟩

/-! ## A time that is no bucket's -/

/-- A peer offers the messages of a bucket that starts at 600001. -/
def misalignedHave : SmsgEvent := .receive (SmsgCall.refusing 600100) 1 (.smsgHave (i64Bytes 600001))

theorem not_bucketMapRules_misaligned : ¬ Along SmsgNode.step
    (fun _ ev node' pushed => BucketMapRules ev node' pushed) [.connect 1, misalignedHave] {} := by
  intro h
  have hmem : ((run SmsgNode.step [.connect 1] {}).bind (SmsgNode.step misalignedHave)).map
      (fun next => decide (600001 ∈ next.1.st.smsgBuckets)) = some true := by decide +kernel
  simp only [Option.map_eq_some_iff, Option.bind_eq_some_iff, decide_eq_true_eq] at hmem
  obtain ⟨⟨node', pushed⟩, ⟨node, hnode, hstep⟩, hmem⟩ := hmem
  have hlast : Along SmsgNode.step (fun _ ev node' pushed => BucketMapRules ev node' pushed)
      ([.connect 1] ++ [misalignedHave]) {} := h
  have hrules := (along_append hlast hnode node' pushed hstep).1
  exact absurd (hrules.aligned 600001 hmem) (by decide)

/-! ## A run in order -/

/-- A peer offers the messages of the bucket 600000, and the thread passes. -/
def alignedHave : SmsgEvent := .receive (SmsgCall.refusing 600100) 1 (.smsgHave (i64Bytes 600000))

def alignedEvents : List SmsgEvent := [.connect 1, alignedHave, .tick 600120 (fun _ => true) (fun _ => true)]

theorem bucketMapRules_along_aligned :
    Along SmsgNode.step (fun _ ev node' pushed => BucketMapRules ev node' pushed) alignedEvents {} := by
  refine bucketMapRules_along alignedEvents {} (fun b hb => absurd hb Std.ExtTreeMap.not_mem_empty) ?_
  rintro node pushed ⟨⟩
  refine ⟨trivial, fun node' pushed' hstep => ⟨?_, fun _ _ _ => ⟨fun b hb => ?_, trivial⟩⟩⟩
  · rintro smsgData - b ⟨htime, -⟩
    have hread : haveTime (i64Bytes 600000) = some 600000 := by decide +kernel
    obtain rfl := Option.some.inj (hread.symm.trans htime)
    decide
  · have hkeys : (SmsgNode.step alignedHave { vNodes := (∅ : Std.ExtTreeMap NodeId SecMsgNode).insert 1 {} }).map
        (fun next => next.1.st.smsgBuckets.keys) = some [600000] := by decide +kernel
    rw [hstep, Option.map_some, Option.some.injEq] at hkeys
    have hb := Std.ExtTreeMap.mem_keys.2 hb
    rw [hkeys, List.mem_singleton] at hb
    rw [hb]
    decide

end ProCurrency
