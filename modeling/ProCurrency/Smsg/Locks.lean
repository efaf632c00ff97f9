import ProCurrency.Lib.EventRun
import ProCurrency.Smsg.Lemmas.Changes

/-!
# Bucket locks

A bucket is locked for the peer that was asked for its messages. The lock should last until this peer has sent them, or
until it has run out and the peer is ignored. `SecureMsgReceive` does not look at the owner of the lock, and a bucket
that expires takes its lock along.
-/

namespace ProCurrency

open ByteCodec SmsgState EventRun

/-! ## A pass of the thread -/

section Tick

variable {now time : Int} {fRemovesDat fRemovesWl : Int → Bool} {st : SmsgState} {bkt : SecMsgBucket}

theorem getElem?_expireBuckets (now : Int) (fRemovesDat fRemovesWl : Int → Bool) (st : SmsgState) (time : Int) :
    (expireBuckets now fRemovesDat fRemovesWl st).smsgBuckets[time]? =
      st.smsgBuckets[time]?.bind (tickBucket now time) :=
  Std.ExtTreeMap.getElem?_filterMap'

def LockedFor (st : SmsgState) (time : Int) (id : NodeId) : Prop := 0 < (st.lock time).1 ∧ (st.lock time).2 = id

/-- The countdown of the lock ends in this pass. -/
def RunsOut (now : Int) (st : SmsgState) (time : Int) (id : NodeId) : Prop :=
  now - SMSG_RETENTION ≤ time ∧ st.lock time = (1, id)

theorem getElem?_of_locked (h : 0 < (st.lock time).1) : st.smsgBuckets[time]? = some (st.bucketAt time) := by
  rw [lock, bucketAt] at h
  rw [bucketAt]
  cases hget : st.smsgBuckets[time]? with
  | none => rw [hget] at h; cases h
  | some bkt => rfl

theorem mem_timedOutLocks {id : NodeId} : (time, id) ∈ timedOutLocks now st ↔ RunsOut now st time id := by
  simp only [timedOutLocks, List.mem_filterMap, Prod.exists, Std.ExtTreeMap.mem_toList_iff_getElem?_eq_some,
    Option.ite_none_right_eq_some, Option.some.injEq, Prod.mk.injEq]
  constructor
  · rintro ⟨time, bkt, hget, ⟨hnew, hcount⟩, rfl, rfl⟩
    refine ⟨Int.not_lt.1 hnew, ?_⟩
    rw [lock, bucketAt_of_getElem? hget, hcount]
  · rintro ⟨hnew, hlock⟩
    have hpos : 0 < (st.lock time).1 := by rw [hlock]; exact Nat.one_pos
    have hget := getElem?_of_locked hpos
    simp only [lock, Prod.mk.injEq] at hlock
    exact ⟨time, _, hget, ⟨Int.not_lt.2 hnew, hlock.1⟩, rfl, hlock.2⟩

/-- A lock outlives a pass, unless it runs out or its bucket has expired. -/
theorem lockedFor_expireBuckets {id : NodeId} (h : LockedFor st time id) :
    LockedFor (expireBuckets now fRemovesDat fRemovesWl st) time id ↔
      now - SMSG_RETENTION ≤ time ∧ (st.lock time).1 ≠ 1 := by
  have hget := getElem?_of_locked h.1
  have htick := getElem?_expireBuckets now fRemovesDat fRemovesWl st time
  rw [hget, Option.bind_some, tickBucket] at htick
  obtain ⟨hcount, hid⟩ := h
  simp only [lock] at hcount hid
  by_cases hold : time < now - SMSG_RETENTION
  · have hnone : ¬ now - SMSG_RETENTION ≤ time := Int.not_le.2 hold
    rw [if_pos hold] at htick
    simp [LockedFor, lock, bucketAt, htick, hnone]
  · have hnew := Int.not_lt.1 hold
    rw [if_neg hold, if_pos hcount] at htick
    simp only [LockedFor, lock, bucketAt_of_getElem? htick, hnew, true_and]
    split
    · next hlast =>
        simp only [hlast]
        omega
    · next hmore =>
        simp only [hid, and_true]
        omega

theorem foldl_ignorePeer (now : Int) (locks : List (Int × NodeId)) (vNodes : Std.ExtTreeMap NodeId SecMsgNode)
    (id : NodeId) :
    (locks.foldl (ignorePeer now) vNodes)[id]? =
      if id ∈ locks.map Prod.snd then
        vNodes[id]?.map (SecMsgNode.ignore (now + SMSG_TIME_IGNORE))
      else vNodes[id]? := by
  induction locks generalizing vNodes with
  | nil => simp
  | cons first locks ih =>
      have hfirst : (ignorePeer now vNodes first)[id]? =
          if first.2 = id then vNodes[id]?.map (SecMsgNode.ignore (now + SMSG_TIME_IGNORE))
          else vNodes[id]? := by
        rw [ignorePeer]
        split
        · next hnone => split <;> simp_all
        · next pnode hsome =>
            rw [Std.ExtTreeMap.getElem?_insert]
            split <;> simp_all
      rw [List.foldl_cons, ih, hfirst]
      by_cases howner : first.2 = id
      · subst howner
        simp only [List.map_cons, List.mem_cons, true_or, if_true, Option.map_map]
        split <;> rfl
      · simp only [List.map_cons, List.mem_cons, Ne.symm howner, false_or, howner, if_false]

end Tick

/-! ## The discipline -/

def Ignored (node : SmsgNode) (id : NodeId) (ignoreUntil : Int) : Prop :=
  ∃ pnode, node.vNodes[id]? = some pnode ∧ pnode.ignoreUntil = ignoreUntil

/-- The owner of the lock sends the messages. -/
def Delivered (ev : SmsgEvent) (time : Int) (id : NodeId) : Prop :=
  ∃ call vchData, ev = .receive call id (.smsgMsg vchData) ∧ bunchTime vchData = some time

/-- The lock runs out, and its owner is ignored for it. -/
def Countdown (node : SmsgNode) (ev : SmsgEvent) (node' : SmsgNode) (time : Int) (id : NodeId) : Prop :=
  ∃ now fRemovesDat fRemovesWl, ev = .tick now fRemovesDat fRemovesWl ∧ RunsOut now node.st time id ∧
    Ignored node' id (now + SMSG_TIME_IGNORE)

/-- The rules of the locks, for one step. -/
structure LockDiscipline (node : SmsgNode) (ev : SmsgEvent) (node' : SmsgNode)
    (pushed : List (NodeId × SmsgMessage)) : Prop where
  oneWant : ∀ time id, LockedFor node.st time id →
    ∀ pto vchData, (pto, .smsgWant vchData) ∈ pushed → haveTime vchData ≠ some time
  released : ∀ time id, LockedFor node.st time id →
    LockedFor node'.st time id ∨ Delivered ev time id ∨ Countdown node ev node' time id
  onlyOwners : ∀ now fRemovesDat fRemovesWl, ev = .tick now fRemovesDat fRemovesWl →
    ∀ id, node'.vNodes[id]? = node.vNodes[id]? ∨ ∃ time, RunsOut now node.st time id

/-- Only the owner of a lock sends a bunch for its bucket. No bucket expires while it is locked, and the owner of a lock
that runs out is still connected. -/
def OwnersKeepLocks (node : SmsgNode) : SmsgEvent → Prop
  | .receive call pfrom (.smsgMsg vchData) =>
      ∀ time id, bunchTime vchData = some time → InWindow call.now time → LockedFor node.st time id → id = pfrom
  | .tick now _ _ =>
      ∀ time id, LockedFor node.st time id →
        now - SMSG_RETENTION ≤ time ∧ ((node.st.lock time).1 = 1 → id ∈ node.vNodes)
  | _ => True

variable {node node' : SmsgNode} {ev : SmsgEvent} {pushed : List (NodeId × SmsgMessage)} {st' : SmsgState}

/-- A step that keeps all locks, asks for nothing that is locked, and is no pass of the thread. -/
theorem LockDiscipline.of_lock_eq (hlock : ∀ time, 0 < (node.st.lock time).1 → node'.st.lock time = node.st.lock time)
    (hpushed : ∀ time id, LockedFor node.st time id →
      ∀ pto vchData, (pto, .smsgWant vchData) ∈ pushed → haveTime vchData ≠ some time)
    (hno : ∀ now fRemovesDat fRemovesWl, ev ≠ .tick now fRemovesDat fRemovesWl) :
    LockDiscipline node ev node' pushed where
  oneWant := hpushed
  released time id h := by
    left
    rw [LockedFor, hlock time h.1]
    exact h
  onlyOwners now fRemovesDat fRemovesWl hev := absurd hev (hno now fRemovesDat fRemovesWl)

theorem readI64At_take_append {vchData vchOut : Bytes} {time : Int} (h : haveTime vchData = some time) :
    haveTime (vchData.take 8 ++ vchOut) = some time := by
  simp only [haveTime, readI64At, readAt, Option.map_eq_some_iff] at h ⊢
  obtain ⟨bs, hbs, rfl⟩ := h
  split at hbs
  · next hlen =>
      obtain rfl := Option.some.inj hbs
      have htake : (vchData.take 8).length = 8 := by simp; omega
      refine ⟨vchData.take 8, ?_, by simp⟩
      rw [if_pos (by simp; omega), List.drop_zero, List.take_append_of_le_length (by omega), List.take_take,
        Nat.min_self]
  · cases hbs

theorem receive_discipline_iff {call : SmsgCall} {pfrom : NodeId} {msg : SmsgMessage}
    (h : SmsgNode.step (.receive call pfrom msg) node = some (node', pushed)) :
    LockDiscipline node (.receive call pfrom msg) node' pushed ↔ OwnersKeepLocks node (.receive call pfrom msg) := by
  obtain ⟨smsgData, r, -, hr, rfl, rfl⟩ := step_receive_eq_some h
  have hkeeps (hmsg : ∀ vchData, msg ≠ .smsgMsg vchData) : OwnersKeepLocks node (.receive call pfrom msg) := by
    cases msg with
    | smsgMsg vchData => exact absurd rfl (hmsg vchData)
    | _ => exact trivial
  rcases secureMsgReceiveData_cases hr with
    ⟨vchData, l, rfl, hl, hst, hpushed⟩ | ⟨vchData, time, vchWant, rfl, htime, -, hlock, hst, hpushed⟩ |
      ⟨hmsg, htouched, hno⟩
  · constructor
    · intro hrules time id htime hin hlocked
      rcases hrules.released time id hlocked with hstill | ⟨call', vchData', hev, -⟩ | ⟨now, f, f', hev, -⟩
      · rcases secureMsgReceive_lock hl time with ⟨-, -, hcount⟩ | ⟨hother, -⟩
        · rw [LockedFor, hst, lock, hcount] at hstill
          exact absurd hstill.1 (Nat.lt_irrefl 0)
        · exact absurd hin (hother htime)
      · cases hev
        rfl
      · cases hev
    · intro howner
      refine ⟨fun time id _ pto vchWant hmem => ?_, fun time id hlocked => ?_, fun now f f' hev => by cases hev⟩
      · rw [hpushed] at hmem
        cases hmem
      · rcases secureMsgReceive_lock hl time with ⟨htime, hin, -⟩ | ⟨-, hsame⟩
        · obtain rfl := howner time id htime hin hlocked
          exact .inr (.inl ⟨call, vchData, rfl, htime⟩)
        · left
          rw [LockedFor, hst, hsame]
          exact hlocked
  · refine iff_of_true (.of_lock_eq (fun b hb => ?_) (fun b id hlocked pto vchWant' hmem => ?_) ?_) (hkeeps ?_)
    · have hne : time ≠ b := by
        rintro rfl
        rw [lock, hlock] at hb
        exact absurd hb (Nat.lt_irrefl 0)
      rw [hst, lock, bucketAt_setBucket, if_neg hne, bucketAt_touch]
      rfl
    · rw [hpushed, List.map_singleton, List.mem_singleton] at hmem
      cases hmem
      rw [readI64At_take_append htime]
      rintro ⟨⟩
      rw [LockedFor, lock, hlock] at hlocked
      exact absurd hlocked.1 (Nat.lt_irrefl 0)
    · simp
    · simp
  · have hlock := htouched.grows.lock
    refine iff_of_true (.of_lock_eq (fun b _ => hlock b) (fun b id _ pto vchWant hmem => ?_) ?_) (hkeeps hmsg)
    · obtain ⟨m, hm, heq⟩ := List.mem_map.1 hmem
      cases heq
      exact absurd (hno _ hm) (by simp [SmsgMessage.isReply])
    · simp

theorem tick_discipline_iff {now : Int} {fRemovesDat fRemovesWl : Int → Bool} :
    LockDiscipline node (.tick now fRemovesDat fRemovesWl) (threadSecureMsg now fRemovesDat fRemovesWl node).1
        (threadSecureMsg now fRemovesDat fRemovesWl node).2 ↔
      OwnersKeepLocks node (.tick now fRemovesDat fRemovesWl) := by
  have hpeer (id : NodeId) : (threadSecureMsg now fRemovesDat fRemovesWl node).1.vNodes[id]? =
      if id ∈ (timedOutLocks now node.st).map Prod.snd then
        node.vNodes[id]?.map (SecMsgNode.ignore (now + SMSG_TIME_IGNORE))
      else node.vNodes[id]? := foldl_ignorePeer now _ _ id
  have howner (id : NodeId) :
      id ∈ (timedOutLocks now node.st).map Prod.snd ↔ ∃ time, RunsOut now node.st time id := by
    simp [mem_timedOutLocks]
  constructor
  · intro hrules time id hlocked
    rcases hrules.released time id hlocked with hstill | ⟨call, vchData, hev, -⟩ | ⟨now', f, f', hev, hout, hignored⟩
    · obtain ⟨hnew, hcount⟩ := (lockedFor_expireBuckets hlocked).1 hstill
      exact ⟨hnew, fun hone => absurd hone hcount⟩
    · cases hev
    · cases hev
      refine ⟨hout.1, fun _ => ?_⟩
      obtain ⟨pnode, hpnode, -⟩ := hignored
      rw [hpeer, if_pos ((howner id).2 ⟨time, hout⟩)] at hpnode
      rw [Std.ExtTreeMap.mem_iff_isSome_getElem?]
      cases hget : node.vNodes[id]? with
      | none => rw [hget] at hpnode; cases hpnode
      | some _ => rfl
  · intro hkeep
    refine ⟨fun time id _ pto vchData hmem => ?_, fun time id hlocked => ?_, fun now' f f' hev id => ?_⟩
    · obtain ⟨lock, -, hlock⟩ := List.mem_filterMap.1 hmem
      rw [ignoreMessage] at hlock
      split at hlock
      · cases hlock
      · cases hlock
    · obtain ⟨hnew, hconnected⟩ := hkeep time id hlocked
      by_cases hcount : (node.st.lock time).1 = 1
      · have hout : RunsOut now node.st time id := ⟨hnew, Prod.ext hcount hlocked.2⟩
        have hsome := Std.ExtTreeMap.mem_iff_isSome_getElem?.1 (hconnected hcount)
        obtain ⟨pnode, hpnode⟩ := Option.isSome_iff_exists.1 hsome
        refine .inr (.inr ⟨now, fRemovesDat, fRemovesWl, rfl, hout, pnode.ignore (now + SMSG_TIME_IGNORE), ?_, rfl⟩)
        rw [hpeer, if_pos ((howner id).2 ⟨time, hout⟩), hpnode]
        rfl
      · exact .inl ((lockedFor_expireBuckets hlocked).2 ⟨hnew, hcount⟩)
    · cases hev
      rw [hpeer]
      split
      · next hmem => exact .inr ((howner id).1 hmem)
      · exact .inl rfl

/-- The rules hold in a step exactly if the owners keep their locks. -/
theorem step_discipline_iff (h : SmsgNode.step ev node = some (node', pushed)) :
    LockDiscipline node ev node' pushed ↔ OwnersKeepLocks node ev := by
  have hquiet (hlock : node'.st.smsgBuckets = node.st.smsgBuckets) (hpushed : pushed = []) (hno) :
      LockDiscipline node ev node' pushed :=
    .of_lock_eq (fun time _ => by simp only [lock, bucketAt, hlock]) (by simp [hpushed]) hno
  cases ev with
  | receive call pfrom msg => exact receive_discipline_iff h
  | tick now fRemovesDat fRemovesWl =>
      obtain ⟨rfl, rfl⟩ := Prod.mk.inj (Option.some.inj h)
      exact tick_discipline_iff
  | send now pto =>
      simp only [SmsgNode.step, Option.bind_eq_bind, Option.bind_eq_some_iff, Option.some.injEq] at h
      obtain ⟨smsgData, -, h⟩ := h
      obtain ⟨rfl, rfl⟩ := Prod.mk.inj h
      refine iff_of_true (.of_lock_eq (fun _ _ => rfl) (fun time id _ pto' vchData hmem => ?_) (by simp)) trivial
      obtain ⟨m, hm, heq⟩ := List.mem_map.1 hmem
      cases heq
      rw [secureMsgSendData] at hm
      split at hm
      · cases List.mem_singleton.1 hm
      · split at hm
        · cases hm
        · dsimp only at hm
          split at hm
          · cases List.mem_singleton.1 hm
          · cases hm
  | store now io smsg fUpdateBucket =>
      obtain ⟨rfl, rfl⟩ := Prod.mk.inj (Option.some.inj h)
      have hgrows := secureMsgStore_grows now io smsg.header smsg.pPayload fUpdateBucket node.st
      exact iff_of_true (.of_lock_eq (fun time _ => hgrows.lock time) (by simp) (by simp)) trivial
  | scanBuckets fSecMsgEnabled fLocked now itd =>
      obtain ⟨rfl, rfl⟩ := Prod.mk.inj (Option.some.inj h)
      exact iff_of_true (hquiet secureMsgScanBuckets_smsgBuckets rfl (by simp)) trivial
  | walletUnlocked fSecMsgEnabled fLocked now itd =>
      obtain ⟨rfl, rfl⟩ := Prod.mk.inj (Option.some.inj h)
      exact iff_of_true (hquiet secureMsgWalletUnlocked_smsgBuckets rfl (by simp)) trivial
  | connect id =>
      obtain ⟨rfl, rfl⟩ := Prod.mk.inj (Option.some.inj h)
      exact iff_of_true (hquiet rfl rfl (by simp)) trivial
  | disconnect id =>
      obtain ⟨rfl, rfl⟩ := Prod.mk.inj (Option.some.inj h)
      exact iff_of_true (hquiet rfl rfl (by simp)) trivial

/-- In every run the rules of the locks hold at each step exactly if the owners keep their locks at each step. -/
theorem lockDiscipline_along_iff (evs : List SmsgEvent) (node : SmsgNode) :
    Along SmsgNode.step LockDiscipline evs node ↔
      Along SmsgNode.step (fun node ev _ _ => OwnersKeepLocks node ev) evs node :=
  along_congr (fun _ _ _ _ => step_discipline_iff) evs node

/-! ## A lock that another peer breaks -/

/-- The peer 1 offers a message of the bucket 600000. -/
def lockingEvents : List SmsgEvent :=
  [.connect 1, .connect 2,
    .receive (SmsgCall.refusing 600100) 1 (.smsgHave (i64Bytes 600000 ++ i64Bytes 600010 ++ List.replicate 8 1))]

/-- The peer 2 sends an empty bunch for the bucket. -/
def breakingEvent : SmsgEvent := .receive (SmsgCall.refusing 600100) 2 (.smsgMsg (leBytes 4 0 ++ i64Bytes 600000))

theorem not_lockDiscipline_broken : ¬ Along SmsgNode.step LockDiscipline (lockingEvents ++ [breakingEvent]) {} := by
  intro h
  have hlocked : ((run SmsgNode.step lockingEvents {}).bind fun node =>
      (SmsgNode.step breakingEvent node).map fun _ => node.st.lock 600000) = some (3, 1) := by decide +kernel
  simp only [Option.bind_eq_some_iff, Option.map_eq_some_iff] at hlocked
  obtain ⟨node, hnode, ⟨node', pushed⟩, hstep, hlock⟩ := hlocked
  have hrules := (along_append h hnode node' pushed hstep).1
  have howner := (step_discipline_iff hstep).1 hrules 600000 1 (by decide +kernel) (by decide)
    ⟨by rw [hlock]; decide, by rw [hlock]⟩
  exact absurd howner (by decide)

end ProCurrency
