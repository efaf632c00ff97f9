import ProCurrency.Addr.Lemmas.Restore

/-!
# Restarts of the address manager

A manager that is written and read again has the same addresses in the same buckets, and the same counts, and it is as
consistent as before.
-/

namespace ProCurrency

namespace CAddrMan

open Buckets

variable {am am' : CAddrMan} {nId : Nat} {info : CAddrInfo} {hash : List UInt8 → UInt256}

/-! ## Consistency -/

theorem Rebuilt.at_rank (h : Rebuilt hash am am') (hinfo : am.mapInfo[nId]? = some info) :
    am'.mapInfo[am.rank nId]? =
      some { listed (nId, info) (am.rank nId) with nRefCount := newCount am.ranked (am.rank nId) } := by
  rw [h.mapInfo, getElem?_rank hinfo]
  rfl

/-- Where an entry that was read comes from. -/
theorem Rebuilt.from_entry (h : Rebuilt hash am am') {i : Nat} {info' : CAddrInfo} (hinfo' : am'.mapInfo[i]? = some info') :
    ∃ nId info, am.mapInfo[nId]? = some info ∧ am.rank nId = i ∧
      info' = { listed (nId, info) i with nRefCount := newCount am.ranked i } := by
  rw [h.mapInfo] at hinfo'
  obtain ⟨⟨nId, info⟩, he, rfl⟩ := Option.map_eq_some_iff.1 hinfo'
  exact ⟨nId, info, mem_written.1 (List.mem_of_getElem? he), rank_eq he, rfl⟩

theorem Consistent.nodup_vvTried (h : am.Consistent) (n : Fin ADDRMAN_TRIED_BUCKET_COUNT) : (am.vvTried n).Nodup :=
  (List.nodup_flatMap.1 h.nodup_triedIds).1 n (List.mem_finRange n)

theorem nodup_places (nKey : List UInt8) (infos : List (Nat × CAddrInfo)) (n : Fin ADDRMAN_TRIED_BUCKET_COUNT) :
    (places hash nKey infos n).Nodup :=
  List.nodup_range.filter _

theorem Consistent.belongs_iff (h : am.Consistent) (hplaced : am.Placed hash) (hinfo : am.mapInfo[nId]? = some info)
    (n : Fin ADDRMAN_TRIED_BUCKET_COUNT) : belongs hash am.nKey n (nId, info) = true ↔ nId ∈ am.vvTried n := by
  rw [belongs, Bool.and_eq_true, beq_iff_eq]
  constructor
  · rintro ⟨htried, hbucket⟩
    obtain ⟨n', hn', _⟩ := (h.checked.tried nId info hinfo htried).2.2.1
    exact hbucket ▸ hplaced.bucket n' nId info hn' hinfo ▸ hn'
  · exact fun hmem => ⟨(h.entry nId info hinfo).in_tried (triedCount_pos hmem), hplaced.bucket n nId info hmem hinfo⟩

theorem Rebuilt.mem_vvTried (h : Rebuilt hash am am') (hconsistent : am.Consistent) (hplaced : am.Placed hash)
    (hinfo : am.mapInfo[nId]? = some info) (n : Fin ADDRMAN_TRIED_BUCKET_COUNT) :
    am.rank nId ∈ am'.vvTried n ↔ nId ∈ am.vvTried n := by
  rw [h.vvTried, mem_places, ← hconsistent.belongs_iff hplaced hinfo n]
  constructor
  · rintro ⟨e, he, hbelongs⟩
    rw [getElem?_rank hinfo] at he
    cases he
    exact hbelongs
  · exact fun hbelongs => ⟨(nId, info), getElem?_rank hinfo, hbelongs⟩

theorem Rebuilt.mem_vvNew (h : Rebuilt hash am am') (hconsistent : am.Consistent) (hinfo : am.mapInfo[nId]? = some info)
    (n : Fin ADDRMAN_NEW_BUCKET_COUNT) : am.rank nId ∈ am'.vvNew n ↔ nId ∈ am.vvNew n := by
  rw [h.vvNew]
  exact hconsistent.mem_ranked hinfo n

/-- A tried bucket holds the same entries, in another order. -/
theorem Rebuilt.vvTried_perm (h : Rebuilt hash am am') (hconsistent : am.Consistent) (hplaced : am.Placed hash)
    (n : Fin ADDRMAN_TRIED_BUCKET_COUNT) : ((am.vvTried n).map am.rank).Perm (am'.vvTried n) := by
  have hnodup : ((am.vvTried n).map am.rank).Nodup := by
    refine (hconsistent.nodup_vvTried n).map_on fun nId hmem nId' hmem' hrank => ?_
    obtain ⟨info, hinfo⟩ := hconsistent.exists_of_mem_tried hmem
    obtain ⟨info', hinfo'⟩ := hconsistent.exists_of_mem_tried hmem'
    exact rank_injective hinfo hinfo' hrank
  refine (List.perm_ext_iff_of_nodup hnodup (h.vvTried ▸ nodup_places ..)).2 fun i => ?_
  rw [List.mem_map]
  constructor
  · rintro ⟨nId, hmem, rfl⟩
    obtain ⟨info, hinfo⟩ := hconsistent.exists_of_mem_tried hmem
    exact (h.mem_vvTried hconsistent hplaced hinfo n).2 hmem
  · intro hmem
    have hplace := hmem
    rw [h.vvTried, mem_places] at hplace
    obtain ⟨⟨nId, info⟩, he, _⟩ := hplace
    have hinfo := mem_written.1 (List.mem_of_getElem? he)
    rw [← rank_eq he, h.mem_vvTried hconsistent hplaced hinfo n] at hmem
    exact ⟨nId, hmem, rank_eq he⟩

theorem Rebuilt.triedCount_eq (h : Rebuilt hash am am') (hconsistent : am.Consistent) (hplaced : am.Placed hash)
    (hinfo : am.mapInfo[nId]? = some info) : triedCount am'.vvTried (am.rank nId) = triedCount am.vvTried nId := by
  rw [triedCount, triedCount, occurrences, occurrences]
  refine Finset.sum_congr rfl fun n _ => ?_
  have hnodup : (am'.vvTried n).Nodup := h.vvTried ▸ nodup_places ..
  rw [countTried, countTried, hnodup.count, (hconsistent.nodup_vvTried n).count]
  simp only [h.mem_vvTried hconsistent hplaced hinfo n]

theorem bmod_nLastSuccess {n : Int} (hlow : 0 ≤ n) (hhigh : n < 2 ^ 63) : Int.bmod n (256 ^ 8) = n := by
  apply Int.bmod_eq_of_le
  · omega
  · omega

theorem Rebuilt.consistent (h : Rebuilt hash am am') (hconsistent : am.Consistent) (hplaced : am.Placed hash) :
    am'.Consistent where
  indexed :=
    { random := fun i nId => by
        rw [h.vRandom, posOf, h.mapInfo, Option.map_map]
        constructor
        · intro hat
          obtain ⟨hlt, hget⟩ := List.getElem?_eq_some_iff.1 hat
          rw [List.getElem_range] at hget
          subst nId
          rw [List.length_range] at hlt
          rw [List.getElem?_eq_getElem hlt]
          rfl
        · intro hpos
          obtain ⟨e, he, hi⟩ := Option.map_eq_some_iff.1 hpos
          obtain rfl : nId = i := hi
          exact List.getElem?_range (List.getElem?_eq_some_iff.1 he).1
      addr := fun a nId => by
        rw [h.mapAddr, h.mapInfo]
        constructor
        · rintro ⟨e, he, ha⟩
          exact ⟨_, Option.map_eq_some_iff.2 ⟨e, he, rfl⟩, ha⟩
        · rintro ⟨info, hinfo, ha⟩
          obtain ⟨e, he, rfl⟩ := Option.map_eq_some_iff.1 hinfo
          exact ⟨e, he, ha⟩
      fresh := fun nId hnId => by
        rw [h.mapInfo, List.getElem?_eq_none (h.nIdCount ▸ hnId)]
        rfl }
  entry i info' hinfo' := by
    obtain ⟨nId, info, hinfo, hrank, rfl⟩ := h.from_entry hinfo'
    have hok := hconsistent.entry nId info hinfo
    have hsuccess := bmod_nLastSuccess hok.nLastSuccess (hplaced.nLastSuccess nId info hinfo)
    have hnews := hconsistent.newCount_ranked hinfo
    have htrieds := h.triedCount_eq hconsistent hplaced hinfo
    rw [hrank] at hnews htrieds
    rw [h.vvNew, hnews, htrieds]
    refine ⟨rfl, fun htried => ?_, fun htried => hok.new htried, Int.le_refl 0, ?_⟩
    · obtain ⟨hzero, hone, hne⟩ := hok.tried htried
      exact ⟨hzero, hone, fun hsame => hne (hsuccess.symm.trans hsame)⟩
    · exact hok.nLastSuccess.trans_eq hsuccess.symm
  absent i hnone := by
    have hout : am.written[i]? = none := by
      rw [h.mapInfo] at hnone
      exact Option.map_eq_none_iff.1 hnone
    constructor
    · rw [h.vvNew]
      refine occurrences_eq_zero_iff.2 fun n => if_neg fun hmem => ?_
      obtain ⟨nId, hnId, rfl⟩ := Finset.mem_image.1 hmem
      obtain ⟨info, hinfo⟩ := hconsistent.exists_of_mem_new hnId
      rw [getElem?_rank hinfo] at hout
      cases hout
    · rw [h.vvTried]
      refine occurrences_eq_zero_iff.2 fun n => List.count_eq_zero.2 fun hmem => ?_
      obtain ⟨e, he, _⟩ := mem_places.1 hmem
      rw [hout] at he
      cases he
  newSize n := by
    rw [h.vvNew]
    exact Finset.card_image_le.trans (hconsistent.newSize n)
  triedSize n := by
    rw [← (h.vvTried_perm hconsistent hplaced n).length_eq, List.length_map]
    exact hconsistent.triedSize n
  nTried := by
    rw [h.nTried, hconsistent.nTried, triedTotal, triedTotal, occurrences, occurrences]
    refine congrArg Int.ofNat (Finset.sum_congr rfl fun n _ => ?_)
    rw [sizeTried, sizeTried, ← (h.vvTried_perm hconsistent hplaced n).length_eq, List.length_map]
  total := by
    rw [h.nTried, h.nNew, h.vRandom, List.length_range, written, List.length_append]
    have hnew := hconsistent.length_new
    have htried := hconsistent.length_tried
    rw [← hnew, ← htried]
    show ((am.newInfos.length + am.triedInfos.length : Nat) : Int) = am.triedInfos.length + am.newInfos.length + 0
    omega

theorem Rebuilt.placed (h : Rebuilt hash am am') (hconsistent : am.Consistent) (hplaced : am.Placed hash) :
    Placed hash am' where
  bucket n i info' hin hinfo' := by
    obtain ⟨nId, info, hinfo, rfl, rfl⟩ := h.from_entry hinfo'
    rw [h.nKey]
    exact (getTriedBucket_congr rfl am.nKey).trans
      (hplaced.bucket n nId info ((h.mem_vvTried hconsistent hplaced hinfo n).1 hin) hinfo)
  nLastSuccess i info' hinfo' := by
    obtain ⟨nId, info, hinfo, _, rfl⟩ := h.from_entry hinfo'
    have hlast := hplaced.nLastSuccess nId info hinfo
    exact (bmod_nLastSuccess (hconsistent.entry nId info hinfo).nLastSuccess hlast).trans_lt hlast

/-! ## What a restart keeps -/

def newAddrs (am : CAddrMan) : Set CService :=
  {a | ∃ (nId : Nat) (info : CAddrInfo), am.mapInfo[nId]? = some info ∧ info.fInTried = false ∧ info.toCService = a}

def triedAddrs (am : CAddrMan) : Set CService :=
  {a | ∃ (nId : Nat) (info : CAddrInfo), am.mapInfo[nId]? = some info ∧ info.fInTried = true ∧ info.toCService = a}

/-- The new buckets that an address is in. -/
def newBuckets (am : CAddrMan) (a : CService) : Set (Fin ADDRMAN_NEW_BUCKET_COUNT) :=
  {n | ∃ (nId : Nat) (info : CAddrInfo), am.mapInfo[nId]? = some info ∧ info.toCService = a ∧ nId ∈ am.vvNew n}

def triedBuckets (am : CAddrMan) (a : CService) : Set (Fin ADDRMAN_TRIED_BUCKET_COUNT) :=
  {n | ∃ (nId : Nat) (info : CAddrInfo), am.mapInfo[nId]? = some info ∧ info.toCService = a ∧ nId ∈ am.vvTried n}

/-- The manager has the same addresses in the same buckets, and the same counts. -/
structure Restored (am am' : CAddrMan) : Prop where
  nKey : am'.nKey = am.nKey
  newAddrs : am'.newAddrs = am.newAddrs
  triedAddrs : am'.triedAddrs = am.triedAddrs
  newBuckets : ∀ a, am'.newBuckets a = am.newBuckets a
  triedBuckets : ∀ a, am'.triedBuckets a = am.triedBuckets a
  nNew : am'.nNew = am.nNew
  nTried : am'.nTried = am.nTried
  size : am'.vRandom.length = am.vRandom.length
  /-- The attempts are an `int`. -/
  entry : ∀ (nId : Nat) (info : CAddrInfo), am.mapInfo[nId]? = some info → ∃ (nId' : Nat) (info' : CAddrInfo),
    am'.mapInfo[nId']? = some info' ∧ info'.toCAddress = { info.toCAddress with nLastTry := 0 } ∧
      info'.source = info.source ∧ info'.nLastSuccess = info.nLastSuccess ∧ info'.nRefCount = info.nRefCount ∧
      info'.fInTried = info.fInTried ∧ info'.nAttempts = Int.bmod info.nAttempts (256 ^ 4)

/-- What a set says about the entries with an address, when it says the same about each entry and about what was read
of it. -/
theorem Rebuilt.exists_iff (h : Rebuilt hash am am') (P P' : Nat → CAddrInfo → Prop)
    (hP : ∀ nId info, am.mapInfo[nId]? = some info →
      (P' (am.rank nId) { listed (nId, info) (am.rank nId) with nRefCount := newCount am.ranked (am.rank nId) } ↔
        P nId info)) :
    (∃ (i : Nat) (info' : CAddrInfo), am'.mapInfo[i]? = some info' ∧ P' i info') ↔
      ∃ (nId : Nat) (info : CAddrInfo), am.mapInfo[nId]? = some info ∧ P nId info := by
  constructor
  · rintro ⟨i, info', hinfo', hholds⟩
    obtain ⟨nId, info, hinfo, rfl, rfl⟩ := h.from_entry hinfo'
    exact ⟨nId, info, hinfo, (hP nId info hinfo).1 hholds⟩
  · rintro ⟨nId, info, hinfo, hholds⟩
    exact ⟨_, _, h.at_rank hinfo, (hP nId info hinfo).2 hholds⟩

theorem Rebuilt.restored (h : Rebuilt hash am am') (hconsistent : am.Consistent) (hplaced : am.Placed hash) :
    am.Restored am' where
  nKey := h.nKey
  newAddrs := Set.ext fun a => h.exists_iff (fun _ info => info.fInTried = false ∧ info.toCService = a)
    (fun _ info => info.fInTried = false ∧ info.toCService = a) fun _ _ _ => Iff.rfl
  triedAddrs := Set.ext fun a => h.exists_iff (fun _ info => info.fInTried = true ∧ info.toCService = a)
    (fun _ info => info.fInTried = true ∧ info.toCService = a) fun _ _ _ => Iff.rfl
  newBuckets a := Set.ext fun n => h.exists_iff (fun nId info => info.toCService = a ∧ nId ∈ am.vvNew n)
    (fun nId info => info.toCService = a ∧ nId ∈ am'.vvNew n) fun _ _ hinfo =>
      and_congr_right' (h.mem_vvNew hconsistent hinfo n)
  triedBuckets a := Set.ext fun n => h.exists_iff (fun nId info => info.toCService = a ∧ nId ∈ am.vvTried n)
    (fun nId info => info.toCService = a ∧ nId ∈ am'.vvTried n) fun _ _ hinfo =>
      and_congr_right' (h.mem_vvTried hconsistent hplaced hinfo n)
  nNew := h.nNew
  nTried := h.nTried
  size := by
    have htotal := hconsistent.total
    have htotal' := (h.consistent hconsistent hplaced).total
    rw [h.nNew, h.nTried] at htotal'
    omega
  entry nId info hinfo := by
    have hok := hconsistent.entry nId info hinfo
    refine ⟨_, _, h.at_rank hinfo, rfl, rfl, ?_, ?_, rfl, rfl⟩
    · exact bmod_nLastSuccess hok.nLastSuccess (hplaced.nLastSuccess nId info hinfo)
    · rw [hok.refs, ← hconsistent.newCount_ranked hinfo]

end CAddrMan

/-! ## Runs -/

/-- The times of a call are after the epoch, and of 64 bits. -/
def AddrManCall.InTime (call : AddrManCall) : Prop :=
  call.AfterEpoch ∧
    match call with
    | .good _ nTime _ => nTime < 2 ^ 63
    | _ => True

/-- A call, or a restart: the manager is written, and a new one is read. -/
inductive AddrManEvent where
  | op (call : AddrManCall)
  | restart

def AddrManEvent.step (hash : List UInt8 → UInt256) (event : AddrManEvent) (am : CAddrMan) :
    Option (CAddrMan × AddrManResult) :=
  match event with
  | .op call => call.step hash am
  | .restart => (CAddrMan.read hash am.write).map fun r => (r.1, .nothing)

def AddrManEvent.InTime : AddrManEvent → Prop
  | .op call => call.InTime
  | .restart => True

namespace CAddrMan

variable {am am' : CAddrMan} {hash : List UInt8 → UInt256}

/-- What makes a restart possible. The key has the size that the constructor gives it. -/
structure Restorable (hash : List UInt8 → UInt256) (am : CAddrMan) : Prop where
  consistent : am.Consistent
  placed : Placed hash am
  nKey : am.nKey.length = 32

theorem Restorable.read_write (h : Restorable hash am) (s : List UInt8) :
    ∃ am', read hash (am.write ++ s) = some (am', s) ∧ Restorable hash am' ∧ am.Restored am' := by
  have hkey : am.nKey.length ≤ MAX_SIZE := h.nKey ▸ by decide
  obtain ⟨am', hread, hrebuilt⟩ := h.consistent.read_write h.placed hkey s
  exact ⟨am', hread, ⟨hrebuilt.consistent h.consistent h.placed, hrebuilt.placed h.consistent h.placed,
    hrebuilt.nKey ▸ h.nKey⟩, hrebuilt.restored h.consistent h.placed⟩

theorem Restorable.call (h : Restorable hash am) {call : AddrManCall} (hcall : call.InTime) :
    ∃ am' result, call.step hash am = some (am', result) ∧ Restorable hash am' := by
  obtain ⟨am', result, hstep, hconsistent⟩ := AddrManCall.step_spec hash h.consistent call hcall.1
  refine ⟨am', result, hstep, ?_⟩
  have hkept : Placed hash am' ∧ am'.nKey = am.nKey := by
    cases call with
    | add addr source nTimePenalty nNow rand =>
        obtain ⟨⟨am₁, fNew⟩, hadd, heq⟩ := Option.map_eq_some_iff.1 hstep
        cases heq
        exact h.placed.add h.consistent hadd
    | good addr nTime rand =>
        obtain ⟨am₁, hgood, heq⟩ := Option.map_eq_some_iff.1 hstep
        cases heq
        exact h.placed.good hcall.2 hgood
    | attempt addr nTime =>
        cases hstep
        obtain ⟨hfollows, htried⟩ := attempt_follows addr nTime
        exact ⟨h.placed.follows hfollows htried, hfollows.nKey⟩
    | connected addr nTime =>
        cases hstep
        obtain ⟨hfollows, htried⟩ := connected_follows addr nTime
        exact ⟨h.placed.follows hfollows htried, hfollows.nKey⟩
    | select fTestNet fUseTried accept rand =>
        obtain ⟨addr, _, heq⟩ := Option.map_eq_some_iff.1 hstep
        cases heq
        exact ⟨h.placed, rfl⟩
    | getAddr rand =>
        obtain ⟨⟨am₁, vAddr⟩, hget, heq⟩ := Option.map_eq_some_iff.1 hstep
        cases heq
        obtain ⟨hfollows, htried⟩ := getAddr_follows hget
        exact ⟨h.placed.follows hfollows htried, hfollows.nKey⟩
  exact ⟨hconsistent, hkept.1, hkept.2 ▸ h.nKey⟩

theorem Restorable.step (h : Restorable hash am) {event : AddrManEvent} (hevent : event.InTime) :
    ∃ am' result, event.step hash am = some (am', result) ∧ Restorable hash am' := by
  cases event with
  | op call => exact h.call hevent
  | restart =>
      obtain ⟨am', hread, h', _⟩ := h.read_write []
      rw [List.append_nil] at hread
      refine ⟨am', .nothing, ?_, h'⟩
      rw [AddrManEvent.step, hread]
      rfl

theorem restorable_new {nKey : List UInt8} (hkey : nKey.length = 32) : Restorable hash { nKey } where
  consistent := consistent_new nKey
  placed := ⟨nofun, nofun⟩
  nKey := hkey

end CAddrMan

/-- After any calls and restarts, what the manager writes is read as a consistent manager with the same tables. -/
theorem addrMan_restart (hash : List UInt8 → UInt256) {nKey : List UInt8} (hkey : nKey.length = 32)
    (events : List AddrManEvent) (hevents : ∀ event ∈ events, event.InTime) :
    ∃ am, EventRun.run (AddrManEvent.step hash) events { nKey } = some am ∧ am.Checked ∧
      ∀ s, ∃ am', CAddrMan.read hash (am.write ++ s) = some (am', s) ∧ am'.Checked ∧ am.Restored am' := by
  obtain ⟨am, hrun, h⟩ := EventRun.run_total (CAddrMan.Restorable hash)
    (fun _ event h hevent => h.step (hevent : event.InTime)) hevents (CAddrMan.restorable_new hkey)
  refine ⟨am, hrun, h.consistent.checked, fun s => ?_⟩
  obtain ⟨am', hread, h', hrestored⟩ := h.read_write s
  exact ⟨am', hread, h'.consistent.checked, hrestored⟩

/-- The peer is tried before the restart, and asked for after it. -/
theorem addrMan_restart_peer :
    ∃ am, EventRun.run (AddrManEvent.step fun _ => 0) (peerCalls.map .op ++ [.restart, .op (.getAddr id)])
        { nKey := List.replicate 32 0 } = some am ∧ am.Checked ∧
      ∀ s, ∃ am', CAddrMan.read (fun _ => 0) (am.write ++ s) = some (am', s) ∧ am'.Checked ∧ am.Restored am' := by
  refine addrMan_restart (fun _ => 0) (List.length_replicate ..) _ fun event hevent => ?_
  simp only [peerCalls, List.map_cons, List.map_nil, List.cons_append, List.nil_append, List.mem_cons, List.not_mem_nil,
    or_false] at hevent
  rcases hevent with rfl | rfl | rfl | rfl | rfl | rfl
  · exact ⟨trivial, trivial⟩
  · exact ⟨(by decide : (0 : Int) < 1400000100), trivial⟩
  · exact ⟨(by decide : (0 : Int) < 1400000200), (by decide : (1400000200 : Int) < 2 ^ 63)⟩
  · exact ⟨trivial, trivial⟩
  · exact trivial
  · exact ⟨trivial, trivial⟩

end ProCurrency
