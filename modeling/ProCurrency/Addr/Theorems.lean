import Mathlib.Algebra.BigOperators.Fin
import ProCurrency.Addr.Lemmas.Evict
import ProCurrency.Lib.EventRun

/-!
# The calls of the address manager

Each call has a result, whatever the random numbers are, and keeps the invariant.
-/

namespace ProCurrency.CAddrMan

open SwapIndex

abbrev Consistent (am : CAddrMan) : Prop := ConsistentBy (fun _ => EntryOk) 0 am

variable {am : CAddrMan} {nId : Nat} {info : CAddrInfo} (hash : List UInt8 → UInt256)

/-- A change that an entry bears. -/
theorem Consistent.modifyInfo (h : am.Consistent) (nId : Nat) (change : CAddrInfo → CAddrInfo)
    (hpos : ∀ info, (change info).nRandomPos = info.nRandomPos) (haddr : ∀ info, (change info).addr = info.addr)
    (hchange : ∀ info nNews nTrieds, EntryOk info nNews nTrieds → EntryOk (change info) nNews nTrieds) :
    (am.modifyInfo nId change).Consistent :=
  ConsistentBy.modifyInfo h nId change hpos haddr (fun info nNews nTrieds _ => hchange info nNews nTrieds)
    fun _ _ _ _ _ hok => hok

/-! ## Good, Attempt and Connected -/

theorem good_spec (h : am.Consistent) {nTime : Int} (hTime : 0 < nTime) (addr : CService) (rand : Nat → Nat) :
    ∃ am', am.good hash rand addr nTime = some am' ∧ am'.Consistent := by
  rw [good]
  cases hfind : am.find addr.addr with
  | none => exact ⟨am, rfl, h⟩
  | some found =>
      obtain ⟨nId, info⟩ := found
      obtain ⟨hinfo, _⟩ := h.indexed.find_eq_some hfind
      dsimp only
      split
      · exact ⟨am, rfl, h⟩
      · have h' := h.modifyInfo nId
          (fun info => { info with nLastSuccess := nTime, nLastTry := nTime, nTime := UInt32.ofInt nTime, nAttempts := 0 })
          (fun _ => rfl) (fun _ => rfl) fun info nNews nTrieds hok => ⟨hok.refs, fun htried =>
            ⟨(hok.tried htried).1, (hok.tried htried).2.1, hTime.ne'⟩, hok.new, hTime.le, hTime.le⟩
        have hinfo' := getElem?_modifyInfo am (fun info =>
          { info with nLastSuccess := nTime, nLastTry := nTime, nTime := UInt32.ofInt nTime, nAttempts := 0 }) nId nId
        rw [if_pos rfl, hinfo, Option.map_some] at hinfo'
        split
        · exact ⟨_, rfl, h'⟩
        · split
          · exact ⟨_, rfl, h'⟩
          · rename_i nUBucket hbucket
            have hfound := List.find?_some hbucket
            exact makeTried_spec hash h' (of_decide_eq_true hfound) hinfo' hTime.ne' _

theorem Consistent.attempt (h : am.Consistent) {nTime : Int} (hTime : 0 < nTime) (addr : CService) :
    (am.attempt addr nTime).Consistent := by
  rw [CAddrMan.attempt]
  cases am.find addr.addr with
  | none => exact h
  | some found =>
      dsimp only
      split
      · exact h
      · exact h.modifyInfo _ _ (fun _ => rfl) (fun _ => rfl) fun _ _ _ hok =>
          ⟨hok.refs, hok.tried, hok.new, hTime.le, hok.nLastSuccess⟩

theorem Consistent.connected (h : am.Consistent) (addr : CService) (nTime : Int) :
    (am.connected addr nTime).Consistent := by
  rw [CAddrMan.connected]
  cases am.find addr.addr with
  | none => exact h
  | some found =>
      dsimp only
      split
      · exact h
      · split
        · exact h.modifyInfo _ _ (fun _ => rfl) (fun _ => rfl) fun _ _ _ hok =>
            ⟨hok.refs, hok.tried, hok.new, hok.nLastTry, hok.nLastSuccess⟩
        · exact h

/-! ## Add -/

/-- The condition while an entry may get one more new bucket. -/
def Addable (nIdIn nId : Nat) (info : CAddrInfo) (nNews nTrieds : Nat) : Prop :=
  if nId = nIdIn then
    info.nRefCount = nNews ∧ info.fInTried = false ∧ nNews < ADDRMAN_NEW_BUCKETS_PER_ADDRESS ∧ nTrieds = 0 ∧
      0 ≤ info.nLastTry ∧ 0 ≤ info.nLastSuccess
  else EntryOk info nNews nTrieds

theorem Addable.of_eq {info info' : CAddrInfo} {nNews nTrieds : Nat} (h : Addable nId nId info nNews nTrieds)
    (hrefs : info'.nRefCount = info.nRefCount) (htried : info'.fInTried = info.fInTried)
    (hlastTry : info'.nLastTry = info.nLastTry) (hlastSuccess : info'.nLastSuccess = info.nLastSuccess) :
    Addable nId nId info' nNews nTrieds := by
  rw [Addable, if_pos rfl] at h ⊢
  rw [hrefs, htried, hlastTry, hlastSuccess]
  exact h

/-- The entry that waited gets its place. -/
theorem ConsistentBy.insertNew (h : ConsistentBy (Waiting (some nId)) 0 am) (hinfo : am.mapInfo[nId]? ≠ none)
    {n : Fin ADDRMAN_NEW_BUCKET_COUNT} (hmem : nId ∉ am.vvNew n) (hroom : (am.vvNew n).card < ADDRMAN_NEW_BUCKET_SIZE) :
    Consistent { am with vvNew := Function.update am.vvNew n (insert nId (am.vvNew n)) } := by
  have hinsert := newCount_insert hmem
  refine h.setTables (fun nId' info' _ hwaiting => ?_) (fun nId' hnone hnews htrieds => ⟨?_, htrieds⟩)
    (@update_le _ _ _ Finset.card _ _ _ _ h.newSize (Nat.le_trans (Finset.card_insert_le _ _) hroom)) h.triedSize
    h.nTried h.total
  · simp only [Waiting, Option.some.injEq, @eq_comm _ nId nId'] at hwaiting
    rw [hinsert]
    exact hwaiting
  · have hid : nId' ≠ nId := by
      rintro rfl
      exact hinfo hnone
    rw [hinsert, if_neg hid, hnews]

theorem addRef_spec (h : ConsistentBy (Addable nId) 0 am) (hinfo : am.mapInfo[nId]? = some info) (source : CNetAddr)
    (rand : Nat → Nat) (nNow : Int) : ∃ am', am.addRef hash rand nNow nId source = some am' ∧ am'.Consistent := by
  rw [addRef, hinfo]
  dsimp only
  split
  · rename_i hmem
    refine ⟨am, rfl, h.indexed, fun nId' info' hinfo' => ?_, h.absent, h.newSize, h.triedSize, h.nTried, h.total⟩
    have haddable := h.entry nId' info' hinfo'
    rw [Addable] at haddable
    split at haddable
    · rename_i hid
      subst nId'
      obtain ⟨hrefs, htried, hmax, htrieds, hlastTry, hlastSuccess⟩ := haddable
      exact ⟨hrefs, fun hin => absurd (htried.symm.trans hin) Bool.false_ne_true,
        fun _ => ⟨newCount_pos hmem, Int.le_of_lt hmax, htrieds⟩, hlastTry, hlastSuccess⟩
    · exact haddable
  · rename_i hmem
    have hwaiting : ConsistentBy (Waiting (some nId)) 0
        (am.modifyInfo nId fun info => { info with nRefCount := info.nRefCount + 1 }) := by
      refine h.modifyInfo nId _ (fun _ => rfl) (fun _ => rfl) (fun info' nNews _ _ haddable => ?_)
        fun nId' _ _ _ hid haddable => ?_
      · rw [Addable, if_pos rfl] at haddable
        obtain ⟨hrefs, htried, hmax, htrieds, hlastTry, hlastSuccess⟩ := haddable
        rw [Waiting, if_pos rfl]
        refine ⟨?_, fun hin => absurd (htried.symm.trans hin) Bool.false_ne_true, fun _ => ⟨?_, ?_, htrieds⟩, hlastTry,
          hlastSuccess⟩
        · dsimp only
          omega
        · omega
        · omega
      · rw [Addable, if_neg hid] at haddable
        rw [Waiting, if_neg fun heq => hid (Option.some.inj heq).symm]
        exact haddable
    have hsome : (am.modifyInfo nId fun info => { info with nRefCount := info.nRefCount + 1 }).mapInfo[nId]? ≠ none := by
      rw [getElem?_modifyInfo, if_pos rfl, hinfo]
      exact Option.some_ne_none _
    by_cases hfull : ((am.modifyInfo nId fun info => { info with nRefCount := info.nRefCount + 1 }).vvNew
        (info.getNewBucket hash am.nKey source)).card = ADDRMAN_NEW_BUCKET_SIZE
    · obtain ⟨am', hshrink, h', hsub, hroom, hkept⟩ := shrinkNew_spec hwaiting hfull
        (fun nId' heq => Option.some.inj heq ▸ hmem) rand nNow
      rw [if_pos hfull, hshrink]
      exact ⟨_, rfl, h'.insertNew (hkept nId rfl hsome) (fun hin => hmem (hsub hin)) hroom⟩
    · rw [if_neg hfull]
      exact ⟨_, rfl, hwaiting.insertNew hsome hmem (Nat.lt_of_le_of_ne (hwaiting.newSize _) hfull)⟩

/-- The entry that is created has no bucket yet. -/
theorem Consistent.create (h : am.Consistent) {addr : CAddress} {source : CNetAddr}
    (hnew : am.mapAddr[addr.addr]? = none) :
    ConsistentBy (Addable am.nIdCount) 0
      { (am.create addr source).1 with nNew := (am.create addr source).1.nNew + 1 } := by
  have hfresh := h.absent am.nIdCount (h.indexed.fresh _ (Nat.le_refl _))
  have hindexed := @Indexed.create am h.indexed addr source hnew
  refine ⟨⟨hindexed.random, hindexed.addr, hindexed.fresh⟩, fun nId' info' hinfo' => ?_, fun nId' hnone => ?_, h.newSize,
    h.triedSize, h.nTried, ?_⟩
  · rw [getElem?_create] at hinfo'
    rw [Addable]
    split at hinfo'
    · rename_i hid
      cases hinfo'
      rw [if_pos hid.symm, ← hid]
      show (0 : Int) = newCount am.vvNew am.nIdCount ∧ _ ∧ (newCount am.vvNew am.nIdCount : Int) < _ ∧
        triedCount am.vvTried am.nIdCount = 0 ∧ _
      rw [hfresh.1]
      exact ⟨rfl, rfl, by decide, hfresh.2, Int.le_refl 0, Int.le_refl 0⟩
    · rename_i hid
      rw [if_neg (Ne.symm hid)]
      exact h.entry nId' info' hinfo'
  · rw [getElem?_create] at hnone
    split at hnone
    · cases hnone
    · exact h.absent nId' hnone
  · have htotal := h.total
    show ((am.vRandom ++ [am.nIdCount]).length : Int) = am.nTried + (am.nNew + 1) + 0
    rw [List.length_append, List.length_singleton]
    omega

/-- An entry that is in fewer than four new buckets and in no tried one. -/
theorem Consistent.addable (h : am.Consistent) (hinfo : am.mapInfo[nId]? = some info) (htried : info.fInTried = false)
    (hrefs : info.nRefCount ≠ ADDRMAN_NEW_BUCKETS_PER_ADDRESS) : ConsistentBy (Addable nId) 0 am := by
  refine ⟨h.indexed, fun nId' info' hinfo' => ?_, h.absent, h.newSize, h.triedSize, h.nTried, h.total⟩
  have hok := h.entry nId' info' hinfo'
  rw [Addable]
  split
  · rename_i hid
    subst nId'
    obtain rfl : info = info' := Option.some.inj (hinfo.symm.trans hinfo')
    obtain ⟨_, hmax, htrieds⟩ := hok.new htried
    rw [hok.refs] at hrefs
    exact ⟨hok.refs, htried, lt_of_le_of_ne hmax hrefs, htrieds, hok.nLastTry, hok.nLastSuccess⟩
  · exact hok

theorem add_spec (h : am.Consistent) (addr : CAddress) (source : CNetAddr) (nTimePenalty nNow : Int)
    (rand : Nat → Nat) :
    ∃ am' fNew, am.add hash rand nNow addr source nTimePenalty = some (am', fNew) ∧ am'.Consistent := by
  rw [add]
  split
  · exact ⟨am, false, rfl, h⟩
  · cases hfind : am.find addr.addr with
    | none =>
        have hcreate := @Consistent.create am h addr source (h.indexed.find_eq_none hfind)
        have hdated := hcreate.modifyInfo am.nIdCount
          (fun info => { info with nTime := UInt32.ofInt (max 0 (info.nTime.toNat - nTimePenalty)) })
          (fun _ => rfl) (fun _ => rfl) (fun _ _ _ _ haddable => haddable.of_eq rfl rfl rfl rfl) fun _ _ _ _ _ haddable =>
            haddable
        have hinfo := getElem?_modifyInfo { (am.create addr source).1 with nNew := (am.create addr source).1.nNew + 1 }
          (fun info => { info with nTime := UInt32.ofInt (max 0 (info.nTime.toNat - nTimePenalty)) }) am.nIdCount
          am.nIdCount
        rw [if_pos rfl, getElem?_create, if_pos rfl, Option.map_some] at hinfo
        obtain ⟨am', hadd, h'⟩ := addRef_spec hash hdated hinfo source rand nNow
        exact ⟨am', true, congrArg (Option.map (·, true)) hadd, h'⟩
    | some found =>
        obtain ⟨nId, info⟩ := found
        obtain ⟨hinfo, _⟩ := h.indexed.find_eq_some hfind
        dsimp only
        have h' := h.modifyInfo nId (fun pinfo => { pinfo with
            nTime := updatedTime info addr nTimePenalty nNow, nServices := pinfo.nServices ||| addr.nServices })
          (fun _ => rfl) (fun _ => rfl) fun _ _ _ hok => ⟨hok.refs, hok.tried, hok.new, hok.nLastTry, hok.nLastSuccess⟩
        split
        · exact ⟨_, _, rfl, h'⟩
        · split
          · exact ⟨_, _, rfl, h'⟩
          · split
            · exact ⟨_, _, rfl, h'⟩
            · split
              · exact ⟨_, _, rfl, h'⟩
              · rename_i htried hrefs _
                have hinfo' := getElem?_modifyInfo am (fun pinfo => { pinfo with
                  nTime := updatedTime info addr nTimePenalty nNow
                  nServices := pinfo.nServices ||| addr.nServices }) nId nId
                rw [if_pos rfl, hinfo, Option.map_some] at hinfo'
                have haddable := h'.addable hinfo' (Bool.eq_false_of_not_eq_true htried) hrefs
                obtain ⟨am', hadd, h''⟩ := addRef_spec hash haddable hinfo' source (fun i => rand (i + 1)) nNow
                exact ⟨am', false, congrArg (Option.map (·, false)) hadd, h''⟩

/-! ## Select and GetAddr -/

theorem selectFrom_spec {buckets : List (List Nat)}
    (hinfo : ∀ v ∈ buckets, ∀ nId ∈ v, ∃ info, am.mapInfo[nId]? = some info) (rand : Nat → Nat)
    (accept : Nat → CAddrInfo → Bool) (nTries i : Nat) :
    ∃ addr, am.selectFrom rand accept buckets nTries i = some addr := by
  induction nTries generalizing i with
  | zero => exact ⟨_, rfl⟩
  | succ nTries ih =>
      rw [selectFrom]
      generalize hv : buckets.getD (getRandInt (rand (2 * i)) buckets.length) [] = v
      split
      · exact ih (i + 1)
      · rename_i hlength
        have hlt := @getRandInt_lt (rand (2 * i + 1)) _ (Nat.pos_of_ne_zero hlength)
        have hv' : v ∈ buckets := by
          rw [List.getD_eq_getElem?_getD] at hv
          cases hget : buckets[getRandInt (rand (2 * i)) buckets.length]? with
          | none =>
              rw [hget] at hv
              subst v
              exact absurd rfl hlength
          | some v' =>
              rw [hget] at hv
              obtain rfl : v' = v := hv
              exact List.mem_of_getElem? hget
        obtain ⟨info, hinfo'⟩ := hinfo v hv' _ (List.getElem_mem hlt)
        simp only [List.getElem?_eq_getElem hlt, hinfo']
        split
        · exact ⟨_, rfl⟩
        · exact ih (i + 1)

theorem select_spec (h : am.Consistent) (fTestNet : Bool) (rand : Nat → Nat) (fUseTried : Bool)
    (accept : Nat → CAddrInfo → Bool) : ∃ addr, am.select fTestNet rand fUseTried accept = some addr := by
  rw [select]
  split
  · exact ⟨_, rfl⟩
  · dsimp only
    split
    · refine selectFrom_spec (fun v hv nId hnId => ?_) rand accept _ 0
      obtain ⟨n, _, rfl⟩ := List.mem_map.1 hv
      exact h.exists_of_mem_tried hnId
    · refine selectFrom_spec (fun v hv nId hnId => ?_) rand accept _ 0
      obtain ⟨n, _, rfl⟩ := List.mem_map.1 hv
      exact h.exists_of_mem_new ((Finset.mem_sort _).1 hnId)

theorem getAddrStep_spec (h : am.Consistent) (rand : Nat → Nat) (vAddr : List CAddress) {n : Nat}
    (hn : n < am.vRandom.length) :
    ∃ am' vAddr', getAddrStep rand (am, vAddr) n = some (am', vAddr') ∧ am'.Consistent ∧
      am'.vRandom.length = am.vRandom.length := by
  have hpos : getRandInt (rand n) (am.vRandom.length - n) + n < am.vRandom.length := by
    have hlt := @getRandInt_lt (rand n) _ (Nat.sub_pos_of_lt hn)
    omega
  obtain ⟨v, m, hswap, hlength, hmap, hindexed⟩ := swapRandom_spec h.indexed hn hpos
  have hat : v[n]? = some (v.get ⟨n, hlength ▸ hn⟩) := List.getElem?_eq_getElem _
  obtain ⟨info, hinfo, _⟩ := exists_info hindexed hat
  refine ⟨{ am with vRandom := v, mapInfo := m }, vAddr ++ [info.toCAddress], ?_, ?_, hlength⟩
  · simp only [getAddrStep, hswap, hat, hinfo]
  · refine ⟨hindexed, fun nId info' hinfo' => ?_, fun nId hnone => ?_, h.newSize, h.triedSize, h.nTried, ?_⟩
    · rw [hmap] at hinfo'
      obtain ⟨info₀, hinfo₀, rfl⟩ := Option.map_eq_some_iff.1 hinfo'
      exact (h.entry nId info₀ hinfo₀).moved _ _
    · rw [hmap, Option.map_eq_none_iff] at hnone
      exact h.absent nId hnone
    · exact (congrArg Int.ofNat hlength).trans h.total

theorem getAddr_spec (h : am.Consistent) (rand : Nat → Nat) :
    ∃ am' vAddr, am.getAddr rand = some (am', vAddr) ∧ am'.Consistent := by
  have hfold : ∀ (ns : List Nat) (am : CAddrMan) (vAddr : List CAddress), am.Consistent →
      (∀ n ∈ ns, n < am.vRandom.length) →
      ∃ am' vAddr', ns.foldlM (getAddrStep rand) (am, vAddr) = some (am', vAddr') ∧ am'.Consistent := by
    intro ns
    induction ns with
    | nil => exact fun am vAddr h _ => ⟨am, vAddr, rfl, h⟩
    | cons n ns ih =>
        intro am vAddr h hns
        obtain ⟨am₁, vAddr₁, hstep, h₁, hlength⟩ := getAddrStep_spec h rand vAddr (hns n List.mem_cons_self)
        rw [List.foldlM_cons, hstep]
        exact ih am₁ vAddr₁ h₁ fun n hn => hlength ▸ hns n (List.mem_cons_of_mem _ hn)
  refine hfold _ am [] h fun n hn => ?_
  have hn' := Nat.lt_of_lt_of_le (List.mem_range.1 hn) (Nat.min_le_left _ _)
  have hpct : ADDRMAN_GETADDR_MAX_PCT = 23 := rfl
  rw [hpct] at hn'
  omega

end ProCurrency.CAddrMan

/-!
## The consistency of the address manager

Whatever calls are made, in which order and with which random numbers: no assertion fails, and the conditions of
`Check_` hold after each of them.
-/

namespace ProCurrency

namespace CAddrMan

open Buckets SwapIndex

variable {am : CAddrMan} {nId : Nat} {info : CAddrInfo}

/-! ## The buckets as lists -/

/-- The tried buckets, one after the other. -/
def triedIds (am : CAddrMan) : List Nat := (List.finRange ADDRMAN_TRIED_BUCKET_COUNT).flatMap am.vvTried

def newIds (am : CAddrMan) : List Nat :=
  (List.finRange ADDRMAN_NEW_BUCKET_COUNT).flatMap fun n => (am.vvNew n).sort (· ≤ ·)

theorem count_triedIds (am : CAddrMan) (nId : Nat) : am.triedIds.count nId = triedCount am.vvTried nId := by
  rw [triedIds, List.count_flatMap, triedCount, occurrences, Fin.sum_univ_def]
  rfl

theorem length_triedIds (am : CAddrMan) : am.triedIds.length = triedTotal am.vvTried := by
  rw [triedIds, List.length_flatMap, triedTotal, occurrences, Fin.sum_univ_def]
  rfl

theorem count_newIds (am : CAddrMan) (nId : Nat) : am.newIds.count nId = newCount am.vvNew nId := by
  rw [newIds, List.count_flatMap, newCount, occurrences, Fin.sum_univ_def]
  congr 1
  refine List.map_congr_left fun n _ => ?_
  rw [Function.comp_apply, countNew, (Finset.sort_nodup _ _).count]
  simp only [Finset.mem_sort]

/-! ## The loops of the check -/

theorem checkTried_nodup {vTried : List Nat} (h : vTried.Nodup) : checkTried vTried vTried.toFinset = some ∅ := by
  induction vTried with
  | nil => rfl
  | cons n vTried ih =>
      obtain ⟨hn, hnodup⟩ := List.nodup_cons.1 h
      have herase : (insert n vTried.toFinset).erase n = vTried.toFinset :=
        Finset.erase_insert fun hmem => hn (List.mem_toFinset.1 hmem)
      rw [checkTried, List.toFinset_cons, if_pos (Finset.mem_insert_self _ _), herase]
      exact ih hnodup

/-- The counts of a list are counted down to nothing. -/
theorem checkNew_count {vNew : List Nat} {mapNew : Std.ExtTreeMap Nat Int}
    (h : ∀ n : Nat, mapNew[n]? = if vNew.count n = 0 then none else some (vNew.count n : Int)) :
    checkNew vNew mapNew = some ∅ := by
  induction vNew generalizing mapNew with
  | nil =>
      rw [checkNew, Option.some.injEq]
      refine Std.ExtTreeMap.ext_getElem? fun n => ?_
      rw [h n, Std.ExtTreeMap.getElem?_empty]
      rfl
  | cons n vNew ih =>
      have hn := h n
      rw [List.count_cons_self, if_neg (Nat.succ_ne_zero _)] at hn
      rw [checkNew, hn]
      refine ih fun n' => ?_
      have hsub : ((vNew.count n + 1 : Nat) : Int) - 1 = vNew.count n := by omega
      rw [hsub]
      by_cases hsame : n = n'
      · subst n'
        by_cases hzero : vNew.count n = 0
        · rw [if_pos hzero, hzero]
          show (mapNew.erase n)[n]? = none
          rw [PackedMap.getElem?_erase, if_pos rfl]
        · have hzero' : ¬((vNew.count n : Int) = 0) := by omega
          rw [if_neg hzero, if_neg hzero', PackedMap.getElem?_insert, if_pos rfl]
      · have hn' := h n'
        rw [List.count_cons_of_ne hsame] at hn'
        split
        · rw [PackedMap.getElem?_erase, if_neg hsame, hn']
        · rw [PackedMap.getElem?_insert, if_neg hsame, hn']

/-! ## The counts of the entries -/

theorem nodup_keys (am : CAddrMan) : (am.mapInfo.toList.map Prod.fst).Nodup := by
  rw [List.nodup_iff_pairwise_ne, List.pairwise_map]
  exact Std.ExtTreeMap.distinct_keys_toList.imp fun hne heq => hne (Std.compare_eq_iff_eq.2 heq)

theorem mem_toList_iff : (nId, info) ∈ am.mapInfo.toList ↔ am.mapInfo[nId]? = some info :=
  Std.ExtTreeMap.mem_toList_iff_getElem?_eq_some

theorem Consistent.nodup_triedIds (h : am.Consistent) : am.triedIds.Nodup := by
  rw [List.nodup_iff_count_le_one]
  intro nId
  rw [count_triedIds]
  cases hinfo : am.mapInfo[nId]? with
  | none => rw [(h.absent nId hinfo).2]; exact Nat.zero_le 1
  | some info =>
      have hok := h.entry nId info hinfo
      cases htried : info.fInTried with
      | true => rw [(hok.tried htried).2.1]
      | false => rw [(hok.new htried).2.2]; exact Nat.zero_le 1

theorem Consistent.mem_triedIds (h : am.Consistent) :
    nId ∈ am.triedIds ↔ ∃ info, am.mapInfo[nId]? = some info ∧ info.fInTried = true := by
  rw [← List.count_pos_iff, count_triedIds]
  constructor
  · intro hpos
    cases hinfo : am.mapInfo[nId]? with
    | none => rw [(h.absent nId hinfo).2] at hpos; cases hpos
    | some info => exact ⟨info, rfl, (h.entry nId info hinfo).in_tried hpos⟩
  · rintro ⟨info, hinfo, htried⟩
    rw [((h.entry nId info hinfo).tried htried).2.1]
    exact Nat.one_pos

theorem Consistent.triedKeys_perm (h : am.Consistent) :
    ((am.mapInfo.toList.filter fun e => e.2.fInTried).map Prod.fst).Perm am.triedIds := by
  have hnodup := am.nodup_keys.sublist ((am.mapInfo.toList.filter_sublist (p := fun e => e.2.fInTried)).map Prod.fst)
  refine (List.perm_ext_iff_of_nodup hnodup h.nodup_triedIds).2 fun nId => ?_
  rw [h.mem_triedIds, List.mem_map]
  constructor
  · rintro ⟨⟨nId', info⟩, hmem, rfl⟩
    obtain ⟨hmem, htried⟩ := List.mem_filter.1 hmem
    exact ⟨info, mem_toList_iff.1 hmem, htried⟩
  · rintro ⟨info, hinfo, htried⟩
    exact ⟨(nId, info), List.mem_filter.2 ⟨mem_toList_iff.2 hinfo, htried⟩, rfl⟩

theorem Consistent.length_tried (h : am.Consistent) :
    ((am.mapInfo.toList.filter fun e => e.2.fInTried).length : Int) = am.nTried := by
  rw [h.nTried, ← length_triedIds, ← h.triedKeys_perm.length_eq, List.length_map]

theorem Consistent.length_new (h : am.Consistent) :
    ((am.mapInfo.toList.filter fun e => !e.2.fInTried).length : Int) = am.nNew := by
  have hperm : (am.mapInfo.toList.map Prod.fst).Perm am.vRandom := by
    refine (List.perm_ext_iff_of_nodup am.nodup_keys h.indexed.random.nodup).2 fun nId => ?_
    rw [h.indexed.random.mem_iff, posOf, Option.isSome_map, Option.isSome_iff_exists, List.mem_map]
    constructor
    · rintro ⟨⟨nId', info⟩, hmem, rfl⟩
      exact ⟨info, mem_toList_iff.1 hmem⟩
    · rintro ⟨info, hinfo⟩
      exact ⟨(nId, info), mem_toList_iff.2 hinfo, rfl⟩
  have hlength := hperm.length_eq
  rw [List.length_map] at hlength
  have hsplit := am.mapInfo.toList.length_eq_length_filter_add fun e => e.2.fInTried
  have htried := h.length_tried
  have htotal := h.total
  omega

/-! ## The check -/

theorem Consistent.checkInfo (h : am.Consistent) (hinfo : am.mapInfo[nId]? = some info) :
    am.checkInfo nId info = none := by
  have hok := h.entry nId info hinfo
  have haddr := (h.indexed.addr info.addr nId).2 ⟨info, hinfo, rfl⟩
  have hat := getElem?_vRandom h.indexed hinfo
  have hlast := hok.nLastTry
  have hsuccess := hok.nLastSuccess
  have hrefs := hok.refs
  have htried := hok.tried
  have hnew := hok.new
  rw [CAddrMan.checkInfo, haddr, hat, Option.getD_some]
  cases hin : info.fInTried with
  | true =>
      obtain ⟨hnews, _, hne⟩ := htried hin
      rw [hnews] at hrefs
      simp only [hne, hrefs, not_lt.2 hlast, not_lt.2 hsuccess, Nat.cast_zero, ne_eq, not_true_eq_false, and_false,
        false_and, if_false]
  | false =>
      obtain ⟨hmin, hmax, _⟩ := hnew hin
      have hlow : ¬info.nRefCount < 0 := by omega
      have hhigh : ¬info.nRefCount > ADDRMAN_NEW_BUCKETS_PER_ADDRESS := by omega
      have hzero : ¬info.nRefCount = 0 := by omega
      simp only [hlow, hhigh, hzero, not_lt.2 hlast, not_lt.2 hsuccess, ne_eq, not_true_eq_false, Bool.false_eq_true,
        or_self, and_false, false_and, if_false]

theorem Consistent.check_eq_zero (h : am.Consistent) : am.check = 0 := by
  have htotal : (am.vRandom.length : Int) = am.nTried + am.nNew := by
    have htotal := h.total
    omega
  have hinfos : (am.mapInfo.toList.findSome? fun e => am.checkInfo e.1 e.2) = none :=
    List.findSome?_eq_none_iff.2 fun e he => h.checkInfo (mem_toList_iff.1 he)
  have hset : ((am.mapInfo.toList.filter fun e => e.2.fInTried).map Prod.fst).toFinset = am.triedIds.toFinset :=
    List.toFinset_eq_of_perm _ _ h.triedKeys_perm
  have hcard : (am.triedIds.toFinset.card : Int) = am.nTried := by
    rw [List.toFinset_card_of_nodup h.nodup_triedIds, length_triedIds, h.nTried]
  have hsize : ((am.mapInfo.filterMap fun _ info => if info.fInTried then none else some info.nRefCount).size : Int) =
      am.nNew := by
    rw [← h.length_new, ← Std.ExtTreeMap.length_toList, Std.ExtTreeMap.toList_filterMap,
      List.length_filterMap_eq_countP, List.countP_eq_length_filter]
    have hkept : ∀ e : Nat × CAddrInfo,
        ((if e.2.fInTried then none else some e.2.nRefCount).map fun nRefs => (e.1, nRefs)).isSome = !e.2.fInTried := by
      intro e
      cases e.2.fInTried <;> rfl
    simp only [hkept]
  have hcounts : ∀ n : Nat,
      (am.mapInfo.filterMap fun _ info => if info.fInTried then none else some info.nRefCount)[n]? =
        if am.newIds.count n = 0 then none else some (am.newIds.count n : Int) := by
    intro n
    rw [Std.ExtTreeMap.getElem?_filterMap', count_newIds]
    cases hinfo : am.mapInfo[n]? with
    | none => rw [(h.absent n hinfo).1]; rfl
    | some info =>
        have hok := h.entry n info hinfo
        rw [Option.bind_some]
        cases hin : info.fInTried with
        | true => rw [(hok.tried hin).1]; rfl
        | false =>
            rw [if_neg Bool.false_ne_true, if_neg (Nat.ne_of_gt (hok.new hin).1), hok.refs]
  have htried : checkTried ((List.finRange ADDRMAN_TRIED_BUCKET_COUNT).flatMap am.vvTried) am.triedIds.toFinset =
      some ∅ := checkTried_nodup h.nodup_triedIds
  have hnew : checkNew ((List.finRange ADDRMAN_NEW_BUCKET_COUNT).flatMap fun n => (am.vvNew n).sort (· ≤ ·))
      (am.mapInfo.filterMap fun _ info => if info.fInTried then none else some info.nRefCount) = some ∅ :=
    checkNew_count hcounts
  simp only [check, htotal, hinfos, hset, hcard, hsize, htried, hnew, ne_eq, not_true_eq_false, if_false]
  rfl

/-- What holds of a manager between the calls. -/
structure Checked (am : CAddrMan) : Prop where
  /-- The random vector lists each id once, at its position. -/
  random_nodup : am.vRandom.Nodup
  random : ∀ nId : Nat, nId ∈ am.vRandom ↔ ∃ info, am.mapInfo[nId]? = some info
  position : ∀ (nId : Nat) (info : CAddrInfo), am.mapInfo[nId]? = some info → am.vRandom[info.nRandomPos]? = some nId
  /-- The two maps are inverse to each other. -/
  addr : ∀ (a : CNetAddr) (nId : Nat),
    am.mapAddr[a]? = some nId ↔ ∃ info : CAddrInfo, am.mapInfo[nId]? = some info ∧ info.addr = a
  /-- An entry is in one tried bucket and in no new one, or in as many new ones as it has references. -/
  tried : ∀ (nId : Nat) (info : CAddrInfo), am.mapInfo[nId]? = some info → info.fInTried = true →
    info.nRefCount = 0 ∧ (∀ n, nId ∉ am.vvNew n) ∧ (∃! n, nId ∈ am.vvTried n) ∧ ∀ n, (am.vvTried n).count nId ≤ 1
  new : ∀ (nId : Nat) (info : CAddrInfo), am.mapInfo[nId]? = some info → info.fInTried = false →
    1 ≤ info.nRefCount ∧ info.nRefCount ≤ ADDRMAN_NEW_BUCKETS_PER_ADDRESS ∧
      ((Finset.univ.filter fun n => nId ∈ am.vvNew n).card : Int) = info.nRefCount ∧ ∀ n, nId ∉ am.vvTried n
  listed : ∀ nId : Nat, (∃ n, nId ∈ am.vvTried n) ∨ (∃ n, nId ∈ am.vvNew n) → ∃ info, am.mapInfo[nId]? = some info
  nTried : ((am.mapInfo.toList.filter fun e => e.2.fInTried).length : Int) = am.nTried
  nNew : ((am.mapInfo.toList.filter fun e => !e.2.fInTried).length : Int) = am.nNew
  triedSize : ∀ n, (am.vvTried n).length ≤ ADDRMAN_TRIED_BUCKET_SIZE
  newSize : ∀ n, (am.vvNew n).card ≤ ADDRMAN_NEW_BUCKET_SIZE
  check : am.check = 0

theorem Consistent.checked (h : am.Consistent) : am.Checked where
  random_nodup := h.indexed.random.nodup
  random nId := by rw [h.indexed.random.mem_iff, posOf, Option.isSome_map, Option.isSome_iff_exists]
  position nId info hinfo := getElem?_vRandom h.indexed hinfo
  addr := h.indexed.addr
  tried nId info hinfo htried := by
    have hok := h.entry nId info hinfo
    obtain ⟨hnews, htrieds, _⟩ := hok.tried htried
    refine ⟨hok.refs.trans (congrArg Int.ofNat hnews), not_mem_of_newCount hnews, ?_, fun n => ?_⟩
    · obtain ⟨n, hn, hunique⟩ := existsUnique_of_occurrences htrieds
      exact ⟨n, List.count_pos_iff.1 hn, fun n' hn' => hunique n' (List.count_pos_iff.2 hn')⟩
    · exact Nat.le_trans (count_le_occurrences countTried am.vvTried nId n) (Nat.le_of_eq htrieds)
  new nId info hinfo hin := by
    have hok := h.entry nId info hinfo
    obtain ⟨hmin, hmax, htrieds⟩ := hok.new hin
    refine ⟨?_, ?_, ?_, fun n hmem => ?_⟩
    · rw [hok.refs]
      exact Int.ofNat_le.2 hmin
    · rw [hok.refs]
      exact hmax
    · rw [card_filter_mem, hok.refs]
    · have hpos := triedCount_pos hmem
      rw [htrieds] at hpos
      cases hpos
  listed nId hmem := by
    rcases hmem with ⟨n, hmem⟩ | ⟨n, hmem⟩
    · exact h.exists_of_mem_tried hmem
    · exact h.exists_of_mem_new hmem
  nTried := h.length_tried
  nNew := h.length_new
  triedSize := h.triedSize
  newSize := h.newSize
  check := h.check_eq_zero

end CAddrMan

/-! ## Runs -/

theorem CAddrMan.consistent_new (nKey : List UInt8) : CAddrMan.Consistent { nKey } where
  indexed :=
    { random := fun _ _ => ⟨nofun, nofun⟩
      addr := fun _ _ => ⟨nofun, fun ⟨_, hinfo, _⟩ => nomatch hinfo⟩
      fresh := fun _ _ => Std.ExtTreeMap.getElem?_empty }
  entry := nofun
  absent _ _ := ⟨Buckets.occurrences_eq_zero_iff.2 fun _ => rfl, Buckets.occurrences_eq_zero_iff.2 fun _ => rfl⟩
  newSize _ := Nat.zero_le _
  triedSize _ := Nat.zero_le _
  nTried := (congrArg Int.ofNat (Buckets.occurrences_eq_zero_iff.2 fun _ => rfl)).symm
  total := rfl

theorem AddrManCall.step_spec (hash : List UInt8 → UInt256) {am : CAddrMan} (h : am.Consistent) (call : AddrManCall)
    (hcall : call.AfterEpoch) : ∃ am' result, call.step hash am = some (am', result) ∧ am'.Consistent := by
  cases call with
  | add addr source nTimePenalty nNow rand =>
      obtain ⟨am', fNew, hadd, h'⟩ := CAddrMan.add_spec hash h addr source nTimePenalty nNow rand
      exact ⟨am', .added fNew, congrArg (Option.map (Prod.map id AddrManResult.added)) hadd, h'⟩
  | good addr nTime rand =>
      obtain ⟨am', hgood, h'⟩ := CAddrMan.good_spec hash h hcall addr rand
      exact ⟨am', .nothing, congrArg (Option.map (·, AddrManResult.nothing)) hgood, h'⟩
  | attempt addr nTime => exact ⟨_, _, rfl, h.attempt hcall addr⟩
  | connected addr nTime => exact ⟨_, _, rfl, h.connected addr nTime⟩
  | select fTestNet fUseTried accept rand =>
      obtain ⟨addr, hselect⟩ := CAddrMan.select_spec h fTestNet rand fUseTried accept
      exact ⟨am, .address addr, congrArg (Option.map fun addr => (am, AddrManResult.address addr)) hselect, h⟩
  | getAddr rand =>
      obtain ⟨am', vAddr, hget, h'⟩ := CAddrMan.getAddr_spec h rand
      exact ⟨am', .addresses vAddr, congrArg (Option.map (Prod.map id AddrManResult.addresses)) hget, h'⟩

/-- Every sequence of calls of a new manager has a result, and leaves it consistent. -/
theorem addrMan_checked (hash : List UInt8 → UInt256) (nKey : List UInt8) (calls : List AddrManCall)
    (hcalls : ∀ call ∈ calls, call.AfterEpoch) :
    ∃ am, EventRun.run (AddrManCall.step hash) calls { nKey } = some am ∧ am.Checked := by
  obtain ⟨am, hrun, h⟩ := EventRun.run_total CAddrMan.Consistent
    (fun _ call h hcall => AddrManCall.step_spec hash h call hcall) hcalls (CAddrMan.consistent_new nKey)
  exact ⟨am, hrun, h.checked⟩

/-- A peer, added, tried and found good. -/
def peerCalls : List AddrManCall :=
  let peer : CService := ⟨#v[0, 0, 0, 0, 0, 0, 0, 0, 0, 0, 0xff, 0xff, 8, 8, 8, 8], 30000⟩
  [.add { peer with nServices := 1, nTime := 1400000000 } peer.addr 0 1400000000 id, .attempt peer 1400000100,
    .good peer 1400000200 id, .getAddr id]

theorem addrMan_checked_peerCalls :
    ∃ am, EventRun.run (AddrManCall.step fun _ => 0) peerCalls { nKey := [] } = some am ∧ am.Checked := by
  refine addrMan_checked (fun _ => 0) [] peerCalls fun call hcall => ?_
  simp only [peerCalls, List.mem_cons, List.not_mem_nil, or_false] at hcall
  rcases hcall with rfl | rfl | rfl | rfl
  · exact trivial
  · exact (by decide : (0 : Int) < 1400000100)
  · exact (by decide : (0 : Int) < 1400000200)
  · exact trivial

end ProCurrency
