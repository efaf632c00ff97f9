import ProCurrency.Addr.Theorems

/-!
# The place of a tried entry

A tried entry stays in the bucket that its address and the key of the manager select, and the time of its last success
is one that a call has given.
-/

namespace ProCurrency.CAddrMan

variable {am am' am'' : CAddrMan} {nId : Nat} {info : CAddrInfo} {hash : List UInt8 → UInt256}

theorem getTriedBucket_congr {info info' : CAddrInfo} (h : info'.toCService = info.toCService) (nKey : List UInt8) :
    info'.getTriedBucket hash nKey = info.getTriedBucket hash nKey := by
  simp only [CAddrInfo.getTriedBucket, h]

/-- Each entry was there before, with the same address and the same success. -/
structure Follows (am am' : CAddrMan) : Prop where
  nKey : am'.nKey = am.nKey
  entry : ∀ (nId : Nat) (info' : CAddrInfo), am'.mapInfo[nId]? = some info' →
    ∃ info, am.mapInfo[nId]? = some info ∧ info'.toCService = info.toCService ∧ info'.nLastSuccess = info.nLastSuccess

theorem Follows.refl (am : CAddrMan) : Follows am am := ⟨rfl, fun _ info hinfo => ⟨info, hinfo, rfl, rfl⟩⟩

theorem Follows.trans (h : Follows am am') (h' : Follows am' am'') : Follows am am'' where
  nKey := h'.nKey.trans h.nKey
  entry nId info'' hinfo'' := by
    obtain ⟨info', hinfo', haddr', hsuccess'⟩ := h'.entry nId info'' hinfo''
    obtain ⟨info, hinfo, haddr, hsuccess⟩ := h.entry nId info' hinfo'
    exact ⟨info, hinfo, haddr'.trans haddr, hsuccess'.trans hsuccess⟩

/-- A change of an entry that leaves its address and its success. -/
theorem follows_modifyInfo (change : CAddrInfo → CAddrInfo) (haddr : ∀ info, (change info).toCService = info.toCService)
    (hsuccess : ∀ info, (change info).nLastSuccess = info.nLastSuccess) (nId : Nat) :
    Follows am (am.modifyInfo nId change) := by
  refine ⟨rfl, fun nId' info' hinfo' => ?_⟩
  rw [getElem?_modifyInfo] at hinfo'
  split at hinfo'
  · obtain ⟨info, hinfo, rfl⟩ := Option.map_eq_some_iff.1 hinfo'
    exact ⟨info, hinfo, haddr info, hsuccess info⟩
  · exact ⟨info', hinfo', rfl, rfl⟩

/-- What holds of the place of the entries. -/
structure Placed (hash : List UInt8 → UInt256) (am : CAddrMan) : Prop where
  bucket : ∀ (n : Fin ADDRMAN_TRIED_BUCKET_COUNT) (nId : Nat) (info : CAddrInfo), nId ∈ am.vvTried n →
    am.mapInfo[nId]? = some info → info.getTriedBucket hash am.nKey = n
  nLastSuccess : ∀ (nId : Nat) (info : CAddrInfo), am.mapInfo[nId]? = some info → info.nLastSuccess < 2 ^ 63

/-- Entries come into the bucket of their address only. -/
theorem Placed.of_follows (h : Placed hash am) (hfollows : Follows am am')
    (hmem : ∀ (n : Fin ADDRMAN_TRIED_BUCKET_COUNT) (nId : Nat) (info : CAddrInfo), nId ∈ am'.vvTried n →
      am.mapInfo[nId]? = some info → nId ∈ am.vvTried n ∨ info.getTriedBucket hash am.nKey = n) : Placed hash am' where
  bucket n nId info' hin hinfo' := by
    obtain ⟨info, hinfo, haddr, _⟩ := hfollows.entry nId info' hinfo'
    rw [hfollows.nKey, getTriedBucket_congr haddr]
    rcases hmem n nId info hin hinfo with hold | hbucket
    · exact h.bucket n nId info hold hinfo
    · exact hbucket
  nLastSuccess nId info' hinfo' := by
    obtain ⟨info, hinfo, _, hsuccess⟩ := hfollows.entry nId info' hinfo'
    rw [hsuccess]
    exact h.nLastSuccess nId info hinfo

theorem Placed.follows (h : Placed hash am) (hfollows : Follows am am') (htried : am'.vvTried = am.vvTried) :
    Placed hash am' :=
  h.of_follows hfollows fun _ _ _ hin _ => .inl (htried ▸ hin)

/-! ## New buckets -/

theorem swapRandom_follows {p q : Nat} (hswap : am.swapRandom p q = some am') :
    Follows am am' ∧ am'.vvTried = am.vvTried := by
  rw [swapRandom] at hswap
  split at hswap
  · cases hswap
    exact ⟨.refl am, rfl⟩
  · split at hswap
    · rename_i nId1 nId2 _ _
      split at hswap
      · cases hswap
        have hfirst := @follows_modifyInfo am (fun info => { info with nRandomPos := q }) (fun _ => rfl) (fun _ => rfl)
        have hboth := (hfirst nId1).trans
          (@follows_modifyInfo _ (fun info => { info with nRandomPos := p }) (fun _ => rfl) (fun _ => rfl) nId2)
        exact ⟨⟨hboth.nKey, hboth.entry⟩, rfl⟩
      · cases hswap
    · cases hswap

theorem releaseNew_follows (hrelease : am.releaseNew nId = some am') : Follows am am' ∧ am'.vvTried = am.vvTried := by
  rw [releaseNew] at hrelease
  have hcounted := @follows_modifyInfo am (fun info => { info with nRefCount := info.nRefCount - 1 }) (fun _ => rfl)
    (fun _ => rfl) nId
  split at hrelease
  · cases hrelease
  · dsimp only at hrelease
    split at hrelease
    · split at hrelease
      · cases hrelease
      · split at hrelease
        · cases hrelease
        · rename_i am₁ hswap
          cases hrelease
          obtain ⟨hfollows, htried⟩ := swapRandom_follows hswap
          have hall := hcounted.trans hfollows
          refine ⟨⟨hall.nKey, fun nId' info' hinfo' => ?_⟩, htried⟩
          have herased : (am₁.mapInfo.erase nId)[nId']? = some info' := hinfo'
          rw [PackedMap.getElem?_erase] at herased
          split at herased
          · cases herased
          · exact hall.entry nId' info' herased
    · cases hrelease
      exact ⟨hcounted, rfl⟩

theorem shrinkNew_follows {rand : Nat → Nat} {nNow : Int} {n : Fin ADDRMAN_NEW_BUCKET_COUNT}
    (hshrink : am.shrinkNew rand nNow n = some am') : Follows am am' ∧ am'.vvTried = am.vvTried := by
  have herased : ∀ nId, am.eraseNew n nId = some am' → Follows am am' ∧ am'.vvTried = am.vvTried := by
    intro nId herase
    rw [eraseNew_eq] at herase
    obtain ⟨am₁, hrelease, rfl⟩ := Option.map_eq_some_iff.1 herase
    obtain ⟨hfollows, htried⟩ := releaseNew_follows hrelease
    exact ⟨⟨hfollows.nKey, hfollows.entry⟩, htried⟩
  rw [shrinkNew] at hshrink
  dsimp only at hshrink
  split at hshrink
  · cases hshrink
  · exact herased _ hshrink
  · split at hshrink
    · cases hshrink
    · cases hshrink
    · exact herased _ hshrink

theorem addRef_follows {rand : Nat → Nat} {nNow : Int} {source : CNetAddr}
    (hadd : am.addRef hash rand nNow nId source = some am') : Follows am am' ∧ am'.vvTried = am.vvTried := by
  rw [addRef] at hadd
  have hcounted := @follows_modifyInfo am (fun info => { info with nRefCount := info.nRefCount + 1 }) (fun _ => rfl)
    (fun _ => rfl) nId
  split at hadd
  · cases hadd
  · dsimp only at hadd
    split at hadd
    · cases hadd
      exact ⟨.refl am, rfl⟩
    · split at hadd
      · cases hadd
      · rename_i am₁ hshrink
        cases hadd
        split at hshrink
        · obtain ⟨hfollows, htried⟩ := shrinkNew_follows hshrink
          have hall := hcounted.trans hfollows
          exact ⟨⟨hall.nKey, hall.entry⟩, htried⟩
        · cases hshrink
          exact ⟨⟨hcounted.nKey, hcounted.entry⟩, rfl⟩

/-! ## Tried buckets -/

theorem selectTried_mem {rand : Nat → Nat} {n : Fin ADDRMAN_TRIED_BUCKET_COUNT} {sel : Selection}
    (hselect : am.selectTried rand n = some sel) {nId' : Nat} (hmem : nId' ∈ sel.vTried) : nId' ∈ am.vvTried n := by
  suffices hfold : ∀ (is : List Nat) (sel₀ : Selection), (∀ nId ∈ sel₀.vTried, nId ∈ am.vvTried n) →
      is.foldlM (am.selectTriedStep rand) sel₀ = some sel → ∀ nId ∈ sel.vTried, nId ∈ am.vvTried n from
    hfold _ _ (fun _ hmem => hmem) hselect nId' hmem
  intro is
  induction is with
  | nil =>
      intro sel₀ hsub hrun
      cases hrun
      exact hsub
  | cons i is ih =>
      intro sel₀ hsub hrun
      rw [List.foldlM_cons] at hrun
      cases hstep : am.selectTriedStep rand sel₀ i with
      | none => rw [hstep] at hrun; cases hrun
      | some sel₁ =>
          rw [hstep] at hrun
          refine ih sel₁ (fun nId hnId => ?_) hrun
          have hswapped : ∀ {nPos nTemp nFirst : Nat}, sel₀.vTried[nPos]? = some nTemp → sel₀.vTried[i]? = some nFirst →
              nId ∈ (sel₀.vTried.set nPos nFirst).set i nTemp → nId ∈ am.vvTried n := by
            intro nPos nTemp nFirst htemp hfirst hin
            rcases List.mem_or_eq_of_mem_set hin with hin | rfl
            · rcases List.mem_or_eq_of_mem_set hin with hin | rfl
              · exact hsub nId hin
              · exact hsub _ (List.mem_of_getElem? hfirst)
            · exact hsub _ (List.mem_of_getElem? htemp)
          rw [selectTriedStep] at hstep
          split at hstep
          · dsimp only at hstep
            split at hstep
            · rename_i htemp hfirst
              split at hstep
              · cases hstep
                exact hswapped htemp hfirst hnId
              · split at hstep
                · split at hstep
                  · cases hstep
                    exact hswapped htemp hfirst hnId
                  · cases hstep
                    exact hswapped htemp hfirst hnId
                · cases hstep
            · cases hstep
          · cases hstep
            exact hsub nId hnId

theorem Placed.enterTried (h : Placed hash am) {rand : Nat → Nat} {nOrigin : Fin ADDRMAN_NEW_BUCKET_COUNT}
    (henter : am.enterTried hash rand nId info nOrigin = some am') (hinfo : am.mapInfo[nId]? = some info) :
    Placed hash am' ∧ am'.nKey = am.nKey := by
  have hmarked := fun am => @follows_modifyInfo am (fun info => { info with fInTried := true }) (fun _ => rfl)
    (fun _ => rfl) nId
  have hself : ∀ info', am.mapInfo[nId]? = some info' →
      info'.getTriedBucket hash am.nKey = info.getTriedBucket hash am.nKey := by
    intro info' hinfo'
    rw [hinfo] at hinfo'
    cases hinfo'
    rfl
  rw [CAddrMan.enterTried] at henter
  dsimp only at henter
  split at henter
  · cases henter
    refine ⟨h.of_follows ⟨(hmarked am).nKey, (hmarked am).entry⟩ fun n nId' info' hin hinfo' => ?_, rfl⟩
    dsimp only [modifyInfo_vvTried] at hin
    by_cases hn : n = info.getTriedBucket hash am.nKey
    · subst n
      rw [Function.update_self] at hin
      rcases List.mem_append.1 hin with hin | hin
      · exact .inl hin
      · obtain rfl := List.mem_singleton.1 hin
        exact .inr (hself info' hinfo')
    · rw [Function.update_of_ne hn] at hin
      exact .inl hin
  · split at henter
    · rename_i vTried _ nPos hselect
      split at henter
      · cases henter
      · rename_i nIdOld hold
        split at henter
        · cases henter
        · cases henter
          have hback := @follows_modifyInfo am (fun info => { info with fInTried := false, nRefCount := 1 })
            (fun _ => rfl) (fun _ => rfl) nIdOld
          have hall := hback.trans (hmarked _)
          refine ⟨h.of_follows ⟨hall.nKey, hall.entry⟩ fun n nId' info' hin hinfo' => ?_, rfl⟩
          dsimp only [modifyInfo_vvTried] at hin
          by_cases hn : n = info.getTriedBucket hash am.nKey
          · subst n
            rw [Function.update_self] at hin
            rcases List.mem_or_eq_of_mem_set hin with hin | rfl
            · exact .inl (selectTried_mem hselect hin)
            · exact .inr (hself info' hinfo')
          · rw [Function.update_of_ne hn] at hin
            exact .inl hin
    · cases henter

theorem Placed.makeTried (h : Placed hash am) {rand : Nat → Nat} {nOrigin : Fin ADDRMAN_NEW_BUCKET_COUNT}
    (hmake : am.makeTried hash rand nId nOrigin = some am') : Placed hash am' ∧ am'.nKey = am.nKey := by
  rw [CAddrMan.makeTried] at hmake
  split at hmake
  · cases hmake
  · dsimp only at hmake
    split at hmake
    · cases hmake
    · rename_i info hinfo
      split at hmake
      · cases hmake
      · have hcounted := @follows_modifyInfo am
          (fun info => { info with
            nRefCount := info.nRefCount - (Finset.univ.filter fun n => nId ∈ am.vvNew n).card })
          (fun _ => rfl) (fun _ => rfl) nId
        have hentered := fun hplaced => Placed.enterTried hplaced hmake hinfo
        exact hentered (h.follows ⟨hcounted.nKey, hcounted.entry⟩ rfl)

/-! ## The calls -/

theorem Placed.good (h : Placed hash am) {rand : Nat → Nat} {addr : CService} {nTime : Int} (hTime : nTime < 2 ^ 63)
    (hgood : am.good hash rand addr nTime = some am') : Placed hash am' ∧ am'.nKey = am.nKey := by
  rw [CAddrMan.good] at hgood
  split at hgood
  · cases hgood
    exact ⟨h, rfl⟩
  · rename_i nId info hfind
    split at hgood
    · cases hgood
      exact ⟨h, rfl⟩
    · have hdated : Placed hash (am.modifyInfo nId fun info =>
          { info with nLastSuccess := nTime, nLastTry := nTime, nTime := UInt32.ofInt nTime, nAttempts := 0 }) := by
        constructor
        · intro n nId' info' hin hinfo'
          rw [getElem?_modifyInfo] at hinfo'
          split at hinfo'
          · obtain ⟨info, hinfo, rfl⟩ := Option.map_eq_some_iff.1 hinfo'
            exact h.bucket n nId' info hin hinfo
          · exact h.bucket n nId' info' hin hinfo'
        · intro nId' info' hinfo'
          rw [getElem?_modifyInfo] at hinfo'
          split at hinfo'
          · obtain ⟨info, _, rfl⟩ := Option.map_eq_some_iff.1 hinfo'
            exact hTime
          · exact h.nLastSuccess nId' info' hinfo'
      dsimp only at hgood
      split at hgood
      · cases hgood
        exact ⟨hdated, rfl⟩
      · split at hgood
        · cases hgood
          exact ⟨hdated, rfl⟩
        · exact hdated.makeTried hgood

theorem attempt_follows (addr : CService) (nTime : Int) :
    Follows am (am.attempt addr nTime) ∧ (am.attempt addr nTime).vvTried = am.vvTried := by
  rw [attempt]
  split
  · exact ⟨.refl am, rfl⟩
  · split
    · exact ⟨.refl am, rfl⟩
    · refine ⟨follows_modifyInfo _ ?_ ?_ _, rfl⟩
      · exact fun _ => rfl
      · exact fun _ => rfl

theorem connected_follows (addr : CService) (nTime : Int) :
    Follows am (am.connected addr nTime) ∧ (am.connected addr nTime).vvTried = am.vvTried := by
  rw [connected]
  split
  · exact ⟨.refl am, rfl⟩
  · split
    · exact ⟨.refl am, rfl⟩
    · dsimp only
      split
      · refine ⟨follows_modifyInfo _ ?_ ?_ _, rfl⟩
        · exact fun _ => rfl
        · exact fun _ => rfl
      · exact ⟨.refl am, rfl⟩

/-- The id of an entry that is created is in no bucket. -/
theorem Placed.create (h : Placed hash am) (hconsistent : am.Consistent) (addr : CAddress) (source : CNetAddr) :
    Placed hash (am.create addr source).1 where
  bucket n nId info hin hinfo := by
    rw [getElem?_create] at hinfo
    split at hinfo
    · rename_i hid
      obtain ⟨info₀, hinfo₀⟩ := hconsistent.exists_of_mem_tried hin
      rw [← hid, hconsistent.indexed.fresh _ (Nat.le_refl _)] at hinfo₀
      cases hinfo₀
    · exact h.bucket n nId info hin hinfo
  nLastSuccess nId info hinfo := by
    rw [getElem?_create] at hinfo
    split at hinfo
    · cases hinfo
      exact (by decide : (0 : Int) < 2 ^ 63)
    · exact h.nLastSuccess nId info hinfo

theorem Placed.add (h : Placed hash am) (hconsistent : am.Consistent) {rand : Nat → Nat} {nNow nTimePenalty : Int}
    {addr : CAddress} {source : CNetAddr} {fNew : Bool}
    (hadd : am.add hash rand nNow addr source nTimePenalty = some (am', fNew)) :
    Placed hash am' ∧ am'.nKey = am.nKey := by
  rw [CAddrMan.add] at hadd
  split at hadd
  · cases hadd
    exact ⟨h, rfl⟩
  · split at hadd
    · rename_i nId pinfo hfind
      have hseen := @follows_modifyInfo am
        (fun info => { info with
          nTime := updatedTime pinfo addr nTimePenalty nNow, nServices := info.nServices ||| addr.nServices })
        (fun _ => rfl) (fun _ => rfl) nId
      have hplaced := h.follows hseen rfl
      dsimp only at hadd
      split at hadd
      · cases hadd
        exact ⟨hplaced, rfl⟩
      · split at hadd
        · cases hadd
          exact ⟨hplaced, rfl⟩
        · split at hadd
          · cases hadd
            exact ⟨hplaced, rfl⟩
          · split at hadd
            · cases hadd
              exact ⟨hplaced, rfl⟩
            · obtain ⟨am₁, href, heq⟩ := Option.map_eq_some_iff.1 hadd
              cases heq
              obtain ⟨hfollows, htried⟩ := addRef_follows href
              exact ⟨hplaced.follows hfollows htried, hfollows.nKey⟩
    · obtain ⟨am₁, href, heq⟩ := Option.map_eq_some_iff.1 hadd
      cases heq
      obtain ⟨hfollows, htried⟩ := addRef_follows href
      have hdated := @follows_modifyInfo (am.create addr source).1
        (fun info => { info with nTime := UInt32.ofInt (max 0 (info.nTime.toNat - nTimePenalty)) }) (fun _ => rfl)
        (fun _ => rfl) am.nIdCount
      have hplaced := (h.create hconsistent addr source).follows hdated rfl
      have hadded := fun hplaced => @Placed.follows _ _ hash hplaced hfollows htried
      exact ⟨hadded (hplaced.follows ⟨rfl, (Follows.refl _).entry⟩ rfl), hfollows.nKey⟩

theorem getAddr_follows {rand : Nat → Nat} {vAddr : List CAddress} (hget : am.getAddr rand = some (am', vAddr)) :
    Follows am am' ∧ am'.vvTried = am.vvTried := by
  suffices hfold : ∀ (ns : List Nat) (am : CAddrMan) (v : List CAddress),
      ns.foldlM (getAddrStep rand) (am, v) = some (am', vAddr) → Follows am am' ∧ am'.vvTried = am.vvTried from
    hfold _ _ _ hget
  intro ns
  induction ns with
  | nil =>
      intro am v hrun
      cases hrun
      exact ⟨.refl _, rfl⟩
  | cons n ns ih =>
      intro am v hrun
      rw [List.foldlM_cons] at hrun
      cases hstep : getAddrStep rand (am, v) n with
      | none => rw [hstep] at hrun; cases hrun
      | some st =>
          rw [hstep] at hrun
          obtain ⟨hrest, htriedRest⟩ := ih st.1 st.2 hrun
          have hfirst : Follows am st.1 ∧ st.1.vvTried = am.vvTried := by
            rw [getAddrStep] at hstep
            split at hstep
            · cases hstep
            · rename_i am₁ hswap
              split at hstep
              · cases hstep
              · split at hstep
                · cases hstep
                · cases hstep
                  exact swapRandom_follows hswap
          exact ⟨hfirst.1.trans hrest, htriedRest.trans hfirst.2⟩

end ProCurrency.CAddrMan
