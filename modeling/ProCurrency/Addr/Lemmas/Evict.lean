import ProCurrency.Addr.Lemmas.Tables

/-!
# Evictions

What is taken out of a full bucket, and how an entry comes from the new buckets into a tried one.
-/

namespace ProCurrency.CAddrMan

open SwapIndex

/-- The condition on the entries while one of them waits for a place in a new bucket: it is counted already. -/
def Waiting (waiting : Option Nat) (nId : Nat) (info : CAddrInfo) (nNews nTrieds : Nat) : Prop :=
  EntryOk info (nNews + if waiting = some nId then 1 else 0) nTrieds

variable {am : CAddrMan} {nId : Nat} {info : CAddrInfo} {waiting : Option Nat}

theorem Waiting.of_ne {nNews nTrieds : Nat} (h : Waiting waiting nId info nNews nTrieds) (hne : waiting ≠ some nId) :
    EntryOk info nNews nTrieds := by
  rw [Waiting, if_neg hne] at h
  exact h

/-- The condition while an entry is still counted in a bucket that gives it up. -/
def Leaving (waiting : Option Nat) (nIdOld nId : Nat) (info : CAddrInfo) (nNews nTrieds : Nat) : Prop :=
  if nId = nIdOld then EntryOk info (nNews + 1) nTrieds else Waiting waiting nId info nNews nTrieds

/-! ## New buckets -/

theorem ConsistentBy.eraseNew (h : ConsistentBy (Waiting waiting) 0 am) {n : Fin ADDRMAN_NEW_BUCKET_COUNT}
    (hmem : nId ∈ am.vvNew n) (hne : waiting ≠ some nId) :
    ConsistentBy (Leaving waiting nId) 0
      { am with vvNew := Function.update am.vvNew n ((am.vvNew n).erase nId) } := by
  have herase := newCount_erase hmem
  refine h.setTables (fun nId' info _ hwaiting => ?_) (fun nId' _ hzero htrieds => ⟨?_, htrieds⟩)
    (update_le h.newSize ?_) h.triedSize h.nTried h.total
  · rw [Leaving]
    split
    · rename_i hid
      subst nId'
      have hself := herase nId
      rw [if_pos rfl] at hself
      rw [hself]
      exact hwaiting.of_ne hne
    · rename_i hid
      rw [← herase nId', if_neg hid, Nat.add_zero] at hwaiting
      exact hwaiting
  · exact Nat.eq_zero_of_add_eq_zero_right ((herase nId').trans hzero)
  · exact Nat.le_trans (Finset.card_le_card (Finset.erase_subset _ _)) (h.newSize n)

/-- A new bucket gives up an entry. -/
theorem releaseNew_spec (h : ConsistentBy (Waiting waiting) 0 am) {n : Fin ADDRMAN_NEW_BUCKET_COUNT}
    (hmem : nId ∈ am.vvNew n) (hne : waiting ≠ some nId) :
    ∃ am', am.releaseNew nId = some am' ∧ am'.vvNew = am.vvNew ∧
      (∀ nId' : Nat, nId' ≠ nId → am.mapInfo[nId']? ≠ none → am'.mapInfo[nId']? ≠ none) ∧
      ConsistentBy (Waiting waiting) 0 { am' with vvNew := Function.update am.vvNew n ((am.vvNew n).erase nId) } := by
  obtain ⟨info, hinfo⟩ := h.exists_of_mem_new hmem
  have hok : EntryOk info (newCount am.vvNew nId) (triedCount am.vvTried nId) := (h.entry nId info hinfo).of_ne hne
  have htrieds := (hok.new (hok.not_tried (newCount_pos hmem))).2.2
  have hrefs := hok.refs
  have herased := h.eraseNew hmem hne
  rw [releaseNew, hinfo]
  by_cases hzero : info.nRefCount - 1 = 0
  · -- the last reference: the entry is deleted, and the last one of the random vector takes its position
    have hindexed := h.indexed.modifyInfo (fun info => { info with nRefCount := info.nRefCount - 1 })
      (fun _ => rfl) (fun _ => rfl) nId
    have hinfo' := getElem?_modifyInfo am (fun info => { info with nRefCount := info.nRefCount - 1 }) nId nId
    rw [if_pos rfl, hinfo, Option.map_some] at hinfo'
    obtain ⟨v, m, hswap, hlength, hmap, hindexed'⟩ := hindexed.remove hinfo'
    have hne_nil : am.vRandom ≠ [] := by
      intro hnil
      have hat := getElem?_vRandom h.indexed hinfo
      rw [hnil] at hat
      cases hat
    have hmap' : ∀ nId' : Nat, nId' ≠ nId → (m.erase nId)[nId']? =
        (am.mapInfo[nId']?).map (moved info.nRandomPos (am.vRandom.length - 1)) := by
      intro nId' hid
      rw [PackedMap.getElem?_erase, if_neg (Ne.symm hid), hmap, getElem?_modifyInfo, if_neg (Ne.symm hid)]
      rfl
    simp only [modifyInfo_vRandom] at hswap hlength hmap
    simp only [if_pos hzero, modifyInfo_vRandom, if_neg hne_nil, hswap]
    refine ⟨_, rfl, rfl, fun nId' hid hsome => ?_, ?_⟩
    · rw [hmap' nId' hid, ne_eq, Option.map_eq_none_iff]
      exact hsome
    · refine ⟨⟨hindexed'.random, hindexed'.addr, hindexed'.fresh⟩, fun nId' info' hinfo' => ?_, fun nId' hnone => ?_,
        herased.newSize, h.triedSize, h.nTried, ?_⟩
      · by_cases hid : nId' = nId
        · subst nId'
          rw [PackedMap.getElem?_erase, if_pos rfl] at hinfo'
          cases hinfo'
        · rw [hmap' nId' hid] at hinfo'
          obtain ⟨info₀, hinfo₀, rfl⟩ := Option.map_eq_some_iff.1 hinfo'
          have hleaving := herased.entry nId' info₀ hinfo₀
          rw [Leaving, if_neg hid] at hleaving
          exact hleaving.moved _ _
      · by_cases hid : nId' = nId
        · subst nId'
          have hleaving := herased.entry nId info hinfo
          rw [Leaving, if_pos rfl] at hleaving
          have hrefs := hleaving.refs
          refine ⟨?_, htrieds⟩
          show newCount (Function.update am.vvNew n ((am.vvNew n).erase nId)) nId = 0
          dsimp only at hrefs
          omega
        · rw [hmap' nId' hid, Option.map_eq_none_iff] at hnone
          exact herased.absent nId' hnone
      · have htotal := h.total
        have hpos := List.length_pos_iff.2 hne_nil
        show (v.dropLast.length : Int) = am.nTried + (am.nNew - 1) + 0
        rw [List.length_dropLast, hlength]
        omega
  · simp only [if_neg hzero]
    refine ⟨_, rfl, rfl, fun nId' hid hsome => ?_, ?_⟩
    · rw [getElem?_modifyInfo, if_neg (Ne.symm hid)]
      exact hsome
    · refine herased.modifyInfo nId (fun info => { info with nRefCount := info.nRefCount - 1 }) (fun _ => rfl)
        (fun _ => rfl) ?_ ?_
      · intro info' nNews nTrieds hinfo' hleaving
        obtain rfl : info = info' := Option.some.inj (hinfo.symm.trans hinfo')
        rw [Leaving, if_pos rfl] at hleaving
        rw [Waiting, if_neg hne]
        have htried := hok.not_tried (newCount_pos hmem)
        obtain ⟨_, hmax, htrieds'⟩ := hleaving.new htried
        have hrefs' := hleaving.refs
        refine ⟨?_, fun hin => absurd (htried.symm.trans hin) Bool.false_ne_true, fun _ => ⟨?_, ?_, htrieds'⟩,
          hleaving.nLastTry, hleaving.nLastSuccess⟩
        · dsimp only
          omega
        · omega
        · omega
      · intro nId' info' nNews nTrieds hid hleaving
        rw [Leaving, if_neg hid] at hleaving
        exact hleaving

/-- The loops of `ShrinkNew` come to an entry of the bucket. -/
theorem firstTerrible_spec (nNow : Int) {vNew : List Nat}
    (hinfo : ∀ nId ∈ vNew, ∃ info, am.mapInfo[nId]? = some info) :
    ∃ found, am.firstTerrible nNow vNew = some found ∧ ∀ nId, found = some nId → nId ∈ vNew := by
  induction vNew with
  | nil => exact ⟨none, rfl, nofun⟩
  | cons nId vNew ih =>
      obtain ⟨info, hinfo₀⟩ := hinfo nId List.mem_cons_self
      obtain ⟨found, hfirst, hmem⟩ := ih fun nId' hnId' => hinfo nId' (List.mem_cons_of_mem _ hnId')
      rw [firstTerrible, hinfo₀]
      by_cases hterrible : info.isTerrible nNow = true
      · exact ⟨some nId, if_pos hterrible, fun nId' heq => Option.some.inj heq ▸ List.mem_cons_self⟩
      · exact ⟨found, (if_neg hterrible).trans hfirst, fun nId' heq => List.mem_cons_of_mem _ (hmem nId' heq)⟩

theorem oldestNew_spec {n vNew₀ : List Nat} (hinfo : ∀ nId ∈ vNew₀, ∃ info, am.mapInfo[nId]? = some info)
    {vNew : List Nat} (hsub : ∀ nId ∈ vNew, nId ∈ vNew₀) {nI : Nat} {nOldest : Option Nat}
    (hold : ∀ nId, nOldest = some nId → nId ∈ vNew₀)
    (hhit : nOldest = none → ∃ k ∈ n, nI ≤ k ∧ k < nI + vNew.length) :
    ∃ nId ∈ vNew₀, am.oldestNew n vNew nI nOldest = some (some nId) := by
  induction vNew generalizing nI nOldest with
  | nil =>
      cases nOldest with
      | none =>
          obtain ⟨k, _, hle, hlt⟩ := hhit rfl
          exact absurd hle (Nat.not_le.2 hlt)
      | some nId => exact ⟨nId, hold nId rfl, rfl⟩
  | cons nId vNew ih =>
      have hnId := hsub nId List.mem_cons_self
      have hsub' : ∀ nId ∈ vNew, nId ∈ vNew₀ := fun nId' hnId' => hsub nId' (List.mem_cons_of_mem _ hnId')
      unfold oldestNew
      by_cases hnI : nI ∈ n
      · rw [if_pos hnI]
        cases nOldest with
        | none => exact ih hsub' (fun _ heq => Option.some.inj heq ▸ hnId) nofun
        | some nOld =>
            obtain ⟨info, hinfo₁⟩ := hinfo nId hnId
            obtain ⟨infoOldest, hinfo₂⟩ := hinfo nOld (hold nOld rfl)
            simp only [hinfo₁, hinfo₂]
            refine ih hsub' (fun nId' heq => ?_) nofun
            split at heq
            · exact Option.some.inj heq ▸ hnId
            · exact Option.some.inj heq ▸ hold nOld rfl
      · rw [if_neg hnI]
        refine ih hsub' hold fun hnone => ?_
        obtain ⟨k, hk, hle, hlt⟩ := hhit hnone
        have hne : nI ≠ k := fun heq => hnI (heq ▸ hk)
        rw [List.length_cons] at hlt
        exact ⟨k, hk, by omega, by omega⟩

theorem getRandInt_lt {nRand nMax : Nat} (h : 0 < nMax) : getRandInt nRand nMax < nMax := by
  rw [getRandInt, if_neg (Nat.ne_of_gt h)]
  exact Nat.mod_lt _ h

/-- A full bucket has room for an entry afterwards. -/
theorem shrinkNew_spec (h : ConsistentBy (Waiting waiting) 0 am) {n : Fin ADDRMAN_NEW_BUCKET_COUNT}
    (hfull : (am.vvNew n).card = ADDRMAN_NEW_BUCKET_SIZE) (hnotin : ∀ nId, waiting = some nId → nId ∉ am.vvNew n)
    (rand : Nat → Nat) (nNow : Int) :
    ∃ am', am.shrinkNew rand nNow n = some am' ∧ ConsistentBy (Waiting waiting) 0 am' ∧
      am'.vvNew n ⊆ am.vvNew n ∧ (am'.vvNew n).card < ADDRMAN_NEW_BUCKET_SIZE ∧
      ∀ nId : Nat, waiting = some nId → am.mapInfo[nId]? ≠ none → am'.mapInfo[nId]? ≠ none := by
  have hmem : ∀ nId, nId ∈ (am.vvNew n).sort (· ≤ ·) → nId ∈ am.vvNew n := fun nId => (Finset.mem_sort _).1
  have hinfo : ∀ nId ∈ (am.vvNew n).sort (· ≤ ·), ∃ info, am.mapInfo[nId]? = some info := fun nId hnId =>
    h.exists_of_mem_new (hmem nId hnId)
  have hlength : ((am.vvNew n).sort (· ≤ ·)).length = ADDRMAN_NEW_BUCKET_SIZE := by
    rw [Finset.length_sort, hfull]
  have herased : ∀ nId ∈ am.vvNew n, ∃ am', am.eraseNew n nId = some am' ∧
      ConsistentBy (Waiting waiting) 0 am' ∧ am'.vvNew n ⊆ am.vvNew n ∧
      (am'.vvNew n).card < ADDRMAN_NEW_BUCKET_SIZE ∧
      ∀ nId : Nat, waiting = some nId → am.mapInfo[nId]? ≠ none → am'.mapInfo[nId]? ≠ none := by
    intro nId hnId
    have hne : waiting ≠ some nId := fun heq => hnotin nId heq hnId
    obtain ⟨am', hrelease, hvvNew, hsome, h'⟩ := releaseNew_spec h hnId hne
    simp only [eraseNew_eq, hrelease, Option.map_some, hvvNew]
    refine ⟨_, rfl, h', ?_, ?_, fun nId' heq hsome' => hsome nId' ?_ hsome'⟩
    · show Function.update am.vvNew n _ n ⊆ am.vvNew n
      rw [Function.update_self]
      exact Finset.erase_subset _ _
    · show (Function.update am.vvNew n _ n).card < ADDRMAN_NEW_BUCKET_SIZE
      rw [Function.update_self, Finset.card_erase_of_mem hnId, hfull]
      exact Nat.sub_one_lt (by decide)
    · rintro rfl
      exact hne heq
  rw [shrinkNew]
  obtain ⟨found, hfirst, hfirstMem⟩ := firstTerrible_spec nNow hinfo
  simp only [hfirst]
  cases found with
  | some nId => exact herased nId (hmem nId (hfirstMem nId rfl))
  | none =>
      have hpos : 0 < ((am.vvNew n).sort (· ≤ ·)).length := by
        rw [hlength]
        decide
      have holdest : ∃ nId ∈ (am.vvNew n).sort (· ≤ ·), am.oldestNew
          ((List.range 4).map fun i => getRandInt (rand i) ((am.vvNew n).sort (· ≤ ·)).length)
          ((am.vvNew n).sort (· ≤ ·)) 0 none = some (some nId) := by
        refine oldestNew_spec hinfo (fun _ => id) (fun _ h => absurd h (Option.some_ne_none _).symm) fun _ => ?_
        refine ⟨_, List.mem_map_of_mem (List.mem_range.2 (Nat.zero_lt_succ 3)), Nat.zero_le _, ?_⟩
        rw [Nat.zero_add]
        exact getRandInt_lt hpos
      obtain ⟨nId, hnId, holdest⟩ := holdest
      simp only [holdest]
      exact herased nId (hmem nId hnId)

/-! ## Tried buckets -/

/-- What holds of the bucket while it is shuffled. -/
structure Selection.Ok (vTried : List Nat) (sel : Selection) : Prop where
  perm : sel.vTried.Perm vTried
  oldest : ∀ nOldest nPos, sel.oldest = some (nOldest, nPos) → nOldest ∈ vTried ∧ nPos < vTried.length

theorem selectTriedStep_spec {vTried : List Nat} (hinfo : ∀ nId ∈ vTried, ∃ info, am.mapInfo[nId]? = some info)
    (rand : Nat → Nat) {sel : Selection} (hsel : sel.Ok vTried) (i : Nat) :
    ∃ sel', am.selectTriedStep rand sel i = some sel' ∧ sel'.Ok vTried ∧
      (i < vTried.length ∨ sel.oldest.isSome → sel'.oldest.isSome) := by
  have hlength := hsel.perm.length_eq
  rw [selectTriedStep]
  by_cases hi : i < sel.vTried.length
  · rw [if_pos hi]
    have hpos : getRandInt (rand i) (sel.vTried.length - i) + i < sel.vTried.length := by
      have hlt := @getRandInt_lt (rand i) _ (Nat.sub_pos_of_lt hi)
      omega
    generalize getRandInt (rand i) (sel.vTried.length - i) + i = nPos at hpos
    have hperm : ((sel.vTried.set nPos sel.vTried[i]).set i sel.vTried[nPos]).Perm vTried :=
      (List.set_set_perm hpos hi).trans hsel.perm
    have hmem : sel.vTried[nPos] ∈ vTried := hsel.perm.mem_iff.1 (List.getElem_mem hpos)
    simp only [List.getElem?_eq_getElem hpos, List.getElem?_eq_getElem hi]
    have htaken : Selection.Ok vTried
        { vTried := (sel.vTried.set nPos sel.vTried[i]).set i sel.vTried[nPos], oldest := some (sel.vTried[nPos], nPos) } :=
      ⟨hperm, fun _ _ heq => by cases heq; exact ⟨hmem, hlength ▸ hpos⟩⟩
    cases hold : sel.oldest with
    | none => exact ⟨_, rfl, htaken, fun _ => rfl⟩
    | some oldest =>
        obtain ⟨nOldest, nOldestPos⟩ := oldest
        obtain ⟨hmem', hpos'⟩ := hsel.oldest nOldest nOldestPos hold
        obtain ⟨info, hinfo₁⟩ := hinfo _ hmem
        obtain ⟨infoOldest, hinfo₂⟩ := hinfo _ hmem'
        simp only [hinfo₁, hinfo₂]
        split
        · exact ⟨_, rfl, htaken, fun _ => rfl⟩
        · exact ⟨_, rfl, ⟨hperm, fun _ _ heq => by cases heq; exact ⟨hmem', hpos'⟩⟩, fun _ => rfl⟩
  · rw [if_neg hi]
    exact ⟨sel, rfl, hsel, fun hsome => hsome.resolve_left (hlength ▸ hi)⟩

theorem selectTried_fold {vTried : List Nat} (hinfo : ∀ nId ∈ vTried, ∃ info, am.mapInfo[nId]? = some info)
    (rand : Nat → Nat) (is : List Nat) {sel : Selection} (hsel : sel.Ok vTried) :
    ∃ sel', is.foldlM (am.selectTriedStep rand) sel = some sel' ∧ sel'.Ok vTried ∧
      ((∃ i ∈ is, i < vTried.length) ∨ sel.oldest.isSome → sel'.oldest.isSome) := by
  induction is generalizing sel with
  | nil => exact ⟨sel, rfl, hsel, fun hsome => hsome.resolve_left (by rintro ⟨_, hmem, _⟩; cases hmem)⟩
  | cons i is ih =>
      obtain ⟨sel₁, hstep, hsel₁, hsome₁⟩ := selectTriedStep_spec hinfo rand hsel i
      obtain ⟨sel', hrest, hsel', hsome'⟩ := ih hsel₁
      refine ⟨sel', ?_, hsel', fun hsome => hsome' ?_⟩
      · rw [List.foldlM_cons, hstep]
        exact hrest
      · rcases hsome with ⟨j, hj, hlt⟩ | hold
        · rcases List.mem_cons.1 hj with rfl | hj
          · exact .inr (hsome₁ (.inl hlt))
          · exact .inl ⟨j, hj, hlt⟩
        · exact .inr (hsome₁ (.inr hold))

/-- A bucket with an entry gives one up. -/
theorem selectTried_spec {n : Fin ADDRMAN_TRIED_BUCKET_COUNT}
    (hinfo : ∀ nId ∈ am.vvTried n, ∃ info, am.mapInfo[nId]? = some info) (hpos : 0 < (am.vvTried n).length)
    (rand : Nat → Nat) :
    ∃ vTried nOldest nPos nIdOld, am.selectTried rand n = some { vTried, oldest := some (nOldest, nPos) } ∧
      vTried.Perm (am.vvTried n) ∧ vTried[nPos]? = some nIdOld := by
  have hstart : Selection.Ok (am.vvTried n) { vTried := am.vvTried n } := ⟨.refl _, nofun⟩
  obtain ⟨⟨vTried, oldest⟩, hselect, hok, hsome⟩ :=
    selectTried_fold hinfo rand (List.range ADDRMAN_TRIED_ENTRIES_INSPECT_ON_EVICT) hstart
  obtain ⟨⟨nOldest, nPos⟩, hold⟩ := Option.isSome_iff_exists.1
    (hsome (.inl ⟨0, List.mem_range.2 (by decide), hpos⟩))
  obtain rfl : oldest = some (nOldest, nPos) := hold
  have hlt : nPos < vTried.length := hok.perm.length_eq ▸ (hok.oldest nOldest nPos rfl).2
  exact ⟨vTried, nOldest, nPos, vTried[nPos], hselect, hok.perm, List.getElem?_eq_getElem hlt⟩

/-- The condition while an entry is in no bucket. -/
def Lifted (nIdIn nId : Nat) (info : CAddrInfo) (nNews nTrieds : Nat) : Prop :=
  if nId = nIdIn then
    info.nRefCount = 0 ∧ info.nLastSuccess ≠ 0 ∧ 0 ≤ info.nLastTry ∧ 0 ≤ info.nLastSuccess ∧ nNews = 0 ∧ nTrieds = 0
  else EntryOk info nNews nTrieds

/-- An entry is taken out of its new buckets. -/
theorem ConsistentBy.lift (h : ConsistentBy (fun _ => EntryOk) 0 am) {n : Fin ADDRMAN_NEW_BUCKET_COUNT}
    (hmem : nId ∈ am.vvNew n) (hinfo : am.mapInfo[nId]? = some info) (hsuccess : info.nLastSuccess ≠ 0) :
    ConsistentBy (Lifted nId) 1
      { am.modifyInfo nId fun info => { info with nRefCount := info.nRefCount - newCount am.vvNew nId } with
        vvNew := fun n => (am.vvNew n).erase nId, nNew := am.nNew - 1 } := by
  have hok := h.entry nId info hinfo
  have htrieds := (hok.new (hok.not_tried (newCount_pos hmem))).2.2
  have hmodified : ConsistentBy (fun nId' info' nNews nTrieds =>
      if nId' = nId then info' = { info with nRefCount := info.nRefCount - newCount am.vvNew nId }
      else EntryOk info' nNews nTrieds) 0
      (am.modifyInfo nId fun info => { info with nRefCount := info.nRefCount - newCount am.vvNew nId }) := by
    refine h.modifyInfo nId _ (fun _ => rfl) (fun _ => rfl) (fun info' _ _ hinfo' _ => ?_) fun nId' _ _ _ hid hok' => ?_
    · rw [if_pos rfl, Option.some.inj (hinfo.symm.trans hinfo')]
    · rw [if_neg hid]
      exact hok'
  refine hmodified.setTables (fun nId' info' _ hstage => ?_) (fun nId' _ hnews htrieds' => ⟨?_, htrieds'⟩) (fun n' => ?_)
    h.triedSize h.nTried ?_
  · rw [newCount_eraseAll, Lifted]
    by_cases hid : nId' = nId
    · subst nId'
      rw [if_pos rfl] at hstage
      subst info'
      rw [if_pos rfl, if_pos rfl]
      refine ⟨?_, hsuccess, hok.nLastTry, hok.nLastSuccess, rfl, htrieds⟩
      rw [hok.refs]
      exact Int.sub_self _
    · rw [if_neg hid] at hstage
      rw [if_neg hid, if_neg hid]
      exact hstage
  · rw [newCount_eraseAll]
    split
    · rfl
    · exact hnews
  · exact Nat.le_trans (Finset.card_le_card (Finset.erase_subset _ _)) (h.newSize n')
  · have htotal := h.total
    show (am.vRandom.length : Int) = am.nTried + (am.nNew - 1) + 1
    omega

/-- The entry is marked as a tried one. -/
theorem ConsistentBy.markTried {P : Nat → CAddrInfo → Nat → Nat → Prop} (h : ConsistentBy P 1 am) (nId : Nat) :
    ConsistentBy (fun nId' info nNews nTrieds =>
      if nId' = nId then ∃ info₀ : CAddrInfo, P nId info₀ nNews nTrieds ∧ info = { info₀ with fInTried := true }
      else P nId' info nNews nTrieds) 1 (am.modifyInfo nId fun info => { info with fInTried := true }) := by
  refine h.modifyInfo nId _ (fun _ => rfl) (fun _ => rfl) (fun info' _ _ _ hP => ?_) fun nId' _ _ _ hid hP => ?_
  · rw [if_pos rfl]
    exact ⟨info', hP, rfl⟩
  · rw [if_neg hid]
    exact hP

/-- The new entry of a tried bucket. -/
theorem Lifted.entryOk {nNews nTrieds : Nat} (h : Lifted nId nId info nNews nTrieds) :
    EntryOk { info with fInTried := true } nNews (nTrieds + 1) := by
  rw [Lifted, if_pos rfl] at h
  obtain ⟨hrefs, hsuccess, hlastTry, hlastSuccess, rfl, rfl⟩ := h
  exact ⟨hrefs, fun _ => ⟨rfl, rfl, hsuccess⟩, nofun, hlastTry, hlastSuccess⟩

theorem ConsistentBy.placeTried (h : ConsistentBy (Lifted nId) 1 am) {n : Fin ADDRMAN_TRIED_BUCKET_COUNT}
    (hinfo : am.mapInfo[nId]? = some info) (hroom : (am.vvTried n).length < ADDRMAN_TRIED_BUCKET_SIZE) :
    ConsistentBy (fun _ => EntryOk) 0
      { am.modifyInfo nId fun info => { info with fInTried := true } with
        vvTried := Function.update am.vvTried n (am.vvTried n ++ [nId]), nTried := am.nTried + 1 } := by
  have happend := @triedCount_append am.vvTried nId n
  have hlength : (am.vvTried n ++ [nId]).length = (am.vvTried n).length + 1 := List.length_append
  refine (h.markTried nId).setTables (fun nId' info' _ hstage => ?_) (fun nId' hnone hnews htrieds => ⟨hnews, ?_⟩)
    h.newSize (@update_le _ _ _ List.length _ _ _ _ h.triedSize (hlength ▸ hroom)) ?_ ?_
  · simp only [modifyInfo_vvNew, modifyInfo_vvTried] at hstage
    rw [happend]
    by_cases hid : nId' = nId
    · subst nId'
      rw [if_pos rfl] at hstage ⊢
      obtain ⟨info₀, hlifted, rfl⟩ := hstage
      exact hlifted.entryOk
    · rw [if_neg hid] at hstage ⊢
      rw [Lifted, if_neg hid] at hstage
      rw [Nat.add_zero]
      exact hstage
  · rw [modifyInfo_vvTried] at htrieds
    rw [happend, htrieds, if_neg]
    rintro rfl
    rw [getElem?_modifyInfo, if_pos rfl, hinfo] at hnone
    cases hnone
  · have htotal := @triedTotal_update am.vvTried n (am.vvTried n ++ [nId])
    have hnTried := h.nTried
    omega
  · have htotal := h.total
    show (am.vRandom.length : Int) = am.nTried + 1 + am.nNew + 0
    omega

/-- An entry of a tried bucket goes back to a new one with room, and leaves its place to another. -/
theorem ConsistentBy.replaceTried (h : ConsistentBy (Lifted nId) 1 am) (hinfo : am.mapInfo[nId]? = some info)
    {nK : Fin ADDRMAN_TRIED_BUCKET_COUNT} {vTried : List Nat} (hperm : vTried.Perm (am.vvTried nK))
    {nPos nIdOld : Nat} (hold : vTried[nPos]? = some nIdOld) {nU : Fin ADDRMAN_NEW_BUCKET_COUNT}
    (hroom : (am.vvNew nU).card < ADDRMAN_NEW_BUCKET_SIZE) :
    ConsistentBy (fun _ => EntryOk) 0
      { (am.modifyInfo nIdOld fun info => { info with fInTried := false, nRefCount := 1 }).modifyInfo nId
          fun info => { info with fInTried := true } with
        vvNew := Function.update am.vvNew nU (insert nIdOld (am.vvNew nU))
        nNew := am.nNew + 1
        vvTried := Function.update am.vvTried nK (vTried.set nPos nId) } := by
  have hset := @triedCount_set am.vvTried nId nK vTried nPos nIdOld hperm hold
  obtain ⟨infoOld, hinfoOld⟩ := h.exists_of_mem_tried (hperm.mem_iff.1 (List.mem_of_getElem? hold))
  have hpos : 1 ≤ triedCount am.vvTried nIdOld := triedCount_pos (hperm.mem_iff.1 (List.mem_of_getElem? hold))
  have hne : nIdOld ≠ nId := by
    rintro rfl
    have hlifted := h.entry nIdOld infoOld hinfoOld
    rw [Lifted, if_pos rfl] at hlifted
    rw [hlifted.2.2.2.2.2] at hpos
    cases hpos
  have hok : EntryOk infoOld (newCount am.vvNew nIdOld) (triedCount am.vvTried nIdOld) := by
    have hlifted := h.entry nIdOld infoOld hinfoOld
    rw [Lifted, if_neg hne] at hlifted
    exact hlifted
  obtain ⟨hnews, htrieds, hsuccess⟩ := hok.tried (hok.in_tried hpos)
  have hinsert := newCount_insert (not_mem_of_newCount hnews nU)
  have hevicted : ConsistentBy (fun nId' info' nNews nTrieds =>
      if nId' = nIdOld then info' = { infoOld with fInTried := false, nRefCount := 1 }
      else Lifted nId nId' info' nNews nTrieds) 1
      (am.modifyInfo nIdOld fun info => { info with fInTried := false, nRefCount := 1 }) := by
    refine h.modifyInfo nIdOld _ (fun _ => rfl) (fun _ => rfl) (fun info' _ _ hinfo' _ => ?_)
      fun nId' _ _ _ hid hlifted => ?_
    · rw [if_pos rfl, Option.some.inj (hinfoOld.symm.trans hinfo')]
    · rw [if_neg hid]
      exact hlifted
  have hlength : (vTried.set nPos nId).length = (am.vvTried nK).length := List.length_set.trans hperm.length_eq
  have hcard : (insert nIdOld (am.vvNew nU)).card ≤ ADDRMAN_NEW_BUCKET_SIZE :=
    Nat.le_trans (Finset.card_insert_le _ _) hroom
  refine (hevicted.markTried nId).setTables (fun nId' info' _ hstage => ?_) (fun nId' hnone hnews' htrieds' => ?_)
    (@update_le _ _ _ Finset.card _ _ _ _ h.newSize hcard)
    (@update_le _ _ _ List.length _ _ _ _ h.triedSize (hlength ▸ h.triedSize nK)) ?_ ?_
  · have hset' := hset nId'
    simp only [modifyInfo_vvNew, modifyInfo_vvTried] at hstage
    rw [hinsert]
    by_cases hid : nId' = nId
    · subst nId'
      rw [if_pos rfl] at hstage
      rw [if_neg (Ne.symm hne), if_pos rfl] at hset'
      rw [if_neg (Ne.symm hne)]
      obtain ⟨info₀, hlifted, rfl⟩ := hstage
      rw [if_neg (Ne.symm hne)] at hlifted
      have hentry := hlifted.entryOk
      rw [Nat.add_zero] at hset' ⊢
      rw [hset']
      exact hentry
    · rw [if_neg hid] at hstage hset'
      by_cases hidOld : nId' = nIdOld
      · subst nId'
        rw [if_pos rfl] at hstage hset' ⊢
        subst info'
        have hzero : triedCount (Function.update am.vvTried nK (vTried.set nPos nId)) nIdOld = 0 := by omega
        refine ⟨?_, nofun, fun _ => ⟨?_, ?_, hzero⟩, hok.nLastTry, hok.nLastSuccess⟩
        · show (1 : Int) = ((newCount am.vvNew nIdOld + 1 : Nat) : Int)
          rw [hnews]
          rfl
        · exact Nat.le_add_left 1 _
        · rw [hnews]
          decide
      · rw [if_neg hidOld] at hstage hset' ⊢
        rw [Lifted, if_neg hid] at hstage
        rw [Nat.add_zero, Nat.add_zero] at hset'
        rw [hset', Nat.add_zero]
        exact hstage
  · have hid : nId' ≠ nId := by
      rintro rfl
      rw [getElem?_modifyInfo, if_pos rfl, getElem?_modifyInfo, if_neg hne, hinfo] at hnone
      cases hnone
    have hidOld : nId' ≠ nIdOld := by
      rintro rfl
      rw [getElem?_modifyInfo, if_neg (Ne.symm hid), getElem?_modifyInfo, if_pos rfl, hinfoOld] at hnone
      cases hnone
    have hset' := hset nId'
    rw [if_neg hid, if_neg hidOld, Nat.add_zero, Nat.add_zero] at hset'
    simp only [modifyInfo_vvNew, modifyInfo_vvTried] at hnews' htrieds'
    rw [hinsert, if_neg hidOld, hset', Nat.add_zero]
    exact ⟨hnews', htrieds'⟩
  · have htotal := @triedTotal_update am.vvTried nK (vTried.set nPos nId)
    have hnTried := h.nTried
    show am.nTried = triedTotal _
    omega
  · have htotal := h.total
    show (am.vRandom.length : Int) = am.nTried + (am.nNew + 1) + 0
    omega

theorem enterTried_spec (hash : List UInt8 → UInt256) (h : ConsistentBy (Lifted nId) 1 am)
    (hinfo : am.mapInfo[nId]? = some info) {nOrigin : Fin ADDRMAN_NEW_BUCKET_COUNT}
    (hroom : (am.vvNew nOrigin).card < ADDRMAN_NEW_BUCKET_SIZE) (rand : Nat → Nat) (info' : CAddrInfo) :
    ∃ am', am.enterTried hash rand nId info' nOrigin = some am' ∧ ConsistentBy (fun _ => EntryOk) 0 am' := by
  rw [enterTried]
  split
  · rename_i hshort
    exact ⟨_, rfl, h.placeTried hinfo hshort⟩
  · -- the bucket is full: one of its entries goes back to the new buckets
    rename_i hfull
    obtain ⟨vTried, nOldest, nPos, nIdOld, hselect, hperm, hold⟩ :=
      selectTried_spec (fun _ => h.exists_of_mem_tried) (Nat.lt_of_lt_of_le (by decide) (Nat.le_of_not_lt hfull)) rand
    obtain ⟨infoOld, hinfoOld⟩ := h.exists_of_mem_tried (hperm.mem_iff.1 (List.mem_of_getElem? hold))
    simp only [hselect, hold, hinfoOld]
    refine ⟨_, rfl, h.replaceTried hinfo hperm hold ?_⟩
    split
    · assumption
    · exact hroom

/-- An entry of a new bucket becomes a tried one: no assertion fails. -/
theorem makeTried_spec (hash : List UInt8 → UInt256) (h : ConsistentBy (fun _ => EntryOk) 0 am)
    {nOrigin : Fin ADDRMAN_NEW_BUCKET_COUNT} (hmem : nId ∈ am.vvNew nOrigin) (hinfo : am.mapInfo[nId]? = some info)
    (hsuccess : info.nLastSuccess ≠ 0) (rand : Nat → Nat) :
    ∃ am', am.makeTried hash rand nId nOrigin = some am' ∧ ConsistentBy (fun _ => EntryOk) 0 am' := by
  have hinfo' := getElem?_modifyInfo am (fun info => { info with nRefCount := info.nRefCount - newCount am.vvNew nId })
    nId nId
  rw [if_pos rfl, hinfo, Option.map_some] at hinfo'
  have hrefs : info.nRefCount - newCount am.vvNew nId = 0 := by
    rw [(h.entry nId info hinfo).refs]
    exact Int.sub_self _
  have hroom : ((am.vvNew nOrigin).erase nId).card < ADDRMAN_NEW_BUCKET_SIZE := by
    rw [Finset.card_erase_of_mem hmem]
    exact Nat.lt_of_lt_of_le (Nat.sub_one_lt (Finset.card_ne_zero_of_mem hmem)) (h.newSize nOrigin)
  rw [makeTried, if_neg (not_not.2 hmem), card_filter_mem]
  simp only [hinfo', hrefs, ne_eq, not_true_eq_false, if_false]
  exact enterTried_spec hash (h.lift hmem hinfo hsuccess) hinfo' hroom rand _

end ProCurrency.CAddrMan
