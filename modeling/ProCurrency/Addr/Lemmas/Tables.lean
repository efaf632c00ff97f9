import Mathlib.Algebra.BigOperators.Ring.Finset
import ProCurrency.Addr.AddrMan
import ProCurrency.Lib.Slots
import ProCurrency.Lib.PackedMap

/-!
# The indexes and the tables of the address manager

`vRandom` and `mapAddr` list the entries of `mapInfo`: what each operation on the three keeps.
-/

namespace ProCurrency.CAddrMan

open Buckets SwapIndex

section Indexes

variable {am am' : CAddrMan} {nId : Nat} {info : CAddrInfo}

def posOf (am : CAddrMan) (nId : Nat) : Option Nat := (am.mapInfo[nId]?).map (·.nRandomPos)

/-- Each entry stands once in the random vector, at its position, and once in the map of the addresses. -/
structure Indexed (am : CAddrMan) : Prop where
  random : Indexes am.vRandom am.posOf
  addr : ∀ (a : CNetAddr) (nId : Nat),
    am.mapAddr[a]? = some nId ↔ ∃ info : CAddrInfo, am.mapInfo[nId]? = some info ∧ info.addr = a
  fresh : ∀ nId : Nat, am.nIdCount ≤ nId → am.mapInfo[nId]? = none

/-- What the indexes depend on. -/
def keysOf (am : CAddrMan) (nId : Nat) : Option (Nat × CNetAddr) :=
  (am.mapInfo[nId]?).map fun info => (info.nRandomPos, info.addr)

theorem Indexed.congr (h : Indexed am) (hrandom : am'.vRandom = am.vRandom) (haddr : am'.mapAddr = am.mapAddr)
    (hcount : am'.nIdCount = am.nIdCount) (hkeys : ∀ nId, am'.keysOf nId = am.keysOf nId) : Indexed am' where
  random := by
    rw [hrandom]
    refine h.random.congr fun nId => ?_
    have hpos := congrArg (Option.map Prod.fst) (hkeys nId)
    rw [keysOf, keysOf, Option.map_map, Option.map_map] at hpos
    exact hpos
  addr a nId := by
    have ha := congrArg (Option.map Prod.snd) (hkeys nId)
    rw [keysOf, keysOf, Option.map_map, Option.map_map] at ha
    rw [haddr, h.addr]
    have hmem : ∀ am : CAddrMan, (∃ info : CAddrInfo, am.mapInfo[nId]? = some info ∧ info.addr = a) ↔
        (am.mapInfo[nId]?).map (Prod.snd ∘ fun info => (info.nRandomPos, info.addr)) = some a := fun am => by
      rw [Option.map_eq_some_iff]
      exact Iff.rfl
    rw [hmem, hmem, ha]
  fresh nId hnId := by
    have hnone := congrArg Option.isNone (hkeys nId)
    rw [keysOf, keysOf, Option.isNone_map, Option.isNone_map, h.fresh nId (hcount ▸ hnId)] at hnone
    exact Option.isNone_iff_eq_none.1 hnone

theorem getElem?_modifyInfo (am : CAddrMan) (change : CAddrInfo → CAddrInfo) (nId nId' : Nat) :
    (am.modifyInfo nId change).mapInfo[nId']? =
      if nId = nId' then (am.mapInfo[nId']?).map change else am.mapInfo[nId']? :=
  PackedMap.getElem?_modify ..

@[simp] theorem modifyInfo_vRandom (change : CAddrInfo → CAddrInfo) (nId : Nat) :
    (am.modifyInfo nId change).vRandom = am.vRandom := rfl

@[simp] theorem modifyInfo_vvNew (change : CAddrInfo → CAddrInfo) (nId : Nat) :
    (am.modifyInfo nId change).vvNew = am.vvNew := rfl

@[simp] theorem modifyInfo_vvTried (change : CAddrInfo → CAddrInfo) (nId : Nat) :
    (am.modifyInfo nId change).vvTried = am.vvTried := rfl

theorem Indexed.modifyInfo (h : Indexed am) (change : CAddrInfo → CAddrInfo)
    (hpos : ∀ info, (change info).nRandomPos = info.nRandomPos) (haddr : ∀ info, (change info).addr = info.addr)
    (nId : Nat) : Indexed (am.modifyInfo nId change) := by
  refine h.congr rfl rfl rfl fun nId' => ?_
  rw [keysOf, keysOf, getElem?_modifyInfo]
  split
  · rw [Option.map_map]
    congr 1
    funext info
    rw [Function.comp_apply, hpos, haddr]
  · rfl

/-! ## Find and create -/

theorem Indexed.find_eq_some (h : Indexed am) {a : CNetAddr} (hfind : am.find a = some (nId, info)) :
    am.mapInfo[nId]? = some info ∧ info.addr = a := by
  rw [find] at hfind
  split at hfind
  · cases hfind
  · rename_i nId' hid
    obtain ⟨info', hinfo, heq⟩ := Option.map_eq_some_iff.1 hfind
    cases heq
    obtain ⟨info', hinfo', haddr⟩ := (h.addr a nId).1 hid
    rw [hinfo] at hinfo'
    cases hinfo'
    exact ⟨hinfo, haddr⟩

theorem Indexed.find_eq_none (h : Indexed am) {a : CNetAddr} (hfind : am.find a = none) : am.mapAddr[a]? = none := by
  rw [find] at hfind
  split at hfind
  · assumption
  · rename_i nId hid
    obtain ⟨info, hinfo, _⟩ := (h.addr a nId).1 hid
    rw [hinfo] at hfind
    cases hfind

theorem getElem?_create (addr : CAddress) (source : CNetAddr) (nId : Nat) :
    (am.create addr source).1.mapInfo[nId]? =
      if am.nIdCount = nId then some { addr with nLastTry := 0, source, nRandomPos := am.vRandom.length }
      else am.mapInfo[nId]? :=
  PackedMap.getElem?_insert ..

theorem Indexed.create (h : Indexed am) {addr : CAddress} {source : CNetAddr} (hnew : am.mapAddr[addr.addr]? = none) :
    Indexed (am.create addr source).1 where
  random := by
    have hnone := h.fresh am.nIdCount (Nat.le_refl _)
    refine h.random.push ?_ ?_ fun nId hnId => ?_
    · rw [posOf, hnone]
      rfl
    · rw [posOf, getElem?_create, if_pos rfl]
      rfl
    · rw [posOf, posOf, getElem?_create, if_neg (Ne.symm hnId)]
  addr a nId := by
    rw [getElem?_create]
    show (am.mapAddr.insert addr.addr am.nIdCount)[a]? = some nId ↔ _
    rw [PackedMap.getElem?_insert]
    by_cases ha : addr.addr = a
    · subst a
      rw [if_pos rfl]
      constructor
      · rintro ⟨⟩
        exact ⟨_, if_pos rfl, rfl⟩
      · rintro ⟨info, hinfo, hsame⟩
        split at hinfo
        · rename_i hid
          rw [hid]
        · have hold := (h.addr _ nId).2 ⟨info, hinfo, hsame⟩
          rw [hnew] at hold
          cases hold
    · rw [if_neg ha, h.addr]
      constructor
      · rintro ⟨info, hinfo, hsame⟩
        refine ⟨info, ?_, hsame⟩
        rw [if_neg, hinfo]
        rintro rfl
        rw [h.fresh _ (Nat.le_refl _)] at hinfo
        cases hinfo
      · rintro ⟨info, hinfo, hsame⟩
        split at hinfo
        · cases hinfo
          exact absurd hsame ha
        · exact ⟨info, hinfo, hsame⟩
  fresh nId hnId := by
    have hlt : am.nIdCount < nId := hnId
    rw [getElem?_create, if_neg (Nat.ne_of_lt hlt), h.fresh nId (Nat.le_of_lt hlt)]

/-! ## Swaps -/

/-- The entry with its position after a swap. -/
def moved (p q : Nat) (info : CAddrInfo) : CAddrInfo := { info with nRandomPos := Equiv.swap p q info.nRandomPos }

theorem getElem?_vRandom (h : Indexed am) (hinfo : am.mapInfo[nId]? = some info) :
    am.vRandom[info.nRandomPos]? = some nId :=
  (h.random _ nId).2 (by rw [posOf, hinfo]; rfl)

theorem exists_info (h : Indexed am) {p : Nat} (hp : am.vRandom[p]? = some nId) :
    ∃ info, am.mapInfo[nId]? = some info ∧ info.nRandomPos = p :=
  Option.map_eq_some_iff.1 ((h.random p nId).1 hp)

theorem swapRandom_spec (h : Indexed am) {p q : Nat} (hp : p < am.vRandom.length) (hq : q < am.vRandom.length) :
    ∃ v m, am.swapRandom p q = some { am with vRandom := v, mapInfo := m } ∧ v.length = am.vRandom.length ∧
      (∀ nId : Nat, m[nId]? = (am.mapInfo[nId]?).map (moved p q)) ∧ Indexed { am with vRandom := v, mapInfo := m } := by
  rw [swapRandom]
  by_cases hpq : p = q
  · subst q
    have hmoved : moved p p = id := by
      funext info
      rw [moved, Equiv.swap_self]
      rfl
    refine ⟨am.vRandom, am.mapInfo, if_pos rfl, rfl, fun nId => ?_, h⟩
    rw [hmoved, Option.map_id_fun, id]
  · have hp' := List.getElem?_eq_getElem hp
    have hq' := List.getElem?_eq_getElem hq
    generalize am.vRandom[p] = nId1 at hp'
    generalize am.vRandom[q] = nId2 at hq'
    obtain ⟨info1, hinfo1, hpos1⟩ := exists_info h hp'
    obtain ⟨info2, hinfo2, hpos2⟩ := exists_info h hq'
    have hmem1 : nId1 ∈ am.mapInfo := by
      rw [Std.ExtTreeMap.mem_iff_isSome_getElem?, hinfo1]
      rfl
    have hmem2 : nId2 ∈ am.mapInfo := by
      rw [Std.ExtTreeMap.mem_iff_isSome_getElem?, hinfo2]
      rfl
    have hne : nId1 ≠ nId2 := by
      rintro rfl
      rw [hinfo1] at hinfo2
      cases hinfo2
      exact hpq (hpos1.symm.trans hpos2)
    have hmap : ∀ nId : Nat, ((am.modifyInfo nId1 fun info => { info with nRandomPos := q }).modifyInfo nId2
        fun info => { info with nRandomPos := p }).mapInfo[nId]? = (am.mapInfo[nId]?).map (moved p q) := by
      intro nId
      rw [getElem?_modifyInfo, getElem?_modifyInfo]
      by_cases hid2 : nId2 = nId
      · subst nId
        rw [if_pos rfl, if_neg hne, hinfo2, Option.map_some, Option.map_some, moved, hpos2, Equiv.swap_apply_right]
      · rw [if_neg hid2]
        by_cases hid1 : nId1 = nId
        · subst nId
          rw [if_pos rfl, hinfo1, Option.map_some, Option.map_some, moved, hpos1, Equiv.swap_apply_left]
        · rw [if_neg hid1]
          cases hinfo : am.mapInfo[nId]? with
          | none => rfl
          | some info =>
              have hat := getElem?_vRandom h hinfo
              have hnep : info.nRandomPos ≠ p := fun heq => hid1 (Option.some.inj (hp'.symm.trans (heq ▸ hat)))
              have hneq : info.nRandomPos ≠ q := fun heq => hid2 (Option.some.inj (hq'.symm.trans (heq ▸ hat)))
              rw [Option.map_some, moved, Equiv.swap_apply_of_ne_of_ne hnep hneq]
    refine ⟨_, _, ?_, length_swapped am.vRandom p q nId1 nId2, hmap, ?_, fun a nId => ?_, fun nId hnId => ?_⟩
    · simp only [if_neg hpq, hp', hq', if_pos (And.intro hmem1 hmem2)]
      rfl
    · refine (h.random.swap hp' hq').congr fun nId => ?_
      rw [posOf, posOf, hmap, Option.map_map, Option.map_map]
      rfl
    · rw [h.addr, hmap]
      constructor
      · rintro ⟨info, hinfo, haddr⟩
        exact ⟨moved p q info, by rw [hinfo]; rfl, haddr⟩
      · rintro ⟨info, hinfo, haddr⟩
        obtain ⟨info', hinfo', rfl⟩ := Option.map_eq_some_iff.1 hinfo
        exact ⟨info', hinfo', haddr⟩
    · rw [hmap, h.fresh nId hnId]
      rfl

/-- An entry is deleted. -/
theorem Indexed.remove (h : Indexed am) (hinfo : am.mapInfo[nId]? = some info) :
    ∃ v m, am.swapRandom info.nRandomPos (am.vRandom.length - 1) = some { am with vRandom := v, mapInfo := m } ∧
      v.length = am.vRandom.length ∧
      (∀ nId : Nat, m[nId]? = (am.mapInfo[nId]?).map (moved info.nRandomPos (am.vRandom.length - 1))) ∧
      Indexed { am with
        vRandom := v.dropLast, mapAddr := am.mapAddr.erase info.addr, mapInfo := m.erase nId } := by
  have hlt := (List.getElem?_eq_some_iff.1 (getElem?_vRandom h hinfo)).1
  obtain ⟨v, m, hswap, hlength, hmap, h'⟩ := swapRandom_spec h hlt (Nat.sub_one_lt_of_lt hlt)
  refine ⟨v, m, hswap, hlength, hmap, ?_, fun a nId' => ?_, fun nId' hnId' => ?_⟩
  · refine @Indexes.pop _ _ _ _ h'.random nId ?_ ?_ fun nId' hne => ?_
    · rw [posOf, hmap, hinfo, hlength]
      exact congrArg some (Equiv.swap_apply_left ..)
    · show Option.map _ (m.erase nId)[nId]? = none
      rw [PackedMap.getElem?_erase, if_pos rfl]
      rfl
    · show Option.map _ (m.erase nId)[nId']? = Option.map _ m[nId']?
      rw [PackedMap.getElem?_erase, if_neg (Ne.symm hne)]
  · show (am.mapAddr.erase info.addr)[a]? = some nId' ↔ ∃ info : CAddrInfo, (m.erase nId)[nId']? = some info ∧ info.addr = a
    rw [PackedMap.getElem?_erase, PackedMap.getElem?_erase]
    by_cases hid : nId = nId'
    · subst nId'
      rw [if_pos rfl]
      refine ⟨fun hold => ?_, fun ⟨_, hnone, _⟩ => nomatch hnone⟩
      split at hold
      · cases hold
      · rename_i hne
        obtain ⟨info', hinfo', haddr⟩ := (h.addr a nId).1 hold
        rw [hinfo] at hinfo'
        cases hinfo'
        exact absurd haddr hne
    · rw [if_neg hid, ← h'.addr a nId']
      by_cases ha : info.addr = a
      · rw [if_pos ha]
        refine ⟨nofun, fun hold => ?_⟩
        have hself := (h.addr a nId).2 ⟨info, hinfo, ha⟩
        exact absurd (Option.some.inj (hself.symm.trans hold)) hid
      · rw [if_neg ha]
  · show (m.erase nId)[nId']? = none
    rw [PackedMap.getElem?_erase, hmap, h.fresh nId' hnId']
    exact ite_self _

end Indexes

/-!
## The tables

How often an entry is in the new and in the tried buckets, and the invariant, with the condition on the entries as a
parameter: within a call the entry that is moved does not meet it.
-/

/-! ## Counts -/

def countNew (vNew : Finset Nat) (nId : Nat) : Nat := if nId ∈ vNew then 1 else 0

def countTried (vTried : List Nat) (nId : Nat) : Nat := vTried.count nId

def sizeTried (vTried : List Nat) (_ : Unit) : Nat := vTried.length

/-- In how many new buckets the entry is. -/
def newCount (vvNew : Fin ADDRMAN_NEW_BUCKET_COUNT → Finset Nat) (nId : Nat) : Nat := occurrences countNew vvNew nId

/-- How often the entry is in the tried buckets. -/
def triedCount (vvTried : Fin ADDRMAN_TRIED_BUCKET_COUNT → List Nat) (nId : Nat) : Nat :=
  occurrences countTried vvTried nId

/-- The number of entries in all tried buckets. -/
def triedTotal (vvTried : Fin ADDRMAN_TRIED_BUCKET_COUNT → List Nat) : Nat := occurrences sizeTried vvTried ()

theorem countNew_insert {vNew : Finset Nat} {nId : Nat} (h : nId ∉ vNew) (nId' : Nat) :
    countNew (insert nId vNew) nId' = countNew vNew nId' + if nId' = nId then 1 else 0 := by
  rw [countNew, countNew]
  simp only [Finset.mem_insert]
  by_cases hid : nId' = nId
  · subst nId'
    rw [if_pos (.inl rfl), if_neg h, if_pos rfl]
  · simp only [hid, false_or, if_false, Nat.add_zero]

theorem countNew_erase {vNew : Finset Nat} {nId : Nat} (h : nId ∈ vNew) (nId' : Nat) :
    countNew (vNew.erase nId) nId' + (if nId' = nId then 1 else 0) = countNew vNew nId' := by
  rw [countNew, countNew]
  simp only [Finset.mem_erase]
  by_cases hid : nId' = nId
  · subst nId'
    rw [if_neg fun hmem => hmem.1 rfl, if_pos rfl, if_pos h]
  · simp only [ne_eq, hid, not_false_eq_true, true_and, if_false, Nat.add_zero]

section Counts

variable {vvNew : Fin ADDRMAN_NEW_BUCKET_COUNT → Finset Nat} {vvTried : Fin ADDRMAN_TRIED_BUCKET_COUNT → List Nat}
  {nId : Nat}

theorem card_filter_mem (vvNew : Fin ADDRMAN_NEW_BUCKET_COUNT → Finset Nat) (nId : Nat) :
    (Finset.univ.filter fun n => nId ∈ vvNew n).card = newCount vvNew nId :=
  Finset.card_filter ..

theorem newCount_pos {n : Fin ADDRMAN_NEW_BUCKET_COUNT} (h : nId ∈ vvNew n) : 1 ≤ newCount vvNew nId := by
  have hle := count_le_occurrences countNew vvNew nId n
  rwa [countNew, if_pos h] at hle

theorem not_mem_of_newCount (h : newCount vvNew nId = 0) (n : Fin ADDRMAN_NEW_BUCKET_COUNT) : nId ∉ vvNew n := by
  intro hmem
  have hpos := newCount_pos hmem
  rw [h] at hpos
  cases hpos

theorem newCount_insert {n : Fin ADDRMAN_NEW_BUCKET_COUNT} (h : nId ∉ vvNew n) (nId' : Nat) :
    newCount (Function.update vvNew n (insert nId (vvNew n))) nId' = newCount vvNew nId' + if nId' = nId then 1 else 0 := by
  have hupdate := occurrences_update countNew vvNew n (insert nId (vvNew n)) nId'
  rw [countNew_insert h] at hupdate
  rw [newCount, newCount]
  omega

theorem newCount_erase {n : Fin ADDRMAN_NEW_BUCKET_COUNT} (h : nId ∈ vvNew n) (nId' : Nat) :
    newCount (Function.update vvNew n ((vvNew n).erase nId)) nId' + (if nId' = nId then 1 else 0) =
      newCount vvNew nId' := by
  have hupdate := occurrences_update countNew vvNew n ((vvNew n).erase nId) nId'
  have herase := countNew_erase h nId'
  rw [newCount, newCount]
  omega

/-- The entry is taken out of all buckets. -/
theorem newCount_eraseAll (nId' : Nat) :
    newCount (fun n => (vvNew n).erase nId) nId' = if nId' = nId then 0 else newCount vvNew nId' := by
  by_cases hid : nId' = nId
  · subst nId'
    rw [if_pos rfl, newCount, occurrences_eq_zero_iff]
    exact fun n => if_neg (Finset.notMem_erase nId _)
  · rw [if_neg hid, newCount, newCount, occurrences, occurrences]
    refine Finset.sum_congr rfl fun n _ => ?_
    rw [countNew, countNew]
    simp only [Finset.mem_erase, ne_eq, hid, not_false_eq_true, true_and]

theorem triedCount_pos {n : Fin ADDRMAN_TRIED_BUCKET_COUNT} (h : nId ∈ vvTried n) : 1 ≤ triedCount vvTried nId :=
  Nat.le_trans (List.count_pos_iff.2 h) (count_le_occurrences countTried vvTried nId n)

theorem triedCount_append (n : Fin ADDRMAN_TRIED_BUCKET_COUNT) (nId' : Nat) :
    triedCount (Function.update vvTried n (vvTried n ++ [nId])) nId' =
      triedCount vvTried nId' + if nId' = nId then 1 else 0 := by
  have hupdate := occurrences_update countTried vvTried n (vvTried n ++ [nId]) nId'
  have happend : countTried (vvTried n ++ [nId]) nId' = countTried (vvTried n) nId' + if nId' = nId then 1 else 0 := by
    rw [countTried, countTried, List.count_append, List.count_singleton]
    by_cases hid : nId' = nId
    · rw [if_pos hid, if_pos (beq_iff_eq.2 hid.symm)]
    · rw [if_neg hid, if_neg fun hsame => hid (beq_iff_eq.1 hsame).symm]
  rw [triedCount, triedCount]
  omega

/-- An entry of a bucket is replaced, after the bucket was shuffled. -/
theorem triedCount_set {n : Fin ADDRMAN_TRIED_BUCKET_COUNT} {vTried : List Nat} {nPos nIdOld : Nat}
    (hperm : vTried.Perm (vvTried n)) (hold : vTried[nPos]? = some nIdOld) (nId' : Nat) :
    triedCount (Function.update vvTried n (vTried.set nPos nId)) nId' + (if nId' = nIdOld then 1 else 0) =
      triedCount vvTried nId' + if nId' = nId then 1 else 0 := by
  have hupdate := occurrences_update countTried vvTried n (vTried.set nPos nId) nId'
  obtain ⟨hlt, rfl⟩ := List.getElem?_eq_some_iff.1 hold
  have hset : countTried (vTried.set nPos nId) nId' + (if nId' = vTried[nPos] then 1 else 0) =
      countTried (vvTried n) nId' + if nId' = nId then 1 else 0 := by
    rw [countTried, countTried, ← hperm.count_eq, List.count_set hlt]
    simp only [beq_iff_eq, @eq_comm _ nId']
    by_cases hsame : vTried[nPos] = nId'
    · have hpos : 0 < vTried.count nId' := List.count_pos_iff.2 (hsame ▸ List.getElem_mem hlt)
      rw [if_pos hsame]
      omega
    · rw [if_neg hsame]
      omega
  rw [triedCount, triedCount]
  omega

theorem triedTotal_update (n : Fin ADDRMAN_TRIED_BUCKET_COUNT) (vTried : List Nat) :
    triedTotal (Function.update vvTried n vTried) + (vvTried n).length = triedTotal vvTried + vTried.length :=
  occurrences_update sizeTried vvTried n vTried ()

end Counts

/-! ## The invariant -/

/-- What holds of an entry that is so often in the new and in the tried buckets. -/
structure EntryOk (info : CAddrInfo) (nNews nTrieds : Nat) : Prop where
  refs : info.nRefCount = nNews
  tried : info.fInTried = true → nNews = 0 ∧ nTrieds = 1 ∧ info.nLastSuccess ≠ 0
  new : info.fInTried = false → 1 ≤ nNews ∧ nNews ≤ ADDRMAN_NEW_BUCKETS_PER_ADDRESS ∧ nTrieds = 0
  nLastTry : 0 ≤ info.nLastTry
  nLastSuccess : 0 ≤ info.nLastSuccess

/-- The invariant, where each entry meets the condition and so many entries are not counted. -/
structure ConsistentBy (P : Nat → CAddrInfo → Nat → Nat → Prop) (uncounted : Int) (am : CAddrMan) : Prop where
  indexed : Indexed am
  entry : ∀ nId info, am.mapInfo[nId]? = some info → P nId info (newCount am.vvNew nId) (triedCount am.vvTried nId)
  absent : ∀ nId : Nat, am.mapInfo[nId]? = none → newCount am.vvNew nId = 0 ∧ triedCount am.vvTried nId = 0
  newSize : ∀ n, (am.vvNew n).card ≤ ADDRMAN_NEW_BUCKET_SIZE
  triedSize : ∀ n, (am.vvTried n).length ≤ ADDRMAN_TRIED_BUCKET_SIZE
  nTried : am.nTried = triedTotal am.vvTried
  total : (am.vRandom.length : Int) = am.nTried + am.nNew + uncounted

variable {P Q : Nat → CAddrInfo → Nat → Nat → Prop} {uncounted : Int} {am : CAddrMan} {nId : Nat} {info : CAddrInfo}

/-- A bucket is replaced by one that is not too long. -/
theorem update_le {ι C : Type} [DecidableEq ι] {size : C → Nat} {nMax : Nat} {vv : ι → C} {n : ι} {v : C}
    (hsize : ∀ n, size (vv n) ≤ nMax) (h : size v ≤ nMax) (n' : ι) : size (Function.update vv n v n') ≤ nMax := by
  by_cases hn' : n' = n
  · subst n'
    rw [Function.update_self]
    exact h
  · rw [Function.update_of_ne hn']
    exact hsize n'

namespace ConsistentBy

theorem exists_of_mem_new (h : ConsistentBy P uncounted am) {n : Fin ADDRMAN_NEW_BUCKET_COUNT}
    (hmem : nId ∈ am.vvNew n) : ∃ info, am.mapInfo[nId]? = some info := by
  cases hinfo : am.mapInfo[nId]? with
  | none => exact absurd hmem (not_mem_of_newCount (h.absent nId hinfo).1 n)
  | some info => exact ⟨info, rfl⟩

theorem exists_of_mem_tried (h : ConsistentBy P uncounted am) {n : Fin ADDRMAN_TRIED_BUCKET_COUNT}
    (hmem : nId ∈ am.vvTried n) : ∃ info, am.mapInfo[nId]? = some info := by
  cases hinfo : am.mapInfo[nId]? with
  | none =>
      have hpos := triedCount_pos hmem
      rw [(h.absent nId hinfo).2] at hpos
      cases hpos
  | some info => exact ⟨info, rfl⟩

/-- An entry is changed. -/
theorem modifyInfo (h : ConsistentBy P uncounted am) (nId : Nat) (change : CAddrInfo → CAddrInfo)
    (hpos : ∀ info, (change info).nRandomPos = info.nRandomPos) (haddr : ∀ info, (change info).addr = info.addr)
    (hchange : ∀ info nNews nTrieds, am.mapInfo[nId]? = some info → P nId info nNews nTrieds →
      Q nId (change info) nNews nTrieds)
    (hother : ∀ nId' info nNews nTrieds, nId' ≠ nId → P nId' info nNews nTrieds → Q nId' info nNews nTrieds) :
    ConsistentBy Q uncounted (am.modifyInfo nId change) where
  indexed := h.indexed.modifyInfo change hpos haddr nId
  entry nId' info hinfo := by
    rw [getElem?_modifyInfo] at hinfo
    split at hinfo
    · subst nId'
      obtain ⟨info', hinfo', rfl⟩ := Option.map_eq_some_iff.1 hinfo
      exact hchange info' _ _ hinfo' (h.entry nId info' hinfo')
    · rename_i hid
      exact hother nId' info _ _ (Ne.symm hid) (h.entry nId' info hinfo)
  absent nId' hnone := by
    rw [getElem?_modifyInfo] at hnone
    apply h.absent nId'
    split at hnone
    · exact Option.map_eq_none_iff.1 hnone
    · exact hnone
  newSize := h.newSize
  triedSize := h.triedSize
  nTried := h.nTried
  total := h.total

/-- The buckets and the counts are changed. -/
theorem setTables (h : ConsistentBy P uncounted am) {vvNew : Fin ADDRMAN_NEW_BUCKET_COUNT → Finset Nat}
    {vvTried : Fin ADDRMAN_TRIED_BUCKET_COUNT → List Nat} {nNew nTried uncounted' : Int}
    (hentry : ∀ nId info, am.mapInfo[nId]? = some info →
      P nId info (newCount am.vvNew nId) (triedCount am.vvTried nId) →
      Q nId info (newCount vvNew nId) (triedCount vvTried nId))
    (habsent : ∀ nId : Nat, am.mapInfo[nId]? = none → newCount am.vvNew nId = 0 → triedCount am.vvTried nId = 0 →
      newCount vvNew nId = 0 ∧ triedCount vvTried nId = 0)
    (hnewSize : ∀ n, (vvNew n).card ≤ ADDRMAN_NEW_BUCKET_SIZE)
    (htriedSize : ∀ n, (vvTried n).length ≤ ADDRMAN_TRIED_BUCKET_SIZE) (hnTried : nTried = triedTotal vvTried)
    (htotal : (am.vRandom.length : Int) = nTried + nNew + uncounted') :
    ConsistentBy Q uncounted' { am with vvNew, vvTried, nNew, nTried } where
  indexed := ⟨h.indexed.random, h.indexed.addr, h.indexed.fresh⟩
  entry nId info hinfo := hentry nId info hinfo (h.entry nId info hinfo)
  absent nId hnone := habsent nId hnone (h.absent nId hnone).1 (h.absent nId hnone).2
  newSize := hnewSize
  triedSize := htriedSize
  nTried := hnTried
  total := htotal

end ConsistentBy

theorem EntryOk.moved {nNews nTrieds : Nat} (h : EntryOk info nNews nTrieds) (p q : Nat) :
    EntryOk (moved p q info) nNews nTrieds :=
  ⟨h.refs, h.tried, h.new, h.nLastTry, h.nLastSuccess⟩

/-- An entry that is in a new bucket. -/
theorem EntryOk.not_tried {nNews nTrieds : Nat} (h : EntryOk info nNews nTrieds) (hnews : 1 ≤ nNews) :
    info.fInTried = false := by
  cases htried : info.fInTried with
  | false => rfl
  | true =>
      rw [(h.tried htried).1] at hnews
      cases hnews

/-- An entry that is in a tried bucket. -/
theorem EntryOk.in_tried {nNews nTrieds : Nat} (h : EntryOk info nNews nTrieds) (htrieds : 1 ≤ nTrieds) :
    info.fInTried = true := by
  cases htried : info.fInTried with
  | true => rfl
  | false =>
      rw [(h.new htried).2.2] at htrieds
      cases htrieds

end ProCurrency.CAddrMan
