import ProCurrency.Addr.Lemmas.Placed

/-!
# What is written and read

The writer gives the entries new ids, the new entries first, and the reader builds its tables over these ids.
-/

namespace ProCurrency.CAddrMan

open ByteCodec Buckets

variable {am st : CAddrMan} {nId : Nat} {info : CAddrInfo} {hash : List UInt8 → UInt256}

/-! ## The writer -/

/-- The new entries are written, and their ids are numbered. -/
theorem writeNew_spec {nNew : Int} {infos : List (Nat × CAddrInfo)} (w : NewWriter)
    (hnodup : (infos.map Prod.fst).Nodup)
    (hcount : (w.nIds : Int) + (infos.filter fun e => e.2.nRefCount ≠ 0).length = nNew) :
    (writeNew nNew infos w).s = w.s ++ (infos.filter fun e => e.2.nRefCount ≠ 0).flatMap (·.2.write) ∧
      (∀ nId ∈ (infos.filter fun e => e.2.nRefCount ≠ 0).map Prod.fst, (writeNew nNew infos w).mapUnkIds[nId]? =
        some (w.nIds + ((infos.filter fun e => e.2.nRefCount ≠ 0).map Prod.fst).idxOf nId)) ∧
      ∀ nId : Nat, nId ∉ infos.map Prod.fst → (writeNew nNew infos w).mapUnkIds[nId]? = w.mapUnkIds[nId]? := by
  induction infos generalizing w with
  | nil => exact ⟨(List.append_nil _).symm, nofun, fun _ _ => rfl⟩
  | cons e infos ih =>
      obtain ⟨nId, info⟩ := e
      rw [List.map_cons, List.nodup_cons] at hnodup
      rw [writeNew]
      by_cases hbreak : (w.nIds : Int) = nNew
      · -- the loop ends early: there are no more new entries
        have hnil : (((nId, info) :: infos).filter fun e => e.2.nRefCount ≠ 0) = [] := by
          rw [← List.length_eq_zero_iff]
          omega
        rw [if_pos hbreak, hnil]
        exact ⟨(List.append_nil _).symm, nofun, fun _ _ => rfl⟩
      · rw [if_neg hbreak]
        dsimp only
        by_cases hrefs : info.nRefCount ≠ 0
        · have hfilter : (((nId, info) :: infos).filter fun e => e.2.nRefCount ≠ 0) =
              (nId, info) :: infos.filter fun e => e.2.nRefCount ≠ 0 := List.filter_cons_of_pos (decide_eq_true hrefs)
          rw [hfilter, List.length_cons] at hcount
          obtain ⟨hs, hids, hother⟩ := ih
            { s := w.s ++ info.write, mapUnkIds := w.mapUnkIds.insert nId w.nIds, nIds := w.nIds + 1 } hnodup.2
            (by dsimp only; omega)
          rw [if_pos hrefs, hfilter]
          refine ⟨?_, fun nId' hmem => ?_, fun nId' hnot => ?_⟩
          · rw [hs, List.flatMap_cons, List.append_assoc]
          · rw [List.map_cons, List.mem_cons] at hmem
            by_cases hid : nId' = nId
            · subst nId'
              rw [hother nId hnodup.1, PackedMap.getElem?_insert, if_pos rfl, List.map_cons, List.idxOf_cons_self]
              rfl
            · rw [hids nId' (hmem.resolve_left hid), List.map_cons, List.idxOf_cons_ne _ (Ne.symm hid)]
              exact congrArg some (by dsimp only; omega)
          · rw [List.map_cons, List.mem_cons, not_or] at hnot
            rw [hother nId' hnot.2, PackedMap.getElem?_insert, if_neg (Ne.symm hnot.1)]
        · have hfilter : (((nId, info) :: infos).filter fun e => e.2.nRefCount ≠ 0) =
              infos.filter fun e => e.2.nRefCount ≠ 0 := List.filter_cons_of_neg (by simpa using hrefs)
          rw [hfilter] at hcount
          obtain ⟨hs, hids, hother⟩ := ih { w with mapUnkIds := w.mapUnkIds.insert nId w.nIds } hnodup.2 hcount
          rw [if_neg hrefs, hfilter]
          refine ⟨hs, hids, fun nId' hnot => ?_⟩
          rw [List.map_cons, List.mem_cons, not_or] at hnot
          rw [hother nId' hnot.2, PackedMap.getElem?_insert, if_neg (Ne.symm hnot.1)]

theorem writeTried_spec {nTried : Int} {infos : List (Nat × CAddrInfo)} (nIds : Nat)
    (hcount : (nIds : Int) + (infos.filter fun e => e.2.fInTried).length = nTried) :
    writeTried nTried infos nIds = (infos.filter fun e => e.2.fInTried).flatMap (·.2.write) := by
  induction infos generalizing nIds with
  | nil => rfl
  | cons e infos ih =>
      obtain ⟨nId, info⟩ := e
      rw [writeTried]
      by_cases hbreak : (nIds : Int) = nTried
      · have hnil : (((nId, info) :: infos).filter fun e => e.2.fInTried) = [] := by
          rw [← List.length_eq_zero_iff]
          omega
        rw [if_pos hbreak, hnil]
        rfl
      · rw [if_neg hbreak]
        cases htried : info.fInTried with
        | true =>
            have hfilter : (((nId, info) :: infos).filter fun e => e.2.fInTried) =
                (nId, info) :: infos.filter fun e => e.2.fInTried := List.filter_cons_of_pos htried
            rw [hfilter, List.length_cons] at hcount
            rw [if_pos rfl, hfilter, List.flatMap_cons, ih (nIds + 1) (by omega)]
        | false =>
            have hfilter : (((nId, info) :: infos).filter fun e => e.2.fInTried) = infos.filter fun e => e.2.fInTried :=
              List.filter_cons_of_neg fun htrue => Bool.false_ne_true (htried.symm.trans htrue)
            rw [hfilter] at hcount
            rw [if_neg Bool.false_ne_true, hfilter, ih nIds hcount]

def newInfos (am : CAddrMan) : List (Nat × CAddrInfo) := am.mapInfo.toList.filter fun e => !e.2.fInTried

def triedInfos (am : CAddrMan) : List (Nat × CAddrInfo) := am.mapInfo.toList.filter fun e => e.2.fInTried

/-- The entries in the order in which they are written. -/
def written (am : CAddrMan) : List (Nat × CAddrInfo) := am.newInfos ++ am.triedInfos

/-- The id that an entry has after it was read. -/
def rank (am : CAddrMan) (nId : Nat) : Nat := (am.written.map Prod.fst).idxOf nId

theorem written_perm (am : CAddrMan) : am.written.Perm am.mapInfo.toList := by
  have hperm := List.filter_append_perm (fun e : Nat × CAddrInfo => !e.2.fInTried) am.mapInfo.toList
  simp only [Bool.not_not] at hperm
  exact hperm

theorem mem_written : (nId, info) ∈ am.written ↔ am.mapInfo[nId]? = some info :=
  am.written_perm.mem_iff.trans mem_toList_iff

theorem nodup_written (am : CAddrMan) : (am.written.map Prod.fst).Nodup :=
  (am.written_perm.map Prod.fst).nodup_iff.2 am.nodup_keys

theorem getElem?_rank (hinfo : am.mapInfo[nId]? = some info) : am.written[am.rank nId]? = some (nId, info) := by
  have hmem : nId ∈ am.written.map Prod.fst := List.mem_map.2 ⟨(nId, info), mem_written.2 hinfo, rfl⟩
  have hlt := List.idxOf_lt_length_of_mem hmem
  have hat : (am.written.map Prod.fst)[am.rank nId]? = some nId := by
    rw [rank, List.getElem?_eq_getElem hlt, List.getElem_idxOf hlt]
  rw [List.getElem?_map] at hat
  obtain ⟨⟨nId', info'⟩, he, rfl⟩ := Option.map_eq_some_iff.1 hat
  have hinfo' := mem_written.1 (List.mem_of_getElem? he)
  rw [hinfo] at hinfo'
  cases hinfo'
  exact he

theorem rank_eq {i : Nat} (he : am.written[i]? = some (nId, info)) : am.rank nId = i := by
  have hat : (am.written.map Prod.fst)[i]? = some nId := by rw [List.getElem?_map, he]; rfl
  obtain ⟨hlt, hget⟩ := List.getElem?_eq_some_iff.1 hat
  rw [rank, ← hget]
  exact am.nodup_written.idxOf_getElem i hlt

theorem Consistent.refs_ne_zero (h : am.Consistent) (hinfo : am.mapInfo[nId]? = some info) :
    info.nRefCount ≠ 0 ↔ info.fInTried = false := by
  have hok := h.entry nId info hinfo
  rw [hok.refs]
  cases htried : info.fInTried with
  | true =>
      rw [(hok.tried htried).1]
      exact ⟨fun hne => absurd rfl hne, nofun⟩
  | false =>
      have hpos := (hok.new htried).1
      exact ⟨fun _ => rfl, fun _ => by omega⟩

theorem Consistent.newInfos_eq (h : am.Consistent) :
    (am.mapInfo.toList.filter fun e => e.2.nRefCount ≠ 0) = am.newInfos := by
  refine List.filter_congr fun e he => ?_
  have hiff := h.refs_ne_zero (mem_toList_iff.1 he)
  cases htried : e.2.fInTried with
  | true => exact decide_eq_false fun hne => Bool.false_ne_true ((hiff.1 hne).symm.trans htried)
  | false => exact decide_eq_true (hiff.2 htried)

theorem mem_newKeys (hinfo : am.mapInfo[nId]? = some info) (htried : info.fInTried = false) :
    nId ∈ am.newInfos.map Prod.fst :=
  List.mem_map.2 ⟨(nId, info), List.mem_filter.2 ⟨mem_toList_iff.2 hinfo, by rw [htried]; rfl⟩, rfl⟩

theorem rank_new (hinfo : am.mapInfo[nId]? = some info) (htried : info.fInTried = false) :
    am.rank nId = (am.newInfos.map Prod.fst).idxOf nId := by
  rw [rank, written, List.map_append, List.idxOf_append_of_mem (mem_newKeys hinfo htried)]

/-- An entry of a new bucket. -/
theorem Consistent.new_of_mem (h : am.Consistent) {n : Fin ADDRMAN_NEW_BUCKET_COUNT} (hmem : nId ∈ am.vvNew n) :
    ∃ info, am.mapInfo[nId]? = some info ∧ info.fInTried = false := by
  obtain ⟨info, hinfo⟩ := h.exists_of_mem_new hmem
  exact ⟨info, hinfo, (h.entry nId info hinfo).not_tried (newCount_pos hmem)⟩

def writeRanks (am : CAddrMan) (vNew : Finset Nat) : List UInt8 :=
  leInt 4 vNew.card ++ (vNew.sort (· ≤ ·)).flatMap fun nId => leInt 4 (am.rank nId : Nat)

/-- What a consistent manager writes: no loop ends early. -/
theorem Consistent.write_eq (h : am.Consistent) :
    am.write = writeUChar 0 ++ (writeVector writeUChar am.nKey ++ (leInt 4 am.nNew ++ (leInt 4 am.nTried ++
      (leInt 4 ADDRMAN_NEW_BUCKET_COUNT ++ (am.newInfos.flatMap (·.2.write) ++ (am.triedInfos.flatMap (·.2.write) ++
        (List.finRange ADDRMAN_NEW_BUCKET_COUNT).flatMap fun n => am.writeRanks (am.vvNew n))))))) := by
  have hlength : (({} : NewWriter).nIds : Int) + (am.mapInfo.toList.filter fun e => e.2.nRefCount ≠ 0).length =
      am.nNew := by
    rw [h.newInfos_eq, ← h.length_new]
    exact Int.zero_add _
  obtain ⟨hs, hids, _⟩ := writeNew_spec {} am.nodup_keys hlength
  rw [h.newInfos_eq] at hs hids
  have hwritten := writeTried_spec 0 ((Int.zero_add _).trans h.length_tried)
  have hbuckets : ∀ n, writeBucket (writeNew am.nNew am.mapInfo.toList {}).mapUnkIds (am.vvNew n) =
      am.writeRanks (am.vvNew n) := by
    intro n
    rw [writeBucket, writeRanks]
    congr 1
    refine List.flatMap_congr fun nId hmem => ?_
    obtain ⟨info, hinfo, htried⟩ := h.new_of_mem ((Finset.mem_sort _).1 hmem)
    rw [writeIndex, hids nId (mem_newKeys hinfo htried), rank_new hinfo htried]
    exact congrArg (fun n : Nat => leInt 4 n) (Nat.zero_add _)
  rw [write]
  simp only [hs, hwritten, hbuckets, List.append_assoc]
  rfl

/-! ## The numbers -/

theorem Consistent.length_newInfos_le (h : am.Consistent) :
    am.newInfos.length ≤ ADDRMAN_NEW_BUCKET_COUNT * ADDRMAN_NEW_BUCKET_SIZE := by
  have hsub : am.newInfos.map Prod.fst ⊆ (Finset.univ.biUnion am.vvNew).toList := by
    intro nId hmem
    obtain ⟨⟨nId, info⟩, he, rfl⟩ := List.mem_map.1 hmem
    obtain ⟨hmem, hnew⟩ := List.mem_filter.1 he
    have hpos := ((h.entry nId info (mem_toList_iff.1 hmem)).new (by simpa using hnew)).1
    rw [← card_filter_mem] at hpos
    obtain ⟨n, hn⟩ := Finset.card_pos.1 hpos
    exact Finset.mem_toList.2 (Finset.mem_biUnion.2 ⟨n, Finset.mem_univ n, (Finset.mem_filter.1 hn).2⟩)
  have hnodup := am.nodup_keys.sublist ((am.mapInfo.toList.filter_sublist (p := fun e => !e.2.fInTried)).map Prod.fst)
  have hle := (List.subperm_of_subset hnodup hsub).length_le
  rw [List.length_map, Finset.length_toList] at hle
  have hcards := Finset.card_biUnion_le_card_mul Finset.univ am.vvNew ADDRMAN_NEW_BUCKET_SIZE fun n _ => h.newSize n
  rw [Finset.card_fin] at hcards
  exact hle.trans hcards

theorem Consistent.nTried_le (h : am.Consistent) :
    am.nTried ≤ (ADDRMAN_TRIED_BUCKET_COUNT * ADDRMAN_TRIED_BUCKET_SIZE : Nat) := by
  rw [h.nTried, triedTotal, occurrences, Int.ofNat_le]
  refine (Finset.sum_le_card_nsmul _ _ _ fun n _ => h.triedSize n).trans_eq ?_
  rw [Finset.card_fin, smul_eq_mul]

/-! ## The entries are read -/

/-- The entry that is read, with its flag. -/
def listed (e : Nat × CAddrInfo) (nRandomPos : Nat) : CAddrInfo :=
  { e.2.restored nRandomPos with fInTried := e.2.fInTried }

/-- The entry is tried, and this is its bucket. -/
def belongs (hash : List UInt8 → UInt256) (nKey : List UInt8) (n : Fin ADDRMAN_TRIED_BUCKET_COUNT)
    (e : Nat × CAddrInfo) : Bool :=
  e.2.fInTried && e.2.getTriedBucket hash nKey == n

/-- The places of the entries of a tried bucket. -/
def places (hash : List UInt8 → UInt256) (nKey : List UInt8) (infos : List (Nat × CAddrInfo))
    (n : Fin ADDRMAN_TRIED_BUCKET_COUNT) : List Nat :=
  (List.range infos.length).filter fun i => infos[i]?.any (belongs hash nKey n)

theorem mem_places {nKey : List UInt8} {infos : List (Nat × CAddrInfo)} {n : Fin ADDRMAN_TRIED_BUCKET_COUNT} {i : Nat} :
    i ∈ places hash nKey infos n ↔ ∃ e, infos[i]? = some e ∧ belongs hash nKey n e = true := by
  rw [places, List.mem_filter, List.mem_range, Option.any_eq_true]
  constructor
  · exact fun ⟨_, h⟩ => h
  · rintro ⟨e, he, hbelongs⟩
    exact ⟨(List.getElem?_eq_some_iff.1 he).1, e, he, hbelongs⟩

theorem places_append (nKey : List UInt8) (infos : List (Nat × CAddrInfo)) (e : Nat × CAddrInfo)
    (n : Fin ADDRMAN_TRIED_BUCKET_COUNT) :
    places hash nKey (infos ++ [e]) n =
      places hash nKey infos n ++ if belongs hash nKey n e = true then [infos.length] else [] := by
  rw [places, places, List.length_append, List.length_singleton, List.range_succ, List.filter_append]
  congr 1
  · refine List.filter_congr fun i hi => ?_
    rw [List.getElem?_append_left (List.mem_range.1 hi)]
  · rw [List.filter_singleton, List.getElem?_concat_length, Option.any_some, Bool.cond_eq_ite]

theorem length_places (nKey : List UInt8) (infos : List (Nat × CAddrInfo)) (n : Fin ADDRMAN_TRIED_BUCKET_COUNT) :
    (places hash nKey infos n).length = (infos.filter (belongs hash nKey n)).length := by
  induction infos using List.reverseRecOn with
  | nil => rfl
  | append_singleton infos e ih =>
      rw [places_append, List.length_append, List.filter_append, List.length_append, ih]
      congr 1
      rw [List.filter_singleton]
      split
      · rename_i hbelongs
        rw [hbelongs]
        rfl
      · rename_i hbelongs
        rw [Bool.eq_false_of_not_eq_true hbelongs]
        rfl

/-- There is room in a tried bucket for all that belong to it. -/
theorem Consistent.length_belongs_le (h : am.Consistent) (hplaced : am.Placed hash)
    (n : Fin ADDRMAN_TRIED_BUCKET_COUNT) :
    (am.written.filter (belongs hash am.nKey n)).length ≤ ADDRMAN_TRIED_BUCKET_SIZE := by
  have hsub : (am.written.filter (belongs hash am.nKey n)).map Prod.fst ⊆ am.vvTried n := by
    intro nId hmem
    obtain ⟨⟨nId, info⟩, he, rfl⟩ := List.mem_map.1 hmem
    obtain ⟨hmem, hbelongs⟩ := List.mem_filter.1 he
    rw [belongs, Bool.and_eq_true, beq_iff_eq] at hbelongs
    have hinfo := mem_written.1 hmem
    obtain ⟨n', hn', _⟩ := (h.checked.tried nId info hinfo hbelongs.1).2.2.1
    have hbucket := hplaced.bucket n' nId info hn' hinfo
    rw [hbelongs.2] at hbucket
    exact hbucket ▸ hn'
  have hnodup := am.nodup_written.sublist ((am.written.filter_sublist (p := belongs hash am.nKey n)).map Prod.fst)
  have hle := (List.subperm_of_subset hnodup hsub).length_le
  rw [List.length_map] at hle
  exact hle.trans (h.triedSize n)

/-- The manager while it is read, after these entries. -/
structure Reading (hash : List UInt8 → UInt256) (am : CAddrMan) (infos : List (Nat × CAddrInfo)) (st : CAddrMan) :
    Prop where
  nKey : st.nKey = am.nKey
  nNew : st.nNew = am.nNew
  nTried : st.nTried = am.nTried
  vvNew : st.vvNew = fun _ => ∅
  vvTried : st.vvTried = places hash am.nKey infos
  vRandom : st.vRandom = List.range infos.length
  mapInfo : ∀ i : Nat, st.mapInfo[i]? = (infos[i]?).map fun e => listed e i
  mapAddr : ∀ (a : CNetAddr) (i : Nat), st.mapAddr[a]? = some i ↔ ∃ e, infos[i]? = some e ∧ e.2.addr = a

/-- One more entry is listed. -/
theorem Reading.push {infos : List (Nat × CAddrInfo)} {e : Nat × CAddrInfo} (h : Reading hash am infos st)
    (hnew : ∀ e' ∈ infos, e'.2.addr ≠ e.2.addr) {vvTried : Fin ADDRMAN_TRIED_BUCKET_COUNT → List Nat}
    (hvvTried : vvTried = places hash am.nKey (infos ++ [e])) (nIdCount : Nat) :
    Reading hash am (infos ++ [e]) { st.listInfo infos.length (listed e infos.length) with vvTried, nIdCount } where
  nKey := h.nKey
  nNew := h.nNew
  nTried := h.nTried
  vvNew := h.vvNew
  vvTried := hvvTried
  vRandom := by
    show st.vRandom ++ [infos.length] = _
    rw [h.vRandom, List.length_append, List.length_singleton, List.range_succ]
  mapInfo i := by
    show (st.mapInfo.insert infos.length (listed e infos.length))[i]? = _
    rw [PackedMap.getElem?_insert]
    split
    · rename_i hi
      subst i
      rw [List.getElem?_concat_length]
      rfl
    · rename_i hi
      rw [h.mapInfo, List.getElem?_append]
      split
      · rfl
      · rename_i hge
        rw [List.getElem?_eq_none (Nat.le_of_not_lt hge), List.getElem?_eq_none]
        rw [List.length_singleton]
        omega
  mapAddr a i := by
    show (st.mapAddr.insert e.2.addr infos.length)[a]? = some i ↔ _
    rw [PackedMap.getElem?_insert]
    split
    · rename_i ha
      subst a
      rw [Option.some.injEq]
      constructor
      · rintro rfl
        exact ⟨e, List.getElem?_concat_length, rfl⟩
      · rintro ⟨e', he', hsame⟩
        rw [List.getElem?_append] at he'
        split at he'
        · exact absurd hsame (hnew e' (List.mem_of_getElem? he'))
        · rename_i hge
          have hlt := (List.getElem?_eq_some_iff.1 he').1
          rw [List.length_singleton] at hlt
          omega
    · rename_i ha
      rw [h.mapAddr]
      constructor
      · rintro ⟨e', he', hsame⟩
        exact ⟨e', by rw [List.getElem?_append_left (List.getElem?_eq_some_iff.1 he').1, he'], hsame⟩
      · rintro ⟨e', he', hsame⟩
        rw [List.getElem?_append] at he'
        split at he'
        · exact ⟨e', he', hsame⟩
        · rcases List.mem_singleton.1 (List.mem_of_getElem? he') with rfl
          exact absurd hsame ha

/-- No two entries have the same address. -/
theorem Consistent.addr_ne (h : am.Consistent) {done rest : List (Nat × CAddrInfo)} {e : Nat × CAddrInfo}
    (hwritten : am.written = done ++ e :: rest) : ∀ e' ∈ done, e'.2.addr ≠ e.2.addr := by
  intro e' he' hsame
  have hinfo := mem_written.1 (hwritten ▸ List.mem_append_right done List.mem_cons_self : (e.1, e.2) ∈ am.written)
  have hinfo' := mem_written.1 (hwritten ▸ List.mem_append_left _ he' : (e'.1, e'.2) ∈ am.written)
  have hid := (h.indexed.addr e.2.addr e.1).2 ⟨e.2, hinfo, rfl⟩
  rw [(h.indexed.addr e.2.addr e'.1).2 ⟨e'.2, hinfo', hsame⟩, Option.some.injEq] at hid
  have hnodup := am.nodup_written
  rw [hwritten, List.map_append, List.map_cons] at hnodup
  have hdisjoint := List.disjoint_of_nodup_append hnodup
  exact hdisjoint (List.mem_map_of_mem he') (hid ▸ List.mem_cons_self)

/-- The fresh manager, when it has read the counts. -/
def counted (am : CAddrMan) : CAddrMan := { nKey := am.nKey, nNew := am.nNew, nTried := am.nTried }

theorem Consistent.readNew (h : am.Consistent) (s : List UInt8) :
    ∃ st, readLoop (readNewInfo hash ADDRMAN_NEW_BUCKET_COUNT) am.newInfos.length 0 am.counted
        (am.newInfos.flatMap (·.2.write) ++ s) = some (st, s) ∧
      Reading hash am am.newInfos st := by
  refine readLoop_append (Reading hash am) (fun done e rest hnew st hst s => ?_) ?_ s
  · have hfree : e.2.fInTried = false := by
      have hmem : e ∈ am.newInfos := hnew ▸ List.mem_append_right done List.mem_cons_self
      simpa using (List.mem_filter.1 hmem).2
    have hlisted : e.2.restored done.length = listed e done.length := by rw [listed, hfree]; rfl
    have hread : readNewInfo hash ADDRMAN_NEW_BUCKET_COUNT st done.length (e.2.write ++ s) =
        some (st.listInfo done.length (listed e done.length), s) := by
      have hlength : st.vRandom.length = done.length := by rw [hst.vRandom, List.length_range]
      rw [readNewInfo, CAddrInfo.read_append, hlength, hlisted]
      exact if_neg (not_not.2 rfl)
    have hwritten : am.written = done ++ e :: (rest ++ am.triedInfos) := by
      rw [written, hnew, List.append_assoc]
      rfl
    have hvvTried : st.vvTried = places hash am.nKey (done ++ [e]) := by
      funext n
      rw [places_append, belongs, hfree, Bool.false_and, if_neg Bool.false_ne_true, List.append_nil, hst.vvTried]
    exact ⟨_, hread, hst.push (h.addr_ne hwritten) hvvTried st.nIdCount⟩
  · exact ⟨rfl, rfl, rfl, rfl, rfl, rfl, fun i => Std.ExtTreeMap.getElem?_empty, fun a i =>
      ⟨nofun, fun ⟨_, he, _⟩ => nomatch he⟩⟩

theorem Consistent.readTried (h : am.Consistent) (hplaced : am.Placed hash) (hst : Reading hash am am.newInfos st)
    (s : List UInt8) :
    ∃ st', readLoop (readTriedInfo hash) am.triedInfos.length 0 ({ st with nIdCount := am.newInfos.length }, 0)
        (am.triedInfos.flatMap (·.2.write) ++ s) = some ((st', 0), s) ∧
      Reading hash am am.written st' ∧ st'.nIdCount = am.written.length := by
  have hrun : ∃ st', readLoop (readTriedInfo hash) am.triedInfos.length 0
      ({ st with nIdCount := am.newInfos.length }, 0) (am.triedInfos.flatMap (·.2.write) ++ s) = some (st', s) ∧
      Reading hash am am.written st'.1 ∧ st'.1.nIdCount = am.written.length ∧ st'.2 = 0 := by
    refine readLoop_append (fun done (st : CAddrMan × Nat) => Reading hash am (am.newInfos ++ done) st.1 ∧
      st.1.nIdCount = (am.newInfos ++ done).length ∧ st.2 = 0) (fun done e rest htried st hst s => ?_) ?_ s
    · obtain ⟨st, nLost⟩ := st
      obtain ⟨hst, hcount, hlost⟩ := hst
      have hin : e.2.fInTried = true := by
        have hmem : e ∈ am.triedInfos := htried ▸ List.mem_append_right done List.mem_cons_self
        exact (List.mem_filter.1 hmem).2
      have hwritten : am.written = (am.newInfos ++ done) ++ e :: rest := by
        rw [written, htried, List.append_assoc]
      rw [← List.append_assoc]
      generalize am.newInfos ++ done = before at hst hcount hwritten
      have hlisted : { e.2.restored before.length with fInTried := true } = listed e before.length := by
        rw [listed, hin]
      have hbucket : (e.2.restored before.length).getTriedBucket hash st.nKey = e.2.getTriedBucket hash am.nKey := by
        rw [hst.nKey]
        exact getTriedBucket_congr rfl am.nKey
      have hbelongs : ∀ n, belongs hash am.nKey n e = true ↔ e.2.getTriedBucket hash am.nKey = n := by
        intro n
        rw [belongs, hin, Bool.true_and, beq_iff_eq]
      generalize hn : e.2.getTriedBucket hash am.nKey = n at hbucket hbelongs
      have hroom : (st.vvTried n).length < ADDRMAN_TRIED_BUCKET_SIZE := by
        have hle := h.length_belongs_le hplaced n
        rw [hwritten, List.filter_append, List.filter_cons_of_pos ((hbelongs n).2 rfl), List.length_append,
          List.length_cons] at hle
        rw [hst.vvTried, length_places]
        omega
      have hread : readTriedInfo hash (st, nLost) done.length (e.2.write ++ s) =
          some (({ st.listInfo before.length (listed e before.length) with
            vvTried := Function.update st.vvTried n (st.vvTried n ++ [before.length])
            nIdCount := before.length + 1 }, nLost), s) := by
        have hlength : st.vRandom.length = before.length := by rw [hst.vRandom, List.length_range]
        rw [readTriedInfo]
        dsimp only
        rw [CAddrInfo.read_append, hlength]
        dsimp only
        rw [hbucket, if_pos hroom, hcount, hlisted]
        rfl
      have hvvTried : Function.update st.vvTried n (st.vvTried n ++ [before.length]) =
          places hash am.nKey (before ++ [e]) := by
        funext n'
        rw [places_append, hst.vvTried]
        by_cases hsame : n' = n
        · subst n'
          rw [Function.update_self, if_pos ((hbelongs n).2 rfl)]
        · rw [Function.update_of_ne hsame, if_neg fun hb => hsame ((hbelongs n').1 hb).symm, List.append_nil]
      refine ⟨_, hread, hst.push (h.addr_ne hwritten) hvvTried _, ?_, hlost⟩
      rw [List.length_append, List.length_singleton]
    · rw [List.append_nil]
      exact ⟨⟨hst.nKey, hst.nNew, hst.nTried, hst.vvNew, hst.vvTried, hst.vRandom, hst.mapInfo, hst.mapAddr⟩, rfl, rfl⟩
  obtain ⟨⟨st', nLost⟩, hloop, hreading, hcount, hlost⟩ := hrun
  obtain rfl : nLost = 0 := hlost
  exact ⟨st', hloop, hreading, hcount⟩

/-! ## The buckets are read -/

/-- The manager with these new buckets, where each entry counts its references. -/
structure Filled (st₀ : CAddrMan) (vvNew : Fin ADDRMAN_NEW_BUCKET_COUNT → Finset Nat) (st : CAddrMan) : Prop where
  mapInfo : ∀ i : Nat,
    st.mapInfo[i]? = (st₀.mapInfo[i]?).map fun info => { info with nRefCount := newCount vvNew i }
  eq : st = { st₀ with mapInfo := st.mapInfo, vvNew }

theorem Filled.readIndex {st₀ : CAddrMan} {vvNew : Fin ADDRMAN_NEW_BUCKET_COUNT → Finset Nat}
    (h : Filled st₀ vvNew st) {b : Fin ADDRMAN_NEW_BUCKET_COUNT} {i : Nat} (hi : 2 * (i : Int) < 256 ^ 4)
    (hinfo : st₀.mapInfo[i]? = some info) (hmem : i ∉ vvNew b)
    (hcount : (newCount vvNew i : Int) < ADDRMAN_NEW_BUCKETS_PER_ADDRESS) (k : Nat) (s : List UInt8) :
    ∃ st', CAddrMan.readIndex ADDRMAN_NEW_BUCKET_COUNT b st k (leInt 4 i ++ s) = some (st', s) ∧
      Filled st₀ (Function.update vvNew b (insert i (vvNew b))) st' := by
  have hinfo' : st.mapInfo[i]? = some { info with nRefCount := newCount vvNew i } := by
    rw [h.mapInfo, hinfo]
    rfl
  have hvvNew : st.vvNew = vvNew := by rw [h.eq]
  have hread : CAddrMan.readIndex ADDRMAN_NEW_BUCKET_COUNT b st k (leInt 4 i ++ s) =
      some ({ st.modifyInfo i (fun info => { info with nRefCount := info.nRefCount + 1 }) with
        vvNew := Function.update vvNew b (insert i (vvNew b)) }, s) := by
    rw [CAddrMan.readIndex, readLeInt_append_of_lt (Int.natCast_nonneg i) hi]
    dsimp only
    rw [if_pos (Int.natCast_nonneg i), Int.toNat_natCast, hinfo']
    dsimp only
    rw [if_pos ⟨rfl, hcount⟩, modifyInfo_vvNew, hvvNew]
  refine ⟨_, hread, fun i' => ?_, ?_⟩
  · show (st.modifyInfo i fun info => { info with nRefCount := info.nRefCount + 1 }).mapInfo[i']? = _
    rw [getElem?_modifyInfo, h.mapInfo, newCount_insert hmem]
    by_cases hsame : i = i'
    · subst i'
      rw [if_pos rfl, if_pos rfl, hinfo, Nat.cast_add, Nat.cast_one]
      rfl
    · rw [if_neg hsame, if_neg (Ne.symm hsame), Nat.add_zero]
  · show CAddrMan.mk .. = CAddrMan.mk ..
    rw [h.eq]
    rfl

theorem rank_injective {nId' : Nat} {info' : CAddrInfo} (hinfo : am.mapInfo[nId]? = some info)
    (hinfo' : am.mapInfo[nId']? = some info') (h : am.rank nId = am.rank nId') : nId = nId' := by
  have hat := getElem?_rank hinfo
  rw [h, getElem?_rank hinfo'] at hat
  cases hat
  rfl

/-- The new buckets with the new ids. -/
def ranked (am : CAddrMan) (n : Fin ADDRMAN_NEW_BUCKET_COUNT) : Finset Nat := (am.vvNew n).image am.rank

theorem Consistent.mem_ranked (h : am.Consistent) (hinfo : am.mapInfo[nId]? = some info)
    (n : Fin ADDRMAN_NEW_BUCKET_COUNT) : am.rank nId ∈ am.ranked n ↔ nId ∈ am.vvNew n := by
  rw [ranked, Finset.mem_image]
  constructor
  · rintro ⟨nId', hmem, hrank⟩
    obtain ⟨info', hinfo'⟩ := h.exists_of_mem_new hmem
    exact rank_injective hinfo' hinfo hrank ▸ hmem
  · exact fun hmem => ⟨nId, hmem, rfl⟩

theorem Consistent.newCount_ranked (h : am.Consistent) (hinfo : am.mapInfo[nId]? = some info) :
    newCount am.ranked (am.rank nId) = newCount am.vvNew nId := by
  rw [← card_filter_mem, ← card_filter_mem]
  simp only [h.mem_ranked hinfo]

theorem newCount_mono {vvNew vvNew' : Fin ADDRMAN_NEW_BUCKET_COUNT → Finset Nat} (hsub : ∀ n, vvNew n ⊆ vvNew' n)
    (nId : Nat) : newCount vvNew nId ≤ newCount vvNew' nId := by
  rw [← card_filter_mem, ← card_filter_mem]
  refine Finset.card_le_card fun n hn => ?_
  rw [Finset.mem_filter] at hn ⊢
  exact ⟨hn.1, hsub n hn.2⟩

theorem Consistent.readBucket (h : am.Consistent) {st₀ : CAddrMan} (hst₀ : Reading hash am am.written st₀)
    {vvNew : Fin ADDRMAN_NEW_BUCKET_COUNT → Finset Nat} (hst : Filled st₀ vvNew st)
    (hsub : ∀ n, vvNew n ⊆ am.ranked n) {b : Fin ADDRMAN_NEW_BUCKET_COUNT} (hempty : vvNew b = ∅) (s : List UInt8) :
    ∃ st', CAddrMan.readBucket ADDRMAN_NEW_BUCKET_COUNT st b (am.writeRanks (am.vvNew b) ++ s) = some (st', s) ∧
      Filled st₀ (Function.update vvNew b (am.ranked b)) st' := by
  have hsize : 2 * ((am.vvNew b).card : Int) < 256 ^ 4 := by
    have hle := h.newSize b
    have hmax : ADDRMAN_NEW_BUCKET_SIZE = 64 := rfl
    have hpow : (256 : Int) ^ 4 = 4294967296 := rfl
    omega
  have hloop : ∃ st', readLoop (CAddrMan.readIndex ADDRMAN_NEW_BUCKET_COUNT b)
      ((am.vvNew b).sort (· ≤ ·)).length 0 st
      (((am.vvNew b).sort (· ≤ ·)).flatMap (fun nId => leInt 4 (am.rank nId : Nat)) ++ s) = some (st', s) ∧
      Filled st₀ (Function.update vvNew b ((((am.vvNew b).sort (· ≤ ·)).map am.rank).toFinset)) st' := by
    refine readLoop_append (fun (done : List Nat) st' =>
      Filled st₀ (Function.update vvNew b (done.map am.rank).toFinset) st') (fun done nId rest hsort st' hst' s => ?_) ?_ s
    · have hmem : nId ∈ am.vvNew b := (Finset.mem_sort (· ≤ ·)).1 (hsort ▸ List.mem_append_right done List.mem_cons_self)
      obtain ⟨info, hinfo, htried⟩ := h.new_of_mem hmem
      have hdone : ∀ nId' ∈ done, nId' ∈ am.vvNew b := fun nId' hnId' =>
        (Finset.mem_sort (· ≤ ·)).1 (hsort ▸ List.mem_append_left _ hnId')
      have hnodup := Finset.sort_nodup (am.vvNew b) (· ≤ ·)
      rw [hsort] at hnodup
      have hnew : am.rank nId ∉ (done.map am.rank).toFinset := by
        intro hin
        obtain ⟨nId', hnId', hrank⟩ := List.mem_map.1 (List.mem_toFinset.1 hin)
        obtain ⟨info', hinfo'⟩ := h.exists_of_mem_new (hdone nId' hnId')
        obtain rfl := rank_injective hinfo' hinfo hrank
        exact List.disjoint_of_nodup_append hnodup hnId' List.mem_cons_self
      generalize hX : (done.map am.rank).toFinset = X at hst' hnew
      have hX' : ((done ++ [nId]).map am.rank).toFinset = insert (am.rank nId) X := by
        rw [List.map_append, List.toFinset_append, hX, List.map_singleton, List.toFinset_cons, List.toFinset_nil,
          Finset.union_comm]
        rfl
      have hself : Function.update vvNew b X b = X := Function.update_self ..
      have hnew' : am.rank nId ∉ Function.update vvNew b X b := by
        rw [hself]
        exact hnew
      have hcount : (newCount (Function.update vvNew b X) (am.rank nId) : Int) < ADDRMAN_NEW_BUCKETS_PER_ADDRESS := by
        -- the entry has one reference more in the bucket, and not more than it had
        have hinsert := newCount_insert hnew' (am.rank nId)
        have hmono := @newCount_mono (Function.update (Function.update vvNew b X) b
          (insert (am.rank nId) (Function.update vvNew b X b))) am.ranked (fun n => by
            rw [hself, Function.update_idem, ← hX']
            by_cases hn : n = b
            · subst n
              rw [Function.update_self]
              intro i hi
              obtain ⟨nId', hnId', rfl⟩ := List.mem_map.1 (List.mem_toFinset.1 hi)
              refine Finset.mem_image_of_mem am.rank ?_
              rcases List.mem_append.1 hnId' with hnId' | hnId'
              · exact hdone nId' hnId'
              · exact List.mem_singleton.1 hnId' ▸ hmem
            · rw [Function.update_of_ne hn]
              exact hsub n) (am.rank nId)
        have hmax := ((h.entry nId info hinfo).new htried).2.1
        rw [h.newCount_ranked hinfo] at hmono
        rw [if_pos rfl] at hinsert
        omega
      have hi : 2 * (am.rank nId : Int) < 256 ^ 4 := by
        have hlt := List.idxOf_lt_length_of_mem (mem_newKeys hinfo htried)
        have hle := h.length_newInfos_le
        have hmax : ADDRMAN_NEW_BUCKET_COUNT * ADDRMAN_NEW_BUCKET_SIZE = 16384 := rfl
        have hpow : (256 : Int) ^ 4 = 4294967296 := rfl
        rw [← rank_new hinfo htried, List.length_map] at hlt
        omega
      have hlisted : st₀.mapInfo[am.rank nId]? = some (listed (nId, info) (am.rank nId)) := by
        rw [hst₀.mapInfo, getElem?_rank hinfo]
        rfl
      obtain ⟨st'', hread, hst''⟩ := hst'.readIndex hi hlisted hnew' hcount done.length s
      refine ⟨st'', hread, ?_⟩
      rw [hX']
      rw [hself, Function.update_idem] at hst''
      exact hst''
    · show Filled st₀ (Function.update vvNew b ∅) st
      rw [← hempty, Function.update_eq_self]
      exact hst
  have hranked : (((am.vvNew b).sort (· ≤ ·)).map am.rank).toFinset = am.ranked b := by
    ext i
    simp only [List.mem_toFinset, List.mem_map, Finset.mem_sort, ranked, Finset.mem_image]
  rw [hranked, Finset.length_sort] at hloop
  rw [CAddrMan.readBucket, dif_pos b.isLt, writeRanks, List.append_assoc,
    readLeInt_append_of_lt (Int.natCast_nonneg _) hsize]
  exact hloop

/-! ## The file -/

/-- The manager that is read. -/
structure Rebuilt (hash : List UInt8 → UInt256) (am am' : CAddrMan) : Prop where
  nKey : am'.nKey = am.nKey
  nIdCount : am'.nIdCount = am.written.length
  nNew : am'.nNew = am.nNew
  nTried : am'.nTried = am.nTried
  vvNew : am'.vvNew = am.ranked
  vvTried : am'.vvTried = places hash am.nKey am.written
  vRandom : am'.vRandom = List.range am.written.length
  mapInfo : ∀ i : Nat, am'.mapInfo[i]? =
    (am.written[i]?).map fun e => { listed e i with nRefCount := newCount am.ranked i }
  mapAddr : ∀ (a : CNetAddr) (i : Nat), am'.mapAddr[a]? = some i ↔ ∃ e, am.written[i]? = some e ∧ e.2.addr = a

theorem length_of_finRange {n : Nat} {done rest : List (Fin n)} {b : Fin n} (h : List.finRange n = done ++ b :: rest) :
    done.length = b := by
  have hat : (List.finRange n)[done.length]? = some b := by
    rw [h, List.getElem?_append_right (Nat.le_refl _), Nat.sub_self]
    rfl
  obtain ⟨_, hget⟩ := List.getElem?_eq_some_iff.1 hat
  rw [List.getElem_finRange] at hget
  exact congrArg Fin.val hget

theorem Reading.filled {infos : List (Nat × CAddrInfo)} (h : Reading hash am infos st) : Filled st (fun _ => ∅) st where
  mapInfo i := by
    have hzero : newCount (fun _ => ∅) i = 0 := occurrences_eq_zero_iff.2 fun _ => rfl
    rw [h.mapInfo, Option.map_map, hzero]
    rfl
  eq := by rw [← h.vvNew]

theorem Consistent.readBuckets (h : am.Consistent) {st₀ : CAddrMan} (hst₀ : Reading hash am am.written st₀)
    (s : List UInt8) :
    ∃ st', readLoop (CAddrMan.readBucket ADDRMAN_NEW_BUCKET_COUNT) (List.finRange ADDRMAN_NEW_BUCKET_COUNT).length 0 st₀
        ((List.finRange ADDRMAN_NEW_BUCKET_COUNT).flatMap (fun n => am.writeRanks (am.vvNew n)) ++ s) = some (st', s) ∧
      Filled st₀ am.ranked st' := by
  have hloop : ∃ st', readLoop (CAddrMan.readBucket ADDRMAN_NEW_BUCKET_COUNT)
      (List.finRange ADDRMAN_NEW_BUCKET_COUNT).length 0 st₀
      ((List.finRange ADDRMAN_NEW_BUCKET_COUNT).flatMap (fun n => am.writeRanks (am.vvNew n)) ++ s) = some (st', s) ∧
      Filled st₀ (fun n => if n ∈ List.finRange ADDRMAN_NEW_BUCKET_COUNT then am.ranked n else ∅) st' := by
    refine readLoop_append (fun (done : List (Fin ADDRMAN_NEW_BUCKET_COUNT)) st' =>
      Filled st₀ (fun n => if n ∈ done then am.ranked n else ∅) st') (fun done b rest hrange st hst s => ?_) ?_ s
    · have hnodup := List.nodup_finRange ADDRMAN_NEW_BUCKET_COUNT
      rw [hrange] at hnodup
      have hnew : b ∉ done := fun hin => List.disjoint_of_nodup_append hnodup hin List.mem_cons_self
      obtain ⟨st', hread, hst'⟩ := h.readBucket hst₀ hst (fun n => by
        split
        · exact Finset.Subset.refl _
        · exact Finset.empty_subset _) (if_neg hnew) s
      rw [length_of_finRange hrange]
      refine ⟨st', hread, ?_⟩
      have hnext : Function.update (fun n => if n ∈ done then am.ranked n else ∅) b (am.ranked b) =
          fun n => if n ∈ done ++ [b] then am.ranked n else ∅ := by
        funext n
        by_cases hn : n = b
        · subst n
          rw [Function.update_self, if_pos (List.mem_append_right done List.mem_cons_self)]
        · rw [Function.update_of_ne hn]
          simp only [List.mem_append, List.mem_singleton, hn, or_false]
      rw [← hnext]
      exact hst'
    · have hempty : (fun n => if n ∈ ([] : List (Fin ADDRMAN_NEW_BUCKET_COUNT)) then am.ranked n else ∅) =
          fun _ => ∅ := funext fun n => if_neg List.not_mem_nil
      rw [hempty]
      exact hst₀.filled
  simp only [List.mem_finRange, if_true] at hloop
  exact hloop

/-- What is read after the counts. -/
theorem Consistent.readTables (h : am.Consistent) (hplaced : am.Placed hash) (s : List UInt8) :
    ∃ am', CAddrMan.readTables hash ADDRMAN_NEW_BUCKET_COUNT am.counted
        (am.newInfos.flatMap (·.2.write) ++ (am.triedInfos.flatMap (·.2.write) ++
          ((List.finRange ADDRMAN_NEW_BUCKET_COUNT).flatMap (fun n => am.writeRanks (am.vvNew n)) ++ s))) =
        some (am', s) ∧ Rebuilt hash am am' := by
  have hnew : am.counted.nNew.toNat = am.newInfos.length := (congrArg Int.toNat h.length_new.symm).trans (Int.toNat_natCast _)
  have htried : am.nTried.toNat = am.triedInfos.length := (congrArg Int.toNat h.length_tried.symm).trans (Int.toNat_natCast _)
  obtain ⟨st₁, hloop₁, hst₁⟩ := @Consistent.readNew am hash h
    (am.triedInfos.flatMap (·.2.write) ++
      ((List.finRange ADDRMAN_NEW_BUCKET_COUNT).flatMap (fun n => am.writeRanks (am.vvNew n)) ++ s))
  obtain ⟨st₂, hloop₂, hst₂, hcount⟩ := h.readTried hplaced hst₁
    ((List.finRange ADDRMAN_NEW_BUCKET_COUNT).flatMap (fun n => am.writeRanks (am.vvNew n)) ++ s)
  have hst₀ : Reading hash am am.written { st₂ with nTried := st₂.nTried - (0 : Nat) } :=
    ⟨hst₂.nKey, hst₂.nNew, (Int.sub_zero _).trans hst₂.nTried, hst₂.vvNew, hst₂.vvTried, hst₂.vRandom, hst₂.mapInfo,
      hst₂.mapAddr⟩
  obtain ⟨st₃, hloop₃, hst₃⟩ := h.readBuckets hst₀ s
  refine ⟨st₃, ?_, ?_⟩
  · have hnew₁ : st₁.nNew.toNat = am.newInfos.length := by
      rw [hst₁.nNew]
      exact hnew
    have htried₁ : st₁.nTried.toNat = am.triedInfos.length := by
      rw [hst₁.nTried]
      exact htried
    rw [List.length_finRange] at hloop₃
    rw [CAddrMan.readTables, hnew, hloop₁]
    dsimp only
    rw [hnew₁, htried₁, hloop₂]
    dsimp only
    rw [Int.toNat_natCast]
    exact hloop₃
  · have hfilled := hst₃.eq
    constructor
    · rw [hfilled]
      exact hst₂.nKey
    · rw [hfilled]
      exact hcount
    · rw [hfilled]
      exact hst₂.nNew
    · rw [hfilled]
      exact hst₀.nTried
    · rw [hfilled]
    · rw [hfilled]
      exact hst₂.vvTried
    · rw [hfilled]
      exact hst₂.vRandom
    · intro i
      rw [hst₃.mapInfo, hst₀.mapInfo, Option.map_map]
      rfl
    · rw [hfilled]
      exact hst₂.mapAddr

/-- What a manager has written is read without an error. -/
theorem Consistent.read_write (h : am.Consistent) (hplaced : am.Placed hash) (hkey : am.nKey.length ≤ MAX_SIZE)
    (s : List UInt8) : ∃ am', read hash (am.write ++ s) = some (am', s) ∧ Rebuilt hash am am' := by
  obtain ⟨am', hread, hrebuilt⟩ := h.readTables hplaced s
  refine ⟨am', ?_, hrebuilt⟩
  have hnewMax := h.length_newInfos_le
  have htriedMax := h.nTried_le
  have hnewLength : am.nNew = am.newInfos.length := h.length_new.symm
  have htriedLength : am.nTried = am.triedInfos.length := h.length_tried.symm
  have hmax : ADDRMAN_NEW_BUCKET_COUNT * ADDRMAN_NEW_BUCKET_SIZE = 16384 := rfl
  have hmax' : ADDRMAN_TRIED_BUCKET_COUNT * ADDRMAN_TRIED_BUCKET_SIZE = 4096 := rfl
  have hpow : (256 : Int) ^ 4 = 4294967296 := rfl
  have hbytes : ∀ b ∈ am.nKey, ∀ s, readUChar (writeUChar b ++ s) = some (b, s) := fun _ _ _ => rfl
  have hversion : ∀ s, readUChar (writeUChar 0 ++ s) = some (0, s) := fun _ => rfl
  have hnew : ∀ s, readLeInt 4 (leInt 4 am.nNew ++ s) = some (am.nNew, s) :=
    readLeInt_append_of_lt (by omega) (by omega)
  have htried : ∀ s, readLeInt 4 (leInt 4 am.nTried ++ s) = some (am.nTried, s) :=
    readLeInt_append_of_lt (by omega) (by omega)
  have hbuckets : ∀ s, readLeInt 4 (leInt 4 (ADDRMAN_NEW_BUCKET_COUNT : Int) ++ s) =
      some ((ADDRMAN_NEW_BUCKET_COUNT : Int), s) := readLeInt_append_of_lt (by decide) (by decide)
  rw [h.write_eq]
  simp only [List.append_assoc]
  rw [read, hversion]
  dsimp only
  rw [readVector_append hkey hbytes]
  dsimp only
  rw [hnew]
  dsimp only
  rw [htried]
  dsimp only
  rw [hbuckets]
  exact hread

end ProCurrency.CAddrMan
