import ProCurrency.Hd.AccountDb

/-!
# What `SaveKey` and `AddLookAhead` do

The keys that `SaveKey` moves out of the look-ahead, and the entries that `AddLookAhead` puts into it.
-/

namespace ProCurrency

open PackedMap

variable {PK SK : Type}

/-! ## Filling gaps -/

/-- The look-ahead entries that are moved when `keyIn` is saved. -/
def GapFill.moves (keyIn : CEKAKey) (mapKeys : Std.ExtTreeMap CKeyID CEKAKey) (it : CEKAKeyPack) : Bool :=
  it.2.nKey < keyIn.nKey ∧ it.2.nParent = keyIn.nParent ∧ it.1 ∉ mapKeys

theorem GapFill.foldl_round (keyIn : CEKAKey) (g : GapFill) {es : List CEKAKeyPack}
    (hes : es.Pairwise fun a b => a.1 ≠ b.1) :
    es.foldl (round keyIn) g =
      { mapKeys := insertAll g.mapKeys (es.filter (moves keyIn g.mapKeys))
        mapLookAhead := eraseAll g.mapLookAhead (es.filter (moves keyIn g.mapKeys))
        ekPak := g.ekPak ++ es.filter (moves keyIn g.mapKeys) } := by
  induction es generalizing g with
  | nil => rw [List.filter_nil, List.append_nil]; rfl
  | cons it es ih =>
      obtain ⟨hit, hes⟩ := List.pairwise_cons.1 hes
      rw [List.foldl_cons, ih _ hes]
      by_cases hmoves : moves keyIn g.mapKeys it
      · have hround : round keyIn g it =
            ⟨g.mapKeys.insert it.1 it.2, g.mapLookAhead.erase it.1, g.ekPak ++ [it]⟩ :=
          if_pos (of_decide_eq_true hmoves)
        -- the keys that come later are other keys, so the same ones are moved
        have hsame : es.filter (moves keyIn (g.mapKeys.insert it.1 it.2)) = es.filter (moves keyIn g.mapKeys) := by
          apply List.filter_congr
          intro e he
          simp only [moves, Std.ExtTreeMap.mem_insert, Std.compare_eq_iff_eq, hit e he, false_or]
        rw [List.filter_cons_of_pos hmoves, hround]
        simp only [hsame]
        rw [insertAll_cons, List.append_assoc]
        rfl
      · have hround : round keyIn g it = g := if_neg (fun h => hmoves (decide_eq_true h))
        rw [List.filter_cons_of_neg hmoves, hround]

theorem toList_pairwise (m : Std.ExtTreeMap CKeyID CEKAKey) : m.toList.Pairwise fun a b => a.1 ≠ b.1 :=
  Std.ExtTreeMap.distinct_keys_toList.imp fun h heq => h (Std.compare_eq_iff_eq.2 heq)

namespace CExtKeyAccount

/-- The keys that `SaveKey` moves over before it saves `id`. -/
def gaps (sea : CExtKeyAccount PK SK) (id : CKeyID) (keyIn : CEKAKey) : List CEKAKeyPack :=
  match sea.getChain keyIn.nParent with
  | none => []
  | some pc =>
      if pc.nGenerated < keyIn.nKey then
        (sea.mapLookAhead.erase id).toList.filter (GapFill.moves keyIn sea.mapKeys)
      else []

/-! ### Chains -/

theorem getChain_setChain {sea : CExtKeyAccount PK SK} {c d : UInt32} {pc qc : CStoredExtKey PK SK}
    (hc : sea.getChain c = some pc) :
    (sea.setChain c qc).getChain d = if c = d then some qc else sea.getChain d := by
  obtain ⟨hlt, _⟩ := List.getElem?_eq_some_iff.1 hc
  simp only [getChain, setChain, List.getElem?_set, UInt32.toNat_inj, hlt, if_true]

@[simp] theorem setChain_setChain (sea : CExtKeyAccount PK SK) (c : UInt32) (pc qc : CStoredExtKey PK SK) :
    (sea.setChain c pc).setChain c qc = sea.setChain c qc := by
  simp only [setChain, List.set_set]

theorem setChain_self {sea : CExtKeyAccount PK SK} {c : UInt32} {pc : CStoredExtKey PK SK}
    (hc : sea.getChain c = some pc) : sea.setChain c pc = sea := by
  obtain ⟨hlt, rfl⟩ := List.getElem?_eq_some_iff.1 hc
  simp only [setChain, List.set_getElem_self]

/-- The chain after a key with number `nKey` is saved. -/
def bumped (pc : CStoredExtKey PK SK) (nKey : UInt32) : CStoredExtKey PK SK :=
  { pc with nGenerated := if pc.nGenerated ≤ nKey then nKey + 1 else pc.nGenerated }

/-- The account with a key saved, before more keys are looked ahead. -/
def saved (sea : CExtKeyAccount PK SK) (id : CKeyID) (keyIn : CEKAKey) (pc : CStoredExtKey PK SK) :
    CExtKeyAccount PK SK :=
  ({ sea with
    mapKeys := (insertAll sea.mapKeys (sea.gaps id keyIn)).insert id keyIn
    mapLookAhead := eraseAll (sea.mapLookAhead.erase id) (sea.gaps id keyIn) } : CExtKeyAccount PK SK).setChain
      keyIn.nParent (bumped pc keyIn.nKey)

theorem fillGaps_eq {sea : CExtKeyAccount PK SK} (id : CKeyID) {keyIn : CEKAKey} {pc : CStoredExtKey PK SK}
    (ekPak : List CEKAKeyPack) (hpc : sea.getChain keyIn.nParent = some pc) :
    fillGaps { sea with mapLookAhead := sea.mapLookAhead.erase id } keyIn ekPak =
      (({ sea with
        mapKeys := insertAll sea.mapKeys (sea.gaps id keyIn)
        mapLookAhead := eraseAll (sea.mapLookAhead.erase id) (sea.gaps id keyIn) } : CExtKeyAccount PK SK).setChain
          keyIn.nParent { pc with nGenerated := if pc.nGenerated < keyIn.nKey then keyIn.nKey else pc.nGenerated },
        ekPak ++ sea.gaps id keyIn) := by
  have hpc' : ({ sea with mapLookAhead := sea.mapLookAhead.erase id } : CExtKeyAccount PK SK).getChain
      keyIn.nParent = some pc := hpc
  by_cases hlt : pc.nGenerated < keyIn.nKey
  · simp only [fillGaps, hpc', hlt, if_true, gaps, hpc, GapFill.foldl_round keyIn _ (toList_pairwise _)]
  · simp only [fillGaps, hpc', hlt, if_false, gaps, hpc, List.append_nil]
    exact congrArg (·, ekPak) (setChain_self hpc').symm

theorem saveKey_of_mem (ops : KeyOps PK SK) {sea : CExtKeyAccount PK SK} {id : CKeyID} (keyIn : CEKAKey)
    (ekPak : List CEKAKeyPack) (hid : id ∈ sea.mapKeys) : sea.saveKey ops id keyIn ekPak = none := if_pos hid

theorem bumped_eq (pc : CStoredExtKey PK SK) (nKey : UInt32) :
    (if nKey = if pc.nGenerated < nKey then nKey else pc.nGenerated then
      { pc with nGenerated := (if pc.nGenerated < nKey then nKey else pc.nGenerated) + 1 }
    else { pc with nGenerated := if pc.nGenerated < nKey then nKey else pc.nGenerated }) = bumped pc nKey := by
  by_cases hlt : pc.nGenerated < nKey
  · simp only [hlt, if_true, bumped, UInt32.le_of_lt hlt]
  · by_cases heq : nKey = pc.nGenerated
    · simp only [heq, if_false, if_true, bumped, UInt32.le_refl, UInt32.lt_irrefl]
    · have hle : ¬pc.nGenerated ≤ nKey := fun h =>
        heq (UInt32.le_antisymm (UInt32.not_lt.1 hlt) h)
      simp only [hlt, heq, if_false, bumped, hle]

@[simp] theorem bumped_receives (pc : CStoredExtKey PK SK) (nKey : UInt32) :
    (bumped pc nKey).receives = pc.receives := rfl

theorem saveKey_eq (ops : KeyOps PK SK) {sea : CExtKeyAccount PK SK} {id : CKeyID} {keyIn : CEKAKey}
    {pc : CStoredExtKey PK SK} (ekPak : List CEKAKeyPack) (hid : id ∉ sea.mapKeys)
    (hpc : sea.getChain keyIn.nParent = some pc) :
    sea.saveKey ops id keyIn ekPak =
      some (if pc.receives then (sea.saved id keyIn pc).addLookAhead ops keyIn.nParent N_DEFAULT_LOOKAHEAD
        else sea.saved id keyIn pc, ekPak ++ sea.gaps id keyIn ++ [(id, keyIn)]) := by
  have hchain : ∀ (sea' : CExtKeyAccount PK SK) (qc : CStoredExtKey PK SK), sea'.vExtKeys = sea.vExtKeys →
      (sea'.setChain keyIn.nParent qc).getChain keyIn.nParent = some qc := fun sea' qc hkeys => by
    have hpc' : sea'.getChain keyIn.nParent = some pc := by rw [getChain, hkeys]; exact hpc
    rw [getChain_setChain hpc', if_pos rfl]
  rw [saveKey, if_neg hid, fillGaps_eq id ekPak hpc]
  simp only [advance, getChain, setChain]
  simp only [getChain, setChain] at hchain
  simp only [hchain, bumped_eq, bumped_receives, List.set_set]
  rfl

theorem saveKey_of_no_chain (ops : KeyOps PK SK) {sea : CExtKeyAccount PK SK} {id : CKeyID} {keyIn : CEKAKey}
    (ekPak : List CEKAKeyPack) (hid : id ∉ sea.mapKeys) (hpc : sea.getChain keyIn.nParent = none) :
    sea.saveKey ops id keyIn ekPak =
      some ({ sea with
        mapKeys := sea.mapKeys.insert id keyIn
        mapLookAhead := sea.mapLookAhead.erase id }, ekPak ++ [(id, keyIn)]) := by
  have hpc' : sea.vExtKeys[keyIn.nParent.toNat]? = none := hpc
  simp only [saveKey, if_neg hid, fillGaps, advance, getChain, hpc']

/-! ### The maps -/

theorem mem_gaps {sea : CExtKeyAccount PK SK} {id : CKeyID} {keyIn : CEKAKey} {it : CEKAKeyPack} :
    it ∈ sea.gaps id keyIn ↔ (∃ pc, sea.getChain keyIn.nParent = some pc ∧ pc.nGenerated < keyIn.nKey) ∧
      it.1 ≠ id ∧ sea.mapLookAhead[it.1]? = some it.2 ∧ it.2.nKey < keyIn.nKey ∧
        it.2.nParent = keyIn.nParent ∧ it.1 ∉ sea.mapKeys := by
  obtain ⟨id', ak⟩ := it
  unfold gaps
  cases hpc : sea.getChain keyIn.nParent with
  | none => exact ⟨nofun, fun ⟨⟨_, h, _⟩, _⟩ => nomatch h⟩
  | some pc =>
      by_cases hlt : pc.nGenerated < keyIn.nKey
      · simp only [hlt, if_true, List.mem_filter, Std.ExtTreeMap.mem_toList_iff_getElem?_eq_some, getElem?_erase,
          GapFill.moves, decide_eq_true_eq]
        constructor
        · rintro ⟨hahead, hmoves⟩
          split at hahead
          · cases hahead
          · rename_i hne
            exact ⟨⟨pc, rfl, hlt⟩, fun h => hne h.symm, hahead, hmoves⟩
        · rintro ⟨_, hne, hahead, hmoves⟩
          exact ⟨by rw [if_neg fun h => hne h.symm]; exact hahead, hmoves⟩
      · simp only [hlt, if_false]
        refine ⟨nofun, fun ⟨⟨qc, hqc, hlt'⟩, _⟩ => ?_⟩
        cases hqc
        exact absurd hlt' hlt

theorem saved_mapKeys {sea : CExtKeyAccount PK SK} {id : CKeyID} {keyIn : CEKAKey} {pc : CStoredExtKey PK SK}
    (hid : id ∉ sea.mapKeys) (id' : CKeyID) (ak : CEKAKey) :
    (sea.saved id keyIn pc).mapKeys[id']? = some ak ↔
      sea.mapKeys[id']? = some ak ∨ (id', ak) ∈ sea.gaps id keyIn ++ [(id, keyIn)] := by
  have hnew : ∀ k (v v' : CEKAKey), sea.mapKeys[k]? = some v → (k, v') ∈ sea.gaps id keyIn → v = v' := by
    intro k v v' hv hg
    exact absurd (Std.ExtTreeMap.mem_iff_isSome_getElem?.2 (by rw [hv]; rfl)) (mem_gaps.1 hg).2.2.2.2.2
  have hone : ∀ k (v v' : CEKAKey), (k, v) ∈ sea.gaps id keyIn → (k, v') ∈ sea.gaps id keyIn → v = v' :=
    fun k v v' hv hv' => Option.some.inj ((mem_gaps.1 hv).2.2.1.symm.trans (mem_gaps.1 hv').2.2.1)
  show ((insertAll sea.mapKeys (sea.gaps id keyIn)).insert id keyIn)[id']? = some ak ↔ _
  rw [getElem?_insert, List.mem_append, List.mem_singleton, Prod.mk.injEq]
  split
  · rename_i heq
    subst id'
    have hgone : (id, ak) ∉ sea.gaps id keyIn := fun h => (mem_gaps.1 h).2.1 rfl
    have hnone : sea.mapKeys[id]? = none := Std.ExtTreeMap.getElem?_eq_none hid
    rw [hnone, Option.some.injEq]
    exact ⟨fun h => .inr (.inr ⟨rfl, h.symm⟩), fun h => by
      rcases h with h | h | h
      · cases h
      · exact absurd h hgone
      · exact h.2.symm⟩
  · rename_i hne
    rw [getElem?_insertAll_iff hone hnew]
    exact ⟨fun h => h.imp_right .inl, fun h => h.imp_right fun h => h.resolve_right fun h => hne h.1.symm⟩

theorem saved_mapLookAhead {sea : CExtKeyAccount PK SK} {id : CKeyID} {keyIn : CEKAKey}
    {pc : CStoredExtKey PK SK} (id' : CKeyID) (ak : CEKAKey) :
    (sea.saved id keyIn pc).mapLookAhead[id']? = some ak ↔
      sea.mapLookAhead[id']? = some ak ∧ id' ≠ id ∧ (id', ak) ∉ sea.gaps id keyIn := by
  show (eraseAll (sea.mapLookAhead.erase id) (sea.gaps id keyIn))[id']? = some ak ↔ _
  rw [getElem?_eraseAll_iff, getElem?_erase]
  constructor
  · rintro ⟨h, hgaps⟩
    split at h
    · cases h
    · rename_i hne
      exact ⟨h, fun h => hne h.symm, fun hin => hgaps _ hin rfl⟩
  · rintro ⟨h, hne, hgaps⟩
    rw [if_neg fun h => hne h.symm]
    refine ⟨h, fun e he heq => hgaps ?_⟩
    have hahead := (mem_gaps.1 he).2.2.1
    rw [heq, h] at hahead
    have hpair : e = (id', ak) := Prod.ext heq (Option.some.inj hahead).symm
    exact hpair ▸ he

end CExtKeyAccount

/-! ## Looking ahead -/

variable {ops : KeyOps PK SK} {pc : CStoredExtKey PK SK} {mapKeys : Std.ExtTreeMap CKeyID CEKAKey}

/-- The key that is found next is a child of the chain that is not in use. -/
theorem nextLookAhead_some {tries : Nat} {nChild nChildOut n m : UInt32} {id : CKeyID}
    (h : nextLookAhead ops pc mapKeys tries nChild nChildOut = (some id, n, m)) :
    id ∉ mapKeys ∧ m.toNat < 2 ^ 31 ∧ pc.kp.childId ops m = some id := by
  induction tries generalizing nChild nChildOut with
  | zero => cases h
  | succ tries ih =>
      rw [nextLookAhead] at h
      split at h
      · exact ih h
      · rename_i pk l hder
        rw [CStoredExtKey.deriveKey, if_neg (fun h => Bool.false_ne_true h.1)] at hder
        obtain ⟨l, _, hlt, rfl, hpk⟩ := CStoredExtKey.of_deriveFrom hder
        split at h
        · exact ih h
        · rename_i hnew
          cases h
          exact ⟨hnew, hlt, by rw [CExtKeyPair.childId, hpk]; rfl⟩

/-- What is looked ahead was so before, or is a child of the chain that is not in use. -/
theorem lookAheadFrom_entry {c : UInt32} {keys : Nat} {nChild nChildOut : UInt32}
    {m : Std.ExtTreeMap CKeyID CEKAKey} {id : CKeyID} {ak : CEKAKey}
    (h : (lookAheadFrom ops pc c mapKeys keys nChild nChildOut m)[id]? = some ak) :
    m[id]? = some ak ∨
      id ∉ mapKeys ∧ ak.nParent = c ∧ ak.nKey.toNat < 2 ^ 31 ∧ pc.kp.childId ops ak.nKey = some id := by
  induction keys generalizing nChild nChildOut m with
  | zero => exact .inl h
  | succ keys ih =>
      rw [lookAheadFrom] at h
      split at h
      · exact ih h
      · rename_i keyId n l hnext
        obtain ⟨hnew, hlt, hchild⟩ := nextLookAhead_some hnext
        rcases ih h with hm | hm
        · rw [getElem?_insert] at hm
          split at hm
          · rename_i heq
            cases hm
            subst heq
            exact .inr ⟨hnew, rfl, hlt, hchild⟩
          · exact .inl hm
        · exact .inr hm

theorem mem_lookAheadFrom {c : UInt32} {keys : Nat} {nChild nChildOut : UInt32}
    {m : Std.ExtTreeMap CKeyID CEKAKey} {id : CKeyID} (h : id ∈ m) :
    id ∈ lookAheadFrom ops pc c mapKeys keys nChild nChildOut m := by
  induction keys generalizing nChild nChildOut m with
  | zero => exact h
  | succ keys ih =>
      rw [lookAheadFrom]
      split
      · exact ih h
      · exact ih (Std.ExtTreeMap.mem_insert.2 (.inr h))

/-- At the end of a chain nothing is found. -/
theorem lookAheadFrom_of_top {c : UInt32} {keys : Nat} {nChild nChildOut : UInt32}
    {m : Std.ExtTreeMap CKeyID CEKAKey} (htop : 2 ^ 31 ≤ nChild.toNat) (hout : 2 ^ 31 ≤ (nChildOut + 1).toNat) :
    lookAheadFrom ops pc c mapKeys keys nChild nChildOut m = m := by
  have hnext : ∀ tries (nChild : UInt32), 2 ^ 31 ≤ nChild.toNat → ∃ n, 2 ^ 31 ≤ n.toNat ∧
      nextLookAhead ops pc mapKeys tries nChild nChildOut = (none, n, nChildOut) := by
    intro tries
    induction tries with
    | zero => exact fun nChild htop => ⟨nChild, htop, rfl⟩
    | succ tries ih =>
        intro nChild htop
        obtain ⟨e, he⟩ := CStoredExtKey.deriveKey_of_top (CExtKeyPair.derivePubKey ops) pc false htop
        obtain ⟨n, hn, heq⟩ := ih (nChildOut + 1) hout
        exact ⟨n, hn, by rw [nextLookAhead, he]; exact heq⟩
  induction keys generalizing nChild with
  | zero => rfl
  | succ keys ih =>
      obtain ⟨n, hn, heq⟩ := hnext MAX_DERIVE_TRIES nChild htop
      rw [lookAheadFrom, heq]
      exact ih hn

section Free

variable (hall : ∀ n : UInt32, n.toNat < 2 ^ 31 → (pc.kp.childId ops n).isSome)
include hall

/-- Where every child can be derived and the next one is not in use, it is the one that is found. -/
theorem nextLookAhead_of_free {nChild : UInt32} (nChildOut : UInt32)
    (hfree : ∀ id, pc.kp.childId ops nChild = some id → id ∉ mapKeys) (hchild : nChild.toNat < 2 ^ 31) :
    ∃ id, pc.kp.childId ops nChild = some id ∧
      nextLookAhead ops pc mapKeys MAX_DERIVE_TRIES nChild nChildOut = (some id, nChild + 1, nChild) := by
  obtain ⟨id, hid⟩ := Option.isSome_iff_exists.1 (hall nChild hchild)
  obtain ⟨pk, hpk, rfl⟩ := Option.map_eq_some_iff.1 hid
  have hder : pc.deriveKey (CExtKeyPair.derivePubKey ops) nChild false = .ok (pk, nChild) :=
    CStoredExtKey.deriveKey_of_some hchild Bool.noConfusion hpk
  refine ⟨_, hid, ?_⟩
  rw [MAX_DERIVE_TRIES, nextLookAhead, hder]
  exact if_neg (hfree _ hid)

/-- The children that follow are all looked ahead. -/
theorem lookAheadFrom_covers {c : UInt32} {keys : Nat} {nChild nChildOut : UInt32}
    {m : Std.ExtTreeMap CKeyID CEKAKey}
    (hfree : ∀ (n : UInt32) id, nChild.toNat ≤ n.toNat → n.toNat < 2 ^ 31 → pc.kp.childId ops n = some id →
      id ∉ mapKeys) {n : UInt32} {id : CKeyID} (hle : nChild.toNat ≤ n.toNat) (hlt : n.toNat < nChild.toNat + keys)
    (htop : n.toNat < 2 ^ 31) (hid : pc.kp.childId ops n = some id) :
    id ∈ lookAheadFrom ops pc c mapKeys keys nChild nChildOut m := by
  induction keys generalizing nChild nChildOut m with
  | zero => omega
  | succ keys ih =>
      have hchild : nChild.toNat < 2 ^ 31 := Nat.lt_of_le_of_lt hle htop
      obtain ⟨keyId, hkeyId, hnext⟩ :=
        nextLookAhead_of_free hall nChildOut (fun id => hfree nChild id (Nat.le_refl _) hchild) hchild
      have hsucc := succ_toNat (Nat.le_of_lt hchild)
      rw [lookAheadFrom, hnext]
      rcases Nat.eq_or_lt_of_le hle with heq | hlt'
      · obtain rfl : nChild = n := UInt32.toNat_inj.1 heq
        obtain rfl : keyId = id := Option.some.inj (hkeyId.symm.trans hid)
        exact mem_lookAheadFrom (Std.ExtTreeMap.mem_insert_self)
      · exact ih (fun n id h => hfree n id (by omega)) (by omega) (by omega)

/-- Only the children that follow are looked ahead. -/
theorem lookAheadFrom_bound {c : UInt32} {keys : Nat} {nChild nChildOut : UInt32}
    {m : Std.ExtTreeMap CKeyID CEKAKey}
    (hfree : ∀ (n : UInt32) id, nChild.toNat ≤ n.toNat → n.toNat < 2 ^ 31 → pc.kp.childId ops n = some id →
      id ∉ mapKeys) (hout : 2 ^ 31 ≤ nChild.toNat → 2 ^ 31 ≤ (nChildOut + 1).toNat) {id : CKeyID} {ak : CEKAKey}
    (h : (lookAheadFrom ops pc c mapKeys keys nChild nChildOut m)[id]? = some ak) :
    m[id]? = some ak ∨ ak.nKey.toNat < nChild.toNat + keys := by
  induction keys generalizing nChild nChildOut m with
  | zero => exact .inl h
  | succ keys ih =>
      by_cases hchild : nChild.toNat < 2 ^ 31
      · obtain ⟨keyId, _, hnext⟩ :=
          nextLookAhead_of_free hall nChildOut (fun id => hfree nChild id (Nat.le_refl _) hchild) hchild
        have hsucc := succ_toNat (Nat.le_of_lt hchild)
        rw [lookAheadFrom, hnext] at h
        rcases ih (fun n id h => hfree n id (by omega)) (fun h => h) h with hm | hm
        · rw [getElem?_insert] at hm
          split at hm
          · cases hm
            exact .inr (Nat.lt_add_of_pos_right (Nat.succ_pos keys))
          · exact .inl hm
        · exact .inr (by omega)
      · rw [lookAheadFrom_of_top (Nat.le_of_not_lt hchild) (hout (Nat.le_of_not_lt hchild))] at h
        exact .inl h

end Free

end ProCurrency
