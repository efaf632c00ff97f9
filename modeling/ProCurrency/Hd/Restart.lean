import ProCurrency.Hd.Bookkeeping

/-!
# Restarts

Runs of calls whose transactions are committed, and what a restart gives back after them. Two calls leave something
unwritten: a hardened key moves look-ahead keys over without writing them, and a stealth key that fills its pack
moves the pack number without writing the account.
-/

namespace ProCurrency

open PackedMap CExtKeyAccount

variable {PK SK : Type} {ops : KeyOps PK SK}

namespace CExtKeyAccount

/-- The id of a hardened child that a chain's counter is past. -/
def Used (ops : KeyOps PK SK) (sea : CExtKeyAccount PK SK) (id : CKeyID) : Prop :=
  ∃ c pc l, sea.getChain c = some pc ∧ l.toNat < pc.nHGenerated.toNat ∧ l.toNat < 2 ^ 31 ∧
    pc.kp.childId ops (hardenedChild l) = some id

/-- Chains keep their keys, and their hardened counters only move on. -/
structure Grows (sea sea' : CExtKeyAccount PK SK) : Prop where
  kps : sea'.kps = sea.kps
  chains : ∀ c pc, sea.getChain c = some pc →
    ∃ pc', sea'.getChain c = some pc' ∧ pc'.kp = pc.kp ∧ pc.nHGenerated.toNat ≤ pc'.nHGenerated.toNat

theorem Grows.of_vExtKeys {sea sea' : CExtKeyAccount PK SK} (h : sea'.vExtKeys = sea.vExtKeys) : Grows sea sea' where
  kps := by rw [CExtKeyAccount.kps, h, CExtKeyAccount.kps]
  chains c pc hc := ⟨pc, by rw [getChain, h]; exact hc, rfl, Nat.le_refl _⟩

theorem Grows.trans {a b c : CExtKeyAccount PK SK} (h : Grows a b) (h' : Grows b c) : Grows a c where
  kps := h'.kps.trans h.kps
  chains d pc hd := by
    obtain ⟨pc₁, hd₁, hkp₁, hle₁⟩ := h.chains d pc hd
    obtain ⟨pc₂, hd₂, hkp₂, hle₂⟩ := h'.chains d pc₁ hd₁
    exact ⟨pc₂, hd₂, hkp₂.trans hkp₁, Nat.le_trans hle₁ hle₂⟩

theorem Grows.setChain {sea : CExtKeyAccount PK SK} {c : UInt32} {pc pc' : CStoredExtKey PK SK}
    (hpc : sea.getChain c = some pc) (hkp : pc'.kp = pc.kp)
    (hle : pc.nHGenerated.toNat ≤ pc'.nHGenerated.toNat) : Grows sea (sea.setChain c pc') where
  kps := setChain_kps hpc hkp
  chains d qc hd := by
    rw [getChain_setChain hpc]
    split
    · rename_i heq
      obtain rfl : pc = qc := Option.some.inj (hpc.symm.trans (heq ▸ hd))
      exact ⟨pc', rfl, hkp, hle⟩
    · exact ⟨qc, hd, rfl, Nat.le_refl _⟩

theorem Grows.used {sea sea' : CExtKeyAccount PK SK} (h : Grows sea sea') {id : CKeyID} (hid : sea.Used ops id) :
    sea'.Used ops id := by
  obtain ⟨c, pc, l, hc, hlt, htop, hchild⟩ := hid
  obtain ⟨pc', hc', hkp, hle⟩ := h.chains c pc hc
  exact ⟨c, pc', l, hc', Nat.lt_of_lt_of_le hlt hle, htop, hkp ▸ hchild⟩

theorem idOf_eq (ops : KeyOps PK SK) (sea : CExtKeyAccount PK SK) (ak : CEKAKey) :
    sea.idOf ops ak = (sea.kps[ak.nParent.toNat]?).bind fun kp => kp.childId ops ak.nKey := by
  rw [idOf, kps, List.getElem?_map, Option.bind_map]
  rfl

theorem Grows.idOf {sea sea' : CExtKeyAccount PK SK} (h : Grows sea sea') (ak : CEKAKey) :
    sea'.idOf ops ak = sea.idOf ops ak := by rw [idOf_eq, idOf_eq, h.kps]

/-- Every entry of the two key maps is under the id of its child. -/
structure Named (ops : KeyOps PK SK) (sea : CExtKeyAccount PK SK) : Prop where
  keys : ∀ id ak, sea.mapKeys[id]? = some ak → sea.idOf ops ak = some id
  ahead : ∀ id ak, sea.mapLookAhead[id]? = some ak → sea.idOf ops ak = some id

theorem Named.of_maps {sea sea' : CExtKeyAccount PK SK} (h : sea.Named ops) (hkps : Grows sea sea')
    (hkeys : sea'.mapKeys = sea.mapKeys) (hahead : sea'.mapLookAhead = sea.mapLookAhead) : sea'.Named ops where
  keys id ak hak := (hkps.idOf ak).trans (h.keys id ak (hkeys ▸ hak))
  ahead id ak hak := (hkps.idOf ak).trans (h.ahead id ak (hahead ▸ hak))

/-! ## `SaveKey` -/

section SaveKey

variable {sea sea' : CExtKeyAccount PK SK} {id : CKeyID} {keyIn : CEKAKey} {pak : List CEKAKeyPack}

/-- What `SaveKey` leaves of an account. -/
structure KeySaved (ops : KeyOps PK SK) (sea sea' : CExtKeyAccount PK SK) (pak : List CEKAKeyPack) : Prop where
  grows : Grows sea sea'
  record : sea'.toExtAccountRecord = sea.toExtAccountRecord
  stealthKeys : sea'.mapStealthKeys = sea.mapStealthKeys
  childKeys : sea'.mapStealthChildKeys = sea.mapStealthChildKeys
  mapKeys : ∀ (x : CKeyID) ak, sea'.mapKeys[x]? = some ak ↔ sea.mapKeys[x]? = some ak ∨ (x, ak) ∈ pak
  named : sea.Named ops → (∀ x ak, (x, ak) ∈ pak → sea.idOf ops ak = some x) → sea'.Named ops

theorem saved_keySaved {pc : CStoredExtKey PK SK} (hid : id ∉ sea.mapKeys)
    (hpc : sea.getChain keyIn.nParent = some pc) :
    KeySaved ops sea (sea.saved id keyIn pc) (sea.gaps id keyIn ++ [(id, keyIn)]) := by
  have hchain : Grows sea (sea.setChain keyIn.nParent (bumped pc keyIn.nKey)) :=
    .setChain hpc rfl (Nat.le_refl _)
  have hgrows : Grows sea (sea.saved id keyIn pc) := hchain.trans (.of_vExtKeys rfl)
  refine ⟨hgrows, rfl, rfl, rfl, saved_mapKeys hid, fun hnamed hpak => ⟨fun x ak hak => ?_, fun x ak hak => ?_⟩⟩
  · rw [hgrows.idOf]
    exact ((saved_mapKeys hid x ak).1 hak).elim (hnamed.keys x ak) (hpak x ak)
  · rw [hgrows.idOf]
    exact hnamed.ahead x ak ((saved_mapLookAhead x ak).1 hak).1

theorem KeySaved.addLookAhead (h : KeySaved ops sea sea' pak) (c : UInt32) (keys : Nat) :
    KeySaved ops sea (sea'.addLookAhead ops c keys) pak := by
  cases hc : sea'.getChain c with
  | none =>
      rw [CExtKeyAccount.addLookAhead, hc]
      exact h
  | some pc =>
      rw [CExtKeyAccount.addLookAhead, hc]
      refine ⟨h.grows.trans (.of_vExtKeys rfl), h.record, h.stealthKeys, h.childKeys, h.mapKeys,
        fun hnamed hpak => ⟨(h.named hnamed hpak).keys, fun x ak hak => ?_⟩⟩
      rcases lookAheadFrom_entry hak with hold | ⟨_, rfl, _, hchild⟩
      · exact (h.named hnamed hpak).ahead x ak hold
      · rw [CExtKeyAccount.idOf]
        exact Option.bind_eq_some_iff.2 ⟨pc, hc, hchild⟩

theorem keySaved_of_saveKey (h : sea.saveKey ops id keyIn [] = some (sea', pak)) :
    id ∉ sea.mapKeys ∧ pak = sea.gaps id keyIn ++ [(id, keyIn)] ∧ KeySaved ops sea sea' pak := by
  by_cases hid : id ∈ sea.mapKeys
  · rw [saveKey_of_mem ops keyIn [] hid] at h
    cases h
  · refine ⟨hid, ?_⟩
    cases hpc : sea.getChain keyIn.nParent with
    | none =>
        rw [saveKey_of_no_chain ops [] hid hpc, Option.some.injEq, Prod.mk.injEq] at h
        obtain ⟨rfl, rfl⟩ := h
        have hgaps : sea.gaps id keyIn = [] := by simp only [gaps, hpc]
        have hmaps : ∀ (x : CKeyID) ak, (sea.mapKeys.insert id keyIn)[x]? = some ak ↔
            sea.mapKeys[x]? = some ak ∨ (x, ak) ∈ [(id, keyIn)] := by
          intro x ak
          have hnone : sea.mapKeys[id]? = none := Std.ExtTreeMap.getElem?_eq_none hid
          rw [getElem?_insert, List.mem_singleton, Prod.mk.injEq]
          split
          · rename_i heq
            subst heq
            rw [hnone, Option.some.injEq]
            exact ⟨fun h => .inr ⟨rfl, h.symm⟩, fun h => (h.resolve_left (Option.some_ne_none ak).symm).2.symm⟩
          · rename_i hne
            exact ⟨.inl, fun h => h.resolve_right fun h => hne h.1.symm⟩
        refine ⟨by rw [hgaps], .of_vExtKeys rfl, rfl, rfl, rfl, hmaps, fun hnamed hpak => ⟨fun x ak hak => ?_,
          fun x ak hak => ?_⟩⟩
        · exact ((hmaps x ak).1 hak).elim (hnamed.keys x ak) (hpak x ak)
        · rw [getElem?_erase] at hak
          split at hak
          · cases hak
          · exact hnamed.ahead x ak hak
    | some pc =>
        rw [saveKey_eq ops [] hid hpc, Option.some.injEq, Prod.mk.injEq] at h
        obtain ⟨rfl, rfl⟩ := h
        refine ⟨rfl, ?_⟩
        rw [List.nil_append]
        split
        · exact (saved_keySaved hid hpc).addLookAhead _ _
        · exact saved_keySaved hid hpc

end SaveKey

end CExtKeyAccount

namespace HdWallet

/-! ## What the database holds -/

theorem mine_self (idAccount : CKeyID) (n : UInt32) : mine idAccount ⟨idAccount, n⟩ := decide_eq_true rfl

section KeysWritten

variable {w : HdWallet PK SK} {sea₁ sea₂ : CExtKeyAccount PK SK} {keys : List CEKAKeyPack}

/-- Keys that are written are the keys that the account has more of. -/
theorem Stored.keysWritten (h : w.Stored) (c : UInt32) (pc : CStoredExtKey PK SK)
    (h₁ : sea₁.toExtAccountRecord = w.sea.toExtAccountRecord)
    (h₂ : sea₂.toExtAccountRecord =
      (({ w with sea := sea₁ } : HdWallet PK SK).keysWritten keys c pc).sea.toExtAccountRecord)
    (hstealth : sea₂.mapStealthKeys = w.sea.mapStealthKeys)
    (hchild : sea₂.mapStealthChildKeys = w.sea.mapStealthChildKeys)
    (hkeys : ∀ (x : CKeyID) ak, sea₂.mapKeys[x]? = some ak ↔ w.sea.mapKeys[x]? = some ak ∨ (x, ak) ∈ keys) :
    ({ ({ w with sea := sea₁ } : HdWallet PK SK).keysWritten keys c pc with sea := sea₂ } : HdWallet PK SK).Stored := by
  have hid₁ : sea₁.getID = w.idDefaultAccount := by
    rw [← h.getID, CExtKeyAccount.getID, CExtKeyAccount.getID, h₁]
  have hacc : w.db.eacc[sea₁.getID]? = some sea₁.toExtAccountRecord := by rw [hid₁, h₁]; exact h.account
  have hwritten := keysWritten_eacc { w with sea := sea₁ } keys c pc hacc
  have hrec : sea₂.toExtAccountRecord =
      { w.sea.toExtAccountRecord with nPack := sea₂.nPack } := by
    rw [h₂, keysWritten_sea, ← h₁]
  constructor
  · show _ = some sea₂.toExtAccountRecord
    rw [keysWritten_idDefaultAccount, h₂, ← hwritten, hid₁]
  · show sea₂.nFlags &&& EAF_ACTIVE ≠ 0
    rw [hrec]
    exact h.active
  · show sea₂.getID = _
    rw [keysWritten_idDefaultAccount, CExtKeyAccount.getID, hrec]
    exact h.getID
  · intro id hid
    refine mem_keysWritten_ek32 _ _ _ _ (h.chains id ?_)
    have hids : sea₂.vExtKeyIDs = w.sea.vExtKeyIDs := by rw [hrec]
    exact hids ▸ hid
  · show Holds _ (mine _) sea₂.mapKeys
    rw [keysWritten_idDefaultAccount, keysWritten_epak]
    refine h.keys.append ?_ hkeys
    show mine w.idDefaultAccount ⟨sea₁.getID, _⟩
    rw [hid₁]
    exact mine_self _ _
  · show Holds _ (mine _) sea₂.mapStealthKeys
    rw [keysWritten_idDefaultAccount, keysWritten_espk, hstealth]
    exact h.stealthKeys
  · show Holds _ (mine _) sea₂.mapStealthChildKeys
    rw [keysWritten_idDefaultAccount, keysWritten_ecpk, hchild]
    exact h.childKeys
  · show ∀ n : UInt32, n < sea₂.nPackStealth → _
    rw [hrec, keysWritten_idDefaultAccount, keysWritten_espk]
    exact h.packsBelow
  · show ∀ n : UInt32, _ → n ≤ sea₂.nPackStealth
    rw [hrec, keysWritten_idDefaultAccount, keysWritten_espk]
    exact h.noneAbove

end KeysWritten

/-- What the calls keep: the account is stored, its keys have their ids, and its stealth keys are ones that their
chain is past. -/
structure Kept (ops : KeyOps PK SK) (w : HdWallet PK SK) : Prop where
  stored : w.Stored
  named : w.sea.Named ops
  stealthUsed : ∀ id ∈ w.sea.mapStealthKeys, w.sea.Used ops id

/-- The chain of a new hardened key has no look-ahead key left that is not in use. -/
def NoneAhead (w : HdWallet PK SK) (fInternal : Bool) : Prop :=
  ∀ (id : CKeyID) ak, w.sea.mapLookAhead[id]? = some ak → ak.nParent = w.newKeyChain fInternal → id ∈ w.sea.mapKeys

/-- A new stealth key does not fill its pack. -/
def StealthRoom (w : HdWallet PK SK) : Prop :=
  ¬packFull ((w.db.espk.pack ⟨w.idDefaultAccount, w.sea.nPackStealth⟩).length + 1)

section Steps

variable {w w' : HdWallet PK SK} {out : DbOutcome}

theorem extKeySaveKey_kept {keyId : CKeyID} {ak : CEKAKey} (h : w.Kept ops)
    (hid : w.sea.idOf ops ak = some keyId) (hsave : extKeySaveKey ops out keyId ak w = (.ok (), w')) :
    Grows w.sea w'.sea ∧ w'.Kept ops := by
  obtain ⟨sea', pak, pc, hkey, _, rfl⟩ := extKeySaveKey_ok hsave
  obtain ⟨_, rfl, hsaved⟩ := keySaved_of_saveKey hkey
  have hpak : ∀ x ak', (x, ak') ∈ w.sea.gaps keyId ak ++ [(keyId, ak)] → w.sea.idOf ops ak' = some x := by
    intro x ak' hmem
    rcases List.mem_append.1 hmem with hgap | hlast
    · exact h.named.ahead x ak' (mem_gaps.1 hgap).2.2.1
    · obtain ⟨rfl, rfl⟩ := Prod.mk.inj (List.mem_singleton.1 hlast)
      exact hid
  generalize hkeys : w.sea.gaps keyId ak ++ [(keyId, ak)] = keys at hsaved hpak ⊢
  have hsea := keysWritten_sea ({ w with sea := sea' } : HdWallet PK SK) keys ak.nParent pc
  have hstored := @Stored.keysWritten PK SK w sea'
    (({ w with sea := sea' } : HdWallet PK SK).keysWritten keys ak.nParent pc).sea keys h.stored ak.nParent pc
    hsaved.record rfl
  rw [hsea] at hstored
  have hgrows : Grows w.sea (({ w with sea := sea' } : HdWallet PK SK).keysWritten keys ak.nParent pc).sea :=
    hsaved.grows.trans (.of_vExtKeys (by rw [hsea]))
  refine ⟨hgrows, ?_, ?_, ?_⟩
  · have := hstored hsaved.stealthKeys hsaved.childKeys hsaved.mapKeys
    rw [← hsea] at this
    exact this
  · exact (hsaved.named h.named hpak).of_maps (.of_vExtKeys (by rw [hsea])) (by rw [hsea]) (by rw [hsea])
  · intro id hid
    rw [hsea] at hid
    exact hgrows.used (h.stealthUsed id (hsaved.stealthKeys ▸ hid))

/-- A new key moves no look-ahead keys, except for a hardened key with look-ahead keys on its chain. -/
theorem newKey_gaps {fInternal fHardened : Bool} {pc : CStoredExtKey PK SK} {l : UInt32} (id : CKeyID)
    {sea : CExtKeyAccount PK SK} (hahead : fHardened → w.NoneAhead fInternal) (hl : l.toNat < 2 ^ 31)
    (hpc : sea.getChain (w.newKeyChain fInternal) = some (pc.setCounter (l + 1) fHardened))
    (hkeys : sea.mapKeys = w.sea.mapKeys) (hlook : sea.mapLookAhead = w.sea.mapLookAhead) :
    sea.gaps id ⟨w.newKeyChain fInternal, CStoredExtKey.childNumber l fHardened⟩ = [] := by
  cases fHardened with
  | false =>
      refine gaps_eq_nil hpc fun hlt => ?_
      have hlt' : (l + 1).toNat < l.toNat := UInt32.lt_iff_toNat_lt.1 hlt
      rw [succ_toNat (Nat.le_of_lt hl)] at hlt'
      exact Nat.not_succ_le_self _ (Nat.le_of_lt hlt')
  | true =>
      refine List.eq_nil_iff_forall_not_mem.2 fun it hit => ?_
      obtain ⟨_, _, hlooked, _, hparent, hfree⟩ := mem_gaps.1 hit
      rw [hlook] at hlooked
      rw [hkeys] at hfree
      exact hfree (hahead rfl it.1 it.2 hlooked hparent)

theorem newKey_kept {fInternal fHardened : Bool} {pk : PK} (hids : DistinctIds ops w.sea.kps) (h : w.Kept ops)
    (hahead : fHardened → w.NoneAhead fInternal)
    (hnew : newKeyFromAccount ops out fInternal fHardened w = (.ok pk, w')) :
    Grows w.sea w'.sea ∧ w'.Kept ops := by
  obtain ⟨pc, l, hpc, hle, hlt, hpk, hw⟩ := newKey_ok hnew
  simp only at hw
  generalize hpc' : pc.setCounter (l + 1) fHardened = pc' at hw
  generalize hit : (⟨w.newKeyChain fInternal, CStoredExtKey.childNumber l fHardened⟩ : CEKAKey) = ak at hw
  have hchild : pc.kp.childId ops ak.nKey = some (ops.getID pk) := by
    rw [← hit, CExtKeyPair.childId, hpk]
    rfl
  have hmove : Grows w.sea (w.sea.setChain (w.newKeyChain fInternal) pc') := by
    subst hpc'
    have hsucc := succ_toNat (Nat.le_of_lt hlt)
    cases fHardened with
    | false => exact .setChain hpc rfl (Nat.le_refl _)
    | true =>
        have hle' : pc.nHGenerated.toNat ≤ l.toNat := hle
        exact .setChain hpc rfl (by
          show pc.nHGenerated.toNat ≤ (l + 1).toNat
          omega)
  have hsea := keysWritten_sea
    ({ w with sea := w.sea.setChain (w.newKeyChain fInternal) pc' } : HdWallet PK SK) [(ops.getID pk, ak)]
    (w.newKeyChain fInternal) pc'
  rw [← newKeyWritten] at hsea
  have hstored := fun sea₂ => @Stored.keysWritten PK SK w (w.sea.setChain (w.newKeyChain fInternal) pc') sea₂
    [(ops.getID pk, ak)] h.stored (w.newKeyChain fInternal) pc' rfl
  rw [← newKeyWritten] at hstored
  generalize w.newKeyWritten (w.newKeyChain fInternal) (ops.getID pk, ak) pc' = written at hw hsea hstored
  have hgrows : Grows w.sea written.sea := hmove.trans (.of_vExtKeys (by rw [hsea]))
  have hnamed : written.sea.Named ops := h.named.of_maps hgrows (by rw [hsea]; rfl) (by rw [hsea]; rfl)
  have hkeys : written.sea.mapKeys = w.sea.mapKeys := by rw [hsea]; rfl
  have hidOf : w.sea.idOf ops ak = some (ops.getID pk) := by
    rw [← hit] at hchild ⊢
    rw [CExtKeyAccount.idOf, hpc]
    exact hchild
  by_cases hid : ops.getID pk ∈ w.sea.mapKeys
  · rw [saveKey_of_mem ops ak [] (hkeys ▸ hid)] at hw
    obtain rfl : w' = written := hw
    refine ⟨hgrows, ?_, hnamed, fun id hid => hgrows.used (h.stealthUsed id (by rw [hsea] at hid; exact hid))⟩
    -- the key that is there already is the same one
    have hold : w.sea.mapKeys[ops.getID pk]? = some ak := by
      obtain ⟨ak', hak'⟩ := isSome_of_mem hid
      have hnamed' := h.named.keys _ ak' hak'
      rw [← hit] at hchild ⊢
      rw [hak', eq_of_idOf hids hpc hchild hnamed']
    refine hstored w'.sea rfl (by rw [hsea]; rfl) (by rw [hsea]; rfl) fun x ak' => ?_
    rw [hkeys, List.mem_singleton, Prod.mk.injEq]
    exact ⟨.inl, fun h => h.elim id fun hak => by rw [hak.1, hak.2]; exact hold⟩
  · have hchain : written.sea.getChain (w.newKeyChain fInternal) = some pc' := by
      rw [hsea]
      exact (getChain_setChain hpc).trans (if_pos rfl)
    cases hsave : written.sea.saveKey ops (ops.getID pk) ak [] with
    | none =>
        rw [saveKey_eq ops [] (hkeys ▸ hid) (by rw [← hit]; exact hchain)] at hsave
        cases hsave
    | some r =>
        obtain ⟨sea', pak⟩ := r
        rw [hsave] at hw
        obtain rfl : w' = { written with sea := sea' } := hw
        obtain ⟨_, hpak, hsaved⟩ := keySaved_of_saveKey hsave
        have hgaps : written.sea.gaps (ops.getID pk) ak = [] := by
          rw [← hit]
          exact newKey_gaps _ hahead hlt (hpc' ▸ hchain) hkeys (by rw [hsea]; rfl)
        rw [hgaps, List.nil_append] at hpak
        subst hpak
        have hgrows' : Grows w.sea sea' := hgrows.trans hsaved.grows
        refine ⟨hgrows', ?_, hsaved.named hnamed fun x ak' hx => ?_, fun id hid => ?_⟩
        · exact hstored sea' hsaved.record (by rw [hsaved.stealthKeys, hsea]; rfl)
            (by rw [hsaved.childKeys, hsea]; rfl) (by rw [← hkeys]; exact hsaved.mapKeys)
        · obtain ⟨rfl, rfl⟩ := Prod.mk.inj (List.mem_singleton.1 hx)
          rw [hgrows.idOf]
          exact hidOf
        · refine hgrows'.used (h.stealthUsed id ?_)
          have hid' : id ∈ sea'.mapStealthKeys := hid
          rw [hsaved.stealthKeys, hsea] at hid'
          exact hid'

theorem saveChildKey_kept {keyId : CKeyID} {asck : CEKASCKey} (h : w.Kept ops)
    (hsave : extKeySaveChildKey out keyId asck w = (.ok (), w')) : Grows w.sea w'.sea ∧ w'.Kept ops := by
  obtain ⟨hnew, hw⟩ := extKeySaveChildKey_ok hsave
  simp only at hw
  generalize hw₁ : ({ w with sea := { w.sea with
    mapStealthChildKeys := w.sea.mapStealthChildKeys.insert keyId asck } } : HdWallet PK SK) = w₁ at hw
  have hgetID : w.sea.getID = w.idDefaultAccount := h.stored.getID
  have hchildKeys : Holds (PackedMap.append w.db.ecpk ⟨w.sea.getID, w.sea.nPackStealthKeys⟩ [(keyId, asck)])
      (mine w.idDefaultAccount) (w.sea.mapStealthChildKeys.insert keyId asck) :=
    h.stored.childKeys.insert (by rw [hgetID]; exact mine_self _ _) hnew
  have hpacked : w'.sea = (w₁.childPacked (keyId, asck)).sea := by
    rw [hw]
    split <;> rfl
  have hgrows : Grows w.sea w'.sea := .of_vExtKeys (by rw [hpacked, ← hw₁]; rfl)
  refine ⟨hgrows, ?_, h.named.of_maps hgrows (by rw [hpacked, ← hw₁]; rfl) (by rw [hpacked, ← hw₁]; rfl),
    fun id hid => hgrows.used (h.stealthUsed id (by rw [hpacked, ← hw₁] at hid; exact hid))⟩
  subst hw₁
  cases hfull : w.fillsChild (keyId, asck) with
  | true =>
      rw [hfull, if_pos rfl] at hw
      subst hw
      refine { h.stored with childKeys := hchildKeys, account := ?_ }
      show (w.db.eacc.insert w.sea.getID _)[w.idDefaultAccount]? = _
      rw [hgetID, Std.ExtTreeMap.getElem?_insert_self]
      rfl
  | false =>
      rw [hfull, if_neg Bool.false_ne_true] at hw
      subst hw
      refine { h.stored with childKeys := hchildKeys, account := ?_ }
      refine h.stored.account.trans ?_
      have hsame : (if w.fillsChild (keyId, asck) then w.sea.nPackStealthKeys + 1 else w.sea.nPackStealthKeys) =
          w.sea.nPackStealthKeys := by rw [hfull, if_neg Bool.false_ne_true]
      exact congrArg (fun n => some { w.sea.toExtAccountRecord with nPackStealthKeys := n }) hsame.symm

theorem newStealthKey_kept {sLabel : String} {aks : CEKAStealthKey PK SK} (hids : DistinctIds ops w.sea.kps)
    (h : w.Kept ops) (hroom : w.StealthRoom)
    (hnew : newStealthKeyFromAccount ops out sLabel w = (.ok aks, w')) : Grows w.sea w'.sea ∧ w'.Kept ops := by
  obtain ⟨pc, pc', id, hpc, hkp, _, _, ⟨l, hle, hused, hlt, _, hchild⟩, rfl⟩ := newStealthKey_ok hnew hroom
  have hmove : Grows w.sea (w.sea.setChain w.sea.nActiveStealth pc') := .setChain hpc hkp (by omega)
  -- the chain of every stealth key is past it, so the new key is another one
  have hfresh : id ∉ w.sea.mapStealthKeys := by
    intro hid
    obtain ⟨c, qc, m, hqc, hm, hmtop, hmchild⟩ := h.stealthUsed id hid
    obtain ⟨rfl, heq⟩ := hids _ _ _ _ _ _ _ (kps_getElem hpc) (kps_getElem hqc) hchild hmchild
    obtain rfl : pc = qc := Option.some.inj (hpc.symm.trans hqc)
    have hnum := congrArg UInt32.toNat heq
    rw [hardenedChild_toNat hlt, hardenedChild_toNat hmtop] at hnum
    omega
  have hstealthKeys := h.stored.stealthKeys.insert (mine_self w.idDefaultAccount w.sea.nPackStealth) (v := aks) hfresh
  have hpack : ∀ n : UInt32, (⟨w.idDefaultAccount, n⟩ : PackKey) ∈ PackedMap.append w.db.espk
      ⟨w.idDefaultAccount, w.sea.nPackStealth⟩ [(id, aks)] ↔
        n = w.sea.nPackStealth ∨ (⟨w.idDefaultAccount, n⟩ : PackKey) ∈ w.db.espk := by
    intro n
    rw [PackedMap.append, Std.ExtTreeMap.mem_insert, Std.compare_eq_iff_eq, PackKey.mk.injEq, eq_self, true_and,
      eq_comm]
  refine ⟨hmove.trans (.of_vExtKeys rfl), ?_, h.named.of_maps (hmove.trans (.of_vExtKeys rfl)) rfl rfl, ?_⟩
  · refine { h.stored with stealthKeys := hstealthKeys, chains := ?_, packsBelow := ?_, noneAbove := ?_ }
    · exact fun id hid => Std.ExtTreeMap.mem_insert.2 (.inr (h.stored.chains id hid))
    · exact fun n hn => (hpack n).2 (.inr (h.stored.packsBelow n hn))
    · intro n hn
      rcases (hpack n).1 hn with rfl | hn
      · exact UInt32.le_refl _
      · exact h.stored.noneAbove n hn
  · intro id' hid'
    rcases Std.ExtTreeMap.mem_insert.1 hid' with heq | hid'
    · obtain rfl := Std.compare_eq_iff_eq.1 heq
      refine ⟨w.sea.nActiveStealth, pc', l, ?_, hused, hlt, hkp ▸ hchild⟩
      exact (getChain_setChain hpc).trans (if_pos rfl)
    · exact (hmove.trans (.of_vExtKeys rfl)).used (h.stealthUsed id' hid')

end Steps

end HdWallet

/-! ## Runs -/

open HdWallet

/-- The calls that write to the packs of an account. -/
inductive PackCall
  | newKey (out : DbOutcome) (fInternal fHardened : Bool)
  | saveKey (out : DbOutcome) (keyId : CKeyID) (ak : CEKAKey)
  | newStealthKey (out : DbOutcome) (sLabel : String)
  | saveChildKey (out : DbOutcome) (keyId : CKeyID) (asck : CEKASCKey)

namespace PackCall

/-- The wallet after a call whose transaction is committed. -/
def run (ops : KeyOps PK SK) (w : HdWallet PK SK) : PackCall → Option (HdWallet PK SK)
  | newKey out fInternal fHardened =>
      match newKeyFromAccount ops out fInternal fHardened w with
      | (.ok _, w') => some w'
      | (.error _, _) => none
  | saveKey out keyId ak =>
      match extKeySaveKey ops out keyId ak w with
      | (.ok _, w') => some w'
      | (.error _, _) => none
  | newStealthKey out sLabel =>
      match newStealthKeyFromAccount ops out sLabel w with
      | (.ok _, w') => some w'
      | (.error _, _) => none
  | saveChildKey out keyId asck =>
      match extKeySaveChildKey out keyId asck w with
      | (.ok _, w') => some w'
      | (.error _, _) => none

def runAll (ops : KeyOps PK SK) (w : HdWallet PK SK) (calls : List PackCall) : Option (HdWallet PK SK) :=
  calls.foldlM (run ops) w

/-- `ExtKeySaveKey` is called with an entry of the account, which is under its own id. -/
def Proper (ops : KeyOps PK SK) (w : HdWallet PK SK) : PackCall → Prop
  | saveKey _ keyId ak => w.sea.idOf ops ak = some keyId
  | _ => True

/-- A call that leaves nothing unwritten. -/
def Safe (w : HdWallet PK SK) : PackCall → Prop
  | newKey _ fInternal true => w.NoneAhead fInternal
  | newStealthKey _ _ => w.StealthRoom
  | _ => True

/-- What holds at every call of a run. -/
def Always (ops : KeyOps PK SK) (P : HdWallet PK SK → PackCall → Prop) : HdWallet PK SK → List PackCall → Prop
  | _, [] => True
  | w, call :: calls => P w call ∧ ∀ w', run ops w call = some w' → Always ops P w' calls

theorem run_kept {w w' : HdWallet PK SK} {call : PackCall} (hids : DistinctIds ops w.sea.kps) (h : w.Kept ops)
    (hproper : call.Proper ops w) (hsafe : call.Safe w) (hrun : run ops w call = some w') :
    Grows w.sea w'.sea ∧ w'.Kept ops := by
  cases call with
  | newKey out fInternal fHardened =>
      rw [run] at hrun
      split at hrun
      · rename_i hcall
        cases hrun
        exact newKey_kept hids h (fun hh => by subst hh; exact hsafe) hcall
      · cases hrun
  | saveKey out keyId ak =>
      rw [run] at hrun
      split at hrun
      · rename_i hcall
        cases hrun
        exact extKeySaveKey_kept h hproper hcall
      · cases hrun
  | newStealthKey out sLabel =>
      rw [run] at hrun
      split at hrun
      · rename_i hcall
        cases hrun
        exact newStealthKey_kept hids h hsafe hcall
      · cases hrun
  | saveChildKey out keyId asck =>
      rw [run] at hrun
      split at hrun
      · rename_i hcall
        cases hrun
        exact saveChildKey_kept h hcall
      · cases hrun

theorem runAll_kept {w w' : HdWallet PK SK} {calls : List PackCall} (hids : DistinctIds ops w.sea.kps)
    (h : w.Kept ops) (hcalls : Always ops (fun w call => call.Proper ops w ∧ call.Safe w) w calls)
    (hrun : runAll ops w calls = some w') : Grows w.sea w'.sea ∧ w'.Kept ops := by
  induction calls generalizing w with
  | nil =>
      cases hrun
      exact ⟨.of_vExtKeys rfl, h⟩
  | cons call calls ih =>
      obtain ⟨w₁, hcall, hrest⟩ := Option.bind_eq_some_iff.1 hrun
      obtain ⟨hgrows, hkept⟩ := run_kept hids h hcalls.1.1 hcalls.1.2 hcall
      obtain ⟨hgrows', hkept'⟩ := ih (hgrows.kps.symm ▸ hids) hkept (hcalls.2 w₁ hcall) hrest
      exact ⟨hgrows.trans hgrows', hkept'⟩

/-- A restart gives everything back as long as no call leaves something unwritten. -/
theorem runAll_survives (ops : KeyOps PK SK) (w w' : HdWallet PK SK) (hids : DistinctIds ops w.sea.kps)
    (hw : w.Kept ops) (calls : List PackCall)
    (hcalls : Always ops (fun w call => call.Proper ops w ∧ call.Safe w) w calls)
    (hrun : runAll ops w calls = some w') : w'.SurvivesRestart ops :=
  (runAll_kept hids hw hcalls hrun).2.stored.survives ops

end PackCall

/-! ## New accounts -/

namespace HdWallet

/-- An account that is written, and has no keys and no packs yet. -/
structure Created (ops : KeyOps PK SK) (w : HdWallet PK SK) : Prop where
  account : w.db.eacc[w.idDefaultAccount]? = some w.sea.toExtAccountRecord
  active : w.sea.nFlags &&& EAF_ACTIVE ≠ 0
  getID : w.sea.getID = w.idDefaultAccount
  chains : ∀ id ∈ w.sea.vExtKeyIDs, id ∈ w.db.ek32
  mapKeys : w.sea.mapKeys = ∅
  mapStealthKeys : w.sea.mapStealthKeys = ∅
  mapStealthChildKeys : w.sea.mapStealthChildKeys = ∅
  noPacks : ∀ n : UInt32, (⟨w.idDefaultAccount, n⟩ : PackKey) ∉ w.db.epak ∧
    (⟨w.idDefaultAccount, n⟩ : PackKey) ∉ w.db.espk ∧ (⟨w.idDefaultAccount, n⟩ : PackKey) ∉ w.db.ecpk
  nPackStealth : w.sea.nPackStealth = 0
  ahead : ∀ id ak, w.sea.mapLookAhead[id]? = some ak → w.sea.idOf ops ak = some id

theorem holds_empty {V : Type} {t : PackTable V} {idAccount : CKeyID}
    (h : ∀ n : UInt32, (⟨idAccount, n⟩ : PackKey) ∉ t) : Holds t (mine idAccount) ∅ := by
  intro k v
  rw [Std.ExtTreeMap.getElem?_empty, mem_entries]
  refine ⟨nofun, ?_⟩
  rintro ⟨⟨idAccount', n⟩, es, hmine, hes, _⟩
  obtain rfl : idAccount' = idAccount := of_decide_eq_true hmine
  exact absurd (Std.ExtTreeMap.mem_iff_isSome_getElem?.2 (by rw [hes]; rfl)) (h n)

theorem Created.kept {w : HdWallet PK SK} (h : w.Created ops) : w.Kept ops where
  stored :=
    { account := h.account
      active := h.active
      getID := h.getID
      chains := h.chains
      keys := by rw [h.mapKeys]; exact holds_empty fun n => (h.noPacks n).1
      stealthKeys := by rw [h.mapStealthKeys]; exact holds_empty fun n => (h.noPacks n).2.1
      childKeys := by rw [h.mapStealthChildKeys]; exact holds_empty fun n => (h.noPacks n).2.2
      packsBelow := fun n hn => by
        rw [h.nPackStealth] at hn
        exact absurd hn (Nat.not_lt_zero _)
      noneAbove := fun n hn => absurd hn (h.noPacks n).2.1 }
  named :=
    { keys := fun id ak hak => by
        rw [h.mapKeys, Std.ExtTreeMap.getElem?_empty] at hak
        cases hak
      ahead := h.ahead }
  stealthUsed := fun id hid => by
    rw [h.mapStealthKeys] at hid
    exact absurd hid Std.ExtTreeMap.not_mem_empty

/-- The keys that are loaded are those of the packs. -/
theorem reload_mapKeys {w : HdWallet PK SK} {sea : CExtKeyAccount PK SK} (h : reload ops w = some sea) :
    sea.mapKeys = insertAll ∅ (packEntries w.db.epak w.idDefaultAccount) := by
  obtain ⟨sea₀, hload, rfl⟩ := Option.map_eq_some_iff.1 h
  have hempty : sea₀.mapKeys = ∅ := by
    rw [extKeyLoadAccount] at hload
    split at hload
    · cases hload
    · split at hload
      · cases hload
      · obtain ⟨vExtKeys, _, rfl⟩ := Option.map_eq_some_iff.1 hload
        exact (extKeyAddAccountToMaps_sameSaved ops _).mapKeys
  rw [extKeyLoadAccountPacks, foldl_loadKey, foldl_loadStealthKey, foldl_loadStealthChildKey, ← hempty]

end HdWallet

def oneChainKey : CStoredExtKey Nat Nat where
  kp := ⟨1, some 1, []⟩
  nFlags := EAF_ACTIVE ||| EAF_RECEIVE_ON

/-- A wallet with a new account. -/
def savedWallet : HdWallet Nat Nat :=
  { oneChainWallet with
    db := { oneChainWallet.db with
      ek32 := (∅ : Std.ExtTreeMap CKeyID (CStoredExtKey Nat Nat)).insert 1 oneChainKey } }

theorem savedWallet_created : savedWallet.Created numberKeys where
  account := rfl
  active := by decide
  getID := rfl
  chains id hid := by
    have hid' : id ∈ [(1 : CKeyID)] := hid
    rw [List.mem_singleton.1 hid']
    exact Std.ExtTreeMap.mem_insert_self
  mapKeys := rfl
  mapStealthKeys := rfl
  mapStealthChildKeys := rfl
  noPacks n := ⟨Std.ExtTreeMap.not_mem_empty, Std.ExtTreeMap.not_mem_empty, Std.ExtTreeMap.not_mem_empty⟩
  nPackStealth := rfl
  ahead id ak hak := (oneChainWallet_opened.2.sound.aheadId id ak hak).1

namespace PackCall

/-- A stealth key, a key, and a key that is derived from the stealth key. -/
def threeCalls : List PackCall :=
  [newStealthKey {} "savings", newKey {} false false, saveChildKey {} 5 ⟨BitVec.ofNat 160 (2 ^ 32 + 2 ^ 31), []⟩]

theorem runAll_survives_saved :
    ∃ w', runAll numberKeys savedWallet threeCalls = some w' ∧ w'.SurvivesRestart numberKeys := by
  obtain ⟨w', hrun⟩ := Option.isSome_iff_exists.1
    (by decide +kernel : (runAll numberKeys savedWallet threeCalls).isSome)
  have hroom : savedWallet.StealthRoom := by
    rw [StealthRoom]
    decide +kernel
  have hcalls : Always numberKeys (fun w call => call.Proper numberKeys w ∧ call.Safe w) savedWallet threeCalls :=
    ⟨⟨trivial, hroom⟩, fun _ _ => ⟨⟨trivial, trivial⟩, fun _ _ => ⟨⟨trivial, trivial⟩, fun _ _ => trivial⟩⟩⟩
  exact ⟨w', hrun, runAll_survives numberKeys savedWallet w' oneChainWallet_opened.1.injective
    savedWallet_created.kept threeCalls hcalls hrun⟩

/-- The look-ahead keys that a hardened key moves over are not in the packs. -/
theorem newKey_hardened_lost : savedWallet.Kept numberKeys ∧ DistinctIds numberKeys savedWallet.sea.kps ∧
    Always numberKeys (fun w call => call.Proper numberKeys w) savedWallet [newKey {} false true] ∧
      ∃ w', runAll numberKeys savedWallet [newKey {} false true] = some w' ∧ ¬w'.SurvivesRestart numberKeys := by
  refine ⟨savedWallet_created.kept, oneChainWallet_opened.1.injective, ⟨trivial, fun _ _ => trivial⟩, ?_⟩
  have hrun : (runAll numberKeys savedWallet [newKey {} false true]).map (fun w =>
      (w.sea.mapKeys[BitVec.ofNat 160 (2 ^ 32 + 7)]?.isSome,
        (insertAll ∅ (packEntries w.db.epak w.idDefaultAccount))[BitVec.ofNat 160 (2 ^ 32 + 7)]?.isSome)) =
      some (true, false) := by decide +kernel
  obtain ⟨w', hw', hlost⟩ := Option.map_eq_some_iff.1 hrun
  obtain ⟨hkey, hpacks⟩ := Prod.mk.inj hlost
  refine ⟨w', hw', fun ⟨sea, hload, hmapKeys, _⟩ => ?_⟩
  rw [← reload_mapKeys hload, hmapKeys, hkey] at hpacks
  cases hpacks

end PackCall

end ProCurrency
