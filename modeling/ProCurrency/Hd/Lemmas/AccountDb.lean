import ProCurrency.Hd.Lemmas.SaveKey

/-!
# What the database calls of an account do
-/

namespace ProCurrency.HdWallet

variable {PK SK : Type} {ops : KeyOps PK SK}

theorem inTxn_sea {T : Type} (out : DbOutcome) (func : String) (w : HdWallet PK SK)
    (body : HdWallet PK SK → Except String T × HdWallet PK SK) :
    (inTxn out func w body).2.sea = w.sea ∨ (inTxn out func w body).2.sea = (body w).2.sea := by
  unfold inTxn
  split
  · exact .inl rfl
  · right
    split
    · rename_i heq
      rw [heq]
    · rename_i heq
      rw [heq]
      split <;> rfl

/-- Whether keys that are appended fill the pack. -/
def fills (w : HdWallet PK SK) (keys : List CEKAKeyPack) : Bool :=
  packFull (w.db.epak.pack ⟨w.sea.getID, w.sea.nPack⟩ ++ keys).length

/-- The wallet with keys in its pack. -/
def packed (w : HdWallet PK SK) (keys : List CEKAKeyPack) : HdWallet PK SK :=
  { w with
    sea := { w.sea with nPack := if w.fills keys then w.sea.nPack + 1 else w.sea.nPack }
    db := { w.db with epak := PackedMap.append w.db.epak ⟨w.sea.getID, w.sea.nPack⟩ keys } }

theorem extKeyAppendToPack_eq (out : DbOutcome) (w : HdWallet PK SK) (keys : List CEKAKeyPack) :
    w.extKeyAppendToPack out keys = if out.writePack then some (w.packed keys, w.fills keys) else none := by
  cases hout : out.writePack with
  | false => simp only [extKeyAppendToPack, hout, Bool.false_eq_true, not_false_eq_true, if_true, if_false]
  | true =>
      cases hfull : w.fills keys with
      | true =>
          have hfull' := hfull
          unfold fills at hfull'
          simp only [extKeyAppendToPack, hout, packed, hfull, hfull', not_true_eq_false, if_true, if_false]
      | false =>
          have hfull' := hfull
          unfold fills at hfull'
          simp only [extKeyAppendToPack, hout, packed, hfull, hfull', not_true_eq_false, if_true, if_false,
            Bool.false_eq_true]

theorem extKeyAppendToPack_some {out : DbOutcome} {w w' : HdWallet PK SK} {keys : List CEKAKeyPack}
    {fUpdateAcc : Bool} (h : w.extKeyAppendToPack out keys = some (w', fUpdateAcc)) :
    w' = w.packed keys ∧ fUpdateAcc = w.fills keys ∧ out.writePack := by
  rw [extKeyAppendToPack_eq] at h
  split at h
  · rename_i hout
    cases h
    exact ⟨rfl, rfl, hout⟩
  · cases h

/-- The wallet with a chain written, and the account where a pack was filled. -/
def written (w : HdWallet PK SK) (c : UInt32) (pc : CStoredExtKey PK SK) (fUpdateAcc : Bool) : HdWallet PK SK :=
  if fUpdateAcc then (w.writeChain c pc).writeAccount else w.writeChain c pc

@[simp] theorem written_sea (w : HdWallet PK SK) (c : UInt32) (pc : CStoredExtKey PK SK) (fUpdateAcc : Bool) :
    (w.written c pc fUpdateAcc).sea = w.sea := by
  cases fUpdateAcc <;> rfl

theorem writeChainAndAccount_some {out : DbOutcome} {w w' : HdWallet PK SK} {c : UInt32}
    {pc : CStoredExtKey PK SK} {fUpdateAcc : Bool} (h : w.writeChainAndAccount out c pc fUpdateAcc = some w') :
    w' = w.written c pc fUpdateAcc ∧ out.writeExtKey ∧ (fUpdateAcc → out.writeExtAccount) := by
  unfold writeChainAndAccount at h
  split at h
  · cases h
  · rename_i hout
    cases fUpdateAcc with
    | false =>
        cases h
        exact ⟨rfl, not_not.1 hout, Bool.noConfusion⟩
    | true =>
        simp only [if_true] at h
        split at h
        · cases h
        · rename_i hacc
          cases h
          exact ⟨rfl, not_not.1 hout, fun _ => not_not.1 hacc⟩

/-- The wallet with keys in their pack, and the chain and, where the pack is full, the account written. -/
def keysWritten (w : HdWallet PK SK) (keys : List CEKAKeyPack) (c : UInt32) (pc : CStoredExtKey PK SK) :
    HdWallet PK SK := (w.packed keys).written c pc (w.fills keys)

section KeysWritten

variable (w : HdWallet PK SK) (keys : List CEKAKeyPack) (c : UInt32) (pc : CStoredExtKey PK SK)

@[simp] theorem keysWritten_sea : (w.keysWritten keys c pc).sea =
    { w.sea with nPack := if w.fills keys then w.sea.nPack + 1 else w.sea.nPack } := written_sea _ _ _ _

@[simp] theorem keysWritten_idDefaultAccount :
    (w.keysWritten keys c pc).idDefaultAccount = w.idDefaultAccount := by
  rw [keysWritten, written]
  split <;> rfl

@[simp] theorem keysWritten_epak :
    (w.keysWritten keys c pc).db.epak = PackedMap.append w.db.epak ⟨w.sea.getID, w.sea.nPack⟩ keys := by
  rw [keysWritten, written]
  split <;> rfl

@[simp] theorem keysWritten_espk : (w.keysWritten keys c pc).db.espk = w.db.espk := by
  rw [keysWritten, written]
  split <;> rfl

@[simp] theorem keysWritten_ecpk : (w.keysWritten keys c pc).db.ecpk = w.db.ecpk := by
  rw [keysWritten, written]
  split <;> rfl

theorem mem_keysWritten_ek32 {id : CKeyID} (h : id ∈ w.db.ek32) : id ∈ (w.keysWritten keys c pc).db.ek32 := by
  rw [keysWritten, written]
  split <;> exact Std.ExtTreeMap.mem_insert.2 (.inr h)

/-- The account's record is up to date, as it is written with each new pack number. -/
theorem keysWritten_eacc (h : w.db.eacc[w.sea.getID]? = some w.sea.toExtAccountRecord) :
    (w.keysWritten keys c pc).db.eacc[w.sea.getID]? =
      some (w.keysWritten keys c pc).sea.toExtAccountRecord := by
  rw [keysWritten_sea, keysWritten, written]
  cases hfull : w.fills keys with
  | true =>
      have hget : ((w.packed keys).writeChain c pc).writeAccount.db.eacc[w.sea.getID]? =
          some (w.packed keys).sea.toExtAccountRecord := Std.ExtTreeMap.getElem?_insert_self
      rw [if_pos rfl, hget, packed, hfull]
  | false => exact h

end KeysWritten

theorem inTxn_ok {T : Type} {out : DbOutcome} {func : String} {w w' : HdWallet PK SK}
    {body : HdWallet PK SK → Except String T × HdWallet PK SK} {a : T} (h : inTxn out func w body = (.ok a, w')) :
    body w = (.ok a, w') := by
  unfold inTxn at h
  split at h
  · cases h
  · split at h
    · cases h
    · rename_i heq
      split at h
      · cases h
        exact heq
      · cases h

/-! ## Saving a key -/

/-- The account after `ExtKeySaveKey` is the one after `SaveKey`, its pack number apart. -/
theorem extKeySaveKey_sea (ops : KeyOps PK SK) (out : DbOutcome) (keyId : CKeyID) (ak : CEKAKey)
    (w : HdWallet PK SK) :
    (extKeySaveKey ops out keyId ak w).2.sea = w.sea ∨
      ∃ sea' pak n, w.sea.saveKey ops keyId ak [] = some (sea', pak) ∧
        (extKeySaveKey ops out keyId ak w).2.sea = { sea' with nPack := n } := by
  rcases inTxn_sea out "ExtKeySaveKey" w (extKeySaveKeyBody ops out keyId ak) with h | h
  · exact .inl h
  · rw [extKeySaveKey, h, extKeySaveKeyBody]
    split
    · exact .inl rfl
    · rename_i sea' pak hsave
      refine .inr ?_
      simp only
      split
      · exact ⟨sea', pak, sea'.nPack, hsave, rfl⟩
      · rename_i w' fUpdateAcc happ
        obtain ⟨rfl, -, -⟩ := extKeyAppendToPack_some happ
        split
        · exact ⟨sea', pak, _, hsave, rfl⟩
        · split
          · exact ⟨sea', pak, _, hsave, rfl⟩
          · rename_i w'' hwrite
            obtain ⟨rfl, -, -⟩ := writeChainAndAccount_some hwrite
            exact ⟨sea', pak, _, hsave, written_sea _ _ _ _⟩

theorem extKeySaveKey_ok {out : DbOutcome} {keyId : CKeyID} {ak : CEKAKey} {w w' : HdWallet PK SK}
    (h : extKeySaveKey ops out keyId ak w = (.ok (), w')) :
    ∃ sea' pak pc, w.sea.saveKey ops keyId ak [] = some (sea', pak) ∧ sea'.getChain ak.nParent = some pc ∧
      w' = ({ w with sea := sea' } : HdWallet PK SK).keysWritten pak ak.nParent pc := by
  have hbody := inTxn_ok h
  rw [extKeySaveKeyBody] at hbody
  split at hbody
  · cases hbody
  · rename_i sea' pak hsave
    simp only at hbody
    split at hbody
    · cases hbody
    · rename_i happ
      obtain ⟨rfl, rfl, -⟩ := extKeyAppendToPack_some happ
      split at hbody
      · cases hbody
      · rename_i pc hpc
        split at hbody
        · cases hbody
        · rename_i hwrite
          obtain ⟨rfl, -, -⟩ := writeChainAndAccount_some hwrite
          cases hbody
          exact ⟨sea', pak, pc, hsave, hpc, rfl⟩

/-! ## A new key -/

/-- The wallet when the pack and the chain of a new key are written. -/
def newKeyWritten (w : HdWallet PK SK) (c : UInt32) (it : CEKAKeyPack) (pc' : CStoredExtKey PK SK) :
    HdWallet PK SK :=
  ({ w with sea := w.sea.setChain c pc' } : HdWallet PK SK).keysWritten [it] c pc'

/-- The writes of a new key that the database has to take. -/
def Writes (out : DbOutcome) (w : HdWallet PK SK) (c : UInt32) (it : CEKAKeyPack) (pc' : CStoredExtKey PK SK) : Prop :=
  out.writePack ∧ out.writeExtKey ∧
    (({ w with sea := w.sea.setChain c pc' } : HdWallet PK SK).fills [it] → out.writeExtAccount)

/-- Either an error puts the chain back, its pack number apart, or the key is written and then saved in the
account. -/
theorem saveNewKey_cases (ops : KeyOps PK SK) (out : DbOutcome) (c : UInt32) (pk : PK) (n : UInt32)
    (pc' pcBkp : CStoredExtKey PK SK) (w : HdWallet PK SK) :
    (∃ e w' nPack, saveNewKey ops out c pk n pc' pcBkp w = (.error e, w') ∧
        w'.sea = { (w.sea.setChain c pc').setChain c pcBkp with nPack }) ∨
      w.Writes out c (ops.getID pk, ⟨c, n⟩) pc' ∧ saveNewKey ops out c pk n pc' pcBkp w =
        (.ok pk, match (w.newKeyWritten c (ops.getID pk, ⟨c, n⟩) pc').sea.saveKey ops (ops.getID pk) ⟨c, n⟩ [] with
          | none => w.newKeyWritten c (ops.getID pk, ⟨c, n⟩) pc'
          | some (sea, _) => { w.newKeyWritten c (ops.getID pk, ⟨c, n⟩) pc' with sea }) := by
  rw [saveNewKey]
  simp only
  split
  · exact .inl ⟨_, _, w.sea.nPack, rfl, rfl⟩
  · rename_i happ
    obtain ⟨rfl, rfl, hpack⟩ := extKeyAppendToPack_some happ
    split
    · exact .inl ⟨_, _, _, rfl, rfl⟩
    · rename_i hwrite
      obtain ⟨rfl, hkey, hacc⟩ := writeChainAndAccount_some hwrite
      refine .inr ⟨⟨hpack, hkey, hacc⟩, ?_⟩
      rw [newKeyWritten, keysWritten]
      split
      · rename_i hsave
        simp only [hsave]
      · rename_i hsave
        simp only [hsave]

theorem newKeyWritten_sea (w : HdWallet PK SK) (c : UInt32) (it : CEKAKeyPack) (pc' : CStoredExtKey PK SK) :
    ∃ nPack, (w.newKeyWritten c it pc').sea = { w.sea.setChain c pc' with nPack } :=
  ⟨_, written_sea _ _ _ _⟩

/-- The number and the wallet of a new key. -/
theorem newKey_ok {out : DbOutcome} {fInternal fHardened : Bool} {pk : PK} {w w' : HdWallet PK SK}
    (h : newKeyFromAccount ops out fInternal fHardened w = (.ok pk, w')) :
    ∃ pc l, w.sea.getChain (w.newKeyChain fInternal) = some pc ∧ (pc.getCounter fHardened).toNat ≤ l.toNat ∧
      l.toNat < 2 ^ 31 ∧ pc.kp.derivePubKey ops (CStoredExtKey.childNumber l fHardened) = some pk ∧
        let it : CEKAKeyPack := (ops.getID pk, ⟨w.newKeyChain fInternal, CStoredExtKey.childNumber l fHardened⟩)
        let written := w.newKeyWritten (w.newKeyChain fInternal) it (pc.setCounter (l + 1) fHardened)
        w' = match written.sea.saveKey ops it.1 it.2 [] with
          | none => written
          | some (sea, _) => { written with sea } := by
  have hbody := inTxn_ok h
  rw [newKeyBody] at hbody
  split at hbody
  · cases hbody
  · split at hbody
    · cases hbody
    · rename_i pc hpc
      split at hbody
      · cases hbody
      · rename_i pk' n pc' hnext
        obtain ⟨l, hle, hlt, rfl, hk, rfl⟩ := CStoredExtKey.of_deriveNextKey hnext
        rcases saveNewKey_cases ops out (w.newKeyChain fInternal) pk' (CStoredExtKey.childNumber l fHardened)
          (pc.setCounter (l + 1) fHardened)
          ((pc.setCounter (l + 1) fHardened).setCounter (pc.getCounter fHardened) fHardened) w with
          ⟨e, w₁, _, heq, _⟩ | ⟨_, heq⟩
        · rw [heq] at hbody
          cases hbody
        · rw [heq] at hbody
          cases hbody
          exact ⟨pc, l, hpc, hle, hlt, hk, rfl⟩

/-! ## Keys of stealth addresses -/

/-- Whether a key that is derived from a stealth key fills its pack. -/
def fillsChild (w : HdWallet PK SK) (it : CEKASCKeyPack) : Bool :=
  packFull (w.db.ecpk.pack ⟨w.sea.getID, w.sea.nPackStealthKeys⟩ ++ [it]).length

/-- The wallet with such a key in its pack. -/
def childPacked (w : HdWallet PK SK) (it : CEKASCKeyPack) : HdWallet PK SK :=
  { w with
    sea :=
      { w.sea with
        nPackStealthKeys := if w.fillsChild it then w.sea.nPackStealthKeys + 1 else w.sea.nPackStealthKeys }
    db := { w.db with ecpk := PackedMap.append w.db.ecpk ⟨w.sea.getID, w.sea.nPackStealthKeys⟩ [it] } }

theorem extKeyAppendToChildPack_some {out : DbOutcome} {w w' : HdWallet PK SK} {idKey : CKeyID} {asck : CEKASCKey}
    {fUpdateAcc : Bool} (h : w.extKeyAppendToChildPack out idKey asck = some (w', fUpdateAcc)) :
    w' = w.childPacked (idKey, asck) ∧ fUpdateAcc = w.fillsChild (idKey, asck) := by
  unfold extKeyAppendToChildPack at h
  cases hfull : w.fillsChild (idKey, asck) with
  | true =>
      have hfull' := hfull
      unfold fillsChild at hfull'
      simp only [hfull', if_true] at h
      split at h
      · cases h
      · cases h
        exact ⟨by simp only [childPacked, hfull, if_true], rfl⟩
  | false =>
      have hfull' := hfull
      unfold fillsChild at hfull'
      simp only [hfull', Bool.false_eq_true, if_false] at h
      split at h
      · cases h
      · cases h
        exact ⟨by simp only [childPacked, hfull, Bool.false_eq_true, if_false], rfl⟩

theorem extKeySaveChildKey_ok {out : DbOutcome} {keyId : CKeyID} {asck : CEKASCKey} {w w' : HdWallet PK SK}
    (h : extKeySaveChildKey out keyId asck w = (.ok (), w')) :
    keyId ∉ w.sea.mapStealthChildKeys ∧
      let sea := { w.sea with mapStealthChildKeys := w.sea.mapStealthChildKeys.insert keyId asck }
      w' =
        if w.fillsChild (keyId, asck) then
          (({ w with sea } : HdWallet PK SK).childPacked (keyId, asck)).writeAccount
        else ({ w with sea } : HdWallet PK SK).childPacked (keyId, asck) := by
  have hbody := inTxn_ok h
  rw [extKeySaveChildKeyBody] at hbody
  split at hbody
  · cases hbody
  · rename_i sea hsave
    rw [CExtKeyAccount.saveStealthChildKey] at hsave
    split at hsave
    · cases hsave
    · rename_i hnew
      split at hsave
      · cases hsave
      · cases hsave
        refine ⟨hnew, ?_⟩
        simp only at hbody
        split at hbody
        · cases hbody
        · rename_i happ
          obtain ⟨rfl, rfl⟩ := extKeyAppendToChildPack_some happ
          split at hbody
          · rename_i hfull
            split at hbody
            · cases hbody
            · cases hbody
              exact (if_pos hfull).symm
          · rename_i hfull
            cases hbody
            exact (if_neg hfull).symm

theorem childId_of_secret {kp : CExtKeyPair PK SK} {l : UInt32} {k : SK} (hl : l.toNat < 2 ^ 31)
    (hk : kp.deriveSecret ops (hardenedChild l) = some k) :
    kp.childId ops (hardenedChild l) = some (ops.getID (ops.getPubKey k)) := by
  have htop : ¬hardenedChild l >>> 31 = 0 := by
    rw [top_bit_clear_iff, hardenedChild_toNat hl]
    omega
  rw [CExtKeyPair.childId, CExtKeyPair.derivePubKey, if_neg htop, hk]
  rfl

/-- The number and the wallet of a new stealth key whose pack it does not fill. -/
theorem newStealthKey_ok {out : DbOutcome} {sLabel : String} {aks : CEKAStealthKey PK SK} {w w' : HdWallet PK SK}
    (h : newStealthKeyFromAccount ops out sLabel w = (.ok aks, w'))
    (hroom : ¬packFull ((w.db.espk.pack ⟨w.idDefaultAccount, w.sea.nPackStealth⟩).length + 1)) :
    ∃ pc pc' id, w.sea.getChain w.sea.nActiveStealth = some pc ∧ pc'.kp = pc.kp ∧
      pc'.nGenerated = pc.nGenerated ∧ aks.nScanParent = w.sea.nActiveStealth ∧
        (∃ l, pc.nHGenerated.toNat ≤ l.toNat ∧ l.toNat < pc'.nHGenerated.toNat ∧ l.toNat < 2 ^ 31 ∧
          aks.nScanKey = hardenedChild l ∧ pc.kp.childId ops (hardenedChild l) = some id) ∧
            w' = ({ w with
              sea := { w.sea.setChain w.sea.nActiveStealth pc' with
                mapStealthKeys := w.sea.mapStealthKeys.insert id aks }
              db := { w.db with
                espk := PackedMap.append w.db.espk ⟨w.idDefaultAccount, w.sea.nPackStealth⟩ [(id, aks)] } } :
                  HdWallet PK SK).writeChain w.sea.nActiveStealth pc' := by
  have hbody := inTxn_ok h
  rw [newStealthKeyBody] at hbody
  split at hbody
  · cases hbody
  · simp only at hbody
    split at hbody
    · cases hbody
    · rename_i pc hpc
      split at hbody
      · cases hbody
      · rename_i kScan nScan pc₁ hscan
        split at hbody
        · cases hbody
        · rename_i kSpend nSpend pc₂ hspend
          split at hbody
          · cases hbody
          · split at hbody
            · cases hbody
            · obtain ⟨l, hle, hlt, rfl, hk, rfl⟩ := CStoredExtKey.of_deriveNextKey hscan
              obtain ⟨m, hle', hlt', rfl, hk', rfl⟩ := CStoredExtKey.of_deriveNextKey hspend
              rw [List.length_append, List.length_singleton] at hbody
              split at hbody
              · rename_i hfull
                exact absurd hfull hroom
              · cases hbody
                have hsucc : (l + 1).toNat = l.toNat + 1 := succ_toNat (Nat.le_of_lt hlt)
                have hsucc' : (m + 1).toNat = m.toNat + 1 := succ_toNat (Nat.le_of_lt hlt')
                have hnext : (l + 1).toNat ≤ m.toNat := hle'
                have hused : l.toNat < (m + 1).toNat := by omega
                exact ⟨pc, (pc.setCounter (l + 1) true).setCounter (m + 1) true, _, hpc, rfl, rfl, rfl,
                  ⟨l, hle, hused, hlt, rfl, childId_of_secret hlt hk⟩, rfl⟩

end ProCurrency.HdWallet
