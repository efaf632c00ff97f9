import ProCurrency.Hd.Lemmas.AccountDb
import ProCurrency.Hd.LookAhead

/-!
# Bookkeeping of key chains

Runs of `NewKeyFromAccount`, `HaveKey` and `AddLookAhead` on an account, whatever the database does meanwhile.
-/

namespace ProCurrency

open PackedMap CExtKeyAccount

variable {PK SK : Type} {ops : KeyOps PK SK}

namespace CExtKeyAccount

/-- The key of child `n` of chain `c` is in one of the two maps. -/
def Knows (ops : KeyOps PK SK) (sea : CExtKeyAccount PK SK) (c n : UInt32) : Prop :=
  ∃ id, sea.idOf ops ⟨c, n⟩ = some id ∧
    (sea.mapKeys[id]? = some ⟨c, n⟩ ∨ sea.mapLookAhead[id]? = some ⟨c, n⟩)

/-- The books of the key chains are in order. -/
structure Bookkept (ops : KeyOps PK SK) (sea : CExtKeyAccount PK SK) : Prop where
  disjoint : ∀ id ∈ sea.mapKeys, id ∉ sea.mapLookAhead
  generated : ∀ c pc (n : UInt32), sea.getChain c = some pc → n.toNat < pc.nGenerated.toNat → n.toNat < 2 ^ 31 →
    sea.Knows ops c n
  saved : ∀ (id : CKeyID) c (n : UInt32) pc, sea.mapKeys[id]? = some ⟨c, n⟩ → n.toNat < 2 ^ 31 → sea.getChain c = some pc →
    n.toNat < pc.nGenerated.toNat
  ahead : ∀ c pc (n : UInt32), sea.getChain c = some pc → pc.receives →
    n.toNat < pc.nGenerated.toNat + N_DEFAULT_LOOKAHEAD → n.toNat < 2 ^ 31 → sea.Knows ops c n

/-- A sound account whose receiving chains are looked ahead. -/
structure Opened (ops : KeyOps PK SK) (sea : CExtKeyAccount PK SK) : Prop where
  sound : sea.Sound ops
  ahead : ∀ c, sea.Ahead ops c

/-- What the calls keep: the chains' keys, and that the account is sound and looked ahead. -/
def Keeps (ops : KeyOps PK SK) (sea sea' : CExtKeyAccount PK SK) : Prop := sea'.kps = sea.kps ∧ sea'.Opened ops

theorem Sound.knows {sea : CExtKeyAccount PK SK} (hder : DerivesKeys ops sea.kps) (hsea : sea.Sound ops) {c n : UInt32}
    {pc : CStoredExtKey PK SK} {id : CKeyID} (hc : sea.getChain c = some pc) (hid : pc.kp.childId ops n = some id)
    (hrec : sea.Recognised id) : sea.Knows ops c n := by
  refine ⟨id, by rw [idOf, hc]; exact hid, ?_⟩
  rcases hrec with h | h
  · obtain ⟨ak, hak⟩ := isSome_of_mem h
    exact .inl (eq_of_idOf hder.injective hc hid (hsea.keyId id ak hak) ▸ hak)
  · obtain ⟨ak, hak⟩ := isSome_of_mem h
    exact .inr (eq_of_idOf hder.injective hc hid (hsea.aheadId id ak hak).1 ▸ hak)

theorem Opened.bookkept {sea : CExtKeyAccount PK SK} (hder : DerivesKeys ops sea.kps) (h : sea.Opened ops) :
    sea.Bookkept ops where
  disjoint := h.sound.disjoint
  generated c pc n hc hlt htop := by
    obtain ⟨id, hid⟩ := Option.isSome_iff_exists.1 (hder.succeeds c pc.kp n (kps_getElem hc) htop)
    exact h.sound.knows hder hc hid (h.sound.generated c pc n id hc hlt htop hid)
  saved id c n pc hkey htop hc := h.sound.saved id ⟨c, n⟩ pc hkey htop hc
  ahead c pc n hc hrec hlt htop := by
    obtain ⟨id, hid⟩ := Option.isSome_iff_exists.1 (hder.succeeds c pc.kp n (kps_getElem hc) htop)
    exact h.sound.knows hder hc hid (h.ahead c pc n id hc hrec hlt htop hid)

theorem Keeps.nPack {sea sea' : CExtKeyAccount PK SK} (h : sea.Keeps ops sea') (n : UInt32) :
    sea.Keeps ops { sea' with nPack := n } := ⟨h.1, h.2.sound.nPack n, h.2.ahead⟩

end CExtKeyAccount

namespace HdWallet

/-! ## What the calls do to the account -/

/-- A new unhardened key is the child at the counter, and it is saved; or the account stays as it is, its pack
number apart. -/
theorem newKeyBody_sea {w : HdWallet PK SK} (hder : DerivesKeys ops w.sea.kps) (hsea : w.sea.Sound ops)
    (out : DbOutcome) (fInternal : Bool) :
    (∃ nPack, (newKeyBody ops out fInternal false w).2.sea = { w.sea with nPack }) ∨
      ∃ pc id sea' pak nPack, w.sea.getChain (w.newKeyChain fInternal) = some pc ∧ pc.nGenerated.toNat < 2 ^ 31 ∧
        pc.kp.childId ops pc.nGenerated = some id ∧ id ∉ w.sea.mapKeys ∧
          w.sea.saveKey ops id ⟨w.newKeyChain fInternal, pc.nGenerated⟩ [] = some (sea', pak) ∧
            (newKeyBody ops out fInternal false w).2.sea = { sea' with nPack } := by
  rw [newKeyBody, if_neg (fun h => Bool.false_ne_true h.1)]
  cases hpc : w.sea.getChain (w.newKeyChain fInternal) with
  | none => exact .inl ⟨w.sea.nPack, rfl⟩
  | some pc =>
      by_cases htop : pc.nGenerated.toNat < 2 ^ 31
      · obtain ⟨id, hid⟩ := Option.isSome_iff_exists.1 (hder.succeeds _ pc.kp _ (kps_getElem hpc) htop)
        obtain ⟨pk, hpk, rfl⟩ := Option.map_eq_some_iff.1 hid
        have hfree := hsea.free hder hpc _ _ (Nat.le_refl _) htop hid
        have hnext : pc.deriveNextKey (CExtKeyPair.derivePubKey ops) false =
            .ok (pk, pc.nGenerated, { pc with nGenerated := pc.nGenerated + 1 }) :=
          CStoredExtKey.deriveNextKey_of_some htop Bool.noConfusion hpk
        simp only [hnext]
        rcases saveNewKey_cases ops out (w.newKeyChain fInternal) pk pc.nGenerated
          { pc with nGenerated := pc.nGenerated + 1 } pc w with ⟨e, w', nPack, heq, hback⟩ | ⟨-, heq⟩
        · rw [setChain_setChain, setChain_self hpc] at hback
          exact .inl ⟨nPack, (congrArg (fun r => r.2.sea) heq).trans hback⟩
        · obtain ⟨nPack, hsea'⟩ := newKeyWritten_sea w (w.newKeyChain fInternal)
            (ops.getID pk, ⟨w.newKeyChain fInternal, pc.nGenerated⟩) { pc with nGenerated := pc.nGenerated + 1 }
          rw [hsea', saveKey_nPack, saveKey_derived ops hpc htop rfl] at heq
          cases hsave : w.sea.saveKey ops (ops.getID pk) ⟨w.newKeyChain fInternal, pc.nGenerated⟩ [] with
          | none =>
              rw [saveKey_eq ops [] hfree hpc] at hsave
              cases hsave
          | some r =>
              obtain ⟨sea', pak⟩ := r
              rw [hsave] at heq
              exact .inr ⟨pc, _, sea', pak, nPack, rfl, htop, hid, hfree, hsave, congrArg (fun r => r.2.sea) heq⟩
      · obtain ⟨e, he⟩ := CStoredExtKey.deriveNextKey_of_top (CExtKeyPair.derivePubKey ops)
          (show 2 ^ 31 ≤ (pc.getCounter false).toNat from Nat.le_of_not_lt htop)
        simp only [he]
        exact .inl ⟨w.sea.nPack, rfl⟩

/-- What a hardened key needs: an unlocked wallet, a chain with a secret and hardened children left, and a database
that takes it. -/
def DerivesHardened (w : HdWallet PK SK) (out : DbOutcome) (fInternal : Bool) : Prop :=
  ¬w.isLocked ∧ out.txnBegin ∧ out.writePack ∧ out.writeExtKey ∧
    (packFull ((w.db.epak.pack ⟨w.sea.getID, w.sea.nPack⟩).length + 1) → out.writeExtAccount) ∧
      ∃ pc, w.sea.getChain (w.newKeyChain fInternal) = some pc ∧ pc.kp.isValidV ∧ pc.nHGenerated.toNat < 2 ^ 31

/-- Otherwise a hardened key leaves the account as it is, its pack number apart. -/
theorem newKey_hardened_undone {w : HdWallet PK SK} {out : DbOutcome} {fInternal : Bool}
    (h : ¬w.DerivesHardened out fInternal) :
    ∃ nPack, (newKeyFromAccount ops out fInternal true w).2.sea = { w.sea with nPack } := by
  by_cases hbegin : out.txnBegin
  · rcases inTxn_sea out "NewKeyFromAccount" w (newKeyBody ops out fInternal true) with heq | heq
    · exact ⟨w.sea.nPack, heq⟩
    · rw [newKeyFromAccount, heq, newKeyBody]
      split
      · exact ⟨w.sea.nPack, rfl⟩
      · rename_i hlocked
        split
        · exact ⟨w.sea.nPack, rfl⟩
        · rename_i pc hpc
          split
          · exact ⟨w.sea.nPack, rfl⟩
          · rename_i pk n pc' hnext
            rw [CStoredExtKey.deriveNextKey_back hnext]
            rcases saveNewKey_cases ops out (w.newKeyChain fInternal) pk n pc' pc w with
              ⟨e, w', nPack, hsave, hback⟩ | ⟨⟨hpack, hkey, hacc⟩, _⟩
            · rw [setChain_setChain, setChain_self hpc] at hback
              exact ⟨nPack, (congrArg (fun r => r.2.sea) hsave).trans hback⟩
            · obtain ⟨hvalid, hleft⟩ := CStoredExtKey.of_deriveNextKey_hardened hnext
              have hfills : packFull ((w.db.epak.pack ⟨w.sea.getID, w.sea.nPack⟩).length + 1) →
                  out.writeExtAccount := fun hfull => hacc (by
                rw [fills, List.length_append]
                exact hfull)
              exact absurd ⟨fun hl => hlocked ⟨rfl, hl⟩, hbegin, hpack, hkey, hfills, pc, hpc, hvalid, hleft⟩ h
  · exact ⟨w.sea.nPack, by rw [newKeyFromAccount, inTxn, if_pos hbegin]⟩

end HdWallet

/-! ## Runs -/

/-- The calls that are made on the account, and the locking and unlocking of the wallet between them. -/
inductive KeyCall
  | newKey (out : DbOutcome) (fInternal fHardened : Bool)
  | haveKey (out : DbOutcome) (address : CKeyID)
  | addLookAhead (nChain nKeys : UInt32)
  | setLocked (isLocked : Bool)

namespace KeyCall

def run (ops : KeyOps PK SK) (w : HdWallet PK SK) : KeyCall → HdWallet PK SK
  | newKey out fInternal fHardened => (HdWallet.newKeyFromAccount ops out fInternal fHardened w).2
  | haveKey out address => (HdWallet.haveKey ops out address w).2
  | addLookAhead nChain nKeys => { w with sea := w.sea.addLookAhead ops nChain nKeys.toNat }
  | setLocked isLocked => { w with isLocked }

def runAll (ops : KeyOps PK SK) (w : HdWallet PK SK) (calls : List KeyCall) : HdWallet PK SK :=
  calls.foldl (run ops) w

/-- The call asks for a hardened key, and gets it. -/
def hardened (w : HdWallet PK SK) : KeyCall → Prop
  | newKey out fInternal true => w.DerivesHardened out fInternal
  | _ => False

/-- No call of a run gets a hardened key. -/
def NoneHardened (ops : KeyOps PK SK) : HdWallet PK SK → List KeyCall → Prop
  | _, [] => True
  | w, call :: calls => ¬call.hardened w ∧ NoneHardened ops (call.run ops w) calls

end KeyCall

open HdWallet

section Steps

variable {w : HdWallet PK SK} (hder : DerivesKeys ops w.sea.kps) (h : w.sea.Opened ops)
include hder h

theorem newKey_keeps (out : DbOutcome) (fInternal : Bool) :
    w.sea.Keeps ops (newKeyFromAccount ops out fInternal false w).2.sea := by
  rw [newKeyFromAccount]
  rcases inTxn_sea out "NewKeyFromAccount" w (newKeyBody ops out fInternal false) with heq | heq
  · rw [heq]
    exact ⟨rfl, h⟩
  · rw [heq]
    rcases newKeyBody_sea hder h.sound out fInternal with
      ⟨n, hn⟩ | ⟨pc, id, sea', pak, n, hpc, htop, hid, hfree, hsave, hn⟩
    · exact hn ▸ Keeps.nPack ⟨rfl, h⟩ n
    · have hbelow : ∀ (m : UInt32) x, m.toNat < pc.nGenerated.toNat → pc.kp.childId ops m = some x →
          w.sea.Recognised x := fun m x hlt hx =>
        h.sound.generated _ pc m x hpc hlt (Nat.lt_trans hlt htop) hx
      have hopened := @Sound.saveKey PK SK ops w.sea id ⟨w.newKeyChain fInternal, pc.nGenerated⟩ pc hder h.sound
        hfree hpc hid htop hbelow [] pak sea' hsave h.ahead
      exact hn ▸ Keeps.nPack ⟨saveKey_kps hsave, hopened.1, hopened.2⟩ n

/-- A look-ahead key that is found moves over, with the keys that come before it. -/
theorem haveKey_keeps (out : DbOutcome) (address : CKeyID) :
    w.sea.Keeps ops (HdWallet.haveKey ops out address w).2.sea := by
  rw [HdWallet.haveKey]
  split
  · exact ⟨rfl, h⟩
  · rename_i ak hhave
    obtain ⟨hfree, hak⟩ : address ∉ w.sea.mapKeys ∧ w.sea.mapLookAhead[address]? = some ak := by
      rw [CExtKeyAccount.haveKey] at hhave
      split at hhave
      · cases hhave
      · rename_i hfree
        split at hhave
        · rename_i ak' hak
          cases hhave
          exact ⟨hfree, hak⟩
        · split at hhave <;> cases hhave
    have hsea : w.sea.Keeps ops (extKeySaveKey ops out address ak w).2.sea := by
      rcases extKeySaveKey_sea ops out address ak w with heq | ⟨sea', pak, n, hsave, heq⟩
      · rw [heq]
        exact ⟨rfl, h⟩
      · obtain ⟨hid, htop⟩ := h.sound.aheadId address ak hak
        obtain ⟨pc, hpc, hchild⟩ := Option.bind_eq_some_iff.1 hid
        have hbelow : ∀ (m : UInt32) x, m.toNat < ak.nKey.toNat → pc.kp.childId ops m = some x →
            w.sea.Recognised x := fun m x hlt hx =>
          h.sound.closed _ pc ak.nKey m address x hpc hchild (.inr (mem_of_getElem? hak)) hlt htop hx
        have hopened := h.sound.saveKey hder hfree hpc hchild htop hbelow hsave h.ahead
        exact heq ▸ Keeps.nPack ⟨saveKey_kps hsave, hopened.1, hopened.2⟩ n
    split <;> rename_i heq <;> rw [heq] at hsea <;> exact hsea
  · exact ⟨rfl, h⟩

/-- One call keeps the account in order, if it gets no hardened key. -/
theorem KeyCall.run_keeps {call : KeyCall} (hcall : ¬call.hardened w) :
    w.sea.Keeps ops (call.run ops w).sea := by
  cases call with
  | newKey out fInternal fHardened =>
      cases fHardened with
      | false => exact newKey_keeps hder h out fInternal
      | true =>
          obtain ⟨nPack, heq⟩ := @newKey_hardened_undone PK SK ops w out fInternal hcall
          exact heq ▸ Keeps.nPack ⟨rfl, h⟩ nPack
  | haveKey out address => exact haveKey_keeps hder h out address
  | addLookAhead c keys =>
      exact ⟨addLookAhead_kps ops w.sea c keys.toNat, h.sound.addLookAhead hder c keys.toNat,
        fun d => (h.ahead d).addLookAhead c keys.toNat⟩
  | setLocked isLocked => exact ⟨rfl, h⟩

end Steps

theorem KeyCall.runAll_keeps {w : HdWallet PK SK} (hder : DerivesKeys ops w.sea.kps) (h : w.sea.Opened ops)
    {calls : List KeyCall} (hcalls : NoneHardened ops w calls) : w.sea.Keeps ops (runAll ops w calls).sea := by
  induction calls generalizing w with
  | nil => exact ⟨rfl, h⟩
  | cons call calls ih =>
      obtain ⟨hkps, hopened⟩ := run_keeps hder h hcalls.1
      obtain ⟨hkps', hopened'⟩ := ih (hkps.symm ▸ hder) hopened hcalls.2
      exact ⟨hkps'.trans hkps, hopened'⟩

/-- The books stay in order as long as there is no hardened key. -/
theorem KeyCall.runAll_bookkept (ops : KeyOps PK SK) (w : HdWallet PK SK) (hder : DerivesKeys ops w.sea.kps)
    (hopened : w.sea.Opened ops) (calls : List KeyCall) (hcalls : NoneHardened ops w calls) :
    (runAll ops w calls).sea.Bookkept ops := by
  obtain ⟨hkps, h⟩ := runAll_keeps hder hopened hcalls
  exact h.bookkept (hkps.symm ▸ hder)

/-! ## Opening an account -/

namespace CExtKeyAccount

/-- A chain may be replaced by one with the same keys and the same counter. -/
theorem Sound.setChain {sea : CExtKeyAccount PK SK} (h : sea.Sound ops) {c : UInt32} {pc pc' : CStoredExtKey PK SK}
    (hpc : sea.getChain c = some pc) (hkp : pc'.kp = pc.kp) (hgen : pc'.nGenerated = pc.nGenerated) :
    (sea.setChain c pc').Sound ops := by
  have hback : ∀ d qc, (sea.setChain c pc').getChain d = some qc →
      ∃ qc', sea.getChain d = some qc' ∧ qc'.kp = qc.kp ∧ qc'.nGenerated = qc.nGenerated := by
    intro d qc hqc
    rw [getChain_setChain hpc] at hqc
    split at hqc
    · rename_i heq
      cases hqc
      exact ⟨pc, heq ▸ hpc, hkp.symm, hgen.symm⟩
    · exact ⟨qc, hqc, rfl, rfl⟩
  have hid : ∀ ak, (sea.setChain c pc').idOf ops ak = sea.idOf ops ak := by
    intro ak
    rw [idOf, idOf, getChain_setChain hpc]
    split
    · rename_i heq
      rw [← heq, hpc, Option.bind_some, Option.bind_some, hkp]
    · rfl
  constructor
  · exact h.disjoint
  · exact fun id ak hak => (hid ak).trans (h.keyId id ak hak)
  · exact fun id ak hak => ⟨(hid ak).trans (h.aheadId id ak hak).1, (h.aheadId id ak hak).2⟩
  · intro d qc hqc
    obtain ⟨qc', hqc', _, hgen'⟩ := hback d qc hqc
    exact hgen' ▸ h.counter d qc' hqc'
  · intro id ak qc hak htop hqc
    obtain ⟨qc', hqc', _, hgen'⟩ := hback _ qc hqc
    exact hgen' ▸ h.saved id ak qc' hak htop hqc'
  · intro d qc n id hqc hlt htop hn
    obtain ⟨qc', hqc', hkp', hgen'⟩ := hback d qc hqc
    rw [← hgen'] at hlt
    rw [← hkp'] at hn
    exact h.generated d qc' n id hqc' hlt htop hn
  · intro d qc n m id id' hqc hn hrec hlt htop hm
    obtain ⟨qc', hqc', hkp', _⟩ := hback d qc hqc
    rw [← hkp'] at hn hm
    exact h.closed d qc' n m id id' hqc' hn hrec hlt htop hm

/-- No key of an account is derived yet, and at least the usual number of keys is to be looked ahead. -/
structure Fresh (sea : CExtKeyAccount PK SK) : Prop where
  mapKeys : sea.mapKeys = ∅
  mapLookAhead : sea.mapLookAhead = ∅
  chains : ∀ c pc, sea.getChain c = some pc → pc.nGenerated = 0 ∧
    ∀ n, pc.nLookAhead = some n → N_DEFAULT_LOOKAHEAD ≤ n.toUInt32.toNat

/-- What holds of a fresh account while its chains are opened, those below `i` being open. -/
structure Opening (ops : KeyOps PK SK) (sea₀ : CExtKeyAccount PK SK) (i : Nat) (sea : CExtKeyAccount PK SK) :
    Prop where
  kps : sea.kps = sea₀.kps
  sound : sea.Sound ops
  chains : ∀ c pc, sea.getChain c = some pc → pc.nGenerated = 0 ∧
    ∀ n, pc.nLookAhead = some n → N_DEFAULT_LOOKAHEAD ≤ n.toUInt32.toNat
  ahead : ∀ c, c.toNat < i → sea.Ahead ops c

theorem Fresh.sound {sea : CExtKeyAccount PK SK} (h : sea.Fresh) : sea.Sound ops := by
  have hkeys : ∀ id, id ∉ sea.mapKeys := fun id => by rw [h.mapKeys]; exact Std.ExtTreeMap.not_mem_empty
  have hahead : ∀ id, id ∉ sea.mapLookAhead := fun id => by
    rw [h.mapLookAhead]; exact Std.ExtTreeMap.not_mem_empty
  constructor
  · exact fun id hid => absurd hid (hkeys id)
  · exact fun id ak hak => absurd (mem_of_getElem? hak) (hkeys id)
  · exact fun id ak hak => absurd (mem_of_getElem? hak) (hahead id)
  · exact fun c pc hc => (h.chains c pc hc).1 ▸ Nat.zero_le _
  · exact fun id ak pc hak => absurd (mem_of_getElem? hak) (hkeys id)
  · intro c pc n id hc hlt
    rw [(h.chains c pc hc).1] at hlt
    exact absurd hlt (Nat.not_lt_zero _)
  · exact fun c pc n m id id' _ _ hrec => (hrec.elim (hkeys id) (hahead id)).elim

theorem Ahead.setChain {sea : CExtKeyAccount PK SK} {c d : UInt32} {pc pc' : CStoredExtKey PK SK}
    (h : sea.Ahead ops d) (hpc : sea.getChain c = some pc) (hkp : pc'.kp = pc.kp)
    (hgen : pc'.nGenerated = pc.nGenerated) (hrec : pc'.receives = pc.receives) :
    (sea.setChain c pc').Ahead ops d := by
  intro qc n id hqc hr hlt htop hid
  rw [getChain_setChain hpc] at hqc
  split at hqc
  · rename_i heq
    cases hqc
    rw [hrec] at hr
    rw [hgen] at hlt
    rw [hkp] at hid
    exact h pc n id (heq ▸ hpc) hr hlt htop hid
  · exact h qc n id hqc hr hlt htop hid

/-- A chain at its start is opened by looking ahead. -/
theorem openChain_of_fresh {sea : CExtKeyAccount PK SK} {c : UInt32} {pc : CStoredExtKey PK SK}
    (hpc : sea.getChain c = some pc) (hgen : pc.nGenerated = 0) :
    ∃ pc', pc'.kp = pc.kp ∧ pc'.nGenerated = pc.nGenerated ∧ pc'.receives = pc.receives ∧
      pc'.nLookAhead = pc.nLookAhead ∧
        openChain ops sea c =
          if pc.receives then
            (sea.setChain c pc').addLookAhead ops c
              (pc.nLookAhead.getD (UInt64.ofNat N_DEFAULT_LOOKAHEAD)).toUInt32.toNat
          else sea.setChain c pc' := by
  have hopen : ∀ pc' : CStoredExtKey PK SK, pc'.nGenerated = 0 →
      (((sea.setChain c { pc' with nGenerated := 0 }).addLookAhead ops c pc'.nGenerated.toNat).setChain c pc') =
        sea.setChain c pc' := by
    intro pc' hgen'
    have hsame : ({ pc' with nGenerated := 0 } : CStoredExtKey PK SK) = pc' := by rw [← hgen']
    have hchain : (sea.setChain c pc').getChain c = some pc' := by rw [getChain_setChain hpc, if_pos rfl]
    have hnone : (sea.setChain c pc').addLookAhead ops c 0 = sea.setChain c pc' := by
      simp only [CExtKeyAccount.addLookAhead, hchain, lookAheadFrom]
    rw [hsame, hgen', UInt32.toNat_zero, hnone, setChain_setChain]
  by_cases hcrypt : pc.nFlags &&& EAF_IS_CRYPTED ≠ 0
  · refine ⟨{ pc with fLocked := true }, rfl, rfl, rfl, rfl, ?_⟩
    simp only [openChain, hpc, if_pos hcrypt, fillLookAhead]
    rw [hopen { pc with fLocked := true } hgen]
    rfl
  · refine ⟨pc, rfl, rfl, rfl, rfl, ?_⟩
    simp only [openChain, hpc, if_neg hcrypt, fillLookAhead]
    rw [hopen pc hgen]

theorem Opening.step {sea₀ sea : CExtKeyAccount PK SK} {i : Nat} (hder : DerivesKeys ops sea₀.kps)
    (h : Opening ops sea₀ i sea) : Opening ops sea₀ (i + 1) (openChain ops sea (UInt32.ofNat i)) := by
  have hcases : ∀ c : UInt32, c.toNat < i + 1 → c.toNat < i ∨ c = UInt32.ofNat i := by
    intro c hc
    rcases Nat.lt_or_eq_of_le (Nat.lt_succ_iff.1 hc) with h | h
    · exact .inl h
    · exact .inr (by rw [← h, UInt32.ofNat_toNat])
  cases hpc : sea.getChain (UInt32.ofNat i) with
  | none =>
      have hsame : openChain ops sea (UInt32.ofNat i) = sea := by simp only [openChain, hpc]
      rw [hsame]
      refine ⟨h.kps, h.sound, h.chains, fun c hc => ?_⟩
      rcases hcases c hc with hlt | rfl
      · exact h.ahead c hlt
      · exact fun pc n id hc' => by rw [hpc] at hc'; cases hc'
  | some pc =>
      obtain ⟨hgen, hmany⟩ := h.chains _ pc hpc
      obtain ⟨pc', hkp, hgen', hrec, hahead', hopen⟩ := @openChain_of_fresh PK SK ops sea (UInt32.ofNat i) pc hpc hgen
      have hkps := setChain_kps hpc hkp
      have hder' : DerivesKeys ops (sea.setChain (UInt32.ofNat i) pc').kps := by rw [hkps, h.kps]; exact hder
      have hsound := h.sound.setChain hpc hkp hgen'
      have hchains : ∀ c qc, (sea.setChain (UInt32.ofNat i) pc').getChain c = some qc → qc.nGenerated = 0 ∧
          ∀ n, qc.nLookAhead = some n → N_DEFAULT_LOOKAHEAD ≤ n.toUInt32.toNat := by
        intro c qc hqc
        rw [getChain_setChain hpc] at hqc
        split at hqc
        · cases hqc
          exact ⟨hgen'.trans hgen, fun n hn => hmany n (hahead' ▸ hn)⟩
        · exact h.chains c qc hqc
      rw [hopen]
      split
      · have hkeys : N_DEFAULT_LOOKAHEAD ≤ (pc.nLookAhead.getD (UInt64.ofNat N_DEFAULT_LOOKAHEAD)).toUInt32.toNat := by
          cases hn : pc.nLookAhead with
          | none => exact Nat.le_refl _
          | some n => exact hmany n hn
        refine ⟨by rw [addLookAhead_kps, hkps, h.kps], hsound.addLookAhead hder' _ _, fun c qc hqc => ?_,
          fun c hc => ?_⟩
        · rw [addLookAhead_getChain] at hqc
          exact hchains c qc hqc
        · rcases hcases c hc with hlt | rfl
          · exact ((h.ahead c hlt).setChain hpc hkp hgen' hrec).addLookAhead _ _
          · exact hsound.addLookAhead_ahead hder' _ hkeys
      · rename_i hnot
        refine ⟨by rw [hkps, h.kps], hsound, hchains, fun c hc => ?_⟩
        rcases hcases c hc with hlt | rfl
        · exact (h.ahead c hlt).setChain hpc hkp hgen' hrec
        · intro qc n id hqc hr
          rw [getChain_setChain hpc, if_pos rfl] at hqc
          cases hqc
          exact absurd (hrec ▸ hr) hnot

/-- A fresh account is in order once it is opened. -/
theorem Fresh.opened {sea : CExtKeyAccount PK SK} (hder : DerivesKeys ops sea.kps) (h : sea.Fresh) :
    (extKeyAddAccountToMaps ops sea).kps = sea.kps ∧ (extKeyAddAccountToMaps ops sea).Opened ops := by
  have hrun : ∀ n, Opening ops sea n ((List.range n).foldl (fun s i => openChain ops s (UInt32.ofNat i)) sea) := by
    intro n
    induction n with
    | zero => exact ⟨rfl, h.sound, h.chains, fun c hc => absurd hc (Nat.not_lt_zero _)⟩
    | succ n ih =>
        rw [List.range_succ, List.foldl_append]
        exact ih.step hder
  obtain ⟨hkps, hsound, _, hahead⟩ := hrun sea.vExtKeys.length
  refine ⟨hkps, hsound, fun c pc n id hc => hahead c ?_ pc n id hc⟩
  have hlen := congrArg List.length hkps
  rw [CExtKeyAccount.kps, CExtKeyAccount.kps, List.length_map, List.length_map] at hlen
  exact hlen ▸ (List.getElem?_eq_some_iff.1 hc).1

end CExtKeyAccount

/-! ## An account with one chain -/

/-- An account whose only chain receives and has its secret. -/
def oneChain : CExtKeyAccount Nat Nat where
  nActiveExternal := 0
  nActiveInternal := 0
  nActiveStealth := 0
  vExtKeyIDs := [1]
  nFlags := EAF_ACTIVE
  nPackStealthKeys := 0
  vExtKeys := [{ kp := ⟨1, some 1, []⟩, nFlags := EAF_ACTIVE ||| EAF_RECEIVE_ON }]

def oneChainWallet : HdWallet Nat Nat where
  idDefaultAccount := 1
  sea := extKeyAddAccountToMaps numberKeys oneChain
  db := { eacc := (∅ : Std.ExtTreeMap CKeyID ExtAccountRecord).insert 1 oneChain.toExtAccountRecord }

theorem numberKeys_childId (n : UInt32) :
    (⟨1, some 1, []⟩ : CExtKeyPair Nat Nat).childId numberKeys n = some (BitVec.ofNat 160 (2 ^ 32 + n.toNat)) := by
  rw [CExtKeyPair.childId, CExtKeyPair.derivePubKey]
  split
  · exact congrArg (fun k => some (BitVec.ofNat 160 k)) (by rw [Nat.one_mul])
  · exact congrArg (fun k => some (BitVec.ofNat 160 (k + n.toNat))) (Nat.one_mul _)

theorem oneChain_derives : DerivesKeys numberKeys oneChain.kps := by
  have hchain : ∀ (c : UInt32) (kp : CExtKeyPair Nat Nat), oneChain.kps[c.toNat]? = some kp →
      c = 0 ∧ kp = ⟨1, some 1, []⟩ := by
    intro c kp hkp
    obtain ⟨hlt, hget⟩ := List.getElem?_eq_some_iff.1 hkp
    have hzero : c.toNat = 0 := Nat.lt_one_iff.1 hlt
    refine ⟨UInt32.toNat_inj.1 hzero, ?_⟩
    rw [hzero] at hkp
    exact (Option.some.inj hkp).symm
  constructor
  · intro c kp n hkp _
    obtain ⟨_, rfl⟩ := hchain c kp hkp
    rw [numberKeys_childId]
    rfl
  · intro c d kp kq n m id hkp hkq hn hm
    obtain ⟨rfl, rfl⟩ := hchain c kp hkp
    obtain ⟨rfl, rfl⟩ := hchain d kq hkq
    rw [numberKeys_childId] at hn hm
    have heq := congrArg BitVec.toNat (Option.some.inj (hn.trans hm.symm))
    have hn' := n.toNat_lt
    have hm' := m.toNat_lt
    rw [BitVec.toNat_ofNat, BitVec.toNat_ofNat, Nat.mod_eq_of_lt (by omega), Nat.mod_eq_of_lt (by omega)] at heq
    exact ⟨rfl, UInt32.toNat_inj.1 (Nat.add_left_cancel heq)⟩

theorem oneChain_fresh : oneChain.Fresh where
  mapKeys := rfl
  mapLookAhead := rfl
  chains c pc hc := by
    obtain ⟨hlt, hget⟩ := List.getElem?_eq_some_iff.1 hc
    have hzero : c.toNat = 0 := Nat.lt_one_iff.1 hlt
    rw [getChain, hzero] at hc
    cases hc
    exact ⟨rfl, fun n hn => absurd hn (Option.some_ne_none n).symm⟩

theorem oneChainWallet_opened :
    DerivesKeys numberKeys oneChainWallet.sea.kps ∧ oneChainWallet.sea.Opened numberKeys := by
  obtain ⟨hkps, hopened⟩ := oneChain_fresh.opened oneChain_derives
  have hkps' : oneChainWallet.sea.kps = oneChain.kps := hkps
  exact ⟨by rw [hkps']; exact oneChain_derives, hopened⟩

theorem KeyCall.runAll_bookkept_oneChain :
    (runAll numberKeys oneChainWallet [newKey {} false false, haveKey {} (BitVec.ofNat 160 (2 ^ 32 + 3)),
      addLookAhead 0 10]).sea.Bookkept numberKeys :=
  runAll_bookkept numberKeys oneChainWallet oneChainWallet_opened.1 oneChainWallet_opened.2 _
    ⟨id, id, id, trivial⟩

/-- A hardened key takes the counter past every unhardened child. -/
theorem KeyCall.newKey_hardened_not_bookkept :
    (DerivesKeys numberKeys oneChainWallet.sea.kps ∧ oneChainWallet.sea.Opened numberKeys) ∧
      ¬(runAll numberKeys oneChainWallet [newKey {} false true]).sea.Bookkept numberKeys := by
  refine ⟨oneChainWallet_opened, fun h => ?_⟩
  obtain ⟨pc, hpc, hgen⟩ : ∃ pc, (runAll numberKeys oneChainWallet [newKey {} false true]).sea.getChain 0 = some pc ∧
      pc.nGenerated = 0x80000001 := Option.map_eq_some_iff.1 (by decide +kernel :
        ((runAll numberKeys oneChainWallet [newKey {} false true]).sea.getChain 0).map (·.nGenerated) =
          some 0x80000001)
  obtain ⟨id, hid, hknown⟩ := h.generated 0 pc 1000 hpc (by rw [hgen]; decide) (by decide)
  obtain rfl : BitVec.ofNat 160 (2 ^ 32 + 1000) = id := Option.some.inj ((by decide +kernel :
    (runAll numberKeys oneChainWallet [newKey {} false true]).sea.idOf numberKeys ⟨0, 1000⟩ =
      some (BitVec.ofNat 160 (2 ^ 32 + 1000))).symm.trans hid)
  revert hknown
  decide +kernel

end ProCurrency
