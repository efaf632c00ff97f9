import ProCurrency.Hd.StoredKey

/-!
# Payments to an extended key

`CWallet::SendMoneyToDestination` pays to a child of an extended public key: `ExtKeyGetDestination` derives it, and
`ExtKeyUpdateLooseKey` saves its number once the payment is sent.
-/

namespace ProCurrency

/-- The extended keys in the wallet database, and the master key: `none` for a wallet that is not encrypted,
`some none` for a locked one. -/
structure KeyWallet (PK SK MK : Type) where
  ek32 : Std.ExtTreeMap CKeyID (CStoredExtKey PK SK) := ∅
  vMasterKey : Option (Option MK) := none

/-- What a payment meets outside of these functions. -/
structure SendEnv (PK SK MK : Type) where
  getBalance : Int
  nTransactionFee : Int
  /-- `SendMoney` to the key hash of a script; empty when the payment is sent. -/
  sendMoney : CKeyID → String
  encryptSecret : MK → CExtKeyPair PK SK → Option (List UInt8)
  /-- Whether the database takes the record. -/
  dbWrite : Bool

/-- `CTxDestination`. -/
inductive CTxDestination (PK SK : Type)
  | keyID (id : CKeyID)
  | extKey (ek : CExtKeyPair PK SK)

namespace KeyWallet

variable {PK SK MK : Type}

def isLocked (w : KeyWallet PK SK MK) : Bool :=
  match w.vMasterKey with
  | some none => true
  | _ => false

/-- `CWalletDB::WriteExtKey`. -/
def writeExtKey (env : SendEnv PK SK MK) (w : KeyWallet PK SK MK) (keyId : CKeyID) (sek : CStoredExtKey PK SK) :
    Except Unit (KeyWallet PK SK MK) :=
  if env.dbWrite then .ok { w with ek32 := w.ek32.insert keyId sek.serialized } else .error ()

/-- `ExtKeyEncrypt`, which leaves the key unlocked. -/
def extKeyEncrypt (env : SendEnv PK SK MK) (w : KeyWallet PK SK MK) (sek : CStoredExtKey PK SK) :
    Except Unit (CStoredExtKey PK SK) :=
  match w.vMasterKey with
  | some (some vMKey) =>
      if ¬sek.kp.isValidV then .ok sek
      else
        match env.encryptSecret vMKey sek.kp with
        | none => .error ()
        | some vchCryptedSecret =>
            .ok { sek with nFlags := sek.nFlags ||| EAF_IS_CRYPTED, vchCryptedSecret, fLocked := false }
  | _ => .ok sek

/-- `ExtKeyImportLoose` of a key that is not in the database, with `fBip44` false. -/
def extKeyImportLoose (ops : KeyOps PK SK) (env : SendEnv PK SK MK) (w : KeyWallet PK SK MK)
    (sekIn : CStoredExtKey PK SK) : Except Unit (KeyWallet PK SK MK) :=
  if w.isLocked then .error ()
  else
    let id := sekIn.kp.getID ops
    match w.extKeyEncrypt env { sekIn with nFlags := sekIn.nFlags ||| EAF_ACTIVE } with
    | .error e => .error e
    | .ok sek => w.writeExtKey env id sek

/-- The loop of `ExtKeyGetDestination` for a key that is not saved, over the tries that are left. -/
def firstDestination (ops : KeyOps PK SK) (ek : CExtKeyPair PK SK) : Nat → UInt32 → Option (CKeyID × UInt32)
  | 0, _ => none
  | n + 1, nKey =>
      match ek.derivePubKey ops nKey with
      | some pkDest => some (ops.getID pkDest, nKey)
      | none => firstDestination ops ek n (nKey + 1)

/-- The key hash of the script to pay to, and the child's number. -/
def extKeyGetDestination (ops : KeyOps PK SK) (w : KeyWallet PK SK MK) (ek : CExtKeyPair PK SK) :
    Option (CKeyID × UInt32) :=
  match w.ek32[ek.getID ops]? with
  | some sek =>
      match sek.deriveNextKey (CExtKeyPair.derivePubKey ops) false with
      | .error _ => none
      | .ok (pkDest, nKey, _) => some (ops.getID pkDest, nKey)
  | none => firstDestination ops ek MAX_DERIVE_TRIES 0

def extKeyUpdateLooseKey (ops : KeyOps PK SK) (env : SendEnv PK SK MK) (w : KeyWallet PK SK MK)
    (ek : CExtKeyPair PK SK) (nKey : UInt32) : Except Unit (KeyWallet PK SK MK) :=
  match w.ek32[ek.getID ops]? with
  | some sek => w.writeExtKey env (ek.getID ops) { sek with nGenerated := nKey }
  | none => w.extKeyImportLoose ops env { kp := ek, nGenerated := nKey }

/-- A payment that is sent: the key hash it goes to and, for an extended key, the number of the child. -/
structure Payment where
  scriptPubKey : CKeyID
  nChildKey : Option UInt32
deriving DecidableEq

/-- The error text, or the payment; the result of `ExtKeyUpdateLooseKey` is not looked at. -/
def sendMoneyToDestination (ops : KeyOps PK SK) (env : SendEnv PK SK MK) (w : KeyWallet PK SK MK)
    (address : CTxDestination PK SK) (nValue : Int) (sNarr : String) :
    Except String (Payment × KeyWallet PK SK MK) :=
  if nValue ≤ 0 then .error "Invalid amount"
  else if env.getBalance < nValue + env.nTransactionFee then .error "Insufficient funds"
  else if 24 < sNarr.utf8ByteSize then .error "Narration must be 24 characters or less."
  else
    match address with
    | .keyID id =>
        let rv := env.sendMoney id
        if rv = "" then .ok (⟨id, none⟩, w) else .error rv
    | .extKey ek =>
        match w.extKeyGetDestination ops ek with
        | none => .error "ExtKeyGetDestination failed."
        | some (scriptPubKey, nChildKey) =>
            let rv := env.sendMoney scriptPubKey
            if rv = "" then
              .ok (⟨scriptPubKey, some nChildKey⟩, ((w.extKeyUpdateLooseKey ops env ek nChildKey).toOption).getD w)
            else .error rv

/-- Sent payments to one extended key. Between two of them the wallet may be closed and opened, locked and
unlocked: the database stays as it is. -/
inductive Pays (ops : KeyOps PK SK) (ek : CExtKeyPair PK SK) :
    KeyWallet PK SK MK → List Payment → KeyWallet PK SK MK → Prop
  | done (w : KeyWallet PK SK MK) : Pays ops ek w [] w
  | sent {w w' w'' : KeyWallet PK SK MK} {p : Payment} {ps : List Payment} (env : SendEnv PK SK MK) (nValue : Int)
      (sNarr : String) (hsend : w.sendMoneyToDestination ops env (.extKey ek) nValue sNarr = .ok (p, w'))
      (hrest : Pays ops ek w' ps w'') : Pays ops ek w (p :: ps) w''
  | reopened {w w' : KeyWallet PK SK MK} {ps : List Payment} (vMasterKey : Option (Option MK))
      (hrest : Pays ops ek { w with vMasterKey } ps w') : Pays ops ek w ps w'

/-! ## The child that is paid to -/

/-- The public key and chain code, and the counter, that the next payment is derived with. -/
def nextChild (ops : KeyOps PK SK) (w : KeyWallet PK SK MK) (ek : CExtKeyPair PK SK) :
    (PK × List UInt8) × UInt32 :=
  match w.ek32[ek.getID ops]? with
  | some sek => ((sek.kp.pubkey, sek.kp.vchChainCode), sek.nGenerated)
  | none => ((ek.pubkey, ek.vchChainCode), 0)

variable {ops : KeyOps PK SK} {env : SendEnv PK SK MK} {w w' : KeyWallet PK SK MK} {ek : CExtKeyPair PK SK}

theorem derivePubKey_of_lt (ops : KeyOps PK SK) (kp : CExtKeyPair PK SK) {n : UInt32} (hn : n.toNat < 2 ^ 31) :
    kp.derivePubKey ops n = ops.pubKeyDerive kp.pubkey kp.vchChainCode n :=
  if_pos ((top_bit_clear_iff n).2 hn)

theorem writeExtKey_nextChild {sek : CStoredExtKey PK SK}
    (hw : w.writeExtKey env (ek.getID ops) sek = .ok w') :
    w'.nextChild ops ek = ((sek.kp.pubkey, sek.kp.vchChainCode), sek.nGenerated) := by
  unfold writeExtKey at hw
  split at hw
  · cases hw
    simp only [nextChild, Std.ExtTreeMap.getElem?_insert_self, CStoredExtKey.serialized]
    split <;> rfl
  · cases hw

theorem extKeyEncrypt_kp {sek sek' : CStoredExtKey PK SK} (he : w.extKeyEncrypt env sek = .ok sek') :
    sek'.kp = sek.kp ∧ sek'.nGenerated = sek.nGenerated := by
  unfold extKeyEncrypt at he
  split at he
  · split at he
    · cases he
      exact ⟨rfl, rfl⟩
    · split at he
      · cases he
      · cases he
        exact ⟨rfl, rfl⟩
  · cases he
    exact ⟨rfl, rfl⟩

/-- The number that is saved is the one that was used: the next payment is derived from the same number. -/
theorem extKeyUpdateLooseKey_nextChild
    (hw : w.extKeyUpdateLooseKey ops env ek (w.nextChild ops ek).2 = .ok w') :
    w'.nextChild ops ek = w.nextChild ops ek := by
  cases hread : w.ek32[ek.getID ops]? with
  | some sek =>
      simp only [extKeyUpdateLooseKey, hread] at hw
      rw [writeExtKey_nextChild hw]
      simp only [nextChild, hread]
  | none =>
      simp only [extKeyUpdateLooseKey, hread, extKeyImportLoose] at hw
      split at hw
      · cases hw
      · split at hw
        · cases hw
        · rename_i sek he
          obtain ⟨hkp, hgen⟩ := extKeyEncrypt_kp he
          rw [writeExtKey_nextChild hw, hkp, hgen]
          simp only [nextChild, hread]

/-- Every unhardened child of every key can be derived. -/
def DerivesAll (ops : KeyOps PK SK) : Prop :=
  ∀ pubkey vchChainCode n, n.toNat < 2 ^ 31 → (ops.pubKeyDerive pubkey vchChainCode n).isSome

/-- The payment to child `n` of a public key and chain code. -/
def PaysChild (ops : KeyOps PK SK) (pk : PK × List UInt8) (n : UInt32) (p : Payment) : Prop :=
  ∃ pkDest, ops.pubKeyDerive pk.1 pk.2 n = some pkDest ∧ p = ⟨ops.getID pkDest, some n⟩

theorem extKeyGetDestination_eq (hall : DerivesAll ops) {id : CKeyID} {n : UInt32}
    (hget : w.extKeyGetDestination ops ek = some (id, n)) :
    n = (w.nextChild ops ek).2 ∧ PaysChild ops (w.nextChild ops ek).1 n ⟨id, some n⟩ := by
  cases hread : w.ek32[ek.getID ops]? with
  | some sek =>
      have hchild : w.nextChild ops ek = ((sek.kp.pubkey, sek.kp.vchChainCode), sek.nGenerated) := by
        simp only [nextChild, hread]
      simp only [extKeyGetDestination, hread] at hget
      rw [hchild]
      by_cases hlt : sek.nGenerated.toNat < 2 ^ 31
      · obtain ⟨pkDest, hpk⟩ := Option.isSome_iff_exists.1 (hall sek.kp.pubkey sek.kp.vchChainCode _ hlt)
        have hk := (derivePubKey_of_lt ops sek.kp hlt).trans hpk
        have hnext : sek.deriveNextKey (CExtKeyPair.derivePubKey ops) false =
            .ok (pkDest, sek.nGenerated, sek.setCounter (sek.nGenerated + 1) false) :=
          CStoredExtKey.deriveNextKey_of_some hlt Bool.noConfusion hk
        rw [hnext] at hget
        cases hget
        exact ⟨rfl, pkDest, hpk, rfl⟩
      · obtain ⟨e, he⟩ := CStoredExtKey.deriveNextKey_of_top (CExtKeyPair.derivePubKey ops)
          (show 2 ^ 31 ≤ (sek.getCounter false).toNat from Nat.le_of_not_lt hlt)
        rw [he] at hget
        cases hget
  | none =>
      have hchild : w.nextChild ops ek = ((ek.pubkey, ek.vchChainCode), 0) := by
        simp only [nextChild, hread]
      have hzero : (0 : UInt32).toNat < 2 ^ 31 := by decide
      obtain ⟨pkDest, hpk⟩ := Option.isSome_iff_exists.1 (hall ek.pubkey ek.vchChainCode 0 hzero)
      have hk := (derivePubKey_of_lt ops ek hzero).trans hpk
      simp only [extKeyGetDestination, hread, MAX_DERIVE_TRIES, firstDestination, hk] at hget
      rw [hchild]
      cases hget
      exact ⟨rfl, pkDest, hpk, rfl⟩

theorem sendMoneyToDestination_step (hall : DerivesAll ops) {nValue : Int} {sNarr : String} {p : Payment}
    (hsend : w.sendMoneyToDestination ops env (.extKey ek) nValue sNarr = .ok (p, w')) :
    PaysChild ops (w.nextChild ops ek).1 (w.nextChild ops ek).2 p ∧
      p.nChildKey = some (w.nextChild ops ek).2 ∧ w'.nextChild ops ek = w.nextChild ops ek := by
  unfold sendMoneyToDestination at hsend
  split_ifs at hsend
  cases hget : w.extKeyGetDestination ops ek with
  | none =>
      simp only [hget] at hsend
      cases hsend
  | some dest =>
      obtain ⟨scriptPubKey, nChildKey⟩ := dest
      obtain ⟨rfl, hpays⟩ := extKeyGetDestination_eq hall hget
      simp only [hget] at hsend
      split at hsend
      · cases hsend
        refine ⟨hpays, rfl, ?_⟩
        cases hupd : w.extKeyUpdateLooseKey ops env ek (w.nextChild ops ek).2 with
        | error e => rfl
        | ok w' => exact extKeyUpdateLooseKey_nextChild hupd
      · cases hsend

/-- In a whole run every payment goes to the child that the first one goes to. -/
theorem Pays.same_child (hall : DerivesAll ops) {ps : List Payment} (hrun : Pays ops ek w ps w') :
    ∀ p ∈ ps, PaysChild ops (w.nextChild ops ek).1 (w.nextChild ops ek).2 p ∧
      p.nChildKey = some (w.nextChild ops ek).2 := by
  induction hrun with
  | done w => exact fun _ hp => nomatch hp
  | sent env nValue sNarr hsend _ ih =>
      obtain ⟨hpays, hchild, hnext⟩ := sendMoneyToDestination_step hall hsend
      intro p hp
      cases hp with
      | head => exact ⟨hpays, hchild⟩
      | tail _ hp => exact hnext ▸ ih p hp
  | reopened vMasterKey _ ih => exact ih

/-- The payments go to the children 0, 1, … of the key, each used once. -/
def PaysInOrder (ops : KeyOps PK SK) (ek : CExtKeyPair PK SK) (ps : List Payment) : Prop :=
  ∀ i (hi : i < ps.length), ∃ n : UInt32, n.toNat = i ∧ PaysChild ops (ek.pubkey, ek.vchChainCode) n ps[i]

/-- A record of the key, if the wallet has one, has nothing generated yet and the key's own first child. -/
def StartsAtFirst (ops : KeyOps PK SK) (w : KeyWallet PK SK MK) (ek : CExtKeyPair PK SK) : Prop :=
  (w.nextChild ops ek).2 = 0 ∧
    (ops.pubKeyDerive (w.nextChild ops ek).1.1 (w.nextChild ops ek).1.2 0).map ops.getID =
      (ops.pubKeyDerive ek.pubkey ek.vchChainCode 0).map ops.getID

theorem PaysChild.congr {pk pk' : PK × List UInt8} {n : UInt32} {p : Payment} (hp : PaysChild ops pk n p)
    (heq : (ops.pubKeyDerive pk.1 pk.2 n).map ops.getID = (ops.pubKeyDerive pk'.1 pk'.2 n).map ops.getID) :
    PaysChild ops pk' n p := by
  obtain ⟨pkDest, hpk, rfl⟩ := hp
  rw [hpk, Option.map_some] at heq
  obtain ⟨pkDest', hpk', hid⟩ := Option.map_eq_some_iff.1 heq.symm
  exact ⟨pkDest', hpk', by rw [hid]⟩

theorem PaysChild.id_eq {pk pk' : PK × List UInt8} {n : UInt32} {p : Payment} (hp : PaysChild ops pk n p)
    (hp' : PaysChild ops pk' n p) :
    (ops.pubKeyDerive pk.1 pk.2 n).map ops.getID = (ops.pubKeyDerive pk'.1 pk'.2 n).map ops.getID := by
  obtain ⟨pkDest, hpk, rfl⟩ := hp
  obtain ⟨pkDest', hpk', heq⟩ := hp'
  rw [hpk, hpk', Option.map_some, Option.map_some, (Payment.mk.inj heq).1]

theorem PaysChild.number {pk : PK × List UInt8} {n : UInt32} {p : Payment} (hp : PaysChild ops pk n p) :
    p.nChildKey = some n := by
  obtain ⟨_, _, rfl⟩ := hp
  rfl

/-- Payments to an extended key use its children in order only as long as there is no second payment. -/
theorem pays_inOrder_iff (ops : KeyOps PK SK) (ek : CExtKeyPair PK SK) {w w' : KeyWallet PK SK MK}
    {ps : List Payment} (hall : DerivesAll ops) (hrun : Pays ops ek w ps w') :
    PaysInOrder ops ek ps ↔ ps.length = 0 ∨ ps.length = 1 ∧ StartsAtFirst ops w ek := by
  have hsame := hrun.same_child hall
  cases ps with
  | nil => exact ⟨fun _ => .inl rfl, fun _ i hi => absurd hi (Nat.not_lt_zero i)⟩
  | cons p ps =>
      have hfirst := (hsame p List.mem_cons_self).1
      constructor
      · intro horder
        obtain ⟨n, hn, hpays⟩ := horder 0 (Nat.succ_pos _)
        obtain rfl : n = 0 := UInt32.toNat_inj.1 hn
        have hzero : (w.nextChild ops ek).2 = 0 := Option.some.inj (hfirst.number.symm.trans hpays.number)
        rw [hzero] at hfirst
        refine .inr ⟨?_, hzero, hfirst.id_eq hpays⟩
        cases ps with
        | nil => rfl
        | cons q ps =>
            -- the second payment goes to child 0 as well
            obtain ⟨m, hm, hq⟩ := horder 1 (Nat.succ_lt_succ (Nat.succ_pos _))
            have hsecond := (hsame q (List.mem_cons_of_mem p List.mem_cons_self)).2
            rw [hzero] at hsecond
            obtain rfl : m = 0 := Option.some.inj (hq.number.symm.trans hsecond)
            exact absurd hm Nat.zero_ne_one
      · rintro (hnone | ⟨hone, hzero, hid⟩)
        · exact absurd hnone (Nat.succ_ne_zero _)
        · intro i hi
          obtain rfl : i = 0 := Nat.lt_one_iff.1 (hone ▸ hi)
          rw [hzero] at hfirst
          exact ⟨0, rfl, hfirst.congr hid⟩

/-! ## Two payments to one key -/

def loosePubKey : CExtKeyPair Nat Nat := ⟨1, none, []⟩

def looseEnv : SendEnv Nat Nat Unit where
  getBalance := 100
  nTransactionFee := 1
  sendMoney _ := ""
  encryptSecret _ _ := none
  dbWrite := true

def childZeroPayment : Payment := ⟨BitVec.ofNat 160 (2 ^ 32), some 0⟩

theorem numberKeys_derivesAll : DerivesAll numberKeys := fun _ _ _ _ => rfl

def afterFirst : KeyWallet Nat Nat Unit where
  ek32 := (∅ : Std.ExtTreeMap CKeyID (CStoredExtKey Nat Nat)).insert 1 { kp := loosePubKey, nFlags := EAF_ACTIVE }

theorem loose_pays : Pays numberKeys loosePubKey ({} : KeyWallet Nat Nat Unit) [childZeroPayment, childZeroPayment]
    (afterFirst.extKeyUpdateLooseKey numberKeys looseEnv loosePubKey 0 |>.toOption.getD afterFirst) :=
  .sent looseEnv 10 "" rfl (.reopened none (.sent looseEnv 10 "" rfl (.done _)))

theorem pays_inOrder_iff_twice :
    PaysInOrder numberKeys loosePubKey [childZeroPayment, childZeroPayment] ↔
      (2 = 0 ∨ 2 = 1 ∧ StartsAtFirst numberKeys ({} : KeyWallet Nat Nat Unit) loosePubKey) :=
  pays_inOrder_iff numberKeys loosePubKey numberKeys_derivesAll loose_pays

theorem pays_not_inOrder : ∃ w' : KeyWallet Nat Nat Unit,
    Pays numberKeys loosePubKey {} [childZeroPayment, childZeroPayment] w' ∧
      ¬PaysInOrder numberKeys loosePubKey [childZeroPayment, childZeroPayment] := by
  refine ⟨_, loose_pays, fun horder => ?_⟩
  obtain ⟨n, hn, hpays⟩ := horder 1 (by decide)
  obtain rfl : (0 : UInt32) = n := Option.some.inj hpays.number
  exact absurd hn (by decide)

end KeyWallet

end ProCurrency
