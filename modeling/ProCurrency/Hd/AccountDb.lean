import ProCurrency.Hd.StoredKey
import ProCurrency.Lib.ByteCodec
import ProCurrency.Lib.PackedMap

/-!
# Accounts of extended keys

`CExtKeyAccount` (extkey.h, extkey.cpp). The keys of an account that are in use are in `mapKeys`; the children that
follow on a chain are looked ahead, and move over when a payment to one of them is found.
-/

namespace ProCurrency

def N_DEFAULT_LOOKAHEAD : Nat := 100

structure CEKAKey where
  nParent : UInt32
  nKey : UInt32
deriving DecidableEq

structure CEKASCKey where
  idStealthKey : CKeyID
  sShared : List UInt8
deriving DecidableEq

structure CEKAStealthKey (PK SK : Type) where
  nFlags : UInt8 := 0
  sLabel : String
  nScanParent : UInt32
  nScanKey : UInt32
  skScan : SK
  akSpend : CEKAKey
  pkScan : PK
  pkSpend : PK

abbrev CEKAKeyPack := CKeyID × CEKAKey
abbrev CEKASCKeyPack := CKeyID × CEKASCKey
abbrev CEKAStealthKeyPack (PK SK : Type) := CKeyID × CEKAStealthKey PK SK

/-- What is written of an account. -/
structure ExtAccountRecord where
  nActiveExternal : UInt32
  nActiveInternal : UInt32
  nActiveStealth : UInt32
  vExtKeyIDs : List CKeyID
  nFlags : UInt32 := 0
  nPack : UInt32 := 0
  nPackStealth : UInt32 := 0
  nPackStealthKeys : UInt32

structure CExtKeyAccount (PK SK : Type) extends ExtAccountRecord where
  vExtKeys : List (CStoredExtKey PK SK)
  mapKeys : Std.ExtTreeMap CKeyID CEKAKey := ∅
  mapLookAhead : Std.ExtTreeMap CKeyID CEKAKey := ∅
  mapStealthChildKeys : Std.ExtTreeMap CKeyID CEKASCKey := ∅
  mapStealthKeys : Std.ExtTreeMap CKeyID (CEKAStealthKey PK SK) := ∅

/-- The results 0, 1, 2 and 3 of `CExtKeyAccount::HaveKey`. -/
inductive HaveKey
  | no
  | yes
  | lookAhead
  | updated (ak : CEKAKey)
deriving DecidableEq

/-- What the loop that fills gaps has moved: the two maps, and the keys to write. -/
structure GapFill where
  mapKeys : Std.ExtTreeMap CKeyID CEKAKey
  mapLookAhead : Std.ExtTreeMap CKeyID CEKAKey
  ekPak : List CEKAKeyPack

/-- The loop's round at one entry of `mapLookAhead`. -/
def GapFill.round (keyIn : CEKAKey) (g : GapFill) (it : CEKAKeyPack) : GapFill :=
  if it.2.nKey < keyIn.nKey ∧ it.2.nParent = keyIn.nParent ∧ it.1 ∉ g.mapKeys then
    { mapKeys := g.mapKeys.insert it.1 it.2
      mapLookAhead := g.mapLookAhead.erase it.1
      ekPak := g.ekPak ++ [it] }
  else g

variable {PK SK : Type}

/-- The id of a child of a chain. -/
def CExtKeyPair.childId (ops : KeyOps PK SK) (kp : CExtKeyPair PK SK) (nChild : UInt32) : Option CKeyID :=
  (kp.derivePubKey ops nChild).map ops.getID

/-- The inner loop of `AddLookAhead`, over the tries that are left: the id of the next key that is not in `mapKeys`,
and `nChild` and `nChildOut`. -/
def nextLookAhead (ops : KeyOps PK SK) (pc : CStoredExtKey PK SK) (mapKeys : Std.ExtTreeMap CKeyID CEKAKey) :
    Nat → UInt32 → UInt32 → Option CKeyID × UInt32 × UInt32
  | 0, nChild, nChildOut => (none, nChild, nChildOut)
  | n + 1, nChild, nChildOut =>
      match pc.deriveKey (CExtKeyPair.derivePubKey ops) nChild false with
      | .error _ => nextLookAhead ops pc mapKeys n (nChildOut + 1) nChildOut
      | .ok (pk, nChildOut) =>
          if ops.getID pk ∈ mapKeys then nextLookAhead ops pc mapKeys n (nChildOut + 1) nChildOut
          else (some (ops.getID pk), nChildOut + 1, nChildOut)

/-- The outer loop of `AddLookAhead`, over the keys that are left. -/
def lookAheadFrom (ops : KeyOps PK SK) (pc : CStoredExtKey PK SK) (nChain : UInt32)
    (mapKeys : Std.ExtTreeMap CKeyID CEKAKey) :
    Nat → UInt32 → UInt32 → Std.ExtTreeMap CKeyID CEKAKey → Std.ExtTreeMap CKeyID CEKAKey
  | 0, _, _, mapLookAhead => mapLookAhead
  | n + 1, nChild, nChildOut, mapLookAhead =>
      match nextLookAhead ops pc mapKeys MAX_DERIVE_TRIES nChild nChildOut with
      | (none, nChild, nChildOut) => lookAheadFrom ops pc nChain mapKeys n nChild nChildOut mapLookAhead
      | (some keyId, nChild, nChildOut) =>
          lookAheadFrom ops pc nChain mapKeys n nChild nChildOut (mapLookAhead.insert keyId ⟨nChain, nChildOut⟩)

namespace CExtKeyAccount

def getID (sea : CExtKeyAccount PK SK) : CKeyID := sea.vExtKeyIDs.headD 0

def getChain (sea : CExtKeyAccount PK SK) (nChain : UInt32) : Option (CStoredExtKey PK SK) :=
  sea.vExtKeys[nChain.toNat]?

def setChain (sea : CExtKeyAccount PK SK) (nChain : UInt32) (pc : CStoredExtKey PK SK) : CExtKeyAccount PK SK :=
  { sea with vExtKeys := sea.vExtKeys.set nChain.toNat pc }

def haveKey (sea : CExtKeyAccount PK SK) (id : CKeyID) (fUpdate : Bool) : HaveKey :=
  if id ∈ sea.mapKeys then .yes
  else
    match sea.mapLookAhead[id]? with
    | some ak => if fUpdate then .updated ak else .lookAhead
    | none => if id ∈ sea.mapStealthChildKeys then .yes else .no

/-- Nothing is added for a chain that the account does not have. -/
def addLookAhead (ops : KeyOps PK SK) (sea : CExtKeyAccount PK SK) (nChain : UInt32) (nKeys : Nat) :
    CExtKeyAccount PK SK :=
  match sea.getChain nChain with
  | none => sea
  | some pc =>
      { sea with
        mapLookAhead :=
          lookAheadFrom ops pc nChain sea.mapKeys nKeys pc.nGenerated pc.nGenerated sea.mapLookAhead }

/-- The gaps that `SaveKey` fills: what is looked ahead below a key that is beyond the chain's counter. -/
def fillGaps (sea : CExtKeyAccount PK SK) (keyIn : CEKAKey) (ekPak : List CEKAKeyPack) :
    CExtKeyAccount PK SK × List CEKAKeyPack :=
  match sea.getChain keyIn.nParent with
  | none => (sea, ekPak)
  | some pc =>
      if pc.nGenerated < keyIn.nKey then
        let g := sea.mapLookAhead.toList.foldl (GapFill.round keyIn) ⟨sea.mapKeys, sea.mapLookAhead, ekPak⟩
        (({ sea with mapKeys := g.mapKeys, mapLookAhead := g.mapLookAhead } : CExtKeyAccount PK SK).setChain
          keyIn.nParent { pc with nGenerated := keyIn.nKey }, g.ekPak)
      else (sea, ekPak)

/-- The end of `SaveKey`: the counter moves past the key, and more keys are looked ahead. -/
def advance (ops : KeyOps PK SK) (sea : CExtKeyAccount PK SK) (keyIn : CEKAKey) : CExtKeyAccount PK SK :=
  match sea.getChain keyIn.nParent with
  | none => sea
  | some pc =>
      let pc := if keyIn.nKey = pc.nGenerated then { pc with nGenerated := pc.nGenerated + 1 } else pc
      let sea := sea.setChain keyIn.nParent pc
      if pc.receives then sea.addLookAhead ops keyIn.nParent N_DEFAULT_LOOKAHEAD else sea

/-- The account and the keys to write; `none` when the key is saved already. -/
def saveKey (ops : KeyOps PK SK) (sea : CExtKeyAccount PK SK) (id : CKeyID) (keyIn : CEKAKey)
    (ekPak : List CEKAKeyPack) : Option (CExtKeyAccount PK SK × List CEKAKeyPack) :=
  if id ∈ sea.mapKeys then none
  else
    let (sea, ekPak) := fillGaps { sea with mapLookAhead := sea.mapLookAhead.erase id } keyIn ekPak
    some (advance ops { sea with mapKeys := sea.mapKeys.insert id keyIn } keyIn, ekPak ++ [(id, keyIn)])

/-- `SaveKey` of a key that is derived from a stealth key. -/
def saveStealthChildKey (sea : CExtKeyAccount PK SK) (id : CKeyID) (keyIn : CEKASCKey) :
    Option (CExtKeyAccount PK SK) :=
  if id ∈ sea.mapStealthChildKeys then none
  else if keyIn.idStealthKey ∉ sea.mapStealthKeys then none
  else some { sea with mapStealthChildKeys := sea.mapStealthChildKeys.insert id keyIn }

end CExtKeyAccount

end ProCurrency

/-!
## Accounts in the wallet database

The chains, the account record and the key packs of an account (wallet.cpp): how `NewKeyFromAccount`,
`ExtKeySaveKey` and `NewStealthKeyFromAccount` write them, and how `ExtKeyLoadAccounts` and
`ExtKeyLoadAccountPacks` read them. The wallet has the one account `idDefaultAccount`; the database may hold packs of
others.
-/

namespace ProCurrency

open ByteCodec

def MAX_KEY_PACK_SIZE : Nat := 100

/-- The key of a pack: the account, and the pack's number. -/
structure PackKey where
  idAccount : CKeyID
  nPack : UInt32
deriving DecidableEq

namespace PackKey

def bytes (k : PackKey) : List UInt8 := leBytes 20 k.idAccount.toNat ++ leBytes 4 k.nPack.toNat

theorem bytes_injective {k k' : PackKey} (h : k.bytes = k'.bytes) : k = k' := by
  obtain ⟨hid, hpack⟩ := leBytes_append_injective k.idAccount.isLt k'.idAccount.isLt h
  have hnum := congrArg ofLeBytes hpack
  rw [ofLeBytes_leBytes k.nPack.toNat_lt, ofLeBytes_leBytes k'.nPack.toNat_lt] at hnum
  cases k
  cases k'
  rw [mk.injEq]
  exact ⟨BitVec.eq_of_toNat_eq hid, UInt32.toNat_inj.1 hnum⟩

/-- The database cursor walks the records by the bytes of their keys. -/
instance : Ord PackKey := ⟨compareOn bytes⟩

instance : Std.TransOrd PackKey := inferInstanceAs (Std.TransCmp (compareOn bytes))

instance : Std.LawfulEqOrd PackKey where
  compare_self := Std.ReflOrd.compare_self
  eq_of_compare h := bytes_injective (Std.LawfulEqOrd.eq_of_compare h)

end PackKey

abbrev PackTable (V : Type) := Std.ExtTreeMap PackKey (List (CKeyID × V))

/-- The records `ek32`, `eacc`, `epak`, `espk` and `ecpk` of the wallet database. -/
structure HdDb (PK SK : Type) where
  ek32 : Std.ExtTreeMap CKeyID (CStoredExtKey PK SK) := ∅
  eacc : Std.ExtTreeMap CKeyID ExtAccountRecord := ∅
  epak : PackTable CEKAKey := ∅
  espk : PackTable (CEKAStealthKey PK SK) := ∅
  ecpk : PackTable CEKASCKey := ∅

structure HdWallet (PK SK : Type) where
  idDefaultAccount : CKeyID
  sea : CExtKeyAccount PK SK
  db : HdDb PK SK
  isLocked : Bool := false

/-- Which calls of the database go through. -/
structure DbOutcome where
  txnBegin : Bool := true
  writePack : Bool := true
  writeExtKey : Bool := true
  writeExtAccount : Bool := true
  txnCommit : Bool := true

/-- Whether the next keys go to the next pack, after a pack of this size. -/
def packFull (size : Nat) : Bool := MAX_KEY_PACK_SIZE - 1 ≤ (UInt32.ofNat size).toNat

def PackTable.pack {V : Type} (t : PackTable V) (k : PackKey) : List (CKeyID × V) := t[k]?.getD []

namespace HdWallet

variable {PK SK : Type}

/-- The result of a body between `TxnBegin` and `TxnCommit`; an error undoes what was written. -/
def inTxn {T : Type} (out : DbOutcome) (func : String) (w : HdWallet PK SK)
    (body : HdWallet PK SK → Except String T × HdWallet PK SK) : Except String T × HdWallet PK SK :=
  if ¬out.txnBegin then (.error (func ++ " TxnBegin failed."), w)
  else
    match body w with
    | (.error e, w') => (.error e, { w' with db := w.db })
    | (.ok a, w') =>
        if out.txnCommit then (.ok a, w') else (.error (func ++ " TxnCommit failed."), { w' with db := w.db })

/-- `WriteExtKey` of the chain that a key is on. -/
def writeChain (w : HdWallet PK SK) (nChain : UInt32) (pc : CStoredExtKey PK SK) : HdWallet PK SK :=
  { w with db := { w.db with ek32 := w.db.ek32.insert (w.sea.vExtKeyIDs.getD nChain.toNat 0) pc.serialized } }

/-- `WriteExtAccount`. -/
def writeAccount (w : HdWallet PK SK) : HdWallet PK SK :=
  { w with db := { w.db with eacc := w.db.eacc.insert w.sea.getID w.sea.toExtAccountRecord } }

/-- `ExtKeyAppendToPack` of keys; the second value is `fUpdateAcc`. -/
def extKeyAppendToPack (out : DbOutcome) (w : HdWallet PK SK) (keys : List CEKAKeyPack) :
    Option (HdWallet PK SK × Bool) :=
  let key : PackKey := ⟨w.sea.getID, w.sea.nPack⟩
  if ¬out.writePack then none
  else
    let w' := { w with db := { w.db with epak := PackedMap.append w.db.epak key keys } }
    if packFull (w.db.epak.pack key ++ keys).length then
      some ({ w' with sea := { w'.sea with nPack := w'.sea.nPack + 1 } }, true)
    else some (w', false)

/-- `ExtKeyAppendToPack` of a key that is derived from a stealth key. -/
def extKeyAppendToChildPack (out : DbOutcome) (w : HdWallet PK SK) (idKey : CKeyID) (asck : CEKASCKey) :
    Option (HdWallet PK SK × Bool) :=
  let key : PackKey := ⟨w.sea.getID, w.sea.nPackStealthKeys⟩
  if ¬out.writePack then none
  else
    let w' := { w with db := { w.db with ecpk := PackedMap.append w.db.ecpk key [(idKey, asck)] } }
    if packFull (w.db.ecpk.pack key ++ [(idKey, asck)]).length then
      some ({ w' with sea := { w'.sea with nPackStealthKeys := w'.sea.nPackStealthKeys + 1 } }, true)
    else some (w', false)

/-- The writes that follow the pack: the chain, and the account when a pack was filled. -/
def writeChainAndAccount (out : DbOutcome) (w : HdWallet PK SK) (nChain : UInt32) (pc : CStoredExtKey PK SK)
    (fUpdateAcc : Bool) : Option (HdWallet PK SK) :=
  if ¬out.writeExtKey then none
  else
    let w := w.writeChain nChain pc
    if fUpdateAcc then
      if ¬out.writeExtAccount then none else some w.writeAccount
    else some w

/-- The chain of a new key. -/
def newKeyChain (w : HdWallet PK SK) (fInternal : Bool) : UInt32 :=
  if fInternal then w.sea.nActiveInternal else w.sea.nActiveExternal

/-- The part of `NewKeyFromAccount` that follows the derivation: `sek` is the chain with its counter moved on, and
`sekBkp` the one that errors put back. -/
def saveNewKey (ops : KeyOps PK SK) (out : DbOutcome) (nExtKey : UInt32) (pkOut : PK) (nChildOut : UInt32)
    (sek sekBkp : CStoredExtKey PK SK) (w : HdWallet PK SK) : Except String PK × HdWallet PK SK :=
  let ks : CEKAKey := ⟨nExtKey, nChildOut⟩
  let idKey := ops.getID pkOut
  let w := { w with sea := w.sea.setChain nExtKey sek }
  match w.extKeyAppendToPack out [(idKey, ks)] with
  | none =>
      (.error "NewKeyFromAccount ExtKeyAppendToPack failed.", { w with sea := w.sea.setChain nExtKey sekBkp })
  | some (w, fUpdateAcc) =>
      match w.writeChainAndAccount out nExtKey sek fUpdateAcc with
      | none =>
          (.error "NewKeyFromAccount Save account chain failed.", { w with sea := w.sea.setChain nExtKey sekBkp })
      | some w =>
          match w.sea.saveKey ops idKey ks [] with
          | none => (.ok pkOut, w)
          | some (sea, _) => (.ok pkOut, { w with sea })

/-- The body of `NewKeyFromAccount`. -/
def newKeyBody (ops : KeyOps PK SK) (out : DbOutcome) (fInternal fHardened : Bool) (w : HdWallet PK SK) :
    Except String PK × HdWallet PK SK :=
  if fHardened ∧ w.isLocked then
    (.error "NewKeyFromAccount Wallet must be unlocked to derive hardened keys.", w)
  else
    match w.sea.getChain (w.newKeyChain fInternal) with
    | none => (.error "NewKeyFromAccount Unknown chain.", w)
    | some sek =>
        match sek.deriveNextKey (CExtKeyPair.derivePubKey ops) fHardened with
        | .error _ => (.error "NewKeyFromAccount Derive failed.", w)
        | .ok (pkOut, nChildOut, sek') =>
            saveNewKey ops out (w.newKeyChain fInternal) pkOut nChildOut sek'
              (sek'.setCounter (sek.getCounter fHardened) fHardened) w

def newKeyFromAccount (ops : KeyOps PK SK) (out : DbOutcome) (fInternal fHardened : Bool) (w : HdWallet PK SK) :
    Except String PK × HdWallet PK SK :=
  inTxn out "NewKeyFromAccount" w (newKeyBody ops out fInternal fHardened)

/-- The body of `ExtKeySaveKey`. -/
def extKeySaveKeyBody (ops : KeyOps PK SK) (out : DbOutcome) (keyId : CKeyID) (ak : CEKAKey) (w : HdWallet PK SK) :
    Except String Unit × HdWallet PK SK :=
  match w.sea.saveKey ops keyId ak [] with
  | none => (.error "ExtKeySaveKey SaveKey failed.", w)
  | some (sea, ekPak) =>
      let w := { w with sea }
      match w.extKeyAppendToPack out ekPak with
      | none => (.error "ExtKeySaveKey ExtKeyAppendToPack failed.", w)
      | some (w, fUpdateAcc) =>
          match w.sea.getChain ak.nParent with
          | none => (.error "ExtKeySaveKey GetChain failed.", w)
          | some pc =>
              match w.writeChainAndAccount out ak.nParent pc fUpdateAcc with
              | none =>
                  (.error (if out.writeExtKey then "ExtKeySaveKey WriteExtAccount failed."
                    else "ExtKeySaveKey WriteExtKey failed."), w)
              | some w => (.ok (), w)

def extKeySaveKey (ops : KeyOps PK SK) (out : DbOutcome) (keyId : CKeyID) (ak : CEKAKey) (w : HdWallet PK SK) :
    Except String Unit × HdWallet PK SK :=
  inTxn out "ExtKeySaveKey" w (extKeySaveKeyBody ops out keyId ak)

/-- The body of `ExtKeySaveKey` of a key that is derived from a stealth key. -/
def extKeySaveChildKeyBody (out : DbOutcome) (keyId : CKeyID) (asck : CEKASCKey) (w : HdWallet PK SK) :
    Except String Unit × HdWallet PK SK :=
  match w.sea.saveStealthChildKey keyId asck with
  | none => (.error "ExtKeySaveKey SaveKey failed.", w)
  | some sea =>
      let w := { w with sea }
      match w.extKeyAppendToChildPack out keyId asck with
      | none => (.error "ExtKeySaveKey ExtKeyAppendToPack failed.", w)
      | some (w, fUpdateAcc) =>
          if fUpdateAcc then
            if ¬out.writeExtAccount then (.error "ExtKeySaveKey WriteExtAccount failed.", w)
            else (.ok (), w.writeAccount)
          else (.ok (), w)

def extKeySaveChildKey (out : DbOutcome) (keyId : CKeyID) (asck : CEKASCKey) (w : HdWallet PK SK) :
    Except String Unit × HdWallet PK SK :=
  inTxn out "ExtKeySaveKey" w (extKeySaveChildKeyBody out keyId asck)

/-- The body of `NewStealthKeyFromAccount`. -/
def newStealthKeyBody (ops : KeyOps PK SK) (out : DbOutcome) (sLabel : String) (w : HdWallet PK SK) :
    Except String (CEKAStealthKey PK SK) × HdWallet PK SK :=
  if w.isLocked then
    (.error "NewStealthKeyFromAccount Wallet must be unlocked to derive hardened keys.", w)
  else
    let nChain := w.sea.nActiveStealth
    match w.sea.getChain nChain with
    | none => (.error ("NewStealthKeyFromAccount Stealth chain unknown " ++ toString nChain ++ "."), w)
    | some sek =>
        let nChildBkp := sek.nHGenerated
        match sek.deriveNextKey (CExtKeyPair.deriveSecret ops) true with
        | .error _ => (.error "NewStealthKeyFromAccount Derive failed.", w)
        | .ok (kScan, nScanOut, sek) =>
            match sek.deriveNextKey (CExtKeyPair.deriveSecret ops) true with
            | .error _ =>
                (.error "NewStealthKeyFromAccount Derive failed.",
                  { w with sea := w.sea.setChain nChain (sek.setCounter nChildBkp true) })
            | .ok (kSpend, nSpendOut, sek) =>
                let aks : CEKAStealthKey PK SK :=
                  { sLabel, nScanParent := nChain, nScanKey := nScanOut, skScan := kScan
                    akSpend := ⟨nChain, nSpendOut⟩, pkScan := ops.getPubKey kScan, pkSpend := ops.getPubKey kSpend }
                let idKey := ops.getID (ops.getPubKey kScan)
                let restored (w : HdWallet PK SK) : HdWallet PK SK :=
                  { w with
                    sea :=
                      { w.sea.setChain nChain (sek.setCounter nChildBkp true) with
                        mapStealthKeys := w.sea.mapStealthKeys.erase idKey } }
                let w : HdWallet PK SK :=
                  { w with
                    sea :=
                      { w.sea.setChain nChain sek with
                        mapStealthKeys := w.sea.mapStealthKeys.insert idKey aks } }
                let key : PackKey := ⟨w.idDefaultAccount, w.sea.nPackStealth⟩
                if ¬out.writePack then
                  (.error ("NewStealthKeyFromAccount Save key pack " ++ toString key.nPack ++ " failed."), restored w)
                else
                  let full := packFull (w.db.espk.pack key ++ [(idKey, aks)]).length
                  let w : HdWallet PK SK :=
                    { w with db := { w.db with espk := PackedMap.append w.db.espk key [(idKey, aks)] } }
                  let w : HdWallet PK SK :=
                    if full then { w with sea := { w.sea with nPackStealth := w.sea.nPackStealth + 1 } } else w
                  if ¬out.writeExtKey then
                    (.error "NewStealthKeyFromAccount Save account chain failed.", restored w)
                  else (.ok aks, w.writeChain nChain sek)

def newStealthKeyFromAccount (ops : KeyOps PK SK) (out : DbOutcome) (sLabel : String) (w : HdWallet PK SK) :
    Except String (CEKAStealthKey PK SK) × HdWallet PK SK :=
  inTxn out "NewStealthKeyFromAccount" w (newStealthKeyBody ops out sLabel)

/-- `CWallet::HaveKey`, as far as the account answers it. -/
def haveKey (ops : KeyOps PK SK) (out : DbOutcome) (address : CKeyID) (w : HdWallet PK SK) :
    Bool × HdWallet PK SK :=
  match w.sea.haveKey address true with
  | .yes => (true, w)
  | .updated ak =>
      match extKeySaveKey ops out address ak w with
      | (.error _, w) => (false, w)
      | (.ok (), w) => (true, w)
  | _ => (false, w)

/-! ## Loading -/

/-- The look-ahead keys of a chain that is opened, first those below its counter, which the packs may not have. -/
def fillLookAhead (ops : KeyOps PK SK) (sea : CExtKeyAccount PK SK) (i : UInt32) (sek : CStoredExtKey PK SK) :
    CExtKeyAccount PK SK :=
  if sek.receives then
    let nLookAhead := (sek.nLookAhead.getD (UInt64.ofNat N_DEFAULT_LOOKAHEAD)).toUInt32
    let below := (sea.setChain i { sek with nGenerated := 0 }).addLookAhead ops i sek.nGenerated.toNat
    (below.setChain i sek).addLookAhead ops i nLookAhead.toNat
  else sea.setChain i sek

/-- One round of `ExtKeyAddAccountToMaps`. -/
def openChain (ops : KeyOps PK SK) (sea : CExtKeyAccount PK SK) (i : UInt32) : CExtKeyAccount PK SK :=
  match sea.getChain i with
  | none => sea
  | some sek =>
      fillLookAhead ops sea i (if sek.nFlags &&& EAF_IS_CRYPTED ≠ 0 then { sek with fLocked := true } else sek)

def extKeyAddAccountToMaps (ops : KeyOps PK SK) (sea : CExtKeyAccount PK SK) : CExtKeyAccount PK SK :=
  (List.range sea.vExtKeys.length).foldl (fun sea i => openChain ops sea (UInt32.ofNat i)) sea

/-- `ExtKeyLoadAccounts` for one account: `none` where there is no active account, or a chain is missing. -/
def extKeyLoadAccount (ops : KeyOps PK SK) (db : HdDb PK SK) (idAccount : CKeyID) : Option (CExtKeyAccount PK SK) :=
  match db.eacc[idAccount]? with
  | none => none
  | some record =>
      if record.nFlags &&& EAF_ACTIVE = 0 then none
      else
        (record.vExtKeyIDs.mapM fun id => db.ek32[id]?).map fun vExtKeys =>
          extKeyAddAccountToMaps ops { record with vExtKeys }

/-- The entries of the packs of an account, in the order of the cursor. -/
def packEntries {V : Type} (t : PackTable V) (idAccount : CKeyID) : List (CKeyID × V) :=
  PackedMap.entries t fun key => key.idAccount = idAccount

/-- A key of a pack, in `ExtKeyLoadAccountPacks`. -/
def loadKey (sea : CExtKeyAccount PK SK) (it : CEKAKeyPack) : CExtKeyAccount PK SK :=
  { sea with mapKeys := sea.mapKeys.insert it.1 it.2, mapLookAhead := sea.mapLookAhead.erase it.1 }

def loadStealthKey (sea : CExtKeyAccount PK SK) (it : CEKAStealthKeyPack PK SK) : CExtKeyAccount PK SK :=
  { sea with mapStealthKeys := sea.mapStealthKeys.insert it.1 it.2 }

def loadStealthChildKey (sea : CExtKeyAccount PK SK) (it : CEKASCKeyPack) : CExtKeyAccount PK SK :=
  { sea with mapStealthChildKeys := sea.mapStealthChildKeys.insert it.1 it.2 }

/-- `ExtKeyLoadAccountPacks`: the three kinds of packs, one after the other. -/
def extKeyLoadAccountPacks (db : HdDb PK SK) (idAccount : CKeyID) (sea : CExtKeyAccount PK SK) :
    CExtKeyAccount PK SK :=
  let sea := (packEntries db.epak idAccount).foldl loadKey sea
  let sea := (packEntries db.espk idAccount).foldl loadStealthKey sea
  (packEntries db.ecpk idAccount).foldl loadStealthChildKey sea

/-- The account after a restart. -/
def reload (ops : KeyOps PK SK) (w : HdWallet PK SK) : Option (CExtKeyAccount PK SK) :=
  (extKeyLoadAccount ops w.db w.idDefaultAccount).map (extKeyLoadAccountPacks w.db w.idDefaultAccount)

/-! ## Labels of stealth addresses -/

/-- The first entry of a pack with the id gets the label. -/
def relabel (sxId : CKeyID) (sLabel : String) :
    List (CEKAStealthKeyPack PK SK) → Option (List (CEKAStealthKeyPack PK SK))
  | [] => none
  | itp :: aksPak =>
      if itp.1 = sxId then some ((itp.1, { itp.2 with sLabel }) :: aksPak)
      else (relabel sxId sLabel aksPak).map (itp :: ·)

/-- The loop of `ExtKeyUpdateStealthAddress` over the packs from number `i` on, of which `n` are left. -/
def updateStealthFrom (out : DbOutcome) (db : HdDb PK SK) (accId sxId : CKeyID) (sLabel : String) :
    Nat → Nat → Except String (HdDb PK SK)
  | 0, _ => .error "ExtKeyUpdateStealthAddress: Stealth key not in db."
  | n + 1, i =>
      let key : PackKey := ⟨accId, UInt32.ofNat i⟩
      match db.espk[key]? with
      | none => .error ("ExtKeyUpdateStealthAddress: ReadExtStealthKeyPack " ++ toString i ++ " failed.")
      | some aksPak =>
          match relabel sxId sLabel aksPak with
          | some aksPak =>
              if ¬out.writePack then
                .error ("ExtKeyUpdateStealthAddress: WriteExtStealthKeyPack " ++ toString i ++ " failed.")
              else .ok { db with espk := db.espk.insert key aksPak }
          | none => updateStealthFrom out db accId sxId sLabel n (i + 1)

def extKeyUpdateStealthAddress (out : DbOutcome) (db : HdDb PK SK) (sea : CExtKeyAccount PK SK) (sxId : CKeyID)
    (sLabel : String) : Except String (HdDb PK SK × CExtKeyAccount PK SK) :=
  match sea.mapStealthKeys[sxId]? with
  | none => .error "ExtKeyUpdateStealthAddress: Stealth key not in account."
  | some aks =>
      if aks.sLabel = sLabel then .ok (db, sea)
      else
        match updateStealthFrom out db sea.getID sxId sLabel (sea.nPackStealth.toNat + 1) 0 with
        | .error e => .error e
        | .ok db => .ok (db, { sea with mapStealthKeys := sea.mapStealthKeys.insert sxId { aks with sLabel } })

end HdWallet

end ProCurrency

/-!
## Accounts and their records

When the database holds an account, loading it gives the account back, and the label of every stealth address can be
changed.
-/

namespace ProCurrency

open PackedMap

variable {PK SK : Type} {ops : KeyOps PK SK}

namespace HdWallet

def mine (idAccount : CKeyID) (key : PackKey) : Bool := key.idAccount = idAccount

/-- The database holds the account: its record, its chains, and the entries of its maps. -/
structure Stored (w : HdWallet PK SK) : Prop where
  account : w.db.eacc[w.idDefaultAccount]? = some w.sea.toExtAccountRecord
  active : w.sea.nFlags &&& EAF_ACTIVE ≠ 0
  getID : w.sea.getID = w.idDefaultAccount
  chains : ∀ id ∈ w.sea.vExtKeyIDs, id ∈ w.db.ek32
  keys : Holds w.db.epak (mine w.idDefaultAccount) w.sea.mapKeys
  stealthKeys : Holds w.db.espk (mine w.idDefaultAccount) w.sea.mapStealthKeys
  childKeys : Holds w.db.ecpk (mine w.idDefaultAccount) w.sea.mapStealthChildKeys
  /-- The stealth packs are numbered without gaps, up to the one that is being filled. -/
  packsBelow : ∀ n : UInt32, n < w.sea.nPackStealth → (⟨w.idDefaultAccount, n⟩ : PackKey) ∈ w.db.espk
  noneAbove : ∀ n : UInt32, (⟨w.idDefaultAccount, n⟩ : PackKey) ∈ w.db.espk → n ≤ w.sea.nPackStealth

/-- A restart gives the same keys and pack numbers, and then the label of every stealth address can be changed. -/
def SurvivesRestart (ops : KeyOps PK SK) (w : HdWallet PK SK) : Prop :=
  ∃ sea, reload ops w = some sea ∧ sea.mapKeys = w.sea.mapKeys ∧ sea.mapStealthKeys = w.sea.mapStealthKeys ∧
    sea.mapStealthChildKeys = w.sea.mapStealthChildKeys ∧ sea.nPack = w.sea.nPack ∧
      sea.nPackStealth = w.sea.nPackStealth ∧ sea.nPackStealthKeys = w.sea.nPackStealthKeys ∧
        ∀ sxId ∈ sea.mapStealthKeys, ∀ sLabel, ∃ r, extKeyUpdateStealthAddress {} w.db sea sxId sLabel = .ok r

/-! ## Loading -/

/-- Two accounts that are written the same way. -/
structure SameSaved (sea sea' : CExtKeyAccount PK SK) : Prop where
  record : sea'.toExtAccountRecord = sea.toExtAccountRecord
  mapKeys : sea'.mapKeys = sea.mapKeys
  mapStealthKeys : sea'.mapStealthKeys = sea.mapStealthKeys
  mapStealthChildKeys : sea'.mapStealthChildKeys = sea.mapStealthChildKeys

theorem SameSaved.refl (sea : CExtKeyAccount PK SK) : SameSaved sea sea := ⟨rfl, rfl, rfl, rfl⟩

theorem SameSaved.trans {a b c : CExtKeyAccount PK SK} (h : SameSaved a b) (h' : SameSaved b c) : SameSaved a c :=
  ⟨h'.record.trans h.record, h'.mapKeys.trans h.mapKeys, h'.mapStealthKeys.trans h.mapStealthKeys,
    h'.mapStealthChildKeys.trans h.mapStealthChildKeys⟩

theorem addLookAhead_sameSaved (ops : KeyOps PK SK) (sea : CExtKeyAccount PK SK) (c : UInt32) (keys : Nat) :
    SameSaved sea (sea.addLookAhead ops c keys) := by
  rw [CExtKeyAccount.addLookAhead]
  split <;> exact ⟨rfl, rfl, rfl, rfl⟩

theorem setChain_sameSaved (sea : CExtKeyAccount PK SK) (c : UInt32) (pc : CStoredExtKey PK SK) :
    SameSaved sea (sea.setChain c pc) := ⟨rfl, rfl, rfl, rfl⟩

theorem fillLookAhead_sameSaved (ops : KeyOps PK SK) (sea : CExtKeyAccount PK SK) (c : UInt32)
    (sek : CStoredExtKey PK SK) : SameSaved sea (fillLookAhead ops sea c sek) := by
  rw [fillLookAhead]
  split
  · exact (((setChain_sameSaved sea c _).trans (addLookAhead_sameSaved ops _ c _)).trans
      (setChain_sameSaved _ c _)).trans (addLookAhead_sameSaved ops _ c _)
  · exact setChain_sameSaved sea c sek

theorem openChain_sameSaved (ops : KeyOps PK SK) (sea : CExtKeyAccount PK SK) (c : UInt32) :
    SameSaved sea (openChain ops sea c) := by
  rw [openChain]
  split
  · exact .refl sea
  · exact fillLookAhead_sameSaved ops sea c _

theorem extKeyAddAccountToMaps_sameSaved (ops : KeyOps PK SK) (sea : CExtKeyAccount PK SK) :
    SameSaved sea (extKeyAddAccountToMaps ops sea) := by
  rw [extKeyAddAccountToMaps]
  generalize List.range sea.vExtKeys.length = is
  induction is generalizing sea with
  | nil => exact .refl sea
  | cons i is ih => exact (openChain_sameSaved ops sea (UInt32.ofNat i)).trans (ih _)

theorem foldl_loadKey (sea : CExtKeyAccount PK SK) (es : List CEKAKeyPack) :
    es.foldl loadKey sea =
      { sea with mapKeys := insertAll sea.mapKeys es, mapLookAhead := eraseAll sea.mapLookAhead es } := by
  induction es generalizing sea with
  | nil => rfl
  | cons e es ih => exact ih (loadKey sea e)

theorem foldl_loadStealthKey (sea : CExtKeyAccount PK SK) (es : List (CEKAStealthKeyPack PK SK)) :
    es.foldl loadStealthKey sea = { sea with mapStealthKeys := insertAll sea.mapStealthKeys es } := by
  induction es generalizing sea with
  | nil => rfl
  | cons e es ih => exact ih (loadStealthKey sea e)

theorem foldl_loadStealthChildKey (sea : CExtKeyAccount PK SK) (es : List CEKASCKeyPack) :
    es.foldl loadStealthChildKey sea = { sea with mapStealthChildKeys := insertAll sea.mapStealthChildKeys es } := by
  induction es generalizing sea with
  | nil => rfl
  | cons e es ih => exact ih (loadStealthChildKey sea e)

theorem mapM_isSome {α β : Type} {f : α → Option β} {l : List α} (h : ∀ a ∈ l, (f a).isSome) :
    ∃ bs, l.mapM f = some bs := by
  induction l with
  | nil => exact ⟨[], rfl⟩
  | cons a l ih =>
      obtain ⟨b, hb⟩ := Option.isSome_iff_exists.1 (h a List.mem_cons_self)
      obtain ⟨bs, hbs⟩ := ih fun a ha => h a (List.mem_cons_of_mem _ ha)
      exact ⟨b :: bs, by rw [List.mapM_cons, hb, hbs]; rfl⟩

/-- What is loaded: the account's record, and the entries of its packs. -/
theorem Stored.reload (ops : KeyOps PK SK) {w : HdWallet PK SK} (h : w.Stored) :
    ∃ sea, HdWallet.reload ops w = some sea ∧ SameSaved w.sea sea := by
  obtain ⟨vExtKeys, hchains⟩ := mapM_isSome (f := fun id => w.db.ek32[id]?) (l := w.sea.vExtKeyIDs)
    fun id hid => Std.ExtTreeMap.mem_iff_isSome_getElem?.1 (h.chains id hid)
  have hload : extKeyLoadAccount ops w.db w.idDefaultAccount =
      some (extKeyAddAccountToMaps ops { w.sea.toExtAccountRecord with vExtKeys }) := by
    simp only [extKeyLoadAccount, h.account, if_neg h.active, hchains, Option.map_some]
  have hopened := extKeyAddAccountToMaps_sameSaved ops
    ({ w.sea.toExtAccountRecord with vExtKeys } : CExtKeyAccount PK SK)
  refine ⟨_, by rw [HdWallet.reload, hload]; rfl, ?_⟩
  rw [extKeyLoadAccountPacks, foldl_loadKey, foldl_loadStealthKey, foldl_loadStealthChildKey]
  refine ⟨hopened.record, ?_, ?_, ?_⟩
  · show insertAll (extKeyAddAccountToMaps ops _).mapKeys _ = _
    rw [hopened.mapKeys]
    exact h.keys.load
  · show insertAll (extKeyAddAccountToMaps ops _).mapStealthKeys _ = _
    rw [hopened.mapStealthKeys]
    exact h.stealthKeys.load
  · show insertAll (extKeyAddAccountToMaps ops _).mapStealthChildKeys _ = _
    rw [hopened.mapStealthChildKeys]
    exact h.childKeys.load

/-! ## Labels -/

theorem relabel_isSome {sxId : CKeyID} {sLabel : String} {aksPak : List (CEKAStealthKeyPack PK SK)}
    {aks : CEKAStealthKey PK SK} (h : (sxId, aks) ∈ aksPak) : (relabel sxId sLabel aksPak).isSome := by
  induction aksPak with
  | nil => cases h
  | cons itp aksPak ih =>
      rw [relabel]
      split
      · rfl
      · rename_i hne
        cases h with
        | head => exact absurd rfl hne
        | tail _ h =>
            rw [Option.isSome_map]
            exact ih h

/-- The search gets to a pack with the key, as the packs before it are all there. -/
theorem updateStealthFrom_ok {db : HdDb PK SK} {accId sxId : CKeyID} (sLabel : String) {n i k : Nat}
    (hik : i ≤ k) (hkn : k < i + n) {aksPak : List (CEKAStealthKeyPack PK SK)} {aks : CEKAStealthKey PK SK}
    (hpak : db.espk[(⟨accId, UInt32.ofNat k⟩ : PackKey)]? = some aksPak) (hmem : (sxId, aks) ∈ aksPak)
    (hbelow : ∀ m < k, (⟨accId, UInt32.ofNat m⟩ : PackKey) ∈ db.espk) :
    ∃ db', updateStealthFrom {} db accId sxId sLabel n i = .ok db' := by
  induction n generalizing i with
  | zero => omega
  | succ n ih =>
      have hthere : ∃ pak, db.espk[(⟨accId, UInt32.ofNat i⟩ : PackKey)]? = some pak := by
        rcases Nat.lt_or_eq_of_le hik with hlt | rfl
        · exact Option.isSome_iff_exists.1 (Std.ExtTreeMap.mem_iff_isSome_getElem?.1 (hbelow i hlt))
        · exact ⟨aksPak, hpak⟩
      obtain ⟨pak, hi⟩ := hthere
      cases hrel : relabel sxId sLabel pak with
      | some pak' =>
          refine ⟨{ db with espk := db.espk.insert ⟨accId, UInt32.ofNat i⟩ pak' }, ?_⟩
          simp only [updateStealthFrom, hi, hrel, not_true_eq_false, if_false]
      | none =>
          have hne : i ≠ k := by
            rintro rfl
            obtain rfl : aksPak = pak := Option.some.inj (hpak.symm.trans hi)
            have := @relabel_isSome PK SK sxId sLabel aksPak aks hmem
            rw [hrel] at this
            cases this
          obtain ⟨db', hdb'⟩ := ih (show i + 1 ≤ k by omega) (by omega)
          exact ⟨db', by simp only [updateStealthFrom, hi, hrel, hdb']⟩

/-- An account that is stored survives a restart. -/
theorem Stored.survives (ops : KeyOps PK SK) {w : HdWallet PK SK} (h : w.Stored) : w.SurvivesRestart ops := by
  obtain ⟨sea, hreload, hsame⟩ := h.reload ops
  refine ⟨sea, hreload, hsame.mapKeys, hsame.mapStealthKeys, hsame.mapStealthChildKeys,
    congrArg (·.nPack) hsame.record, congrArg (·.nPackStealth) hsame.record,
    congrArg (·.nPackStealthKeys) hsame.record, fun sxId hsx sLabel => ?_⟩
  obtain ⟨aks, haks⟩ := Option.isSome_iff_exists.1 (Std.ExtTreeMap.mem_iff_isSome_getElem?.1 hsx)
  rw [extKeyUpdateStealthAddress, haks]
  simp only
  split
  · exact ⟨_, rfl⟩
  · rw [hsame.mapStealthKeys] at haks
    obtain ⟨p, pak, hmine, hpak, hmem⟩ := mem_entries.1 ((h.stealthKeys sxId aks).1 haks)
    obtain ⟨idAccount, n⟩ := p
    obtain rfl : idAccount = w.idDefaultAccount := of_decide_eq_true hmine
    have hn : n ≤ w.sea.nPackStealth := h.noneAbove n
      (Std.ExtTreeMap.mem_iff_isSome_getElem?.2 (by rw [hpak]; rfl))
    have hid : sea.getID = w.idDefaultAccount := by
      rw [← h.getID, CExtKeyAccount.getID, CExtKeyAccount.getID, hsame.record]
    have hpacks : sea.nPackStealth = w.sea.nPackStealth := congrArg (·.nPackStealth) hsame.record
    rw [← @UInt32.ofNat_toNat n] at hpak
    obtain ⟨db', hdb'⟩ := updateStealthFrom_ok sLabel (n := w.sea.nPackStealth.toNat + 1) (Nat.zero_le n.toNat)
      (by rw [Nat.zero_add]; exact Nat.lt_succ_of_le (UInt32.le_iff_toNat_le.1 hn)) hpak hmem
      (fun m hm => h.packsBelow (UInt32.ofNat m) (by
        rw [UInt32.lt_iff_toNat_lt, UInt32.toNat_ofNat']
        exact Nat.lt_of_le_of_lt (Nat.mod_le _ _) (Nat.lt_of_lt_of_le hm (UInt32.le_iff_toNat_le.1 hn))))
    rw [hid, hpacks, hdb']
    exact ⟨_, rfl⟩

end HdWallet

end ProCurrency
