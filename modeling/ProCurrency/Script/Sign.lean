import ProCurrency.Script.Interpreter
import ProCurrency.Script.Solver

/-!
# Signing

`SignSignature` with what it calls, and `IsMine` (script.cpp), over `CKeyStore` and `CBasicKeyStore` (keystore.h,
keystore.cpp). A result is `none` where the code reads outside of a vector or an assertion fails.
-/

namespace ProCurrency

open ByteCodec CBitcoinAddress

/-! ## Key stores -/

/-- What `CKey` does: its public key, and `Sign`, which is `none` when it returns false. -/
structure KeyCrypto (Key : Type) where
  getPubKey : Key → CPubKey
  sign : Key → UInt256 → Option Bytes

/-- `CKeyStore`. -/
structure CKeyStore (Key : Type) where
  haveKey : CKeyID → Bool
  getKey : CKeyID → Option Key
  getPubKey : CKeyID → Option CPubKey
  getCScript : CKeyID → Option CScript
  haveWatchOnly : CScript → Bool

/-- `CScript::GetID`. -/
def CScript.getID (c : ScriptCrypto) (script : CScript) : CKeyID := readKeyID (c.hash160 script)

structure CBasicKeyStore (Key : Type) where
  mapKeys : Std.ExtTreeMap CKeyID Key := ∅
  mapScripts : Std.ExtTreeMap CKeyID CScript := ∅
  setWatchOnly : Finset CScript := ∅

namespace CBasicKeyStore

variable {Key : Type} (c : ScriptCrypto) (k : KeyCrypto Key) (store : CBasicKeyStore Key)

def addKeyPubKey (key : Key) (pubkey : CPubKey) : CBasicKeyStore Key :=
  { store with mapKeys := store.mapKeys.insert (pubkey.getID c) key }

/-- `CKeyStore::AddKey`. -/
def addKey (key : Key) : CBasicKeyStore Key := store.addKeyPubKey c key (k.getPubKey key)

def addCScript (redeemScript : CScript) : Bool × CBasicKeyStore Key :=
  if MAX_SCRIPT_ELEMENT_SIZE < redeemScript.length then (false, store)
  else (true, { store with mapScripts := store.mapScripts.insert (redeemScript.getID c) redeemScript })

def addWatchOnly (dest : CScript) : CBasicKeyStore Key :=
  { store with setWatchOnly := insert dest store.setWatchOnly }

def removeWatchOnly (dest : CScript) : CBasicKeyStore Key :=
  { store with setWatchOnly := store.setWatchOnly.erase dest }

/-- With `CKeyStore::GetPubKey`. -/
def toKeyStore : CKeyStore Key where
  haveKey address := store.mapKeys.contains address
  getKey address := store.mapKeys[address]?
  getPubKey address := (store.mapKeys[address]?).map k.getPubKey
  getCScript hash := store.mapScripts[hash]?
  haveWatchOnly dest := dest ∈ store.setWatchOnly

end CBasicKeyStore

/-! ## Signatures -/

namespace CKeyStore

variable {Key : Type} (c : ScriptCrypto) (k : KeyCrypto Key) (store : CKeyStore Key)

section Solver

variable (hash : UInt256) (nHashType : UInt32)

/-- `Sign1`, with `scriptSigRet`. -/
def sign1 (address : CKeyID) (scriptSigRet : CScript) : Bool × CScript :=
  match store.getKey address with
  | none => (false, scriptSigRet)
  | some key =>
      match k.sign key hash with
      | none => (false, scriptSigRet)
      | some vchSig => (true, scriptSigRet ++ CScript.push (vchSig ++ [nHashType.toUInt8]))

/-- The loop of `SignN`, over the public keys that are left: `nSigned` and `scriptSigRet`. -/
def signNFrom (nRequired : Nat) : List Bytes → Nat → CScript → Nat × CScript
  | [], nSigned, scriptSigRet => (nSigned, scriptSigRet)
  | pubkey :: multisigdata, nSigned, scriptSigRet =>
      if nRequired ≤ nSigned then (nSigned, scriptSigRet)
      else
        match store.sign1 k hash nHashType ((CPubKey.set pubkey).getID c) scriptSigRet with
        | (true, scriptSigRet) => signNFrom nRequired multisigdata (nSigned + 1) scriptSigRet
        | (false, scriptSigRet) => signNFrom nRequired multisigdata nSigned scriptSigRet

def signN (multisigdata : List Bytes) (scriptSigRet : CScript) : Option (Bool × CScript) := do
  let nRequired ← (← multisigdata.head?).head?
  let (nSigned, scriptSigRet) :=
    store.signNFrom c k hash nHashType nRequired.toNat (multisigdata.drop 1).dropLast 0 scriptSigRet
  return (nSigned = nRequired.toNat, scriptSigRet)

/-- `Solver`, for a script and the hash that is signed, with `scriptSigRet` and `whichTypeRet`. -/
def solve (scriptPubKey : CScript) : Option (Bool × CScript × TxnOutType) :=
  match solver scriptPubKey with
  | none => none
  | some (false, whichTypeRet, _) => some (false, [], whichTypeRet)
  | some (true, whichTypeRet, vSolutions) =>
      match whichTypeRet with
      | .nonstandard | .nullData => some (false, [], whichTypeRet)
      | .pubKey =>
          vSolutions[0]?.map fun vch =>
            let (fRet, scriptSigRet) := store.sign1 k hash nHashType ((CPubKey.set vch).getID c) []
            (fRet, scriptSigRet, whichTypeRet)
      | .pubKeyHash =>
          vSolutions[0]?.map fun vch =>
            let keyID := uint160OfVch vch
            match store.sign1 k hash nHashType keyID [] with
            | (false, scriptSigRet) => (false, scriptSigRet, whichTypeRet)
            | (true, scriptSigRet) =>
                (true, scriptSigRet ++ CScript.push ((store.getPubKey keyID).getD []), whichTypeRet)
      | .scriptHash =>
          vSolutions[0]?.map fun vch =>
            match store.getCScript (uint160OfVch vch) with
            | none => (false, [], whichTypeRet)
            | some subscript => (true, subscript, whichTypeRet)
      | .multisig =>
          -- The workaround for `CHECKMULTISIG` is in front.
          (store.signN c k hash nHashType vSolutions [OP_0]).map fun (fRet, scriptSigRet) =>
            (fRet, scriptSigRet, whichTypeRet)

end Solver

end CKeyStore

def CTransaction.setScriptSig (txTo : CTransaction) (nIn : Nat) (scriptSig : CScript) : CTransaction :=
  { txTo with vin := txTo.vin.modify nIn fun txin => { txin with scriptSig := scriptSig } }

namespace CKeyStore

variable {Key : Type} (c : ScriptCrypto) (k : KeyCrypto Key) (store : CKeyStore Key)

/-- "Test solution". -/
def testSolution (fromPubKey : CScript) (txTo : CTransaction) (nIn : Nat) (scriptSig : CScript) : Bool :=
  (signatureChecker c txTo nIn).verifyScript c STANDARD_SCRIPT_VERIFY_FLAGS scriptSig fromPubKey = .ok ()

/-- `SignSignature`, with `txTo`. -/
def signSignature (fromPubKey : CScript) (txTo : CTransaction) (nIn : Nat) (nHashType : UInt32) :
    Option (Bool × CTransaction) :=
  if txTo.vin.length ≤ nIn then none
  else
    let hash := txTo.signatureHash c fromPubKey nIn nHashType
    match store.solve c k hash nHashType fromPubKey with
    | none => none
    | some (false, scriptSig, _) => some (false, txTo.setScriptSig nIn scriptSig)
    | some (true, scriptSig, whichType) =>
        let txTo := txTo.setScriptSig nIn scriptSig
        if whichType = .scriptHash then
          let subscript := scriptSig
          let hash2 := txTo.signatureHash c subscript nIn nHashType
          match store.solve c k hash2 nHashType subscript with
          | none => none
          | some (fRet, scriptSig, subType) =>
              let scriptSig := scriptSig ++ CScript.push subscript
              let txTo := txTo.setScriptSig nIn scriptSig
              if fRet && subType ≠ .scriptHash then
                some (testSolution c fromPubKey txTo nIn scriptSig, txTo)
              else some (false, txTo)
        else some (testSolution c fromPubKey txTo nIn scriptSig, txTo)

/-! ## IsMine -/

end CKeyStore

/-- `isminetype`. -/
inductive IsMineType
  | no
  | watchOnly
  | spendable
deriving DecidableEq

namespace CKeyStore

variable {Key : Type} (c : ScriptCrypto) (store : CKeyStore Key)

def haveKeys (pubkeys : List Bytes) : Nat :=
  (pubkeys.filter fun pubkey => store.haveKey ((CPubKey.set pubkey).getID c)).length

/-- How `IsMine` ends for a script that cannot be spent. -/
def watched (scriptPubKey : CScript) : IsMineType := if store.haveWatchOnly scriptPubKey then .watchOnly else .no

/-- `IsMine`. It calls itself for the redeem script, and nothing bounds how often. -/
def isMine : Nat → CScript → Option IsMineType
  | 0, _ => none
  | calls + 1, scriptPubKey =>
      let ofKey (keyID : CKeyID) := if store.haveKey keyID then .spendable else store.watched scriptPubKey
      match solver scriptPubKey with
      | none => none
      | some (false, _, _) => some (store.watched scriptPubKey)
      | some (true, whichType, vSolutions) =>
          match whichType with
          | .nonstandard | .nullData => some (store.watched scriptPubKey)
          | .pubKey => vSolutions[0]?.map fun vch => ofKey ((CPubKey.set vch).getID c)
          | .pubKeyHash => vSolutions[0]?.map fun vch => ofKey (uint160OfVch vch)
          | .scriptHash =>
              match vSolutions[0]? with
              | none => none
              | some vch =>
                  match store.getCScript (uint160OfVch vch) with
                  | none => some (store.watched scriptPubKey)
                  | some subscript =>
                      (isMine calls subscript).map fun ret =>
                        if ret = .spendable then ret else store.watched scriptPubKey
          | .multisig =>
              if vSolutions.length < 2 then none
              else
                let keys := (vSolutions.drop 1).take (vSolutions.length - 2)
                some (if store.haveKeys c keys = keys.length then .spendable else store.watched scriptPubKey)

end CKeyStore

end ProCurrency
