import ProCurrency.Base.PubKey
import ProCurrency.Base.Script

/-!
# Signatures of inputs

The encodings of signatures and of public keys, `FindAndDelete`, `SignatureHash`, and the two `CheckSig` (script.cpp,
script.h). A byte that a signature does not have is never read.
-/

namespace ProCurrency

open ByteCodec

def LOCKTIME_THRESHOLD : Nat := 500000000

/-! ## Flags -/

abbrev ScriptFlags := UInt32

def SCRIPT_VERIFY_P2SH : ScriptFlags := 0x1
def SCRIPT_VERIFY_NULLDUMMY : ScriptFlags := 0x2
def SCRIPT_VERIFY_DISCOURAGE_UPGRADABLE_NOPS : ScriptFlags := 0x4
def SCRIPT_VERIFY_STRICTENC : ScriptFlags := 0x8
def SCRIPT_VERIFY_ALLOW_EMPTY_SIG : ScriptFlags := 0x20
def SCRIPT_VERIFY_FIX_HASHTYPE : ScriptFlags := 0x40
def SCRIPT_VERIFY_CHECKLOCKTIMEVERIFY : ScriptFlags := 0x80
def SCRIPT_VERIFY_DERSIG : ScriptFlags := 0x100
def SCRIPT_VERIFY_SIGPUSHONLY : ScriptFlags := 0x200
def SCRIPT_VERIFY_LOW_S : ScriptFlags := 0x400
def SCRIPT_VERIFY_MINIMALDATA : ScriptFlags := 0x800

def MANDATORY_SCRIPT_VERIFY_FLAGS : ScriptFlags :=
  SCRIPT_VERIFY_P2SH ||| SCRIPT_VERIFY_NULLDUMMY ||| SCRIPT_VERIFY_STRICTENC ||| SCRIPT_VERIFY_CHECKLOCKTIMEVERIFY

def STANDARD_SCRIPT_VERIFY_FLAGS : ScriptFlags :=
  MANDATORY_SCRIPT_VERIFY_FLAGS ||| SCRIPT_VERIFY_DISCOURAGE_UPGRADABLE_NOPS

def hasFlag (flags flag : ScriptFlags) : Bool := flags &&& flag != 0

/-! ## Errors -/

inductive ScriptError
  | unknownError
  | evalFalse
  | opReturn
  | scriptSize
  | pushSize
  | opCount
  | stackSize
  | sigCount
  | pubkeyCount
  | verify
  | equalVerify
  | checkMultisigVerify
  | checkSigVerify
  | numEqualVerify
  | badOpcode
  | disabledOpcode
  | invalidStackOperation
  | invalidAltstackOperation
  | unbalancedConditional
  | sigHashtype
  | sigDer
  | minimalData
  | sigPushOnly
  | sigNullDummy
  | pubkeyType
  | discourageUpgradableNops
deriving DecidableEq

/-! ## Encodings -/

def isCompressedOrUncompressedPubKey (vchPubKey : Bytes) : Bool :=
  if vchPubKey.length < 33 then false
  else if vchPubKey.getD 0 0 = 0x04 then vchPubKey.length = 65
  else if vchPubKey.getD 0 0 = 0x02 ∨ vchPubKey.getD 0 0 = 0x03 then vchPubKey.length = 33
  else false

/-- The checks on one of the two numbers of a signature, which has `nLen` bytes from `pos` on. -/
def isDERInteger (vchSig : Bytes) (pos nLen : Nat) : Bool :=
  vchSig.getD (pos - 2) 0 = 0x02 && nLen ≠ 0 && vchSig.getD pos 0 &&& 0x80 = 0 &&
    !(1 < nLen && vchSig.getD pos 0 = 0 && vchSig.getD (pos + 1) 0 &&& 0x80 = 0)

def isDERSignature (vchSig : Bytes) (haveHashType : Bool) : Bool :=
  if vchSig.length < 9 ∨ 73 < vchSig.length then false
  else if vchSig.getD 0 0 ≠ 0x30 then false
  else if (vchSig.getD 1 0).toNat ≠ vchSig.length - (if haveHashType then 3 else 2) then false
  else
    let nLenR := (vchSig.getD 3 0).toNat
    if vchSig.length ≤ 5 + nLenR then false
    else
      let nLenS := (vchSig.getD (5 + nLenR) 0).toNat
      if nLenR + nLenS + (if haveHashType then 7 else 6) ≠ vchSig.length then false
      else isDERInteger vchSig 4 nLenR && isDERInteger vchSig (6 + nLenR) nLenS

def SIGHASH_ALL : UInt8 := 1
def SIGHASH_NONE : UInt8 := 2
def SIGHASH_SINGLE : UInt8 := 3
def SIGHASH_ANYONECANPAY : UInt8 := 0x80

def isDefinedHashtypeSignature (vchSig : Bytes) : Bool :=
  match vchSig.getLast? with
  | none => false
  | some back =>
      let nHashType := back &&& ~~~SIGHASH_ANYONECANPAY
      SIGHASH_ALL ≤ nHashType && nHashType ≤ SIGHASH_SINGLE

/-! ## The libraries -/

/-- The hashes, and what `CPubKey` does with libsecp256k1. -/
structure ScriptCrypto where
  ripemd160 : Bytes → Bytes
  sha1 : Bytes → Bytes
  sha256 : Bytes → Bytes
  hash160 : Bytes → Bytes
  hash : Bytes → UInt256
  /-- `CPubKey::Verify`. -/
  verify : CPubKey → UInt256 → Bytes → Bool
  /-- `CPubKey::CheckLowS`. -/
  checkLowS : Bytes → Bool

/-! ## The hash that is signed -/

namespace CScript

/-- `CScript() << vch`. -/
def push (vch : Bytes) : CScript :=
  if vch.length < OP_PUSHDATA1.toNat then UInt8.ofNat vch.length :: vch
  else if vch.length ≤ 0xff then OP_PUSHDATA1 :: (leBytes 1 vch.length ++ vch)
  else if vch.length ≤ 0xffff then OP_PUSHDATA2 :: (leBytes 2 vch.length ++ vch)
  else OP_PUSHDATA4 :: (leBytes 4 vch.length ++ vch)

/-- The inner loop of `FindAndDelete`. -/
def deleteHere (b : CScript) : Nat → CScript → CScript
  | 0, pc => pc
  | rounds + 1, pc => if b <+: pc then deleteHere b rounds (pc.drop b.length) else pc

def findAndDeleteFrom (b : CScript) : Nat → CScript → CScript
  | 0, pc => pc
  | rounds + 1, pc =>
      let pc := deleteHere b pc.length pc
      match getOp pc with
      | none => pc
      | some (_, _, next) => pc.take (pc.length - next.length) ++ findAndDeleteFrom b rounds next

/-- `FindAndDelete`. Each round takes a byte at least. -/
def findAndDelete (script b : CScript) : CScript :=
  if b = [] then script else findAndDeleteFrom b (script.length + 1) script

end CScript

namespace CTransaction

def write (tx : CTransaction) : Bytes :=
  leBytes 4 (tx.nVersion % 2 ^ 32).toNat ++ leBytes 4 tx.nTime.toNat ++
    writeVector (fun txin : CTxIn => writeUInt256 txin.prevout.hash ++ leBytes 4 txin.prevout.n.toNat ++
      writeVector writeUChar txin.scriptSig ++ leBytes 4 txin.nSequence.toNat) tx.vin ++
    writeVector CTxOut.write tx.vout ++ leBytes 4 tx.nLockTime.toNat

/-- "Let the others update at will". -/
def freeSequences (vin : List CTxIn) (nIn : Nat) : List CTxIn :=
  vin.mapIdx fun i txin => if i ≠ nIn then { txin with nSequence := 0 } else txin

/-- `SignatureHash`. The 32 bits of the `int` are those of `nHashType`. -/
def signatureHash (c : ScriptCrypto) (scriptCode : CScript) (txTo : CTransaction) (nIn : Nat) (nHashType : UInt32) :
    UInt256 :=
  let scriptCode := scriptCode.findAndDelete [OP_CODESEPARATOR]
  let vin := txTo.vin.mapIdx fun i txin => { txin with scriptSig := if i = nIn then scriptCode else [] }
  let fNone := nHashType &&& 0x1f = SIGHASH_NONE.toUInt32
  let fSingle := nHashType &&& 0x1f = SIGHASH_SINGLE.toUInt32
  if txTo.vin.length ≤ nIn then 1
  else if fSingle ∧ txTo.vout.length ≤ nIn then 1
  else
    let vout :=
      if fNone then []
      else if fSingle then List.replicate nIn CTxOut.null ++ (txTo.vout.drop nIn).take 1
      else txTo.vout
    let vin := if fNone ∨ fSingle then freeSequences vin nIn else vin
    let vin := if nHashType &&& SIGHASH_ANYONECANPAY.toUInt32 ≠ 0 then (vin.drop nIn).take 1 else vin
    c.hash (({ txTo with vin := vin, vout := vout } : CTransaction).write ++ leBytes 4 nHashType.toNat)

end CTransaction

/-! ## CheckSig -/

/-- What the cache has is valid: `Set` follows `Verify`. -/
structure CSignatureCache (c : ScriptCrypto) where
  get : UInt256 → Bytes → CPubKey → Bool
  valid : ∀ hash vchSig pubkey, get hash vchSig pubkey → c.verify pubkey hash vchSig

/-- `CheckSig`, with what the cache holds at that time. -/
def checkSig {c : ScriptCrypto} (cache : CSignatureCache c) (vchSig vchPubKey : Bytes) (scriptCode : CScript)
    (txTo : CTransaction) (nIn : Nat) (nHashType : UInt32) : Bool :=
  let pubkey := CPubKey.set vchPubKey
  if !CPubKey.isValid pubkey then false
  else
    match vchSig.getLast? with
    | none => false
    | some back =>
        if nHashType ≠ 0 ∧ nHashType ≠ back.toUInt32 then false
        else
          let sighash := CTransaction.signatureHash c scriptCode txTo nIn back.toUInt32
          cache.get sighash vchSig.dropLast pubkey || c.verify pubkey sighash vchSig.dropLast

/-- `BaseSignatureChecker`. -/
structure BaseSignatureChecker where
  checkSig : Bytes → Bytes → CScript → Bool

/-- `SignatureChecker`. -/
def signatureChecker (c : ScriptCrypto) (txTo : CTransaction) (nIn : Nat) : BaseSignatureChecker where
  checkSig vchSig vchPubKey scriptCode :=
    let pubkey := CPubKey.set vchPubKey
    if !CPubKey.isValid pubkey then false
    else
      match vchSig.getLast? with
      | none => false
      | some back =>
          c.verify pubkey (CTransaction.signatureHash c scriptCode txTo nIn back.toUInt32) vchSig.dropLast

theorem checkSig_zero {c : ScriptCrypto} (cache : CSignatureCache c) (vchSig vchPubKey : Bytes) (scriptCode : CScript)
    (txTo : CTransaction) (nIn : Nat) :
    checkSig cache vchSig vchPubKey scriptCode txTo nIn 0 =
      (signatureChecker c txTo nIn).checkSig vchSig vchPubKey scriptCode := by
  rw [checkSig, signatureChecker]
  dsimp only
  split
  · rfl
  · split
    · rfl
    · rename_i back _
      rw [if_neg (fun h => h.1 rfl)]
      rcases Bool.eq_false_or_eq_true (cache.get (CTransaction.signatureHash c scriptCode txTo nIn back.toUInt32)
        vchSig.dropLast (CPubKey.set vchPubKey)) with hget | hget
      · rw [hget, cache.valid _ _ _ hget]
        rfl
      · rw [hget, Bool.false_or]

end ProCurrency
